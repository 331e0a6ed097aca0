import FuzzyMotion.Proofs.Statement.Viable

/-!
What evaluation reports of a text that is no sentence, or that names a predicate without a value. Said
by grammar alone: the longest beginning that some sentence has and whose atoms have values is the point
that evaluation reaches, and the point and the token after it decide the fault.
-/
namespace FuzzyMotion

/-- The longest part of the tokens, from their start, with which some sentence begins and whose atoms
have values. -/
structure Longest (known : String → Bool) (tokens p : List Token) : Prop where
  isPrefix : p <+: tokens
  viable : Viable p
  valued : Valued known p
  longest : ∀ q, q <+: tokens → Viable q → Valued known q → q <+: p

theorem Longest.unique {known : String → Bool} {tokens p q : List Token}
    (hp : Longest known tokens p) (hq : Longest known tokens q) : p = q :=
  (hq.longest p hp.isPrefix hp.viable hp.valued).eq_of_length_le
    (hp.longest q hq.isPrefix hq.viable hq.valued).length_le

/-- A predicate that occurs in the text and is not known. -/
structure Lacks (known : String → Bool) (text name : String) : Prop where
  occurs : .atom name ∈ Token.ofText text
  unknown : known name = false

/-- What is wrong at a point of a text: `p` has been read, and `next` is the token after it. -/
inductive Explains (known : String → Bool) (text : String) (p : List Token) :
    Option Token → Fault → Prop where
  | unknownPredicate {name : String} (h : TermExpected p) (hn : known name = false) :
    Explains known text p (some (.atom name)) (.unknownPredicate (Text.snippet name))
  | unexpectedEnd (h : TermExpected p) :
    Explains known text p none (.malformed .unexpectedEnd (Text.snippet text))
  | misplacedOperator {token : Token} (h : TermExpected p)
    (ht : token = .and ∨ token = .or ∨ token = .closing) :
    Explains known text p (some token) (.malformed .misplacedOperator (Text.snippet text))
  | bareNegation {q : List Token} {next : Option Token} (h : p = q ++ [.not]) :
    Explains known text p next (.malformed .bareNegation (Text.snippet text))
  | unclosedGroup {q s : List Token} {next : Option Token} (h : p = q ++ .opening :: s)
    (hs : IsSentence s) :
    Explains known text p next (.malformed .unclosedGroup (Text.snippet text))
  | trailingTokens {token : Token} (h : IsSentence p) :
    Explains known text p (some token) (.malformed .trailingTokens (Text.snippet text))

theorem Explains.unknown_or_malformed {known : String → Bool} {p : List Token} {next : Option Token} {e : Fault}
    (h : Explains known text p next e) :
    (∃ name, next = some (.atom name) ∧ TermExpected p ∧ known name = false ∧
        e = .unknownPredicate (Text.snippet name)) ∨
      ∃ defect, e = .malformed defect (Text.snippet text) := by
  cases h with
  | unknownPredicate hterm hn => exact Or.inl ⟨_, rfl, hterm, hn, rfl⟩
  | _ => exact Or.inr ⟨_, rfl⟩

namespace Reader

variable {i : Interpretation} {text : String} {p : List Token} {r : Reader Phrase}

/-- The reader cannot go on with the next token, if there is one. -/
def Stuck (i : Interpretation) (r : Reader Phrase) (next : Option Token) : Prop :=
  ∀ token, next = some token → ∃ o, r.step Phrase.semantics i token = .error o

/-- Reading goes on until it is stuck, and the next token decides what it ends with. -/
theorem exists_stop (r : Reader Phrase) (i : Interpretation) (tokens : List Token) :
    ∃ p rest last, tokens = p ++ rest ∧ r.advance Phrase.semantics i p = .ok last ∧
      Stuck i last rest.head? ∧
      r.read Phrase.semantics i tokens = last.read Phrase.semantics i rest.head?.toList := by
  induction tokens generalizing r with
  | nil => exact ⟨[], [], r, rfl, rfl, fun _ h => (by cases h), rfl⟩
  | cons token tokens ih =>
    cases hs : r.step Phrase.semantics i token with
    | error o =>
      refine ⟨[], token :: tokens, r, rfl, rfl, ?_, ?_⟩
      · rintro _ ⟨⟩
        exact ⟨o, hs⟩
      · simp [read, advance, hs]
    | ok next =>
      obtain ⟨p, rest, last, rfl, hp, hstuck, hread⟩ := ih next
      refine ⟨token :: p, rest, last, rfl, ?_, hstuck, ?_⟩
      · simp [advance, hs, hp]
      · rw [← hread]
        simp [read, advance, hs]

/-- Where the reader is stuck, it has read as far as the grammar and the values allow. -/
theorem longest_of_stuck {rest : List Token} (h : start.advance Phrase.semantics i p = .ok r)
    (hstuck : Stuck i r rest.head?) : Longest i.knows (p ++ rest) p := by
  obtain ⟨hviable, hvalued⟩ := advance_eq_ok_iff.1 ⟨r, h⟩
  refine ⟨List.prefix_append p rest, hviable, hvalued, ?_⟩
  intro q hq hv hk
  obtain hshort | ⟨more, rfl⟩ := List.prefix_or_prefix_of_prefix hq (List.prefix_append p rest)
  · exact hshort
  · cases more with
    | nil => simp
    | cons token more =>
      -- a longer part would take the reader past the token at which it is stuck
      obtain ⟨others, rfl⟩ := (List.prefix_append_right_inj p).1 hq
      obtain ⟨o, ho⟩ := hstuck token rfl
      obtain ⟨last, hlast⟩ := advance_eq_ok_iff.2 ⟨hv, hk⟩
      simp [advance_append, h, advance, ho] at hlast

section Stuck

variable {next : Option Token}

theorem read_of_awaitTerm_none (hf : r.focus = .awaitTerm) :
    r.read Phrase.semantics i (none : Option Token).toList = .error (.defect .unexpectedEnd) := by
  simp [read, finish, hf]

theorem read_of_awaitTerm_atom {name : String} (hf : r.focus = .awaitTerm)
    (hn : i.knows name = false) :
    r.read Phrase.semantics i (some (Token.atom name)).toList = .error (.unknown name) := by
  have hnone : i name = none := by simpa [Interpretation.knows] using hn
  simp [read, advance, step, hf, hnone]

theorem read_of_awaitTerm_operator {token : Token} (hf : r.focus = .awaitTerm)
    (ht : token = .and ∨ token = .or ∨ token = .closing) :
    r.read Phrase.semantics i (some token).toList = .error (.defect .misplacedOperator) := by
  obtain rfl | rfl | rfl := ht <;> simp [read, advance, step, hf]

theorem read_of_awaitGroup (hf : r.focus = .awaitGroup) (hstuck : Stuck i r next) :
    r.read Phrase.semantics i next.toList = .error (.defect .bareNegation) := by
  cases next with
  | none => simp [read, finish, hf]
  | some token =>
    obtain ⟨o, ho⟩ := hstuck token rfl
    cases token <;> simp_all [read, advance, step]

/-- After a complete statement every token at which the reader is stuck is one too many. -/
theorem read_of_complete {term : Term} {token : Token} (hf : r.focus = .complete term)
    (hstuck : Stuck i r (some token)) :
    r.read Phrase.semantics i (some token).toList = .error (.defect r.surplus) := by
  obtain ⟨o, ho⟩ := hstuck token rfl
  cases token with
  | closing =>
    cases hr : r.outer <;> simp_all [read, advance, step, surplus]
  | and => cases hh : r.half <;> simp_all [read, advance, step]
  | or => cases hh : r.half <;> simp_all [read, advance, step]
  | _ => simp [read, advance, step, hf]

theorem read_of_complete_in_group {term : Term} {frame : Frame Phrase} {outer : List (Frame Phrase)}
    (hf : r.focus = .complete term) (ho : r.outer = frame :: outer) (hstuck : Stuck i r next) :
    r.read Phrase.semantics i next.toList = .error (.defect .unclosedGroup) := by
  cases next with
  | none => simp [read, finish, hf, ho]
  | some token => rw [read_of_complete hf hstuck, surplus, ho]

/-- An obstacle is reported as its fault. -/
theorem mapError_fault_iff {x : Except Obstacle Statement} {o : Obstacle} {f : Fault} (hx : x = .error o) :
    x.mapError (Statement.fault text) = .error f ↔ f = Statement.fault text o := by
  rw [mapError_eq_error_iff, hx]
  simp only [Except.error.injEq, exists_eq_left', eq_comm]

/-- What a stuck reader reports is explained by the grammar. -/
theorem explains_of_read {f : Fault} (h : start.advance Phrase.semantics i p = .ok r)
    (hstuck : Stuck i r next)
    (hr : (r.read Phrase.semantics i next.toList).mapError (Statement.fault text) = .error f) :
    Explains i.knows text p next f := by
  cases hf : r.focus with
  | awaitTerm =>
    have hterm := (focus_eq_awaitTerm_iff h).1 hf
    cases next with
    | none =>
      obtain rfl := (mapError_fault_iff (read_of_awaitTerm_none hf)).1 hr
      exact .unexpectedEnd hterm
    | some token =>
      have hoperator : token = .and ∨ token = .or ∨ token = .closing →
          Explains i.knows text p (some token) f := by
        intro ht
        obtain rfl := (mapError_fault_iff (read_of_awaitTerm_operator hf ht)).1 hr
        exact .misplacedOperator hterm ht
      obtain ⟨o, ho⟩ := hstuck token rfl
      cases token with
      | atom name =>
        have hn : i.knows name = false := by
          cases hk : i.knows name with
          | false => rfl
          | true => simp [step_atom hf hk] at ho
        obtain rfl := (mapError_fault_iff (read_of_awaitTerm_atom hf hn)).1 hr
        exact .unknownPredicate hterm hn
      | opening => simp [step, hf] at ho
      | not => simp [step, hf] at ho
      | and => exact hoperator (by simp)
      | or => exact hoperator (by simp)
      | closing => exact hoperator (by simp)
  | awaitGroup =>
    obtain rfl := (mapError_fault_iff (read_of_awaitGroup hf hstuck)).1 hr
    obtain ⟨q, hq⟩ := (focus_eq_awaitGroup_iff h).1 hf
    exact .bareNegation hq
  | complete term =>
    cases ho : r.outer with
    | nil =>
      cases next with
      | none =>
        simp only [Option.toList, read, advance, finish, hf, ho] at hr
        cases hr
      | some token =>
        obtain rfl := (mapError_fault_iff (read_of_complete hf hstuck)).1 hr
        rw [surplus, ho]
        exact .trailingTokens ((complete_at_top_iff h).1 ⟨term, hf, ho⟩)
    | cons frame outer =>
      obtain rfl := (mapError_fault_iff (read_of_complete_in_group hf ho hstuck)).1 hr
      obtain ⟨q, s, hp, hs⟩ := (complete_in_group_iff h).1 ⟨term, frame, outer, hf, ho⟩
      exact .unclosedGroup hp hs

/-- What explains a point is what the reader reports there. -/
theorem read_of_explains {f : Fault} (h : start.advance Phrase.semantics i p = .ok r)
    (hstuck : Stuck i r next) (he : Explains i.knows text p next f) :
    (r.read Phrase.semantics i next.toList).mapError (Statement.fault text) = .error f := by
  cases he with
  | unknownPredicate hterm hn =>
    have hf := (focus_eq_awaitTerm_iff h).2 hterm
    exact (mapError_fault_iff (read_of_awaitTerm_atom hf hn)).2 rfl
  | unexpectedEnd hterm =>
    have hf := (focus_eq_awaitTerm_iff h).2 hterm
    exact (mapError_fault_iff (read_of_awaitTerm_none hf)).2 rfl
  | misplacedOperator hterm ht =>
    have hf := (focus_eq_awaitTerm_iff h).2 hterm
    exact (mapError_fault_iff (read_of_awaitTerm_operator hf ht)).2 rfl
  | bareNegation hq =>
    have hf := (focus_eq_awaitGroup_iff h).2 ⟨_, hq⟩
    exact (mapError_fault_iff (read_of_awaitGroup hf hstuck)).2 rfl
  | unclosedGroup hp hs =>
    obtain ⟨term, frame, outer, hf, ho⟩ := (complete_in_group_iff h).2 ⟨_, _, hp, hs⟩
    exact (mapError_fault_iff (read_of_complete_in_group hf ho hstuck)).2 rfl
  | trailingTokens hs =>
    obtain ⟨term, hf, ho⟩ := (complete_at_top_iff h).2 hs
    refine (mapError_fault_iff (read_of_complete hf hstuck)).2 ?_
    rw [surplus, ho]
    rfl

/-- A stuck reader ends well exactly after a sentence that is the whole text. -/
theorem read_eq_ok_iff (h : start.advance Phrase.semantics i p = .ok r) (hstuck : Stuck i r next) :
    (∃ s, r.read Phrase.semantics i next.toList = .ok s) ↔ next = none ∧ IsSentence p := by
  rw [← finish_eq_ok_iff h]
  cases next with
  | none =>
    simp only [true_and]
    rfl
  | some token =>
    obtain ⟨o, ho⟩ := hstuck token rfl
    simp [read, advance, ho]

end Stuck

end Reader

namespace Statement

/-- Reading gets as far as some sentence begins with what has been read and all atoms are known. It
succeeds exactly where this is the whole text and a sentence; and its fault is what the grammar says of
this point and of the token after it. -/
theorem ofText_reports (i : Interpretation) (text : String) :
    ∃ p rest, Token.ofText text = p ++ rest ∧ Longest i.knows (Token.ofText text) p ∧
      ((∃ s, ofText i text = .ok s) ↔ rest = [] ∧ IsSentence p) ∧
      ∀ f, ofText i text = .error f ↔ Explains i.knows text p rest.head? f := by
  obtain ⟨p, rest, r, hp, hr, hstuck, hread⟩ :=
    Reader.exists_stop Reader.start i (Token.ofText text)
  have htext : ofText i text = (r.read Phrase.semantics i rest.head?.toList).mapError (fault text) := by
    rw [ofText, interpret, hread]
  refine ⟨p, rest, hp, ?_, ?_, fun f => ?_⟩
  · rw [hp]
    exact Reader.longest_of_stuck hr hstuck
  · rw [htext, ← List.head?_eq_none_iff, ← Reader.read_eq_ok_iff hr hstuck]
    simp only [mapError_eq_ok_iff]
  · rw [htext]
    exact ⟨Reader.explains_of_read hr hstuck, Reader.read_of_explains hr hstuck⟩

section Reports

variable {i : Interpretation} {text : String} {f : Fault}

/-- A sentence is never malformed: it is read to its end, or up to a predicate that is not known. -/
theorem not_isSentence_of_malformed {defect : Defect} {shown : String}
    (h : ofText i text = .error (.malformed defect shown)) : ¬IsSentence (Token.ofText text) := by
  intro hs
  obtain ⟨p, rest, ht, hp, hok, hfault⟩ := ofText_reports i text
  cases rest with
  | nil =>
    rw [List.append_nil] at ht
    obtain ⟨s, hread⟩ := hok.2 ⟨rfl, ht ▸ hs⟩
    rw [hread] at h
    cases h
  | cons token rest =>
    have hsplit : Token.ofText text = p ++ [token] ++ rest := by
      rw [ht, List.append_assoc, List.singleton_append]
    have hviable : Viable (p ++ [token]) := ⟨rest, hsplit ▸ hs⟩
    have hstops : ¬Valued i.knows (p ++ [token]) := by
      intro hvalued
      have hlonger := (hp.longest _ ⟨rest, hsplit.symm⟩ hviable hvalued).length_le
      rw [List.length_append, List.length_singleton] at hlonger
      omega
    obtain ⟨name, hm, hn⟩ : ∃ name, .atom name ∈ p ++ [token] ∧ i.knows name = false := by
      simpa [Valued] using hstops
    rw [List.mem_append, List.mem_singleton] at hm
    have hlast : token = .atom name := by
      refine (hm.resolve_left fun hbefore => ?_).symm
      rw [hp.valued name hbefore] at hn
      cases hn
    subst hlast
    rw [(hfault _).2 (.unknownPredicate ⟨name, hviable⟩ hn)] at h
    cases h

/-- What reading reports: that the text is no sentence, or that it lacks a predicate. -/
theorem ofText_eq_error (h : ofText i text = .error f) :
    (∃ defect, f = .malformed defect (Text.snippet text) ∧ ¬IsSentence (Token.ofText text)) ∨
      ∃ name, f = .unknownPredicate (Text.snippet name) ∧ Lacks i.knows text name := by
  obtain ⟨p, rest, ht, -, -, hfault⟩ := ofText_reports i text
  obtain ⟨name, hnext, -, hn, rfl⟩ | ⟨defect, rfl⟩ := ((hfault f).1 h).unknown_or_malformed
  · obtain ⟨others, rfl⟩ := List.head?_eq_some_iff.1 hnext
    exact Or.inr ⟨name, rfl, ht ▸ List.mem_append_right p List.mem_cons_self, hn⟩
  · exact Or.inl ⟨defect, rfl, not_isSentence_of_malformed h⟩

end Reports

/-- Evaluation gets as far as some sentence begins with what it has read and all atoms have values. It
succeeds exactly where this is the whole text and a sentence; and its fault is what the grammar says of
this point and of the token after it. -/
theorem evaluate_reports_leftmost_defect (text : String) (i : Interpretation) :
    ∃ p rest, Token.ofText text = p ++ rest ∧ Longest i.knows (Token.ofText text) p ∧
      ((∃ x, evaluate text i = .ok x) ↔ rest = [] ∧ IsSentence p) ∧
      ∀ f, evaluate text i = .error f ↔ Explains i.knows text p rest.head? f := by
  obtain ⟨p, rest, hp, hlongest, hok, hfault⟩ := ofText_reports i text
  refine ⟨p, rest, hp, hlongest, ?_, fun f => ?_⟩
  · rw [← hok, evaluate_eq_map]
    simp only [map_eq_ok_iff]
    exact ⟨fun ⟨_, s, hs, _⟩ => ⟨s, hs⟩, fun ⟨s, hs⟩ => ⟨_, s, hs, rfl⟩⟩
  · rw [evaluate_eq_error_iff, hfault]

end Statement

end FuzzyMotion
