import FuzzyMotion.Proofs.Statement.Derivation

/-!
Beginnings of sentences. A list of tokens is viable if some sentence of the grammar begins with it.

The main statement is that the reader takes exactly the viable lists whose atoms are known. So it stops
at the first token that no sentence can have there, and what it expects at any moment can be said in
terms of the grammar alone.
-/
namespace FuzzyMotion

/-- The grammar derives the tokens as a whole. -/
def IsSentence (ts : List Token) : Prop :=
  Nonempty (Derivation .statement ts)

/-- Some sentence begins with the tokens. -/
def Viable (ts : List Token) : Prop :=
  ∃ rest, IsSentence (ts ++ rest)

/-- Some sentence begins with the tokens and an atom after them. -/
def TermExpected (ts : List Token) : Prop :=
  ∃ name, Viable (ts ++ [.atom name])

/-- Every atom among the tokens has a value. -/
def Valued (known : String → Bool) (ts : List Token) : Prop :=
  ∀ name, .atom name ∈ ts → known name = true

theorem isSentence_iff {ts : List Token} : IsSentence ts ↔ ∃ s : Statement, s.tokens = ts := by
  constructor
  · rintro ⟨d⟩
    obtain ⟨s, hs, -⟩ := d.reads fun _ => none
    exact ⟨s, hs⟩
  · rintro ⟨s, rfl⟩
    exact ⟨Phrase.derivation s⟩

namespace Reader

variable {i j : Interpretation}

/-- A step asks only for the atom that it reads. -/
theorem step_congr (r : Reader Phrase) {token : Token}
    (h : ∀ name, token = .atom name → i.knows name = j.knows name) :
    r.step Phrase.semantics i token = r.step Phrase.semantics j token := by
  obtain ⟨outer, half, focus⟩ := r
  cases token with
  | atom name =>
    have hname := h name rfl
    simp only [Interpretation.knows] at hname
    cases focus with
    | awaitTerm => cases hi : i name <;> cases hj : j name <;> simp_all [step, Phrase.semantics]
    | _ => rfl
  | _ => cases focus <;> rfl

theorem advance_congr (r : Reader Phrase) {tokens : List Token}
    (h : ∀ name, .atom name ∈ tokens → i.knows name = j.knows name) :
    r.advance Phrase.semantics i tokens = r.advance Phrase.semantics j tokens := by
  induction tokens generalizing r with
  | nil => rfl
  | cons token rest ih =>
    have hstep : r.step Phrase.semantics i token = r.step Phrase.semantics j token := by
      apply step_congr
      intro name hn
      exact h name (by simp [hn])
    simp only [advance, hstep]
    cases r.step Phrase.semantics j token with
    | error o => rfl
    | ok next => exact ih next fun name hm => h name (List.mem_cons_of_mem _ hm)

theorem valued_of_advance {r last : Reader Phrase} {tokens : List Token}
    (h : r.advance Phrase.semantics i tokens = .ok last) : Valued i.knows tokens := by
  intro name hm
  exact knows_of_advance h name (List.mem_filterMap.2 ⟨_, hm, rfl⟩)

/-- What is read where some atoms are known is read the same way where all are. -/
theorem advance_of_advance {r last : Reader Phrase} {tokens : List Token}
    (h : r.advance Phrase.semantics i tokens = .ok last) :
    r.advance Phrase.semantics .total tokens = .ok last := by
  have hvalued := valued_of_advance h
  rw [← h]
  exact advance_congr r fun name hm => (hvalued name hm).symm

theorem read_append (r : Reader Phrase) (a b : List Token) :
    r.read Phrase.semantics i (a ++ b) =
      match r.advance Phrase.semantics i a with
      | .ok next => next.read Phrase.semantics i b
      | .error o => .error o := by
  simp only [read, advance_append]
  cases r.advance Phrase.semantics i a <;> rfl

/-- Closing all groups ends a statement whose innermost term is complete. -/
theorem read_closings (i : Interpretation) (outer : List (Frame Phrase)) (half : Option (Half Phrase))
    (term : Term) :
    ∃ s, (⟨outer, half, .complete term⟩ : Reader Phrase).read Phrase.semantics i
      (List.replicate outer.length .closing) = .ok s := by
  induction outer generalizing half term with
  | nil => exact ⟨_, rfl⟩
  | cons frame outer ih => exact ih frame.half (Phrase.semantics.close frame (Phrase.semantics.join half term))

/-- Whatever has been read can be completed to a statement. -/
theorem exists_completion (r : Reader Phrase) :
    ∃ rest s, r.read Phrase.semantics .total rest = .ok s := by
  obtain ⟨outer, half, focus⟩ := r
  cases focus with
  | awaitTerm =>
    obtain ⟨s, hs⟩ := read_closings .total outer half (.atom "")
    exact ⟨.atom "" :: List.replicate outer.length .closing, s, hs⟩
  | awaitGroup =>
    obtain ⟨s, hs⟩ := read_closings .total (⟨half, true⟩ :: outer) none (.atom "")
    exact ⟨.opening :: .atom "" :: List.replicate (outer.length + 1) .closing, s, hs⟩
  | complete term =>
    obtain ⟨s, hs⟩ := read_closings .total outer half term
    exact ⟨List.replicate outer.length .closing, s, hs⟩

/-- The reader takes exactly the beginnings of sentences whose atoms are known. -/
theorem advance_eq_ok_iff {tokens : List Token} :
    (∃ r, start.advance Phrase.semantics i tokens = .ok r) ↔ Viable tokens ∧ Valued i.knows tokens := by
  constructor
  · rintro ⟨r, hr⟩
    obtain ⟨rest, s, hs⟩ := r.exists_completion
    have hread : Statement.ofTokens .total (tokens ++ rest) = .ok s := by
      rw [Statement.ofTokens, read_append, advance_of_advance hr]
      exact hs
    have hsentence := isSentence_iff.2 ⟨s, (Statement.tokens_of_ofTokens hread).symm⟩
    exact ⟨⟨rest, hsentence⟩, valued_of_advance hr⟩
  · rintro ⟨⟨rest, hrest⟩, hvalued⟩
    obtain ⟨s, hs⟩ := isSentence_iff.1 hrest
    have hread := Statement.ofTokens_tokens .total s fun _ _ => rfl
    rw [hs, Statement.ofTokens, read_append] at hread
    cases hr : start.advance Phrase.semantics .total tokens with
    | error o => simp [hr] at hread
    | ok r => exact ⟨r, by rw [← hr]; exact advance_congr start hvalued⟩

section Reached

variable {p : List Token} {r : Reader Phrase}

/-- The reader awaits a term where a sentence can go on with an atom. -/
theorem focus_eq_awaitTerm_iff (h : start.advance Phrase.semantics i p = .ok r) :
    r.focus = .awaitTerm ↔ TermExpected p := by
  have hnext : ∀ name, start.advance Phrase.semantics .total (p ++ [.atom name]) =
      r.advance Phrase.semantics .total [.atom name] := by
    intro name
    rw [advance_append, advance_of_advance h]
  constructor
  · intro hf
    have hatom : start.advance Phrase.semantics .total (p ++ [.atom ""]) =
        .ok { r with focus := .complete (.atom "") } := by
      rw [hnext]
      simp [advance, step, hf, Interpretation.total, Phrase.semantics]
    exact ⟨"", (advance_eq_ok_iff.1 ⟨_, hatom⟩).1⟩
  · rintro ⟨name, hv⟩
    obtain ⟨last, hlast⟩ := advance_eq_ok_iff.2 ⟨hv, fun _ _ => Interpretation.knows_total _⟩
    rw [hnext] at hlast
    cases hf : r.focus with
    | awaitTerm => rfl
    | _ => simp [advance, step, hf] at hlast

/-- The reader awaits a group directly after `NOT`. -/
theorem focus_eq_awaitGroup_iff (h : start.advance Phrase.semantics i p = .ok r) :
    r.focus = .awaitGroup ↔ ∃ q, p = q ++ [.not] := by
  constructor
  · intro hf
    have hw := written_advance h
    rw [written, hf] at hw
    exact ⟨_, hw.symm⟩
  · rintro ⟨q, rfl⟩
    rw [advance_append] at h
    cases hq : start.advance Phrase.semantics i q with
    | error o => simp [hq] at h
    | ok before =>
      simp only [hq, advance] at h
      cases hf : before.focus with
      | awaitTerm =>
        simp only [step, hf, Except.ok.injEq] at h
        rw [← h]
      | _ => simp [step, hf] at h

/-- The reader could finish at the end of a sentence, and only there. -/
theorem finish_eq_ok_iff (h : start.advance Phrase.semantics i p = .ok r) :
    (∃ s, r.finish Phrase.semantics = .ok s) ↔ IsSentence p := by
  rw [isSentence_iff]
  constructor
  · rintro ⟨s, hs⟩
    exact ⟨s, by rw [tokens_of_finish hs, written_advance h]; rfl⟩
  · rintro ⟨s, hs⟩
    have hread := Statement.ofTokens_tokens i s fun a ha =>
      valued_of_advance h a (hs ▸ Statement.mem_tokens_of_mem_atoms ha)
    rw [hs, Statement.ofTokens, read, h] at hread
    exact ⟨s, hread⟩

/-- The reader has a complete statement outside of all groups. -/
theorem complete_at_top_iff (h : start.advance Phrase.semantics i p = .ok r) :
    (∃ term, r.focus = .complete term ∧ r.outer = []) ↔ IsSentence p := by
  rw [← finish_eq_ok_iff h]
  constructor
  · rintro ⟨term, hf, ho⟩
    exact ⟨Phrase.semantics.join r.half term, by simp [finish, hf, ho]⟩
  · rintro ⟨s, hs⟩
    cases hf : r.focus with
    | complete term =>
      cases ho : r.outer with
      | nil => exact ⟨term, rfl, rfl⟩
      | cons frame outer => simp [finish, hf, ho] at hs
    | _ => simp [finish, hf] at hs

/-- The last token of a frame opens its group. -/
theorem exists_written_eq_concat (frame : Frame Phrase) : ∃ before, frame.written = before ++ [.opening] := by
  cases hn : frame.negated with
  | false => exact ⟨Half.written frame.half, by simp [Frame.written, hn]⟩
  | true => exact ⟨Half.written frame.half ++ [.not], by simp [Frame.written, hn]⟩

theorem step_opening_eq_ok {r next : Reader Phrase} (h : r.step Phrase.semantics i .opening = .ok next) :
    ∃ negated, next = r.descend negated := by
  cases hf : r.focus with
  | awaitTerm =>
    simp only [step, hf, Except.ok.injEq] at h
    exact ⟨false, h.symm⟩
  | awaitGroup =>
    simp only [step, hf, Except.ok.injEq] at h
    exact ⟨true, h.symm⟩
  | complete term => simp [step, hf] at h

/-- The reader has a complete statement inside an open group. -/
theorem complete_in_group_iff (h : start.advance Phrase.semantics i p = .ok r) :
    (∃ term frame outer, r.focus = .complete term ∧ r.outer = frame :: outer) ↔
      ∃ q s, p = q ++ .opening :: s ∧ IsSentence s := by
  constructor
  · rintro ⟨term, frame, outer, hf, ho⟩
    obtain ⟨before, hb⟩ := exists_written_eq_concat frame
    refine ⟨outerWritten outer ++ before, (Phrase.semantics.join r.half term).tokens, ?_,
      isSentence_iff.2 ⟨_, rfl⟩⟩
    calc
      p = r.written := (written_advance h).symm
      _ = outerWritten outer ++ frame.written ++ Half.written r.half ++ term.tokens := by
        rw [written, hf, ho]
        rfl
      _ = outerWritten outer ++ before ++ .opening :: (Phrase.semantics.join r.half term).tokens := by
        rw [hb, Half.tokens_join]
        simp
  · rintro ⟨q, ts, rfl, hs⟩
    obtain ⟨s, rfl⟩ := isSentence_iff.1 hs
    have hatoms : ∀ a ∈ s.atoms, i.knows a = true := by
      intro a ha
      apply valued_of_advance h
      simp [Statement.mem_tokens_of_mem_atoms ha]
    rw [advance_append] at h
    cases hq : start.advance Phrase.semantics i q with
    | error o => simp [hq] at h
    | ok before =>
      simp only [hq, advance] at h
      cases ho : before.step Phrase.semantics i .opening with
      | error o => simp [ho] at h
      | ok inside =>
        obtain ⟨negated, rfl⟩ := step_opening_eq_ok ho
        have hpast := advance_tokens s (before.descend negated) [] rfl (fun _ => rfl) hatoms
        rw [List.append_nil, advance_nil] at hpast
        simp only [ho, hpast, Except.ok.injEq] at h
        subst h
        cases s with
        | single term => exact ⟨term, _, before.outer, rfl, rfl⟩
        | both c left right => exact ⟨right, _, before.outer, rfl, rfl⟩

end Reached

end Reader

end FuzzyMotion
