import FuzzyMotion.Statement.Reader

/-!
What the reader accepts, and what it gives. Under any semantics it reads back what a statement writes down
and gives the meaning of the statement, and it accepts nothing else: a list of tokens is read as a statement
exactly when it is what the statement writes and all its atoms have degrees. Reading under one semantics
follows reading under another step by step, so that it fails at the same token and for the same reason.
-/
namespace FuzzyMotion

def Half.written : Option (Half Phrase) → List Token
  | none => []
  | some half => half.left.tokens ++ [half.connective.token]

def Frame.written (frame : Frame Phrase) : List Token :=
  Half.written frame.half ++ if frame.negated then [.not, .opening] else [.opening]

def Focus.written : Focus Phrase → List Token
  | .awaitTerm => []
  | .awaitGroup => [.not]
  | .complete term => term.tokens

theorem Half.tokens_join (half : Option (Half Phrase)) (term : Term) :
    (Phrase.semantics.join half term).tokens = Half.written half ++ term.tokens := by
  cases half <;> simp [Semantics.join, Phrase.semantics, Half.written, Phrase.tokens]

theorem Frame.tokens_close (frame : Frame Phrase) (inner : Statement) :
    Half.written frame.half ++ (Phrase.semantics.close frame inner).tokens =
      frame.written ++ inner.tokens ++ [.closing] := by
  cases h : frame.negated <;>
    simp [Semantics.close, Phrase.semantics, Frame.written, h, Phrase.tokens]

namespace Token

def name? : Token → Option String
  | atom name => some name
  | _ => none

end Token

theorem Connective.name?_token (c : Connective) : c.token.name? = none := by
  cases c <;> rfl

/-- The atoms of a phrase are the names among its tokens. -/
theorem Phrase.filterMap_name?_tokens {r : Rank} (p : Phrase r) :
    p.tokens.filterMap Token.name? = p.atoms := by
  induction p with
  | atom name => rfl
  | group inner ih => simp [tokens, atoms, List.filterMap_cons, Token.name?, ih]
  | negation inner ih => simp [tokens, atoms, List.filterMap_cons, Token.name?, ih]
  | single term ih => exact ih
  | both c left right ihl ihr =>
    simp [tokens, atoms, Connective.name?_token, ihl, ihr]

variable {α : Rank → Type} {S : Semantics α} {i : Interpretation}

section Meaning

/-- Where phrases have been read, what comes of them under another semantics. -/
def Half.meaning (S : Semantics α) (i : Interpretation) (half : Half Phrase) : Half α :=
  ⟨S.meaning i half.left, half.connective⟩

def Frame.meaning (S : Semantics α) (i : Interpretation) (frame : Frame Phrase) : Frame α :=
  ⟨frame.half.map (Half.meaning S i), frame.negated⟩

def Focus.meaning (S : Semantics α) (i : Interpretation) : Focus Phrase → Focus α
  | .awaitTerm => .awaitTerm
  | .awaitGroup => .awaitGroup
  | .complete term => .complete (S.meaning i term)

def Reader.meaning (S : Semantics α) (i : Interpretation) (r : Reader Phrase) : Reader α :=
  ⟨r.outer.map (Frame.meaning S i), r.half.map (Half.meaning S i), r.focus.meaning S i⟩

theorem Semantics.meaning_join (half : Option (Half Phrase)) (term : Term) :
    S.meaning i (Phrase.semantics.join half term) =
      S.join (half.map (Half.meaning S i)) (S.meaning i term) := by
  cases half <;> rfl

theorem Semantics.meaning_close (frame : Frame Phrase) (inner : Statement) :
    S.meaning i (Phrase.semantics.close frame inner) = S.close (frame.meaning S i) (S.meaning i inner) := by
  obtain ⟨half, negated⟩ := frame
  cases negated <;> rfl

namespace Reader

/-- A step under another semantics is the step on phrases. -/
theorem step_meaning (r : Reader Phrase) (token : Token) :
    (r.meaning S i).step S i token = (r.step Phrase.semantics i token).map (Reader.meaning S i) := by
  obtain ⟨outer, half, focus⟩ := r
  cases focus with
  | awaitTerm =>
    cases token with
    | atom name =>
      cases h : i name with
      | none => simp [step, meaning, Focus.meaning, h, Except.map]
      | some degree =>
        simp [step, meaning, Focus.meaning, h, Except.map, Phrase.semantics, Semantics.meaning,
          Interpretation.value]
    | _ => rfl
  | awaitGroup => cases token <;> rfl
  | complete term =>
    cases token with
    | closing =>
      cases outer with
      | nil => rfl
      | cons frame outer =>
        simp [step, meaning, Focus.meaning, Except.map, Semantics.meaning_close, Semantics.meaning_join,
          Frame.meaning]
    | and => cases half <;> cases outer <;> rfl
    | or => cases half <;> cases outer <;> rfl
    | _ => cases outer <;> rfl

theorem finish_meaning (r : Reader Phrase) :
    (r.meaning S i).finish S = (r.finish Phrase.semantics).map (S.meaning i) := by
  obtain ⟨outer, half, focus⟩ := r
  cases focus with
  | complete term =>
    cases outer with
    | nil => exact congrArg Except.ok (Semantics.meaning_join half term).symm
    | cons frame outer => rfl
  | _ => rfl

/-- Reading under another semantics is reading phrases, and taking their meaning at the end. -/
theorem read_meaning (r : Reader Phrase) (tokens : List Token) :
    (r.meaning S i).read S i tokens = (r.read Phrase.semantics i tokens).map (S.meaning i) := by
  induction tokens generalizing r with
  | nil => exact r.finish_meaning
  | cons token rest ih =>
    simp only [read, advance] at ih ⊢
    rw [step_meaning]
    cases r.step Phrase.semantics i token with
    | error e => rfl
    | ok next => exact ih next

end Reader

end Meaning

namespace Reader

/-- An atom with a degree stands for its meaning. -/
theorem step_atom {r : Reader α} {name : String} (hf : r.focus = .awaitTerm) (hk : i.knows name = true) :
    r.step S i (.atom name) = .ok { r with focus := .complete (S.atom name (i.value name)) } := by
  obtain ⟨degree, h⟩ := Option.isSome_iff_exists.1 hk
  simp [step, hf, h, Interpretation.value]

/-- The reader that has read a phrase where a term was expected. -/
def past (r : Reader Phrase) : {k : Rank} → Phrase k → Reader Phrase
  | .term, term => { r with focus := .complete term }
  | .statement, .single term => { r with focus := .complete term }
  | .statement, .both c left right => ⟨r.outer, some ⟨left, c⟩, .complete right⟩

theorem advance_tokens {k : Rank} (p : Phrase k) (r : Reader Phrase)
    (rest : List Token) (hf : r.focus = .awaitTerm) (hk : k = .statement → r.half = none)
    (ha : ∀ a ∈ p.atoms, i.knows a = true) :
    r.advance Phrase.semantics i (p.tokens ++ rest) = (r.past p).advance Phrase.semantics i rest := by
  induction p generalizing r rest with
  | atom name =>
    simp only [Phrase.tokens, List.singleton_append, advance]
    rw [step_atom hf (ha name (by simp [Phrase.atoms]))]
    rfl
  | group inner ih =>
    simp only [Phrase.tokens, List.cons_append, List.append_assoc, advance, step, hf]
    rw [ih (r.descend false) _ rfl (fun _ => rfl) ha]
    cases inner <;> rfl
  | negation inner ih =>
    simp only [Phrase.tokens, List.cons_append, List.append_assoc, advance, step, hf]
    rw [ih _ _ rfl (fun _ => rfl) ha]
    cases inner <;> rfl
  | single term ih =>
    rw [Phrase.tokens, ih r rest hf (by simp) ha]
    rfl
  | both c left right ihl ihr =>
    have hn := hk rfl
    simp only [Phrase.tokens, List.append_assoc, List.cons_append]
    rw [ihl r _ hf (by simp) fun a h => ha a (by simp [Phrase.atoms, h])]
    cases c <;>
    · simp only [past, Connective.token, advance, step, hn]
      rw [ihr _ rest rfl (by simp) fun a h => ha a (by simp [Phrase.atoms, h])]
      rfl

/-- The tokens that a reader has read; its frames stand innermost first. -/
def outerWritten : List (Frame Phrase) → List Token
  | [] => []
  | frame :: outer => outerWritten outer ++ frame.written

def written (r : Reader Phrase) : List Token :=
  outerWritten r.outer ++ Half.written r.half ++ r.focus.written

theorem written_descend (r : Reader Phrase) (negated : Bool) :
    (r.descend negated).written = outerWritten r.outer ++ Half.written r.half ++
      if negated then [.not, .opening] else [.opening] := by
  simp [descend, written, outerWritten, Frame.written, Half.written, Focus.written]

/-- A step adds its token to what has been read. -/
theorem written_step {r next : Reader Phrase} {token : Token}
    (h : r.step Phrase.semantics i token = .ok next) : next.written = r.written ++ [token] := by
  obtain ⟨outer, half, focus⟩ := r
  cases focus with
  | awaitTerm =>
    cases token with
    | atom name =>
      simp only [step] at h
      split at h
      · cases h
        simp [written, Focus.written, Phrase.semantics, Phrase.tokens]
      · cases h
    | opening =>
      cases h
      rw [written_descend]
      simp [written, Focus.written]
    | not =>
      cases h
      simp [written, Focus.written]
    | _ => cases h
  | awaitGroup =>
    cases token with
    | opening =>
      cases h
      rw [written_descend]
      simp [written, Focus.written]
    | _ => cases h
  | complete term =>
    cases token with
    | closing =>
      cases outer with
      | nil => cases h
      | cons frame outer =>
        cases h
        simp only [written, outerWritten, Focus.written, List.append_assoc]
        rw [Frame.tokens_close, Half.tokens_join]
        simp
    | and =>
      cases half with
      | none =>
        cases h
        simp [written, Half.written, Focus.written, Connective.token]
      | some half => cases h
    | or =>
      cases half with
      | none =>
        cases h
        simp [written, Half.written, Focus.written, Connective.token]
      | some half => cases h
    | _ => cases h

theorem written_advance {r last : Reader Phrase} {tokens : List Token}
    (h : r.advance Phrase.semantics i tokens = .ok last) : last.written = r.written ++ tokens := by
  induction tokens generalizing r with
  | nil =>
    cases h
    simp
  | cons token rest ih =>
    simp only [advance] at h
    cases hs : r.step Phrase.semantics i token with
    | error e => simp [hs] at h
    | ok next =>
      simp only [hs] at h
      rw [ih h, written_step hs]
      simp

theorem tokens_of_finish {r : Reader Phrase} {s : Statement} (h : r.finish Phrase.semantics = .ok s) :
    s.tokens = r.written := by
  obtain ⟨outer, half, focus⟩ := r
  cases focus with
  | complete term =>
    cases outer with
    | nil =>
      cases h
      simp [Half.tokens_join, written, outerWritten, Focus.written]
    | cons frame outer => cases h
  | _ => cases h

theorem knows_of_step {r next : Reader Phrase} {token : Token} {name : String}
    (h : r.step Phrase.semantics i token = .ok next) (hn : token.name? = some name) :
    i.knows name = true := by
  cases token with
  | atom other =>
    cases hn
    obtain ⟨outer, half, focus⟩ := r
    cases focus with
    | awaitTerm =>
      simp only [step] at h
      cases hd : i name with
      | none => simp [hd] at h
      | some degree => exact Option.isSome_iff_exists.2 ⟨degree, hd⟩
    | _ => cases h
  | _ => cases hn

theorem knows_of_advance {r last : Reader Phrase} {tokens : List Token}
    (h : r.advance Phrase.semantics i tokens = .ok last) :
    ∀ name ∈ tokens.filterMap Token.name?, i.knows name = true := by
  induction tokens generalizing r with
  | nil => simp
  | cons token rest ih =>
    simp only [advance] at h
    cases hs : r.step Phrase.semantics i token with
    | error e => simp [hs] at h
    | ok next =>
      simp only [hs] at h
      intro name hm
      obtain ⟨t, ht, hn⟩ := List.mem_filterMap.1 hm
      rcases List.mem_cons.1 ht with rfl | ht
      · exact knows_of_step hs hn
      · exact ih h name (List.mem_filterMap.2 ⟨t, ht, hn⟩)

end Reader

namespace Statement

/-- The statement that a list of tokens writes down, if all its atoms have degrees. -/
def ofTokens (i : Interpretation) (tokens : List Token) : Except Obstacle Statement :=
  Reader.start.read Phrase.semantics i tokens

def ofText (i : Interpretation) (text : String) : Except Fault Statement :=
  interpret Phrase.semantics i text

/-- What a statement writes down is read back. -/
theorem ofTokens_tokens (i : Interpretation) (s : Statement)
    (h : ∀ a ∈ s.atoms, i.knows a = true) : ofTokens i s.tokens = .ok s := by
  have := Reader.advance_tokens s Reader.start [] rfl (fun _ => rfl) h
  rw [List.append_nil] at this
  rw [ofTokens, Reader.read, this]
  cases s <;> rfl

/-- Only what a statement writes down is read as that statement. -/
theorem tokens_of_ofTokens {tokens : List Token} {s : Statement}
    (h : ofTokens i tokens = .ok s) : tokens = s.tokens := by
  unfold ofTokens Reader.read at h
  cases ha : Reader.start.advance Phrase.semantics i tokens with
  | error e => simp [ha] at h
  | ok last =>
    simp only [ha] at h
    rw [Reader.tokens_of_finish h, Reader.written_advance ha]
    rfl

theorem knows_of_ofTokens {tokens : List Token} {s : Statement}
    (h : ofTokens i tokens = .ok s) : ∀ a ∈ s.atoms, i.knows a = true := by
  rw [← Phrase.filterMap_name?_tokens, ← tokens_of_ofTokens h]
  unfold ofTokens Reader.read at h
  cases ha : Reader.start.advance Phrase.semantics i tokens with
  | error e => simp [ha] at h
  | ok last => exact Reader.knows_of_advance ha

theorem ofTokens_eq_ok_iff {tokens : List Token} {s : Statement} :
    ofTokens i tokens = .ok s ↔ tokens = s.tokens ∧ ∀ a ∈ s.atoms, i.knows a = true := by
  constructor
  · intro h
    exact ⟨tokens_of_ofTokens h, knows_of_ofTokens h⟩
  · rintro ⟨rfl, h⟩
    exact ofTokens_tokens i s h

/-- What comes of a text under any semantics is the meaning of the statement that it writes down. -/
theorem interpret_eq_map (S : Semantics α) (i : Interpretation) (text : String) :
    interpret S i text = (ofText i text).map (S.meaning i) := by
  have hread : Reader.start.read S i (Token.ofText text) =
      (ofTokens i (Token.ofText text)).map (S.meaning i) :=
    Reader.read_meaning .start (Token.ofText text)
  rw [interpret, hread, ofText, interpret, ← ofTokens]
  cases ofTokens i (Token.ofText text) <;> rfl

/-- Two semantics fail for the same texts, and with the same fault. -/
theorem interpret_fails_alike {β : Rank → Type} (S : Semantics α) (T : Semantics β) (i : Interpretation)
    (text : String) (f : Fault) : interpret S i text = .error f ↔ interpret T i text = .error f := by
  rw [interpret_eq_map S, interpret_eq_map T]
  cases ofText i text with
  | ok s => exact iff_of_false nofun nofun
  | error e => simp only [Except.map, Except.error.injEq]

end Statement

end FuzzyMotion
