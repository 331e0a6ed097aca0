import FuzzyMotion.Proofs.Statement.Layout
import FuzzyMotion.Proofs.Statement.Rendering

/-!
Traces that do not fit. A part that is cut short is copied into the buffer around it as if it were complete.
Where there is still room behind it, the text goes on after the cut, and the trace is not a beginning of the
rendering: part of it has been dropped in the middle. This is the only way in which a trace is altered; every
other trace is the beginning of the rendering that fits.
-/
namespace FuzzyMotion

open Text (bytes bytes_append fill isBlank isWordChar isWordChar_eq_true_iff)

/-- What stands behind a part, where anything does. -/
def IsSeparator (text : List Char) : Prop :=
  text = [')'] ∨ text = [',', ' ']

theorem IsSeparator.size {k : List Char} (h : IsSeparator k) : 0 < bytes k ∧ bytes k ≤ 2 := by
  rcases h with rfl | rfl <;> decide

/-- Texts that begin with no separator, whatever follows them. -/
def Opens (text : List Char) : Prop :=
  ∀ k, IsSeparator k → ∀ more, ¬k <+: text ++ more

section Opens

variable {text : List Char} {c : Char}

theorem Opens.append (h : Opens text) (more : List Char) : Opens (text ++ more) := by
  intro k hk rest
  rw [List.append_assoc]
  exact h k hk (more ++ rest)

theorem opens_cons (hclosing : c ≠ ')') (hcomma : c ≠ ',') (cs : List Char) : Opens (c :: cs) := by
  rintro k (rfl | rfl) more
  · simp [hclosing.symm]
  · simp [hcomma.symm]

/-- A comma in a name is not followed by a blank. -/
theorem opens_name {name : String} (h : Token.IsWordText name) (rest : List Char) :
    Opens (name.toList ++ '[' :: rest) := by
  obtain ⟨hne, hchars⟩ := h
  cases hname : name.toList with
  | nil => exact absurd (String.toList_eq_nil_iff.1 hname) hne
  | cons c cs =>
    rw [hname, List.forall_mem_cons] at hchars
    obtain ⟨hc, hcs⟩ := hchars
    rintro k (rfl | rfl) more
    · simpa using (isWordChar_eq_true_iff.1 hc).2.2.symm
    · cases cs with
      | nil => simp
      | cons d ds =>
        have hd : isWordChar d = true := hcs d (by simp)
        have hblank : d ≠ ' ' := by
          rintro rfl
          exact absurd hd (by decide)
        simp [hblank.symm]

theorem opens_digits {digits : List Char} (hne : digits ≠ []) (h : ∀ c ∈ digits, c.isDigit = true) :
    Opens digits := by
  cases digits with
  | nil => exact absurd rfl hne
  | cons c cs =>
    have hc : c.isDigit = true := h c List.mem_cons_self
    refine opens_cons ?_ ?_ cs
    · rintro rfl
      exact absurd hc (by decide)
    · rintro rfl
      exact absurd hc (by decide)

theorem opens_toString (n : ℕ) : Opens (toString n).toList := by
  have hdigits : (toString n).toList = Nat.toDigits 10 n := Nat.toList_repr
  rw [hdigits]
  exact opens_digits Nat.toDigits_ne_nil fun _ => Nat.isDigit_of_mem_toDigits (by omega) (by omega)

theorem opens_fraction (n : ℕ) {places : ℕ} (h : 0 < places) :
    Opens (Decimal.fraction n places).toList := by
  rw [Decimal.fraction, String.toList_ofList]
  refine opens_digits (fun hnil => ?_) fun _ => Decimal.isDigit_of_mem_leftPad
  have hlength := congrArg List.length hnil
  simp only [Decimal.leftPad, List.length_append, List.length_replicate, List.length_nil] at hlength
  omega

theorem opens_hundredthParts (n : ℕ) : ∀ part ∈ Decimal.hundredthParts n, Opens part.toList := by
  rw [Decimal.hundredthParts]
  split_ifs
  all_goals simp only [List.forall_mem_cons, List.not_mem_nil, false_imp_iff, implies_true, and_true]
  · exact ⟨opens_cons (by decide) (by decide) _, opens_cons (by decide) (by decide) _⟩
  · exact ⟨opens_cons (by decide) (by decide) _, opens_cons (by decide) (by decide) _, opens_toString n⟩
  · exact ⟨opens_cons (by decide) (by decide) _, opens_toString n⟩
  · exact ⟨opens_toString _, opens_cons (by decide) (by decide) _, opens_fraction n (by omega)⟩

theorem opens_signed {parts : List String} (negative : Bool) (h : ∀ part ∈ parts, Opens part.toList) :
    ∀ part ∈ Decimal.signed negative parts, Opens part.toList := by
  cases negative with
  | false => exact h
  | true => exact List.forall_mem_cons.2 ⟨opens_cons (by decide) (by decide) _, h⟩

/-- Wherever a number is cut between two of its parts, the rest does not begin with a separator. -/
theorem opens_fixedParts (x : Float32) : ∀ part ∈ Decimal.fixedParts x, Opens part.toList := by
  have hword : ∀ word : String, Opens word.toList → ∀ part ∈ [word], Opens part.toList :=
    fun _ h => List.forall_mem_singleton.2 h
  rw [Decimal.fixedParts]
  cases x.toModel.unpack with
  | notANumber => exact hword "NaN" (opens_cons (by decide) (by decide) _)
  | infinity s => exact opens_signed _ (hword "inf" (opens_cons (by decide) (by decide) _))
  | zero s => exact opens_signed _ (opens_hundredthParts 0)
  | finite s m e hm => exact opens_signed _ (opens_hundredthParts _)

end Opens

/-- A part that was cut short is overtaken where the text after it is still written. It stands after `before`
bytes of its buffer, and before `after` bytes; what is altered inside of it is altered in the buffer, too. -/
def Overtaken (before after : ℕ) (written full : List Char) (inside : Prop) : Prop :=
  before + bytes written ≤ traceLimit ∧
    (inside ∨ traceLimit < bytes full ∧ before + bytes written + after ≤ traceLimit)

/-- What a buffer that holds `before` bytes takes of a text: all of it, a beginning of it, or something else.
Where it takes a beginning, the rest opens a part, or there is hardly any room left. -/
inductive Taken (before : ℕ) (written full : List Char) (altered : Prop) : Prop
  | whole (hsame : written = full) (hfit : before + bytes full ≤ traceLimit) (hunaltered : ¬altered)
  | cut (rest : List Char) (hfull : full = written ++ rest) (hover : traceLimit < before + bytes full)
      (hend : Opens rest ∨ traceLimit ≤ before + bytes written + 1) (hunaltered : ¬altered)
  | altered (hover : traceLimit < before + bytes full) (hnot : ¬written <+: full) (haltered : altered)

section Taken

variable {before : ℕ} {written full : List Char} {altered inside : Prop}

theorem Taken.prefix_iff (h : Taken before written full altered) : written <+: full ↔ ¬altered := by
  cases h with
  | whole hsame _ hunaltered => exact iff_of_true (hsame ▸ List.prefix_refl _) hunaltered
  | cut rest hfull _ _ hunaltered => exact iff_of_true (hfull ▸ List.prefix_append _ rest) hunaltered
  | altered _ hnot haltered => exact iff_of_false hnot (not_not_intro haltered)

theorem Taken.bytes_le (h : Taken 0 written full altered) (hsize : bytes written ≤ traceLimit) :
    bytes written ≤ bytes full := by
  cases h with
  | whole hsame _ _ => rw [hsame]
  | cut rest hfull _ _ _ =>
    rw [hfull, bytes_append]
    omega
  | altered hover _ _ => omega

/-- Whatever follows, a text stays altered. -/
theorem not_prefix_append (hsize : bytes written < bytes full) (hnot : ¬written <+: full)
    (out more : List Char) : ¬written ++ out <+: full ++ more :=
  fun hcon => hnot (Text.prefix_of_bytes_lt ((List.prefix_append _ out).trans hcon) hsize)

theorem fill_cons_of_fits {piece : List Char} (h : before + bytes piece ≤ traceLimit)
    (pieces : List (List Char)) : fill (traceLimit - before) (piece :: pieces) =
      piece ++ fill (traceLimit - (before + bytes piece)) pieces := by
  rw [fill, if_pos (by omega), Nat.sub_sub]

theorem fill_cons_of_not_fits {piece : List Char} (hbefore : before ≤ traceLimit)
    (h : ¬before + bytes piece ≤ traceLimit) (pieces : List (List Char)) :
    fill (traceLimit - before) (piece :: pieces) = [] := by
  rw [fill, if_neg (by omega)]

/-- Where a part does not fit, nothing is taken. -/
theorem taken_nothing (hover : traceLimit < before + bytes full) (hopens : Opens full)
    (hunaltered : ¬altered) : Taken before [] full altered :=
  .cut full rfl hover (Or.inl hopens) hunaltered

/-- A text in front that fits. -/
theorem Taken.append {text : List Char} (h : Taken (before + bytes text) written full altered) :
    Taken before (text ++ written) (text ++ full) altered := by
  cases h with
  | whole hsame hfit hunaltered =>
    refine .whole (by rw [hsame]) ?_ hunaltered
    rwa [bytes_append, ← Nat.add_assoc]
  | cut rest hfull hover hend hunaltered =>
    refine .cut rest (by rw [hfull, List.append_assoc]) ?_ ?_ hunaltered
    · rwa [bytes_append, ← Nat.add_assoc]
    · rwa [bytes_append, ← Nat.add_assoc]
  | altered hover hnot haltered =>
    refine .altered ?_ ?_ haltered
    · rwa [bytes_append, ← Nat.add_assoc]
    · rwa [List.prefix_append_right_inj]

section Parts

variable (hpart : Taken 0 written full inside) (hsize : bytes written ≤ traceLimit) (hopens : Opens full)
  (hbefore : before ≤ traceLimit)
include hpart hsize hopens hbefore

/-- A part that is the last one in its buffer. -/
theorem Taken.last :
    Taken before (fill (traceLimit - before) [written]) full
      (before + bytes written ≤ traceLimit ∧ inside) := by
  have hle := hpart.bytes_le hsize
  by_cases hfit : before + bytes written ≤ traceLimit
  · rw [fill_cons_of_fits hfit, fill, List.append_nil]
    cases hpart with
    | whole hsame _ hunaltered => exact .whole hsame (hsame ▸ hfit) fun h => hunaltered h.2
    | cut rest hfull hover hend hunaltered =>
      exact .cut rest hfull (by omega) (hend.imp_right fun h => by omega) fun h => hunaltered h.2
    | altered hover hnot haltered => exact .altered (by omega) hnot ⟨hfit, haltered⟩
  · rw [fill_cons_of_not_fits hbefore hfit]
    exact taken_nothing (by omega) hopens fun h => hfit h.1

end Parts

section Separators

variable (hpart : Taken 0 written full inside) (hsize : bytes written ≤ traceLimit)
  (hfit : before + bytes written ≤ traceLimit) {k more out : List Char} (hk : IsSeparator k)
include hpart hsize hfit hk

/-- Where there is no room for the separator behind a part, the buffer ends with the part. -/
theorem Taken.withoutSeparator (hover : ¬before + bytes written + bytes k ≤ traceLimit) :
    Taken before written (full ++ (k ++ more)) (Overtaken before (bytes k) written full inside) := by
  have hle := hpart.bytes_le hsize
  have hksize := hk.size
  have hlong : traceLimit < before + bytes (full ++ (k ++ more)) := by
    rw [bytes_append, bytes_append]
    omega
  have hunaltered : ¬inside → ¬Overtaken before (bytes k) written full inside := by
    rintro hinside ⟨-, h | ⟨-, h⟩⟩
    · exact hinside h
    · exact hover h
  cases hpart with
  | whole hsame _ hinside =>
    exact .cut (k ++ more) (by rw [hsame]) hlong (Or.inr (by omega)) (hunaltered hinside)
  | cut rest hfull _ _ hinside =>
    exact .cut (rest ++ (k ++ more)) (by rw [hfull, List.append_assoc]) hlong (Or.inr (by omega))
      (hunaltered hinside)
  | altered hlost hnot hinside =>
    have hnot' := not_prefix_append (by omega) hnot [] (k ++ more)
    rw [List.append_nil] at hnot'
    exact .altered hlong hnot' ⟨hfit, Or.inl hinside⟩

/-- Where a part is followed by a separator, it has been overtaken unless it is complete. -/
theorem Taken.withSeparator (hpos : 0 < before) (hroom : before + bytes written + bytes k ≤ traceLimit)
    (hmore : Taken (before + bytes written + bytes k) out more altered) :
    Taken before (written ++ (k ++ out)) (full ++ (k ++ more))
      (Overtaken before (bytes k) written full inside ∨ altered) := by
  have hle := hpart.bytes_le hsize
  have hksize := hk.size
  have hlong : bytes full ≤ bytes (full ++ (k ++ more)) := by
    rw [bytes_append]
    omega
  cases hpart with
  | whole hsame hwhole hinside =>
    subst hsame
    have halone : ¬Overtaken before (bytes k) written written inside := by
      rintro ⟨-, h | ⟨h, -⟩⟩
      · exact hinside h
      · omega
    rw [propext (or_iff_right halone)]
    exact hmore.append.append
  | cut rest hfull hover hend hinside =>
    have hopens : Opens rest := hend.resolve_right (by omega)
    refine .altered (by omega) ?_ (Or.inl ⟨hfit, Or.inr ⟨by omega, hroom⟩⟩)
    rw [hfull, List.append_assoc, List.prefix_append_right_inj]
    intro hcon
    have hseparator : k <+: rest ++ (k ++ more) := (List.prefix_append k out).trans hcon
    exact hopens k hk _ hseparator
  | altered hover hnot hinside =>
    exact .altered (by omega) (not_prefix_append (by omega) hnot _ _) (Or.inl ⟨hfit, Or.inl hinside⟩)

end Separators

/-- A part that is followed by a separator, and by what stands behind it. -/
theorem Taken.followed (hpart : Taken 0 written full inside) (hsize : bytes written ≤ traceLimit)
    (hopens : Opens full) (hbefore : before ≤ traceLimit) (hpos : 0 < before) {k more : List Char}
    {pieces : List (List Char)} (hk : IsSeparator k)
    (hmore : before + bytes written + bytes k ≤ traceLimit →
      Taken (before + bytes written + bytes k)
        (fill (traceLimit - (before + bytes written + bytes k)) pieces) more altered)
    (hroom : altered → before + bytes written + bytes k ≤ traceLimit) :
    Taken before (fill (traceLimit - before) (written :: k :: pieces)) (full ++ (k ++ more))
      (Overtaken before (bytes k) written full inside ∨ altered) := by
  by_cases hfit : before + bytes written ≤ traceLimit
  · rw [fill_cons_of_fits hfit]
    by_cases hbehind : before + bytes written + bytes k ≤ traceLimit
    · rw [fill_cons_of_fits hbehind]
      exact hpart.withSeparator hsize hfit hk hpos hbehind (hmore hbehind)
    · rw [fill_cons_of_not_fits hfit hbehind, List.append_nil, propext (or_iff_left (hbehind ∘ hroom))]
      exact hpart.withoutSeparator hsize hfit hk hbehind
  · have hle := hpart.bytes_le hsize
    rw [fill_cons_of_not_fits hbefore hfit]
    refine taken_nothing ?_ (hopens.append _) ?_
    · rw [bytes_append]
      omega
    · rintro (h | h)
      · exact hfit h.1
      · have := hroom h
        omega

/-- A text without parts is cut off at the end only. -/
theorem taken_pieces {pieces : List (List Char)} (hbefore : before ≤ traceLimit)
    (h : ∀ piece rest, piece :: rest <:+ pieces → Opens (piece ++ rest.flatten)) :
    Taken before (fill (traceLimit - before) pieces) pieces.flatten False := by
  induction pieces generalizing before with
  | nil => exact .whole rfl hbefore id
  | cons piece rest ih =>
    by_cases hfit : before + bytes piece ≤ traceLimit
    · rw [fill_cons_of_fits hfit, List.flatten_cons]
      exact (ih hfit fun piece' rest' hs => h piece' rest' (hs.trans (List.suffix_cons _ _))).append
    · rw [fill_cons_of_not_fits hbefore hfit]
      refine taken_nothing ?_ (h piece rest List.suffix_rfl) id
      rw [List.flatten_cons, bytes_append]
      omega

end Taken

namespace Phrase

variable (i : Interpretation)

/-- The rendering of a phrase is that of its derivation. -/
def rendering {r : Rank} (p : Phrase r) : List Char :=
  (p.derivation.rendering i).toList

theorem rendering_atom (name : String) :
    (atom name).rendering i =
      name.toList ++ '[' :: ((Decimal.fixed (i.value name)).toList ++ [']']) := by
  simp [rendering, derivation, Derivation.rendering, Interpretation.value]

theorem rendering_group (inner : Statement) :
    (group inner).rendering i = '(' :: (Phrase.rendering i inner ++ [')']) := by
  simp [rendering, derivation, Derivation.rendering, Rank.nonterminal]

theorem rendering_negation (inner : Statement) :
    (negation inner).rendering i = "1 - ".toList ++ (group inner).rendering i := by
  simp [rendering, derivation, Derivation.rendering]

theorem rendering_both (c : Connective) (left right : Term) :
    (both c left right).rendering i =
      c.symbol.toList ++ (left.rendering i ++ ([',', ' '] ++ (right.rendering i ++ ([')'] ++ [])))) := by
  cases c <;> simp [rendering, derivation, Derivation.rendering, Connective.symbol, Rank.nonterminal]

/-- Whether some part of the trace is overtaken by the text after it. -/
def Altered : {r : Rank} → Phrase r → Prop
  | _, atom _ => False
  | _, group inner => Overtaken 1 1 (inner.trace i) (inner.rendering i) inner.Altered
  | _, negation inner => 4 + bytes ((group inner).trace i) ≤ traceLimit ∧
      Overtaken 1 1 (inner.trace i) (inner.rendering i) inner.Altered
  | _, single term => term.Altered
  | _, both _ left right =>
    Overtaken 4 2 (left.trace i) (left.rendering i) left.Altered ∨
      Overtaken (4 + bytes (left.trace i) + 2) 1 (right.trace i) (right.rendering i) right.Altered

/-- No rendering begins with a separator. -/
theorem opens_rendering {r : Rank} (p : Phrase r) (h : ∀ name ∈ p.atoms, Token.IsWordText name) :
    Opens (p.rendering i) := by
  induction p with
  | atom name =>
    rw [rendering_atom]
    exact opens_name (h name (by simp [atoms])) _
  | group inner _ =>
    rw [rendering_group]
    exact opens_cons (by decide) (by decide) _
  | negation inner _ =>
    rw [rendering_negation]
    exact opens_cons (by decide) (by decide) _
  | single term ih => exact ih h
  | both c left right _ _ =>
    rw [rendering_both]
    cases c <;> exact opens_cons (by decide) (by decide) _

/-- A buffer that begins with a text of its own. -/
theorem taken_buffer {text full : List Char} {pieces : List (List Char)} {altered : Prop}
    (hfit : bytes text ≤ traceLimit)
    (h : Taken (bytes text) (fill (traceLimit - bytes text) pieces) full altered) :
    Taken 0 (buffer (text :: pieces)) (text ++ full) altered := by
  have hstart : buffer (text :: pieces) = text ++ fill (traceLimit - bytes text) pieces := by
    rw [buffer, fill, if_pos hfit]
  rw [hstart]
  refine Taken.append ?_
  rwa [Nat.zero_add]

/-- Behind the last separator of a buffer, nothing is left. -/
theorem taken_end {before : ℕ} (h : before ≤ traceLimit) :
    Taken before (fill (traceLimit - before) []) [] False :=
  .whole rfl h id

theorem taken_group {inner : Statement}
    (h : Taken 0 (Phrase.trace i inner) (Phrase.rendering i inner) (Phrase.Altered i inner))
    (hatoms : ∀ name ∈ Phrase.atoms inner, Token.IsWordText name) :
    Taken 0 ((group inner).trace i) ((group inner).rendering i) ((group inner).Altered i) := by
  rw [rendering_group, Altered, ← or_false (Overtaken _ _ _ _ _), ← List.append_nil [')']]
  refine taken_buffer (show bytes ['('] ≤ traceLimit by decide) ?_
  exact h.followed (bytes_trace_le i inner) (opens_rendering i inner hatoms) (by decide) (by decide)
    (Or.inl rfl) taken_end False.elim

theorem taken_both {c : Connective} {left right : Term}
    (hl : Taken 0 (left.trace i) (left.rendering i) (left.Altered i))
    (hr : Taken 0 (right.trace i) (right.rendering i) (right.Altered i))
    (hleft : ∀ name ∈ left.atoms, Token.IsWordText name)
    (hright : ∀ name ∈ right.atoms, Token.IsWordText name) :
    Taken 0 ((both c left right).trace i) ((both c left right).rendering i)
      ((both c left right).Altered i) := by
  have hsymbol : bytes c.symbol.toList = 4 := by cases c <;> decide
  rw [rendering_both, Altered, ← or_false (Overtaken (4 + _ + 2) _ _ _ _)]
  refine taken_buffer (hsymbol.trans_le (by decide)) ?_
  rw [hsymbol]
  refine hl.followed (bytes_trace_le i left) (opens_rendering i left hleft) (by decide) (by decide)
    (Or.inr rfl) (fun hroom => ?_) ?_
  · exact hr.followed (bytes_trace_le i right) (opens_rendering i right hright) hroom (by omega)
      (Or.inl rfl) taken_end False.elim
  · rintro (h | h)
    · exact (Nat.le_add_right _ _).trans h.1
    · exact h.elim

theorem taken_atom {name : String} (h : Token.IsWordText name) :
    Taken 0 ((atom name).trace i) ((atom name).rendering i) False := by
  have hflatten : (atom name).rendering i =
      (name.toList :: ['['] ::
        ((Decimal.fixedParts (i.value name)).map String.toList ++ [[']']])).flatten := by
    simp [rendering_atom, Decimal.toList_fixed]
  rw [hflatten, trace_atom]
  refine taken_pieces (Nat.zero_le _) fun piece rest hsuffix => ?_
  rcases List.suffix_cons_iff.1 hsuffix with heq | hafter
  · obtain ⟨rfl, rfl⟩ := List.cons.inj heq
    exact opens_name h _
  · -- Behind the name, every piece begins with no separator, whatever follows it.
    have hmem := hafter.subset List.mem_cons_self
    refine Opens.append ?_ _
    simp only [List.mem_cons, List.mem_append, List.mem_map, List.not_mem_nil, or_false] at hmem
    rcases hmem with rfl | ⟨part, hpart, rfl⟩ | rfl
    · exact opens_cons (by decide) (by decide) _
    · exact opens_fixedParts _ part hpart
    · exact opens_cons (by decide) (by decide) _

/-- Of every phrase over words, the trace takes all, a beginning, or it is altered. -/
theorem taken_trace {r : Rank} (p : Phrase r) (h : ∀ name ∈ p.atoms, Token.IsWordText name) :
    Taken 0 (p.trace i) (p.rendering i) (p.Altered i) := by
  induction p with
  | atom name => exact taken_atom i (h name (by simp [atoms]))
  | group inner ih => exact taken_group i (ih h) h
  | negation inner ih =>
    rw [rendering_negation]
    refine taken_buffer (show bytes "1 - ".toList ≤ traceLimit by decide) ?_
    exact (taken_group i (ih h) h).last (bytes_trace_le i (group inner)) (opens_rendering i (group inner) h)
      (by decide)
  | single term ih => exact ih h
  | both c left right ihl ihr =>
    rw [atoms, List.forall_mem_append] at h
    exact taken_both i (ihl h.1) (ihr h.2) h.1 h.2

end Phrase

namespace Statement

variable {text : String} {i : Interpretation}

/-- The atoms of a text are words. -/
theorem isWordText_of_mem_atoms {s : Statement} (h : Token.ofText text = s.tokens) {name : String}
    (hname : name ∈ Phrase.atoms s) : Token.IsWordText name := by
  obtain ⟨l, rfl⟩ := Layout.exists_of_text text
  have hm : Token.atom name ∈ l.tokens := by
    rw [← l.ofText_text, h]
    exact mem_tokens_of_mem_atoms hname
  obtain ⟨piece, -, hpiece⟩ := List.mem_map.1 hm
  have hproper := piece.proper
  rw [hpiece] at hproper
  exact hproper.1

/-- A trace is a beginning of the rendering exactly where no part of it that was cut short is overtaken by the
text after it. -/
theorem trace_prefix_iff_not_overtaken {t : String} (h : trace text i = .ok t) :
    ∃ s : Statement, Token.ofText text = s.tokens ∧ t.toList = Phrase.trace i s ∧
      ∃ full, (Phrase.derivation s).Renders i full ∧ full.toList = Phrase.rendering i s ∧
        (t.toList <+: full.toList ↔ ¬Phrase.Altered i s) := by
  obtain ⟨s, hs, hknown, ht⟩ := trace_eq_ok_iff.1 h
  have hatoms : ∀ name ∈ Phrase.atoms s, Token.IsWordText name := fun name hname =>
    isWordText_of_mem_atoms hs hname
  refine ⟨s, hs, ht, _, (Phrase.derivation s).renders_rendering ?_, rfl, ?_⟩
  · rwa [Phrase.filterMap_name?_tokens]
  · rw [ht]
    exact (Phrase.taken_trace i s hatoms).prefix_iff

/-- A second operand that does not fit into the buffer of a group is dropped, and the third one is written. -/
theorem trace_drops_middle_operand :
    let a := String.ofList (List.replicate 200 'A')
    let b := String.ofList (List.replicate 100 'B')
    let text := "(" ++ a ++ " AND " ++ b ++ ") OR C"
    let i : Interpretation := fun _ => some 0.5
    let t := "max((min(" ++ a ++ "[0.50], ), C[0.50])"
    trace text i = .ok t ∧
      ∃ s : Statement, Token.ofText text = s.tokens ∧
        ∃ full, (Phrase.derivation s).Renders i full ∧ ¬t.toList <+: full.toList := by
  intro a b text i t
  let inner : Statement := .both .and (.atom a) (.atom b)
  let s : Statement := .both .or (.group inner) (.atom "C")
  -- The names are spelled out once, so that nothing has to decode them again.
  have ha : a.toList = List.replicate 200 'A' := String.toList_ofList
  have hb : b.toList = List.replicate 100 'B' := String.toList_ofList
  have htext : text.toList = "(".toList ++ List.replicate 200 'A' ++ " AND ".toList ++
      List.replicate 100 'B' ++ ") OR C".toList := by
    simp only [text, String.toList_append, ha, hb]
  have htokens : Token.ofText text = s.tokens := by
    rw [Token.ofText, htext]
    decide +kernel
  have hinner : Phrase.trace i inner = "min(".toList ++ List.replicate 200 'A' ++ "[0.50], ".toList := by
    simp only [inner, Phrase.trace_both, Phrase.trace_atom, ha, hb]
    decide +kernel
  have hout : t.toList = Phrase.trace i s := by
    simp only [s, t, Phrase.trace_both, Phrase.trace_group, String.toList_append, ha, hinner]
    decide +kernel
  have htrace : trace text i = .ok t := trace_eq_ok_iff.2 ⟨s, htokens, fun _ _ => rfl, hout⟩
  have hgroup : Phrase.Altered i (.group inner) := by
    refine ⟨?_, Or.inr ⟨?_, ?_⟩⟩
    · rw [hinner]
      decide +kernel
    · rw [Phrase.rendering_both, Phrase.rendering_atom, Phrase.rendering_atom, ha, hb]
      decide +kernel
    · rw [hinner]
      decide +kernel
  have haltered : Phrase.Altered i s := by
    refine Or.inl ⟨?_, Or.inl hgroup⟩
    rw [Phrase.trace_group, hinner]
    decide +kernel
  obtain ⟨s', hs', -, full, hfull, -, hprefix⟩ := trace_prefix_iff_not_overtaken htrace
  obtain rfl := tokens_injective (htokens.symm.trans hs')
  exact ⟨htrace, s, htokens, full, hfull, fun h => hprefix.1 h haltered⟩

end Statement

end FuzzyMotion
