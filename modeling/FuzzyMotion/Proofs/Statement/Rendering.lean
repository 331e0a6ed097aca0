import FuzzyMotion.Proofs.Decimal.Hundredths
import FuzzyMotion.Proofs.Statement.Derivation
import FuzzyMotion.Proofs.Text.Beginning
import FuzzyMotion.Statement.Evaluation

/-!
Traces as renderings. A text renders a derivation if it writes down, without any limit, how the value is
computed, every truth with two decimal places. A trace is written into buffers, one inside the other; it is
the rendering wherever this fits into one buffer, since then every part of it fits into the buffer of its
own. Degrees and traces are computed, and fail, for the same statements.
-/
namespace FuzzyMotion

namespace Text

/-- Pieces that fit are all written. -/
theorem fill_of_fits {limit : Nat} {pieces : List (List Char)}
    (h : bytes pieces.flatten ≤ limit) : fill limit pieces = pieces.flatten := by
  induction pieces generalizing limit with
  | nil => rfl
  | cons piece rest ih =>
    rw [List.flatten_cons, bytes_append] at h
    rw [fill, if_pos (by omega), ih (by omega), List.flatten_cons]

end Text

theorem buffer_of_fits {pieces : List (List Char)} {full : String}
    (hp : pieces.flatten = full.toList) (hfit : full.utf8ByteSize ≤ traceLimit) :
    buffer pieces = full.toList := by
  rw [← hp]
  refine Text.fill_of_fits ?_
  rwa [hp, Text.bytes_toList]

/-- Every part of a trace fits into a buffer. -/
theorem Phrase.bytes_trace_le (i : Interpretation) {r : Rank} (p : Phrase r) :
    Text.bytes (p.trace i) ≤ traceLimit := by
  induction p with
  | single term ih => exact ih
  | _ => exact Text.bytes_fill_le _ _

namespace Derivation

/-- A text that says in full how the value comes about along the tree. -/
def Renders (i : Interpretation) {n : Nonterminal} {ts : List Token} : Derivation n ts → String → Prop
  | single t, full => t.Renders i full
  | conjunction l r, full =>
    ∃ a b, l.Renders i a ∧ r.Renders i b ∧ full = "min(" ++ a ++ ", " ++ b ++ ")"
  | disjunction l r, full =>
    ∃ a b, l.Renders i a ∧ r.Renders i b ∧ full = "max(" ++ a ++ ", " ++ b ++ ")"
  | atom name, full =>
    ∃ truth shown, i name = some truth ∧ Decimal.ShowsHundredths truth shown ∧
      full = name ++ "[" ++ shown ++ "]"
  | enclosed e, full => e.Renders i full
  | negated e, full => ∃ a, e.Renders i a ∧ full = "1 - " ++ a
  | parentheses s, full => ∃ a, s.Renders i a ∧ full = "(" ++ a ++ ")"

/-- The text that is written where there is room for it. -/
def rendering (i : Interpretation) {n : Nonterminal} {ts : List Token} : Derivation n ts → String
  | single t => t.rendering i
  | conjunction l r => "min(" ++ l.rendering i ++ ", " ++ r.rendering i ++ ")"
  | disjunction l r => "max(" ++ l.rendering i ++ ", " ++ r.rendering i ++ ")"
  | atom name => name ++ "[" ++ Decimal.fixed ((i name).getD 0) ++ "]"
  | enclosed e => e.rendering i
  | negated e => "1 - " ++ e.rendering i
  | parentheses s => "(" ++ s.rendering i ++ ")"

/-- A derivation has a rendering where its atoms have degrees. -/
theorem renders_rendering {i : Interpretation} {n : Nonterminal} {ts : List Token} (d : Derivation n ts)
    (h : ∀ name ∈ ts.filterMap Token.name?, i.knows name = true) : d.Renders i (d.rendering i) := by
  induction d with
  | single _ ih => exact ih h
  | conjunction _ _ ihl ihr | disjunction _ _ ihl ihr =>
    rw [List.filterMap_append, List.forall_mem_append] at h
    exact ⟨_, _, ihl h.1, ihr h.2, rfl⟩
  | atom name =>
    obtain ⟨truth, htruth⟩ := Option.isSome_iff_exists.1 (h name List.mem_cons_self)
    refine ⟨truth, _, htruth, Decimal.showsHundredths_fixed truth, ?_⟩
    rw [rendering, htruth, Option.getD_some]
  | enclosed _ ih => exact ih h
  | negated _ ih => exact ⟨_, ih h, rfl⟩
  | parentheses _ ih =>
    refine ⟨_, ih fun name hname => h name ?_, rfl⟩
    rw [List.filterMap_cons, List.filterMap_append]
    exact List.mem_append_left _ hname

/-- And it has no other one. -/
theorem Renders.eq_rendering {i : Interpretation} {n : Nonterminal} {ts : List Token} {d : Derivation n ts}
    {full : String} (h : d.Renders i full) : full = d.rendering i := by
  induction d generalizing full with
  | single _ ih => exact ih h
  | conjunction _ _ ihl ihr | disjunction _ _ ihl ihr =>
    obtain ⟨a, b, ha, hb, rfl⟩ := h
    rw [ihl ha, ihr hb, rendering]
  | atom name =>
    obtain ⟨truth, shown, htruth, hshown, rfl⟩ := h
    rw [hshown.unique (Decimal.showsHundredths_fixed truth), rendering, htruth, Option.getD_some]
  | enclosed _ ih => exact ih h
  | negated _ ih =>
    obtain ⟨a, ha, rfl⟩ := h
    rw [ih ha, rendering]
  | parentheses _ ih =>
    obtain ⟨a, ha, rfl⟩ := h
    rw [ih ha, rendering]

/-- What a derivation says about the traces of phrases: one with the same tokens has the rendering as its
trace, where this fits. The trace of an enclosure is that of the statement, in parentheses. -/
def Traces (i : Interpretation) (full : String) (ts : List Token) : Nonterminal → Prop
  | .statement => ∃ s : Statement, s.tokens = ts ∧
    (full.utf8ByteSize ≤ traceLimit → Phrase.trace i s = full.toList)
  | .term => ∃ t : Term, t.tokens = ts ∧
    (full.utf8ByteSize ≤ traceLimit → t.trace i = full.toList)
  | .enclosure => ∃ s : Statement, .opening :: (s.tokens ++ [.closing]) = ts ∧
    (full.utf8ByteSize ≤ traceLimit → buffer [['('], Phrase.trace i s, [')']] = full.toList)

theorem traces_both (i : Interpretation) (c : Connective) {left right : Term} {l r : String}
    (hl : l.utf8ByteSize ≤ traceLimit → left.trace i = l.toList)
    (hr : r.utf8ByteSize ≤ traceLimit → right.trace i = r.toList)
    (hfit : (c.symbol ++ l ++ ", " ++ r ++ ")").utf8ByteSize ≤ traceLimit) :
    (Phrase.both c left right).trace i = (c.symbol ++ l ++ ", " ++ r ++ ")").toList := by
  have hsize := hfit
  simp only [String.utf8ByteSize_append] at hsize
  rw [Phrase.trace_both, hl (by omega), hr (by omega)]
  exact buffer_of_fits (by simp) hfit

/-- The parts of a rendering that fits fit as well, so none of the buffers inside cuts anything off. -/
theorem traces (i : Interpretation) {n : Nonterminal} {ts : List Token} (d : Derivation n ts) :
    Traces i (d.rendering i) ts n := by
  induction d with
  | single _ ih =>
    obtain ⟨t, rfl, ht⟩ := ih
    exact ⟨.single t, rfl, ht⟩
  | conjunction _ _ ihl ihr =>
    obtain ⟨l, rfl, hl⟩ := ihl
    obtain ⟨r, rfl, hr⟩ := ihr
    exact ⟨.both .and l r, rfl, traces_both i .and hl hr⟩
  | disjunction _ _ ihl ihr =>
    obtain ⟨l, rfl, hl⟩ := ihl
    obtain ⟨r, rfl, hr⟩ := ihr
    exact ⟨.both .or l r, rfl, traces_both i .or hl hr⟩
  | atom name =>
    refine ⟨.atom name, rfl, buffer_of_fits ?_⟩
    simp [rendering, Interpretation.value, Decimal.toList_fixed]
  | enclosed _ ih =>
    obtain ⟨s, rfl, hs⟩ := ih
    exact ⟨.group s, rfl, hs⟩
  | negated _ ih =>
    obtain ⟨s, rfl, hs⟩ := ih
    refine ⟨.negation s, rfl, fun hfit => ?_⟩
    rw [rendering, String.utf8ByteSize_append] at hfit
    rw [Phrase.trace_negation, Phrase.trace_group, hs (by omega)]
    exact buffer_of_fits (by simp [rendering]) (by rwa [rendering, String.utf8ByteSize_append])
  | parentheses _ ih =>
    obtain ⟨s, rfl, hs⟩ := ih
    refine ⟨s, rfl, fun hfit => buffer_of_fits ?_ hfit⟩
    simp only [rendering, String.utf8ByteSize_append] at hfit
    rw [hs (by omega), rendering]
    simp

end Derivation

namespace Statement

variable {text : String} {i : Interpretation}

/-- The tokens of a statement tell it apart. -/
theorem tokens_injective {s t : Statement} (h : s.tokens = t.tokens) : s = t := by
  have hs := ofTokens_tokens .total s fun _ _ => rfl
  rw [h, ofTokens_tokens .total t fun _ _ => rfl] at hs
  exact (Except.ok.inj hs).symm

theorem trace_eq_error_iff {f : Fault} : trace text i = .error f ↔ evaluate text i = .error f := by
  rw [trace, map_eq_error_iff]
  exact interpret_fails_alike .symbolic .numeric i text f

/-- A trace is that of the statement that has been read. -/
theorem trace_eq_map (text : String) (i : Interpretation) :
    trace text i = (ofText i text).map fun s => String.ofList (Phrase.trace i s) := by
  rw [trace, interpret_eq_map]
  cases ofText i text <;> rfl

theorem trace_eq_ok_iff {t : String} :
    trace text i = .ok t ↔
      ∃ s : Statement, Token.ofText text = s.tokens ∧ (∀ a ∈ s.atoms, i.knows a = true) ∧
        t.toList = Phrase.trace i s := by
  have hlist : ∀ s : Statement, String.ofList (Phrase.trace i s) = t ↔ t.toList = Phrase.trace i s := by
    intro s
    rw [← String.toList_inj, String.toList_ofList, eq_comm]
  simp only [trace_eq_map, map_eq_ok_iff, ofText_eq_ok_iff, and_assoc, hlist]

theorem utf8ByteSize_trace_le {t : String} (h : trace text i = .ok t) :
    t.utf8ByteSize ≤ traceLimit := by
  obtain ⟨s, -, -, ht⟩ := trace_eq_ok_iff.1 h
  rw [← Text.bytes_toList, ht]
  exact Phrase.bytes_trace_le i s

/-- A trace cannot be written exactly where a degree cannot be computed, and for the same reason. Otherwise
it is the text that renders the derivation, which gives the degree, if this text fits into a buffer; and the
trace always fits itself. -/
theorem trace_renders_evaluation (text : String) (i : Interpretation) :
    (∀ f, trace text i = .error f ↔ evaluate text i = .error f) ∧
      (∀ t, trace text i = .ok t → t.utf8ByteSize ≤ 256) ∧
      ∀ x, evaluate text i = .ok x →
        ∃ t, trace text i = .ok t ∧ Nonempty (Derivation .statement (Token.ofText text)) ∧
          ∀ d : Derivation .statement (Token.ofText text), d.value i = x ∧
            (∃ full, d.Renders i full) ∧
            ∀ full, d.Renders i full → full.utf8ByteSize ≤ 256 → t = full := by
  refine ⟨fun f => trace_eq_error_iff, fun t => utf8ByteSize_trace_le, ?_⟩
  intro x hx
  obtain ⟨s, hs, hknown, rfl⟩ := evaluate_eq_ok_iff.1 hx
  have htrace : trace text i = .ok (String.ofList (Phrase.trace i s)) :=
    trace_eq_ok_iff.2 ⟨s, hs, hknown, String.toList_ofList⟩
  refine ⟨_, htrace, ⟨hs ▸ Phrase.derivation s⟩, fun d => ⟨?_, ⟨d.rendering i, ?_⟩, ?_⟩⟩
  · obtain ⟨t, ht, hvalue⟩ := d.reads i
    obtain rfl : t = s := tokens_injective (ht.trans hs)
    exact hvalue.symm
  · refine d.renders_rendering ?_
    rwa [hs, Phrase.filterMap_name?_tokens]
  · intro full hfull hfit
    obtain rfl := hfull.eq_rendering
    obtain ⟨t, ht, hrendering⟩ := d.traces i
    obtain rfl : t = s := tokens_injective (ht.trans hs)
    rw [hrendering hfit, String.ofList_toList]

end Statement

end FuzzyMotion
