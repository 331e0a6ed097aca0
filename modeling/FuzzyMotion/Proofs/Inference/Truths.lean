import FuzzyMotion.Proofs.Inference.Steps
import FuzzyMotion.Proofs.RuleBase.Built
import Mathlib.Data.List.TakeWhile

/-!
What fuzzification leaves in the table of truths. The predicates are recorded in their order up to
the first one whose input is missing, and this is all that the table holds.
-/
namespace FuzzyMotion

namespace Predicate

/-- Whether the input of the predicate has a value. -/
def supplied (inputs : Inputs) (p : Predicate) : Bool :=
  (inputs.get? p.input).isSome

/-- The degree of the predicate at the value of its input. -/
def truth (inputs : Inputs) (p : Predicate) : Float32 :=
  Binary32.toDegree (p.membership.degree ((inputs.get? p.input).getD 0))

end Predicate

namespace RuleBase

/-- The first predicate whose input has no value. -/
def missing? (b : RuleBase) (inputs : Inputs) : Option Predicate :=
  b.predicates.find? fun p => !p.supplied inputs

def truths (b : RuleBase) (inputs : Inputs) : Truths :=
  ⟨(b.predicates.takeWhile (·.supplied inputs)).map fun p => (p.name, p.truth inputs)⟩

theorem missing?_eq_none_iff {b : RuleBase} {inputs : Inputs} :
    b.missing? inputs = none ↔ ∀ p ∈ b.predicates, p.supplied inputs = true := by
  simp [missing?]

/-- Where no input is missing, the table of truths holds the degrees of all predicates. -/
theorem entries_truths {b : RuleBase} {inputs : Inputs} (h : b.missing? inputs = none) :
    (b.truths inputs).entries = b.predicates.map fun p => (p.name, p.truth inputs) := by
  rw [truths, List.takeWhile_eq_self_iff.2 (missing?_eq_none_iff.1 h)]

theorem keys_truths {b : RuleBase} {inputs : Inputs} (h : b.missing? inputs = none) :
    (b.truths inputs).keys = b.predicateNames := by
  simp [Table.keys, entries_truths h, predicateNames, Function.comp_def]

end RuleBase

namespace Inference

open Operation

/-- Recording predicates with fresh names, for which there is room. -/
theorem recordAll_eq (inputs : Inputs) (ps : List Predicate) (t : Truths)
    (hn : (t.keys ++ ps.map Predicate.name).Nodup)
    (hc : t.size + ps.length ≤ Capacity.truths.limit) :
    recordAll inputs ps t =
      (match ps.find? fun p => !p.supplied inputs with
        | none => .ok ()
        | some p => .error (.unknownInput p.input),
      ⟨t.entries ++ (ps.takeWhile (·.supplied inputs)).map fun p => (p.name, p.truth inputs)⟩) := by
  induction ps generalizing t with
  | nil => simp [recordAll]
  | cons p ps ih =>
    rw [recordAll]
    cases hx : inputs.get? p.input with
    | none =>
      have hs : p.supplied inputs = false := by simp [Predicate.supplied, hx]
      simp [hs]
    | some x =>
      have hs : p.supplied inputs = true := by simp [Predicate.supplied, hx]
      have hd : Binary32.toDegree (p.membership.degree x) = p.truth inputs := by
        simp [Predicate.truth, hx]
      have hfresh : p.name ∉ t.keys := by
        intro hm
        exact (List.nodup_append.1 hn).2.2 _ hm _ (by simp) rfl
      have hroom : t.size < Capacity.truths.limit := by
        simp only [List.length_cons] at hc
        omega
      have hi : t.insert p.name (p.truth inputs) = .ok (t.append p.name (p.truth inputs)) := by
        simp [Table.insert, hfresh, hroom]
      simp only [hd, hi]
      rw [ih (t.append p.name (p.truth inputs))]
      · simp [hs, Table.append]
      · simpa using hn
      · simp only [Table.size, Table.append, List.length_append, List.length_cons,
          List.length_nil] at hc ⊢
        omega

/-- Fuzzification succeeds exactly where no input is missing. -/
theorem run_fuzzify_of_wellFormed {e : Inference} (h : e.base.WellFormed) :
    fuzzify.run e =
      (match e.base.missing? e.inputs with
        | none => .ok ()
        | some p => .error (.unknownInput p.input),
      e.withTruths (e.base.truths e.inputs)) := by
  have hc := h.predicates_le
  have hl := Capacity.limit_predicates_le_truths
  rw [run_fuzzify, recordAll_eq]
  · rfl
  · simpa [RuleBase.predicateNames] using h.predicateNames_nodup
  · simp only [Table.size_empty]
    omega

/-- Where no input is missing, every declared predicate has a truth. -/
theorem knows_of_missing?_eq_none {b : RuleBase} {inputs : Inputs}
    (h : b.missing? inputs = none) {name : String} (hn : name ∈ b.predicateNames) :
    (b.truths inputs).interpretation.knows name = true := by
  have hm : name ∈ (b.truths inputs).keys := by rwa [RuleBase.keys_truths h]
  have hne : (b.truths inputs).get? name ≠ none := fun h => Table.get?_eq_none_iff.1 h hm
  exact Option.isSome_iff_ne_none.2 hne

end Inference

end FuzzyMotion
