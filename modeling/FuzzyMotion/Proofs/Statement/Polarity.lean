import FuzzyMotion.Proofs.Binary32.Monotone
import FuzzyMotion.Proofs.Statement.Range
import Mathlib.Algebra.Ring.Parity

/-!
The polarity of predicates. A predicate under an even number of negations pulls the degree of a statement
its own way, and one under an odd number pulls it the other way. No two negations cancel, since each
complement is rounded, but each turns the order of two degrees around, and that is all that is used.
-/
namespace FuzzyMotion

open Binary32

namespace Phrase

/-- The names that occur, from left to right, each with the number of negations that it stands under. -/
def occurrences : {r : Rank} → Phrase r → List (String × ℕ)
  | _, atom name => [(name, 0)]
  | _, group inner => inner.occurrences
  | _, negation inner => inner.occurrences.map fun o => (o.1, o.2 + 1)
  | _, single term => term.occurrences
  | _, both _ left right => left.occurrences ++ right.occurrences

end Phrase

/-- The order of two degrees as it shows under a number of negations. -/
def OrderedUnder (negations : ℕ) (x y : Float32) : Prop :=
  if Even negations then x ≤ y else y ≤ x

instance (n : ℕ) (x y : Float32) : Decidable (OrderedUnder n x y) :=
  inferInstanceAs (Decidable (if Even n then x ≤ y else y ≤ x))

theorem orderedUnder_zero {x y : Float32} : OrderedUnder 0 x y ↔ x ≤ y := by
  simp [OrderedUnder]

theorem orderedUnder_succ {n : ℕ} {x y : Float32} : OrderedUnder (n + 1) x y ↔ OrderedUnder n y x := by
  by_cases h : Even n <;> simp [OrderedUnder, Nat.even_add_one, h]

namespace Interpretation

/-- One interpretation is below another for a phrase: each name has the smaller degree where it occurs under
an even number of negations, and the larger one where it occurs under an odd number. A name that occurs in
both ways has the same degree. -/
def BelowFor (i j : Interpretation) {r : Rank} (p : Phrase r) : Prop :=
  ∀ o ∈ p.occurrences, OrderedUnder o.2 (i.value o.1) (j.value o.1)

instance (i j : Interpretation) {r : Rank} (p : Phrase r) : Decidable (i.BelowFor j p) :=
  inferInstanceAs (Decidable (∀ o ∈ p.occurrences, OrderedUnder o.2 (i.value o.1) (j.value o.1)))

variable {i j : Interpretation}

/-- Under a negation the two change places. -/
theorem BelowFor.negation {inner : Statement} (h : i.BelowFor j (.negation inner)) :
    j.BelowFor i inner := by
  intro o ho
  exact orderedUnder_succ.1 (h (o.1, o.2 + 1) (List.mem_map_of_mem ho))

theorem BelowFor.both {c : Connective} {left right : Term} (h : i.BelowFor j (.both c left right)) :
    i.BelowFor j left ∧ i.BelowFor j right :=
  ⟨fun o ho => h o (List.mem_append_left _ ho), fun o ho => h o (List.mem_append_right _ ho)⟩

end Interpretation

theorem Connective.apply_mono (c : Connective) {x y u v : Float32} (hx : x ≤ u) (hy : y ≤ v) :
    c.apply x y ≤ c.apply u v := by
  cases c with
  | and => exact min_mono hx hy
  | or => exact max_mono hx hy

theorem Phrase.degree_mono {i j : Interpretation} {r : Rank} (p : Phrase r) (h : i.BelowFor j p) :
    p.degree i ≤ p.degree j := by
  -- The two interpretations change places at each negation, so the induction is over both.
  induction p generalizing i j with
  | atom name => exact orderedUnder_zero.1 (h (name, 0) (List.mem_singleton_self _))
  | group inner ih => exact ih h
  | negation inner ih => exact complement_antitone (ih h.negation)
  | single term ih => exact ih h
  | both c left right ihl ihr => exact c.apply_mono (ihl h.both.1) (ihr h.both.2)

namespace Statement

/-- Evaluation is monotone by polarity, and it stays between zero and one. -/
theorem evaluate_monotone_by_polarity {text : String} {s : Statement}
    (hs : Token.ofText text = s.tokens) :
    (∀ i j : Interpretation, (∀ a ∈ s.atoms, i.knows a = true ∧ j.knows a = true) → i.BelowFor j s →
      ∃ x y, evaluate text i = .ok x ∧ evaluate text j = .ok y ∧ x ≤ y) ∧
    ∀ i : Interpretation, (∀ a ∈ s.atoms, i.knows a = true ∧ 0 ≤ i.value a ∧ i.value a ≤ 1) →
      ∃ x, evaluate text i = .ok x ∧ 0 ≤ x ∧ x ≤ 1 := by
  refine ⟨fun i j hknown hbelow => ?_, fun i h => ?_⟩
  · have hi := evaluate_eq_ok_iff.2 ⟨s, hs, fun a ha => (hknown a ha).1, rfl⟩
    have hj := evaluate_eq_ok_iff.2 ⟨s, hs, fun a ha => (hknown a ha).2, rfl⟩
    exact ⟨_, _, hi, hj, s.degree_mono hbelow⟩
  · have hi := evaluate_eq_ok_iff.2 ⟨s, hs, fun a ha => (h a ha).1, rfl⟩
    have hdegree := s.isDegree_degree fun a ha => isDegree_iff_bounds.2 (h a ha).2
    exact ⟨_, hi, hdegree.bounds.2⟩

/-- A predicate in both polarities, one under two negations and one under a single one. -/
theorem evaluate_rises_with_polarity :
    let text := "(A OR NOT(NOT(B))) AND NOT(C AND A)"
    let statement : Statement :=
      .both .and (.group (.both .or (.atom "A") (.negation (.single (.negation (.single (.atom "B")))))))
        (.negation (.both .and (.atom "C") (.atom "A")))
    let low : Interpretation :=
      fun name => if name = "A" then some 0.5 else if name = "B" then some 0.25 else some 0.75
    let high : Interpretation :=
      fun name => if name = "A" then some 0.5 else if name = "B" then some 0.75 else some 0.25
    Token.ofText text = statement.tokens ∧
      (∀ a ∈ statement.atoms, low.knows a = true ∧ high.knows a = true) ∧ low.BelowFor high statement ∧
      (∃ x y, evaluate text low = .ok x ∧ evaluate text high = .ok y ∧ x ≤ y) ∧
      (∀ a ∈ statement.atoms, low.knows a = true ∧ 0 ≤ low.value a ∧ low.value a ≤ 1) ∧
      ∃ x, evaluate text low = .ok x ∧ 0 ≤ x ∧ x ≤ 1 := by
  intro text statement low high
  have htokens : Token.ofText text = statement.tokens := by decide
  have hknown : ∀ a ∈ statement.atoms, low.knows a = true ∧ high.knows a = true := by decide
  have hbelow : low.BelowFor high statement := by decide
  have hbounds : ∀ a ∈ statement.atoms, low.knows a = true ∧ 0 ≤ low.value a ∧ low.value a ≤ 1 := by
    decide
  have hmono := evaluate_monotone_by_polarity htokens
  exact ⟨htokens, hknown, hbelow, hmono.1 low high hknown hbelow, hbounds, hmono.2 low hbounds⟩

end Statement

end FuzzyMotion
