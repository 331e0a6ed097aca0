import FuzzyMotion.Proofs.Binary32.Degree
import FuzzyMotion.Proofs.Statement.Derivation

/-!
The range of statements: over predicates with degrees between zero and one, every statement has such
a degree. Where the degree of a predicate can be no number, so can the degree of a statement, but there
is no third case.
-/
namespace FuzzyMotion

open Binary32

namespace Interpretation

/-- Every predicate that is known has a degree between zero and one. -/
def Graded (i : Interpretation) : Prop :=
  ∀ name x, i name = some x → IsDegree x

/-- What zero has and the degree of a name, if it has one, the value of the name has. -/
theorem value_of_known {P : Float32 → Prop} {i : Interpretation} {name : String} (hzero : P 0)
    (h : ∀ x, i name = some x → P x) : P (i.value name) := by
  rw [Interpretation.value]
  cases hx : i name with
  | none => exact hzero
  | some x => exact h x hx

theorem Graded.value {i : Interpretation} (h : i.Graded) (name : String) :
    IsDegree (i.value name) :=
  value_of_known isDegree_zero (h name)

end Interpretation

/-- What the connectives preserve, all phrases have from their atoms. -/
theorem Phrase.degree_induction {P : Float32 → Prop} {i : Interpretation}
    (hnot : ∀ {x}, P x → P (1 - x)) (hand : ∀ {x y}, P x → P y → P (Binary32.min x y))
    (hor : ∀ {x y}, P x → P y → P (Binary32.max x y)) {r : Rank} (p : Phrase r)
    (h : ∀ a ∈ p.atoms, P (i.value a)) : P (p.degree i) := by
  induction p with
  | atom name => exact h name (List.mem_singleton_self name)
  | group inner ih => exact ih h
  | negation inner ih => exact hnot (ih h)
  | single term ih => exact ih h
  | both c left right ihl ihr =>
    have hl := ihl fun a ha => h a (List.mem_append_left _ ha)
    have hr := ihr fun a ha => h a (List.mem_append_right _ ha)
    cases c with
    | and => exact hand hl hr
    | or => exact hor hl hr

theorem Phrase.isDegree_degree {i : Interpretation} {r : Rank} (p : Phrase r)
    (h : ∀ a ∈ p.atoms, IsDegree (i.value a)) : IsDegree (p.degree i) :=
  p.degree_induction (P := IsDegree) (fun hx => hx.complement.isDegree) IsDegree.min IsDegree.max h

theorem Phrase.isGrade_degree {i : Interpretation} (h : ∀ name x, i name = some x → IsGrade x)
    {r : Rank} (p : Phrase r) : IsGrade (p.degree i) :=
  p.degree_induction (P := IsGrade) IsGrade.complement IsGrade.min IsGrade.max
    fun a _ => Interpretation.value_of_known isDegree_zero.isGrade (h a)

namespace Statement

theorem isGrade_evaluate {i : Interpretation} (h : ∀ name x, i name = some x → IsGrade x)
    {text : String} {x : Float32} (hx : evaluate text i = .ok x) : IsGrade x := by
  obtain ⟨s, -, -, rfl⟩ := evaluate_eq_ok_iff.1 hx
  exact s.isGrade_degree h

theorem isDegree_evaluate {i : Interpretation} (h : i.Graded) {text : String} {x : Float32}
    (hx : evaluate text i = .ok x) : IsDegree x := by
  obtain ⟨s, -, -, rfl⟩ := evaluate_eq_ok_iff.1 hx
  exact s.isDegree_degree fun a _ => h.value a

/-- The degree of a text that writes down a given statement. -/
theorem evaluate_of_tokens {i : Interpretation} {text : String} {s : Statement} {x : Float32}
    (ht : Token.ofText text = s.tokens) (hx : evaluate text i = .ok x) : x = s.degree i := by
  obtain ⟨r, hr, ha, rfl⟩ := evaluate_eq_ok_iff.1 hx
  have hatoms : r.atoms = s.atoms := by
    rw [← Phrase.filterMap_name?_tokens, ← Phrase.filterMap_name?_tokens, ← hr, ht]
  have hread : ofText i text = .ok r := ofText_eq_ok_iff.2 ⟨hr, ha⟩
  have hread' : ofText i text = .ok s := ofText_eq_ok_iff.2 ⟨ht, by rwa [← hatoms]⟩
  have hrs : r = s := by
    rw [hread] at hread'
    exact Except.ok.inj hread'
  rw [hrs]

end Statement

end FuzzyMotion
