import FuzzyMotion.Proofs.Binary32.Largest
import FuzzyMotion.Proofs.Binary32.Smallest

/-!
The logical connectives and the order of numbers, infinities among them. The smaller and the larger one of
two numbers grow with both, and the complement turns the order around; its rounding keeps the order, since
larger results are not rounded to smaller ones.
-/
namespace FuzzyMotion.Binary32

open Float.Model (UnpackedFloat Format)
open Float.Model.UnpackedFloat (Sign)

variable {x y : Float32} {p : ℚ}

theorem min_mono {u v : Float32} (hx : x ≤ u) (hy : y ≤ v) : min x y ≤ min u v := by
  obtain ⟨hnx, hnu, -⟩ := le_iff_value.1 hx
  obtain ⟨hny, -, -⟩ := le_iff_value.1 hy
  obtain ⟨hlex, hley, -⟩ := min_of_number (y := y) hnx
  obtain ⟨-, -, hor⟩ := min_of_number (y := v) hnu
  cases hor with
  | inl h =>
    rw [h]
    exact le_trans_of_number hlex hx
  | inr h =>
    rw [h]
    exact le_trans_of_number (hley hny) hy

theorem max_mono {u v : Float32} (hx : x ≤ u) (hy : y ≤ v) : max x y ≤ max u v := by
  obtain ⟨hnx, hnu, -⟩ := le_iff_value.1 hx
  obtain ⟨-, hnv, -⟩ := le_iff_value.1 hy
  obtain ⟨hleu, hlev, -⟩ := max_of_number (y := v) hnu
  obtain ⟨-, -, hor⟩ := max_of_number (y := y) hnx
  cases hor with
  | inl h =>
    rw [h]
    exact le_trans_of_number hx hleu
  | inr h =>
    rw [h]
    exact le_trans_of_number hy (hlev hnv)

section Complement

/-- The complement of a finite number is finite: one is too small beside the bound to reach it. -/
theorem Is.complement (hx : Is x p) : Is (1 - x) (rounded (1 - p)) := by
  have hsmall := abs_rounded_add_lt hx.neg zero_le_one (by norm_num)
  rw [neg_add_eq_sub] at hsmall
  exact is_one.sub hx hsmall

theorem complement_of_infinity {s : Sign} (hs : x.toModel.unpack = .infinity s) :
    (1 - x).toModel.unpack = .infinity (-s) := by
  have hdiff : 1 - x = .ofModel (.pack
      (UnpackedFloat.sub Format.binary32 (1 : Float32).toModel.unpack x.toModel.unpack)) := rfl
  rw [hdiff, hs]
  cases s <;> rfl

/-- The complement of a number is a number, and infinities are complemented as if they were finite. -/
theorem value_complement (hx : x.isNaN = false) :
    (1 - x).isNaN = false ∧ value (1 - x) = rounded (1 - value x) := by
  obtain ⟨p, hp⟩ | ⟨s, hs⟩ := finite_or_infinite hx
  · rw [hp.value_eq]
    exact ⟨hp.complement.isNaN, hp.complement.value_eq⟩
  · obtain ⟨hnan, hvalue⟩ := value_of_infinity (complement_of_infinity hs)
    refine ⟨hnan, ?_⟩
    have hone : 1 - signFactor s * 2 ^ (128 : ℤ) = -(signFactor s * (2 ^ (128 : ℤ) + -signFactor s)) := by
      have hsquare := signFactor_mul_self s 1
      rw [mul_one] at hsquare
      linear_combination -hsquare
    rw [hvalue, (value_of_infinity hs).2, hone, rounded_neg, rounded_signFactor_mul, rounded_top_add]
    · rw [signFactor_neg, neg_mul]
    · rw [abs_neg, abs_signFactor]

theorem complement_antitone (h : x ≤ y) : 1 - y ≤ 1 - x := by
  obtain ⟨hx, hy, hle⟩ := le_iff_value.1 h
  obtain ⟨hnx, hvx⟩ := value_complement hx
  obtain ⟨hny, hvy⟩ := value_complement hy
  refine le_iff_value.2 ⟨hny, hnx, ?_⟩
  rw [hvx, hvy]
  exact rounded_mono (by linarith)

end Complement

end FuzzyMotion.Binary32
