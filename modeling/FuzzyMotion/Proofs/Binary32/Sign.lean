import FuzzyMotion.Proofs.Binary32.Rounding
import Mathlib.Data.Sign.Basic

/-!
Signs of rounded results. A result that does not underflow has the sign of the exact one, so along a
chain of operations the sign is decided by exact arithmetic, as long as there is a bound on how close to
zero the results can come.
-/
namespace FuzzyMotion.Binary32

/-- Zero, or no closer to zero than a power of two. -/
def AwayFromZero (k : ℤ) (q : ℚ) : Prop :=
  q = 0 ∨ 2 ^ k ≤ |q|

namespace AwayFromZero

variable {p q : ℚ} {j k : ℤ}

theorem two_zpow_le_abs (h : AwayFromZero k q) (hq : q ≠ 0) : 2 ^ k ≤ |q| :=
  h.resolve_left hq

/-- Rounding neither moves a result closer to zero nor changes its sign. -/
theorem rounded (h : AwayFromZero k q) (hk : -149 ≤ k) :
    AwayFromZero k (rounded q) ∧ SignType.sign (Binary32.rounded q) = SignType.sign q := by
  have hrep : Representable (2 ^ k) := representable_two_zpow hk
  have hpos := two_zpow_pos k
  rcases lt_trichotomy q 0 with hq | rfl | hq
  · have hle : Binary32.rounded q ≤ -2 ^ k := by
      refine rounded_le hrep.neg (le_neg_of_le_neg ?_)
      rw [← abs_of_neg hq]
      exact h.two_zpow_le_abs hq.ne
    have hneg : Binary32.rounded q < 0 := hle.trans_lt (neg_neg_of_pos hpos)
    refine ⟨Or.inr ?_, by rw [sign_neg hq, sign_neg hneg]⟩
    rw [abs_of_neg hneg]
    exact le_neg_of_le_neg hle
  · rw [rounded_zero]
    exact ⟨Or.inl rfl, rfl⟩
  · have hle : 2 ^ k ≤ Binary32.rounded q := by
      refine le_rounded hrep ?_
      rw [← abs_of_pos hq]
      exact h.two_zpow_le_abs hq.ne'
    have hround : 0 < Binary32.rounded q := hpos.trans_le hle
    refine ⟨Or.inr ?_, by rw [sign_pos hq, sign_pos hround]⟩
    rwa [abs_of_pos hround]

/-- A positive factor keeps the sign. -/
theorem mul (h : AwayFromZero k q) (hp : 2 ^ j ≤ p) :
    AwayFromZero (k + j) (q * p) ∧ SignType.sign (q * p) = SignType.sign q := by
  have hpos : 0 < p := (two_zpow_pos j).trans_le hp
  refine ⟨?_, by rw [sign_mul, sign_pos hpos, mul_one]⟩
  cases h with
  | inl h0 => exact Or.inl (by rw [h0, zero_mul])
  | inr hk =>
    right
    rw [abs_mul, abs_of_pos hpos, two_zpow_add]
    exact mul_le_mul hk hp (two_zpow_pos j).le (abs_nonneg q)

/-- A positive divisor keeps the sign. -/
theorem div (h : AwayFromZero k q) (hpos : 0 < p) (hp : p ≤ 2 ^ j) :
    AwayFromZero (k - j) (q / p) ∧ SignType.sign (q / p) = SignType.sign q := by
  have hinv : (2 : ℚ) ^ (-j) ≤ p⁻¹ := by
    rw [zpow_neg]
    exact inv_anti₀ hpos hp
  exact h.mul hinv

/-- Two different numbers that are both away from zero are away from each other. -/
theorem sub (hp : Representable p) (hq : Representable q) (h₁ : AwayFromZero (k + 24) p)
    (h₂ : AwayFromZero (k + 24) q) : AwayFromZero k (p - q) := by
  rcases eq_or_ne p q with rfl | hne
  · exact Or.inl (sub_self p)
  · have haway : 2 ^ (k + 24) ≤ |p| ∨ 2 ^ (k + 24) ≤ |q| := by
      rcases eq_or_ne p 0 with rfl | hp0
      · exact Or.inr (h₂.two_zpow_le_abs hne.symm)
      · exact Or.inl (h₁.two_zpow_le_abs hp0)
    right
    cases lt_or_gt_of_ne hne with
    | inl hlt =>
      rw [abs_sub_comm, abs_of_pos (sub_pos.2 hlt)]
      exact two_zpow_le_sub hp hq hlt haway
    | inr hgt =>
      rw [abs_of_pos (sub_pos.2 hgt)]
      exact two_zpow_le_sub hq hp hgt haway.symm

end AwayFromZero

end FuzzyMotion.Binary32
