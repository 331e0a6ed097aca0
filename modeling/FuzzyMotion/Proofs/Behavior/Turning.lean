import FuzzyMotion.Proofs.Behavior.Motion
import FuzzyMotion.Proofs.Binary32.Sign

/-!
The sign of the angular speed. Coarse degrees are far from the least number of the format, and no step from
them to the speed comes close to it: not the products with the labels, not their sum, not the quotient
and not the conversion to radians. So the speed has the sign of the weighted sum before it is rounded.
-/
namespace FuzzyMotion

open Binary32

namespace Binary32

variable {x y : Float32}

theorem IsCoarse.awayFromZero (hx : IsCoarse x) :
    ∃ q, Is x q ∧ AwayFromZero (-100) q ∧ 0 ≤ q ∧ q ≤ 1 := by
  obtain ⟨q, hq, hcoarse, h0, h1⟩ := hx.exists_nonneg
  refine ⟨q, hq, hcoarse.imp_right fun h => ?_, h0, h1⟩
  rwa [abs_of_nonneg h0]

/-- A number with the sign of a difference is zero, positive or negative as the two numbers compare. -/
theorem signs_of_difference {z : Float32} {p q r : ℚ} (hz : Is z r) (hx : Is x p) (hy : Is y q)
    (h : SignType.sign r = SignType.sign (q - p)) :
    (isZero z = true ↔ x ≤ y ∧ y ≤ x) ∧ (0 < z ↔ x < y) ∧ (z < 0 ↔ y < x) := by
  refine ⟨?_, ?_, ?_⟩
  · rw [FuzzySet.isZero_iff hz, hx.le_iff hy, hy.le_iff hx, ← sign_eq_zero_iff, h, sign_eq_zero_iff,
      sub_eq_zero, le_antisymm_iff, and_comm]
  · rw [is_zero.lt_iff hz, hx.lt_iff hy, ← sign_eq_one_iff, h, sign_eq_one_iff, sub_pos]
  · rw [hz.lt_iff is_zero, hy.lt_iff hx, ← sign_eq_neg_one_iff, h, sign_eq_neg_one_iff, sub_neg]

end Binary32

namespace Motion

open FuzzySet

/-- What a label and its opposite make of a degree. -/
theorem is_mul_label {x c : Float32} {p r : ℚ} (hp : Is x p) (haway : AwayFromZero (-100) p)
    (h0 : 0 ≤ p) (h1 : p ≤ 1) (hc : Is c r) (hr1 : 1 ≤ r) (hr : r ≤ 40) :
    let q := rounded (p * r)
    Is (x * c) q ∧ Is (x * (-c)) (-q) ∧ AwayFromZero (-100) q ∧ 0 ≤ q ∧ q ≤ r ∧
      SignType.sign q = SignType.sign p := by
  intro q
  have hq0 : 0 ≤ q := rounded_nonneg (mul_nonneg h0 (by linarith))
  have hqr : q ≤ r := rounded_le hc.representable (mul_le_of_le_one_left (by linarith) h1)
  have hbound : |q| < 2 ^ (128 : ℤ) := abs_lt_two_zpow_128 hq0 (by linarith)
  have hneg : rounded (p * -r) = -q := by rw [mul_neg, rounded_neg]
  obtain ⟨hprod, hs₁⟩ := haway.mul (p := r) (j := 0) (by rwa [zpow_zero])
  obtain ⟨hround, hs₂⟩ := hprod.rounded (by norm_num)
  refine ⟨hp.mul hc hbound, ?_, by simpa using hround, hq0, hqr, by rw [hs₂, hs₁]⟩
  rw [← hneg]
  refine hp.mul hc.neg ?_
  rwa [hneg, abs_neg]

/-- The conversion to radians keeps the sign of a speed that is not too small. -/
theorem sign_radians {q : ℚ} (h : AwayFromZero (-127) q) :
    SignType.sign (radians q) = SignType.sign q := by
  obtain ⟨hprod, hs₁⟩ := h.mul (p := 13176795 / 2 ^ 22) (j := 1) (by norm_num)
  obtain ⟨hround, hs₂⟩ := hprod.rounded (by norm_num)
  obtain ⟨hquot, hs₃⟩ := hround.div (p := 180) (j := 8) (by norm_num) (by norm_num)
  obtain ⟨-, hs₄⟩ := hquot.rounded (by norm_num)
  rw [radians, hs₄, hs₃, hs₂, hs₁]

/-- The speed has the sign of the weighted sum, as long as this is not too small before it is rounded. -/
theorem crisp?_turn_sign {set : FuzzySet} {d : ℚ} (hlen : set.length = 5)
    (hset : ∀ m ∈ set, IsDegree m) (hpos : ∃ m ∈ set, 0 < m)
    (hw : Is (set.weighted (turn.labels.map Prod.snd)) (rounded d)) (hd : AwayFromZero (-124) d) :
    ∃ y r, set.crisp? (turn.labels.map Prod.snd) = some y ∧ Is (Angle.toRadians y) r ∧
      SignType.sign r = SignType.sign d := by
  obtain ⟨m, hm, hm0⟩ := hpos
  have hle : set.length ≤ 8 := by omega
  have hcrisp := crisp?_of_positive hle hset (turn.labels.map Prod.snd) hm hm0
  obtain ⟨t, ht, htpos, ht8⟩ := total_of_positive hle hset hm hm0
  obtain ⟨q, hy, hq⟩ := crisp?_turn hlen hset hcrisp
  have hmean := hw.div_of_isFinite ht htpos.ne' hy.isFinite
  obtain rfl : q = rounded (rounded d / t) := hy.value_eq.symm.trans hmean.value_eq
  obtain ⟨hround, hs₁⟩ := hd.rounded (by norm_num)
  obtain ⟨hquot, hs₂⟩ := hround.div (j := 3) htpos (by norm_num; linarith)
  obtain ⟨haway, hs₃⟩ := hquot.rounded (by norm_num)
  refine ⟨_, _, hcrisp, (is_toRadians hy hq).1, ?_⟩
  rw [sign_radians haway, hs₃, hs₂, hs₁]

end Motion

end FuzzyMotion
