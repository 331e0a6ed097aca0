import FuzzyMotion.Proofs.Binary32.Largest
import FuzzyMotion.Proofs.Membership.Halves
import FuzzyMotion.Proofs.Membership.Range

/-!
Where membership functions are positive. An edge is positive as soon as it leaves its foot: where the foot
is away from zero, no quotient on it is so small that it is rounded to zero. So a function is positive
exactly between its feet, although its conditions include some of its points and exclude others.
-/
namespace FuzzyMotion.Membership

open Binary32

variable {a b c x : Float32} {p q r : ℚ}

theorem rise_pos (ha : Is a p) (hb : Is b q) (hp : 1 / 2 ≤ |p|) (hw : q - p ≤ 2 ^ (64 : ℤ))
    (hlow : a < x) (hhigh : x ≤ b) : 0 < rise a b x := by
  obtain ⟨v, hv, hge, -⟩ := two_zpow_le_rise ha hb hp hw hlow hhigh
  exact pos_of_two_zpow_le hv hge

/-- An edge is positive until its end. -/
theorem fall_pos_iff (ha : Is a p) (hb : Is b q) (hq : 1 / 2 ≤ |q|) (hw : q - p ≤ 2 ^ (64 : ℤ))
    (hlow : a < x) (hhigh : x ≤ b) : 0 < fall a b x ↔ x < b := by
  obtain ⟨r, hx, hpr, hrq⟩ := is_of_lt_of_le ha hb hlow hhigh
  rcases hrq.lt_or_eq with hlt | rfl
  · have hxb : x < b := (hx.lt_iff hb).2 hlt
    obtain ⟨v, hv, hge, -⟩ := two_zpow_le_fall ha hb hq hw hlow hxb
    exact iff_of_true (pos_of_two_zpow_le hv hge) hxb
  · rw [is_zero.lt_iff (is_fall_last ha hb hx hpr hw), hx.lt_iff hb]
    exact iff_of_false (lt_irrefl _) (lt_irrefl _)

theorem rampUp_pos_iff (ha : Is a p) (hb : Is b q) (hpq : p ≤ q) (hp : 1 / 2 ≤ |p|)
    (hw : q - p ≤ 2 ^ (64 : ℤ)) (hx : x.isNaN = false) : 0 < (rampUp a b).degree x ↔ a < x := by
  cases le_or_lt_of_number hx ha.isNaN with
  | inl hxa =>
    rw [degree_rampUp_of_le hxa]
    exact iff_of_false not_lt_zero_self (not_lt_of_le_number hxa)
  | inr hax =>
    refine iff_of_true ?_ hax
    cases le_or_lt_of_number hx hb.isNaN with
    | inl hxb =>
      have hcoarse := isCoarse_rise ha hb hp hw hax hxb
      rw [degree_of_height hx (height_rampUp_of_covers ⟨hax, hxb⟩) hcoarse.isDegree]
      exact rise_pos ha hb hp hw hax hxb
    | inr hbx =>
      rw [degree_rampUp_of_lt ((ha.le_iff hb).2 hpq) hbx]
      exact (is_zero.lt_iff is_one).2 zero_lt_one

theorem rampDown_pos_iff (ha : Is a p) (hb : Is b q) (hpq : p < q) (hq : 1 / 2 ≤ |q|)
    (hw : q - p ≤ 2 ^ (64 : ℤ)) (hx : x.isNaN = false) : 0 < (rampDown a b).degree x ↔ x < b := by
  cases le_or_lt_of_number hx ha.isNaN with
  | inl hxa =>
    rw [degree_rampDown_of_le hxa]
    exact iff_of_true ((is_zero.lt_iff is_one).2 zero_lt_one)
      (lt_of_le_of_lt_number hxa ((ha.lt_iff hb).2 hpq))
  | inr hax =>
    cases le_or_lt_of_number hx hb.isNaN with
    | inl hxb =>
      have hcoarse := isCoarse_fall ha hb hq hw hax hxb
      rw [degree_of_height hx (height_rampDown_of_covers ⟨hax, hxb⟩) hcoarse.isDegree]
      exact fall_pos_iff ha hb hq hw hax hxb
    | inr hbx =>
      rw [degree_rampDown_of_lt ((ha.le_iff hb).2 hpq.le) hbx]
      exact iff_of_false not_lt_zero_self (not_lt_of_le_number (le_of_lt_number hbx))

/-- A triangle is positive between its feet: up to its top as the ramp up, and beyond it as the ramp down. -/
theorem triangle_pos_iff (ha : Is a p) (hb : Is b q) (hc : Is c r) (hpq : p ≤ q) (hqr : q < r)
    (hp : 1 / 2 ≤ |p|) (hr : 1 / 2 ≤ |r|) (hup : q - p ≤ 2 ^ (64 : ℤ)) (hdown : r - q ≤ 2 ^ (64 : ℤ))
    (hx : x.isNaN = false) : 0 < (triangle a b c).degree x ↔ a < x ∧ x < c := by
  have hab : a ≤ b := (ha.le_iff hb).2 hpq
  have hbc : b < c := (hb.lt_iff hc).2 hqr
  rw [degree_triangle]
  cases le_or_lt_of_number hx hb.isNaN with
  | inl hxb =>
    rw [degree_trapezoid_of_le (le_of_lt_number hbc) hxb, rampUp_pos_iff ha hb hpq hp hup hx]
    exact (and_iff_left (lt_of_le_of_lt_number hxb hbc)).symm
  | inr hbx =>
    rw [degree_trapezoid_of_lt hab (le_of_lt_number hbc) hbx, rampDown_pos_iff hb hc hqr hr hdown hx]
    exact (and_iff_right (lt_of_le_of_lt_number hab hbx)).symm

end FuzzyMotion.Membership
