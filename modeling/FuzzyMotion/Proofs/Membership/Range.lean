import FuzzyMotion.Proofs.Membership.Slopes
import Mathlib.Data.List.Chain

/-!
The range of membership functions whose points are not too far apart. There the widths of all edges are
numbers, and every input has a degree between zero and one, whatever the input is. A degree is zero or not
too small where the edge leads away from zero.
-/
namespace FuzzyMotion.Membership

open Binary32

variable {a b x : Float32} {p q r : ℚ}

/-- An edge whose width is a number. -/
def Edge (a b : Float32) : Prop :=
  ∃ p q, Is a p ∧ Is b q ∧ p ≤ q ∧ rounded (q - p) < 2 ^ (128 : ℤ)

def HasEdges (m : Membership) : Prop :=
  m.points.IsChain Edge

theorem isFinite_width (ha : Is a p) (hb : Is b q) (hpq : p ≤ q) (hw : rounded (q - p) < 2 ^ (128 : ℤ)) :
    (b - a).isFinite = true := by
  refine (hb.isFinite_sub_iff ha).2 ?_
  rwa [abs_of_nonneg (rounded_nonneg (sub_nonneg.2 hpq))]

theorem is_rise (ha : Is a p) (hb : Is b q) (hx : Is x r) (hpr : p < r) (hrq : r ≤ q)
    (hw : rounded (q - p) < 2 ^ (128 : ℤ)) :
    let fraction := rounded (r - p) / rounded (q - p)
    Is (rise a b x) (rounded fraction) ∧ 0 ≤ rounded fraction ∧ rounded fraction ≤ 1 :=
  Slope.is_height (s := .up a b) ha hb hx hpr hrq (isFinite_width ha hb (hpr.le.trans hrq) hw)

theorem is_fall (ha : Is a p) (hb : Is b q) (hx : Is x r) (hpr : p < r) (hrq : r ≤ q)
    (hw : rounded (q - p) < 2 ^ (128 : ℤ)) :
    let fraction := rounded (q - r) / rounded (q - p)
    Is (fall a b x) (rounded fraction) ∧ 0 ≤ rounded fraction ∧ rounded fraction ≤ 1 :=
  Slope.is_height (s := .down a b) ha hb hx hpr hrq (isFinite_width ha hb (hpr.le.trans hrq) hw)

/-- Two finite points in order, at a distance that is not too large. -/
theorem edge_of_le (ha : Is a p) (hb : Is b q) (hpq : p ≤ q) (hw : q - p ≤ 2 ^ (110 : ℤ)) :
    Edge a b := by
  refine ⟨p, q, ha, hb, hpq, ?_⟩
  exact (rounded_le (representable_two_zpow (by norm_num)) hw).trans_lt
    (zpow_lt_zpow_right₀ (by norm_num) (by norm_num))

theorem edge_of_bounds (h : a ≤ b) (ha : -1000 ≤ a ∧ a ≤ 1000) (hb : -1000 ≤ b ∧ b ≤ 1000) :
    Edge a b := by
  have hlow : Is (-1000) (-1000) :=
    is_of_unpack (s := .negative) (m := 16384000) (e := -14) (by decide) rfl
      (by norm_num [signFactor])
  have hhigh : Is 1000 1000 :=
    is_of_unpack (s := .positive) (m := 16384000) (e := -14) (by decide) rfl
      (by norm_num [signFactor])
  obtain ⟨p, hp, hp1, hp2⟩ := is_of_le_of_le hlow hhigh ha.1 ha.2
  obtain ⟨q, hq, hq1, hq2⟩ := is_of_le_of_le hlow hhigh hb.1 hb.2
  apply edge_of_le hp hq ((hp.le_iff hq).1 h)
  calc
    q - p ≤ 2000 := by linarith
    _ ≤ 2 ^ (110 : ℤ) := by norm_num

/-- Points in order and not too large make edges. -/
theorem isChain_edge {points : List Float32} (ho : ordered points = true)
    (hb : ∀ a ∈ points, -1000 ≤ a ∧ a ≤ 1000) : points.IsChain Edge := by
  induction points with
  | nil => exact .nil
  | cons a rest ih =>
    cases rest with
    | nil => exact .singleton a
    | cons b rest =>
      obtain ⟨-, hab, hrest⟩ := ordered_cons_cons.1 ho
      have htail := ih hrest fun c hm => hb c (List.mem_cons_of_mem _ hm)
      exact .cons_cons (edge_of_bounds hab (hb a (by simp)) (hb b (by simp))) htail

/-- A part that is not too small, of a width that is not too large. -/
theorem two_zpow_le_fraction {v w : ℚ} (hv : 2 ^ (-25 : ℤ) ≤ v) (hw : 0 < w) (h : w ≤ 2 ^ (64 : ℤ)) :
    2 ^ (-100 : ℤ) ≤ rounded (v / w) := by
  apply le_rounded (representable_two_zpow (by norm_num))
  rw [le_div_iff₀ hw]
  calc
    (2 : ℚ) ^ (-100 : ℤ) * w ≤ 2 ^ (-100 : ℤ) * 2 ^ (64 : ℤ) :=
      mul_le_mul_of_nonneg_left h (two_zpow_pos _).le
    _ = 2 ^ (-36 : ℤ) := by rw [← two_zpow_add]; norm_num
    _ ≤ 2 ^ (-25 : ℤ) := two_zpow_le_two_zpow (by norm_num)
    _ ≤ v := hv

/-- An edge that starts away from zero rises in coarse steps, and at once. -/
theorem two_zpow_le_rise (ha : Is a p) (hb : Is b q) (hp : 1 / 2 ≤ |p|) (hw : q - p ≤ 2 ^ (64 : ℤ))
    (hlow : a < x) (hhigh : x ≤ b) : ∃ r, Is (rise a b x) r ∧ 2 ^ (-100 : ℤ) ≤ r ∧ r ≤ 1 := by
  obtain ⟨r, hx, hpr, hrq⟩ := is_of_lt_of_le ha hb hlow hhigh
  have hwidth := rounded_le (representable_two_zpow (by norm_num)) hw
  have hbound := hwidth.trans_lt (show (2 : ℚ) ^ (64 : ℤ) < 2 ^ (128 : ℤ) by norm_num)
  obtain ⟨hrise, -, hone⟩ := is_rise ha hb hx hpr hrq hbound
  have hgap : 2 ^ (-25 : ℤ) ≤ r - p :=
    two_zpow_le_sub ha.representable hx.representable hpr (Or.inl (by norm_num at hp ⊢; exact hp))
  have hpart := le_rounded (representable_two_zpow (by norm_num)) hgap
  have hpos := ha.rounded_sub_pos hb (hpr.trans_le hrq)
  exact ⟨_, hrise, two_zpow_le_fraction hpart hpos hwidth, hone⟩

theorem isCoarse_rise (ha : Is a p) (hb : Is b q) (hp : 1 / 2 ≤ |p|) (hw : q - p ≤ 2 ^ (64 : ℤ))
    (hlow : a < x) (hhigh : x ≤ b) : IsCoarse (rise a b x) := by
  obtain ⟨r, hr, hge, hle⟩ := two_zpow_le_rise ha hb hp hw hlow hhigh
  exact ⟨r, hr, Or.inr hge, hle⟩

/-- An edge that ends away from zero falls in coarse steps, and not before its end. -/
theorem two_zpow_le_fall (ha : Is a p) (hb : Is b q) (hq : 1 / 2 ≤ |q|) (hw : q - p ≤ 2 ^ (64 : ℤ))
    (hlow : a < x) (hhigh : x < b) : ∃ r, Is (fall a b x) r ∧ 2 ^ (-100 : ℤ) ≤ r ∧ r ≤ 1 := by
  obtain ⟨r, hx, hpr, hrq⟩ := is_of_lt_of_le ha hb hlow (le_of_lt_number hhigh)
  have hlt : r < q := (hx.lt_iff hb).1 hhigh
  have hwidth := rounded_le (representable_two_zpow (by norm_num)) hw
  have hbound := hwidth.trans_lt (show (2 : ℚ) ^ (64 : ℤ) < 2 ^ (128 : ℤ) by norm_num)
  obtain ⟨hfall, -, hone⟩ := is_fall ha hb hx hpr hrq hbound
  have hgap : 2 ^ (-25 : ℤ) ≤ q - r :=
    two_zpow_le_sub hx.representable hb.representable hlt (Or.inr (by norm_num at hq ⊢; exact hq))
  have hpart := le_rounded (representable_two_zpow (by norm_num)) hgap
  have hpos := ha.rounded_sub_pos hb (hpr.trans_le hrq)
  exact ⟨_, hfall, two_zpow_le_fraction hpart hpos hwidth, hone⟩

/-- An edge falls to zero at its end. -/
theorem is_fall_last (ha : Is a p) (hb : Is b q) (hx : Is x q) (hpq : p < q)
    (hw : q - p ≤ 2 ^ (64 : ℤ)) : Is (fall a b x) 0 := by
  have hwidth := rounded_le (representable_two_zpow (by norm_num)) hw
  have hbound := hwidth.trans_lt (show (2 : ℚ) ^ (64 : ℤ) < 2 ^ (128 : ℤ) by norm_num)
  obtain ⟨hfall, -, -⟩ := is_fall ha hb hx hpq le_rfl hbound
  simpa using hfall

theorem isCoarse_fall (ha : Is a p) (hb : Is b q) (hq : 1 / 2 ≤ |q|) (hw : q - p ≤ 2 ^ (64 : ℤ))
    (hlow : a < x) (hhigh : x ≤ b) : IsCoarse (fall a b x) := by
  obtain ⟨r, hx, hpr, hrq⟩ := is_of_lt_of_le ha hb hlow hhigh
  rcases hrq.lt_or_eq with hlt | rfl
  · obtain ⟨v, hv, hge, hle⟩ := two_zpow_le_fall ha hb hq hw hlow ((hx.lt_iff hb).2 hlt)
    exact ⟨v, hv, Or.inr hge, hle⟩
  · exact ⟨0, is_fall_last ha hb hx hpr hw, Or.inl rfl, zero_le_one⟩

theorem Edge.isFinite_width (h : Edge a b) : (b - a).isFinite = true := by
  obtain ⟨p, q, ha, hb, hpq, hw⟩ := h
  exact Membership.isFinite_width ha hb hpq hw

/-- A chain of edges is in order. -/
theorem ordered_of_isChain {points : List Float32} (h : (a :: b :: points).IsChain Edge) :
    ordered (a :: b :: points) = true := by
  induction points generalizing a b with
  | nil =>
    obtain ⟨p, q, ha, hb, hpq, -⟩ : Edge a b := by simpa using h
    exact ordered_cons_cons.2 ⟨ha.isFinite, (ha.le_iff hb).2 hpq, ordered_singleton.2 hb.isFinite⟩
  | cons c rest ih =>
    obtain ⟨⟨p, q, ha, hb, hpq, -⟩, hrest⟩ := List.isChain_cons_cons.1 h
    exact ordered_cons_cons.2 ⟨ha.isFinite, (ha.le_iff hb).2 hpq, ih hrest⟩

theorem hasWidths_of_hasEdges {m : Membership} (h : m.HasEdges) : m.HasWidths := by
  intro s hs
  cases m with
  | rampUp a b =>
    have hab : Edge a b := by simpa [HasEdges, points] using h
    obtain rfl : s = .up a b := List.mem_singleton.1 hs
    exact hab.isFinite_width
  | rampDown a b =>
    have hab : Edge a b := by simpa [HasEdges, points] using h
    obtain rfl : s = .down a b := List.mem_singleton.1 hs
    exact hab.isFinite_width
  | triangle a b c =>
    obtain ⟨hab, hbc⟩ : Edge a b ∧ Edge b c := by simpa [HasEdges, points] using h
    rcases List.mem_pair.1 hs with rfl | rfl
    · exact hab.isFinite_width
    · exact hbc.isFinite_width
  | trapezoid a b c d =>
    obtain ⟨hab, -, hcd⟩ : Edge a b ∧ Edge b c ∧ Edge c d := by simpa [HasEdges, points] using h
    rcases List.mem_pair.1 hs with rfl | rfl
    · exact hab.isFinite_width
    · exact hcd.isFinite_width

/-- Every input has a degree, also one that is infinite or not a number. -/
theorem isDegree_degree {m : Membership} (h : m.HasEdges) (x : Float32) : IsDegree (m.degree x) := by
  refine isDegree_of_hasWidths ?_ (hasWidths_of_hasEdges h) x
  cases m with
  | rampUp a b => exact ordered_of_isChain h
  | rampDown a b => exact ordered_of_isChain h
  | triangle a b c => exact ordered_of_isChain h
  | trapezoid a b c d => exact ordered_of_isChain h

/-- The degree of a number is its height, as long as this is coarse. -/
theorem isCoarse_degree {m : Membership} (h : x.isNaN = false → IsCoarse (m.height x)) :
    IsCoarse (m.degree x) := by
  rw [degree]
  by_cases hx : x.isNaN = true
  · rw [if_pos hx]
    exact isCoarse_zero
  · have hcoarse := h (Bool.eq_false_iff.2 hx)
    rw [if_neg hx, hcoarse.isDegree.toDegree_eq]
    exact hcoarse

/-- A ramp that starts away from zero has coarse degrees. -/
theorem isCoarse_rampUp (ha : Is a p) (hb : Is b q) (hp : 1 / 2 ≤ |p|) (hw : q - p ≤ 2 ^ (64 : ℤ))
    (x : Float32) : IsCoarse ((rampUp a b).degree x) := by
  refine isCoarse_degree fun hn => ?_
  simp only [height]
  split_ifs with h₁ h₂
  · exact isCoarse_zero
  · exact isCoarse_one
  · exact isCoarse_rise ha hb hp hw (lt_of_not_le hn ha.isNaN h₁) (le_of_not_lt hb.isNaN hn h₂)

/-- A ramp that ends away from zero has coarse degrees. -/
theorem isCoarse_rampDown (ha : Is a p) (hb : Is b q) (hq : 1 / 2 ≤ |q|) (hw : q - p ≤ 2 ^ (64 : ℤ))
    (x : Float32) : IsCoarse ((rampDown a b).degree x) := by
  refine isCoarse_degree fun hn => ?_
  simp only [height]
  split_ifs with h₁ h₂
  · exact isCoarse_one
  · exact isCoarse_zero
  · exact isCoarse_fall ha hb hq hw (lt_of_not_le hn ha.isNaN h₁) (le_of_not_lt hb.isNaN hn h₂)

/-- A triangle whose feet are away from zero has coarse degrees. -/
theorem isCoarse_triangle {c : Float32} (ha : Is a p) (hb : Is b q) (hc : Is c r) (hp : 1 / 2 ≤ |p|)
    (hr : 1 / 2 ≤ |r|) (hpq : q - p ≤ 2 ^ (64 : ℤ)) (hqr : r - q ≤ 2 ^ (64 : ℤ)) (x : Float32) :
    IsCoarse ((triangle a b c).degree x) := by
  refine isCoarse_degree fun hn => ?_
  simp only [height]
  split_ifs with h₁ h₂
  · exact isCoarse_zero
  · exact isCoarse_rise ha hb hp hpq (lt_of_not_le hn ha.isNaN fun h => h₁ (Or.inl h)) h₂
  · exact isCoarse_fall hb hc hr hqr (lt_of_not_le hn hb.isNaN h₂)
      (le_of_not_lt hc.isNaN hn fun h => h₁ (Or.inr h))

end FuzzyMotion.Membership
