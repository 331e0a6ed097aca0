import FuzzyMotion.Proofs.Membership.Slopes

/-!
The two halves of a membership function. A ramp rises or falls without a step back, also after rounding, and
reaches its other level at the end of its slope, as long as the width of the slope is a number. A trapezoid is
a ramp up as far as its second point and a ramp down beyond it, and a triangle is a trapezoid. So their shapes
follow from those of the ramps, and a trapezoid is the smaller one of its two ramps everywhere.
-/
namespace FuzzyMotion

open Binary32

namespace Slope

variable {s : Slope} {a b x y : Float32} {p q : ℚ}

/-- A larger part has a larger height, or the same. -/
theorem height_le_height (hp : Is s.first p) (hq : Is s.last q) (hw : s.width.isFinite = true)
    (hx : s.Covers x) (hy : s.Covers y)
    (h : ∀ r t, Is x r → Is y t → s.exactPart p q r ≤ s.exactPart p q t) : s.height x ≤ s.height y := by
  obtain ⟨r, hr, hpr, hrq⟩ := is_of_lt_of_le hp hq hx.1 hx.2
  obtain ⟨t, ht, hpt, htq⟩ := is_of_lt_of_le hp hq hy.1 hy.2
  obtain ⟨hxheight, -⟩ := is_height hp hq hr hpr hrq hw
  obtain ⟨hyheight, -⟩ := is_height hp hq ht hpt htq hw
  have hwidth : 0 < rounded (q - p) := hp.rounded_sub_pos hq (hpr.trans_le hrq)
  have hpart : rounded (s.exactPart p q r) ≤ rounded (s.exactPart p q t) := rounded_mono (h r t hr ht)
  exact (hxheight.le_iff hyheight).2 (rounded_mono (div_le_div_of_nonneg_right hpart hwidth.le))

theorem height_up_mono (hp : Is a p) (hq : Is b q) (hw : (up a b).width.isFinite = true)
    (hx : (up a b).Covers x) (hy : (up a b).Covers y) (h : x ≤ y) :
    (up a b).height x ≤ (up a b).height y :=
  height_le_height hp hq hw hx hy fun _ _ hr ht => sub_le_sub_right ((hr.le_iff ht).1 h) p

theorem height_down_anti (hp : Is a p) (hq : Is b q) (hw : (down a b).width.isFinite = true)
    (hx : (down a b).Covers x) (hy : (down a b).Covers y) (h : x ≤ y) :
    (down a b).height y ≤ (down a b).height x :=
  height_le_height hp hq hw hy hx fun _ _ hr ht => sub_le_sub_left ((ht.le_iff hr).1 h) q

theorem height_up_last (hp : Is a p) (hq : Is b q) (hw : (up a b).width.isFinite = true) (hab : a < b)
    (hx : x == b) : (up a b).height x = 1 := by
  have hpq : p < q := (hp.lt_iff hq).1 hab
  have hwidth : rounded (q - p) ≠ 0 := (hp.rounded_sub_pos hq hpq).ne'
  obtain ⟨hheight, -⟩ := is_height (s := up a b) hp hq (hq.of_beq hx) hpq le_rfl hw
  simp only [exactPart, div_self hwidth, rounded_of_representable representable_one] at hheight
  exact hheight.eq_one

theorem height_down_last (hp : Is a p) (hq : Is b q) (hw : (down a b).width.isFinite = true) (hab : a < b)
    (hx : x == b) : (down a b).height x == 0 := by
  have hpq : p < q := (hp.lt_iff hq).1 hab
  obtain ⟨hheight, -⟩ := is_height (s := down a b) hp hq (hq.of_beq hx) hpq le_rfl hw
  simp only [exactPart, sub_self, rounded_zero, zero_div] at hheight
  exact hheight.beq_zero

end Slope

namespace Membership

variable {m : Membership} {s : Slope} {a b c d x y : Float32}

/-- Zero up to `a` and one beyond `b`, and never falling. -/
structure Rising (f : Float32 → Float32) (a b : Float32) : Prop where
  low : ∀ x, x ≤ a → f x = 0
  high : ∀ x, b < x → f x = 1
  mono : ∀ x y, x ≤ y → f x ≤ f y
  top : a < b → ∀ x, x == b → f x = 1

/-- One up to `a` and zero beyond `b`, and never rising. -/
structure Falling (f : Float32 → Float32) (a b : Float32) : Prop where
  high : ∀ x, x ≤ a → f x = 1
  low : ∀ x, b < x → f x = 0
  anti : ∀ x y, x ≤ y → f y ≤ f x
  /-- It may be either of the two zeros, which are equal to each other. -/
  bottom : a < b → ∀ x, x == b → f x == 0

/-- Zero outside `a` and `d` and one between `b` and `c`, not falling before that and not rising after it. -/
structure Peaked (f : Float32 → Float32) (a b c d : Float32) : Prop where
  outside : ∀ x, x ≤ a ∨ d < x → f x = 0
  plateau : ∀ x, b < x → x ≤ c → f x = 1
  mono : ∀ x y, x ≤ y → y ≤ b → f x ≤ f y
  anti : ∀ x y, x ≤ y → b < x → f y ≤ f x
  top : a < b → ∀ x, x == b → f x = 1

/-- What the name of a function says of its degrees. -/
def HasShape (m : Membership) : Prop :=
  match m with
  | rampUp a b => Rising m.degree a b
  | rampDown a b => Falling m.degree a b
  | triangle a b c => Peaked m.degree a b b c
  | trapezoid a b c d => Peaked m.degree a b c d

section Ramps

theorem degree_rampUp_of_le (h : x ≤ a) : (rampUp a b).degree x = 0 :=
  degree_of_height (le_iff_value.1 h).1 (height_rampUp_of_le h) isDegree_zero

theorem degree_rampUp_of_lt (hab : a ≤ b) (h : b < x) : (rampUp a b).degree x = 1 :=
  degree_of_height (lt_iff_value.1 h).2.1 (height_rampUp_of_lt hab h) isDegree_one

theorem degree_rampDown_of_le (h : x ≤ a) : (rampDown a b).degree x = 1 :=
  degree_of_height (le_iff_value.1 h).1 (height_rampDown_of_le h) isDegree_one

theorem degree_rampDown_of_lt (hab : a ≤ b) (h : b < x) : (rampDown a b).degree x = 0 :=
  degree_of_height (lt_iff_value.1 h).2.1 (height_rampDown_of_lt hab h) isDegree_zero

theorem rising_rampUp (h : ordered (rampUp a b).points = true) (hw : (rampUp a b).HasWidths) :
    Rising (rampUp a b).degree a b := by
  have hdegree := isDegree_of_hasWidths h hw
  have hslope : Slope.up a b ∈ (rampUp a b).slopes := List.mem_singleton_self _
  obtain ⟨ha, hab, hb⟩ : a.isFinite = true ∧ a ≤ b ∧ b.isFinite = true := by simpa [points] using h
  have hp := is_of_isFinite ha
  have hq := is_of_isFinite hb
  refine ⟨fun _ => degree_rampUp_of_le, fun _ => degree_rampUp_of_lt hab, ?mono, ?top⟩
  case mono =>
    intro x y hxy
    obtain ⟨hx, hy, -⟩ := le_iff_value.1 hxy
    -- Below the slope the lower degree is zero, and above it the upper one is one.
    rcases le_or_lt_of_number hx hp.isNaN with hxa | hax
    · rw [degree_rampUp_of_le hxa]
      exact (hdegree y).bounds.2.1
    · rcases le_or_lt_of_number hy hq.isNaN with hyb | hby
      · have hcx : (Slope.up a b).Covers x := ⟨hax, le_trans_of_number hxy hyb⟩
        have hcy : (Slope.up a b).Covers y := ⟨lt_of_lt_of_le_number hax hxy, hyb⟩
        rw [degree_of_covers h hw hslope hcx, degree_of_covers h hw hslope hcy]
        exact Slope.height_up_mono hp hq (hw _ hslope) hcx hcy hxy
      · rw [degree_rampUp_of_lt hab hby]
        exact (hdegree x).bounds.2.2
  case top =>
    intro hlt x hx
    have hc : (Slope.up a b).Covers x := ⟨lt_of_lt_of_le_number hlt (ge_of_beq hx), le_of_beq hx⟩
    rw [degree_of_covers h hw hslope hc]
    exact Slope.height_up_last hp hq (hw _ hslope) hlt hx

theorem falling_rampDown (h : ordered (rampDown a b).points = true) (hw : (rampDown a b).HasWidths) :
    Falling (rampDown a b).degree a b := by
  have hdegree := isDegree_of_hasWidths h hw
  have hslope : Slope.down a b ∈ (rampDown a b).slopes := List.mem_singleton_self _
  obtain ⟨ha, hab, hb⟩ : a.isFinite = true ∧ a ≤ b ∧ b.isFinite = true := by simpa [points] using h
  have hp := is_of_isFinite ha
  have hq := is_of_isFinite hb
  refine ⟨fun _ => degree_rampDown_of_le, fun _ => degree_rampDown_of_lt hab, ?anti, ?bottom⟩
  case anti =>
    intro x y hxy
    obtain ⟨hx, hy, -⟩ := le_iff_value.1 hxy
    rcases le_or_lt_of_number hx hp.isNaN with hxa | hax
    · rw [degree_rampDown_of_le hxa]
      exact (hdegree y).bounds.2.2
    · rcases le_or_lt_of_number hy hq.isNaN with hyb | hby
      · have hcx : (Slope.down a b).Covers x := ⟨hax, le_trans_of_number hxy hyb⟩
        have hcy : (Slope.down a b).Covers y := ⟨lt_of_lt_of_le_number hax hxy, hyb⟩
        rw [degree_of_covers h hw hslope hcx, degree_of_covers h hw hslope hcy]
        exact Slope.height_down_anti hp hq (hw _ hslope) hcx hcy hxy
      · rw [degree_rampDown_of_lt hab hby]
        exact (hdegree x).bounds.2.1
  case bottom =>
    intro hlt x hx
    have hc : (Slope.down a b).Covers x := ⟨lt_of_lt_of_le_number hlt (ge_of_beq hx), le_of_beq hx⟩
    rw [degree_of_covers h hw hslope hc]
    exact Slope.height_down_last hp hq (hw _ hslope) hlt hx

end Ramps

section Halves

theorem degree_triangle (a b c x : Float32) : (triangle a b c).degree x = (trapezoid a b b c).degree x := by
  rw [degree, degree, height_triangle]

theorem degree_trapezoid_of_le (hbd : b ≤ d) (h : x ≤ b) :
    (trapezoid a b c d).degree x = (rampUp a b).degree x := by
  rw [degree, degree, height_trapezoid_of_le hbd h]

theorem degree_trapezoid_of_lt (hab : a ≤ b) (hcd : c ≤ d) (h : b < x) :
    (trapezoid a b c d).degree x = (rampDown c d).degree x := by
  rw [degree, degree, height_trapezoid_of_lt hab hcd h]

/-- A trapezoid has the shape of its ramps, each on its own half. -/
theorem peaked_trapezoid (h : ordered [a, b, c, d] = true) (hw : (trapezoid a b c d).HasWidths) :
    Peaked (trapezoid a b c d).degree a b c d := by
  obtain ⟨hup, hdown⟩ : (rampUp a b).HasWidths ∧ (rampDown c d).HasWidths := by
    simpa [HasWidths, slopes] using hw
  simp only [ordered_cons_cons, ordered_singleton] at h
  obtain ⟨ha, hab, hb, hbc, hc, hcd, hd⟩ := h
  have hbd : b ≤ d := le_trans_of_number hbc hcd
  have hrising := rising_rampUp (by simp [points, ha, hab, hb]) hup
  have hfalling := falling_rampDown (by simp [points, hc, hcd, hd]) hdown
  refine ⟨?outside, ?plateau, ?mono, ?anti, ?top⟩
  case outside =>
    rintro x (hxa | hdx)
    · rw [degree_trapezoid_of_le hbd (le_trans_of_number hxa hab)]
      exact hrising.low x hxa
    · rw [degree_trapezoid_of_lt hab hcd (lt_of_le_of_lt_number hbd hdx)]
      exact hfalling.low x hdx
  case plateau =>
    intro x hbx hxc
    rw [degree_trapezoid_of_lt hab hcd hbx]
    exact hfalling.high x hxc
  case mono =>
    intro x y hxy hyb
    rw [degree_trapezoid_of_le hbd (le_trans_of_number hxy hyb), degree_trapezoid_of_le hbd hyb]
    exact hrising.mono x y hxy
  case anti =>
    intro x y hxy hbx
    rw [degree_trapezoid_of_lt hab hcd hbx, degree_trapezoid_of_lt hab hcd (lt_of_lt_of_le_number hbx hxy)]
    exact hfalling.anti x y hxy
  case top =>
    intro hlt x hx
    rw [degree_trapezoid_of_le hbd (le_of_beq hx)]
    exact hrising.top hlt x hx

/-- Where the widths of its slopes are numbers, a checked function has the shape it is named for. -/
theorem hasShape_of_checked (h : m.checked = .ok m) (hw : m.HasWidths) : m.HasShape := by
  have hordered : ordered m.points = true := (checked_eq_ok.1 h).1
  cases m with
  | rampUp a b => exact rising_rampUp hordered hw
  | rampDown a b => exact falling_rampDown hordered hw
  | triangle a b c =>
    have hdegree : (triangle a b c).degree = (trapezoid a b b c).degree := funext (degree_triangle a b c)
    change Peaked (triangle a b c).degree a b b c
    rw [hdegree]
    exact peaked_trapezoid (ordered_triangle.2 hordered) hw
  | trapezoid a b c d => exact peaked_trapezoid hordered hw

/-- Each slope may be as wide as the format allows, though the whole is then twice as wide. -/
theorem hasShape_widest_triangle :
    let top : Float32 := .ofBits 0x7F7FFFFF
    let m : Membership := .triangle (-top) 0 top
    m.checked = .ok m ∧ m.HasWidths ∧ m.HasShape := by
  intro top m
  have hchecked : m.checked = .ok m := checked_eq_ok.2 ⟨by decide +kernel, rfl⟩
  have hwidths : m.HasWidths := by
    intro s hs
    rcases List.mem_pair.1 hs with rfl | rfl
    · decide +kernel
    · decide +kernel
  exact ⟨hchecked, hwidths, hasShape_of_checked hchecked hwidths⟩

/-- A triangle is a trapezoid without a plateau, and a trapezoid is the smaller one of its ramps, in
whichever order these are compared. -/
theorem shapes_agree :
    (∀ a b c, ((triangle a b c).checked = .ok (triangle a b c) ↔
        (trapezoid a b b c).checked = .ok (trapezoid a b b c)) ∧
      ∀ x, (triangle a b c).degree x = (trapezoid a b b c).degree x) ∧
    ∀ a b c d, (trapezoid a b c d).checked = .ok (trapezoid a b c d) → (trapezoid a b c d).HasWidths →
      (rampUp a b).checked = .ok (rampUp a b) ∧ (rampDown c d).checked = .ok (rampDown c d) ∧
        ∀ x, (trapezoid a b c d).degree x =
            Binary32.min ((rampUp a b).degree x) ((rampDown c d).degree x) ∧
          (trapezoid a b c d).degree x =
            Binary32.min ((rampDown c d).degree x) ((rampUp a b).degree x) := by
  constructor
  · intro a b c
    exact ⟨by simp only [checked_eq_ok, points, ordered_triangle, and_true], degree_triangle a b c⟩
  · intro a b c d h hw
    have hdegree := isDegree_of_hasWidths (checked_eq_ok.1 h).1 hw
    simp only [checked_eq_ok, points, ordered_cons_cons, ordered_singleton, and_true] at h ⊢
    obtain ⟨ha, hab, hb, hbc, hc, hcd, hd⟩ := h
    refine ⟨⟨ha, hab, hb⟩, ⟨hc, hcd, hd⟩, fun x => ?_⟩
    cases hx : x.isNaN with
    | true => simp only [degree, hx, if_true]; decide +kernel
    | false =>
      have hmin := And.intro (min_one_left (hdegree x)) (min_one_right (hdegree x))
      cases le_or_lt_of_number hx (is_of_isFinite hb).isNaN with
      | inl hxb =>
        rw [degree_rampDown_of_le (le_trans_of_number hxb hbc),
          ← degree_trapezoid_of_le (le_trans_of_number hbc hcd) hxb]
        exact ⟨hmin.2.symm, hmin.1.symm⟩
      | inr hbx =>
        rw [degree_rampUp_of_lt hab hbx, ← degree_trapezoid_of_lt hab hcd hbx]
        exact ⟨hmin.1.symm, hmin.2.symm⟩

/-- Where all its points coincide, the ramps are steps that exclude each other. -/
theorem shapes_agree_of_equal_points :
    let m : Membership := .trapezoid 1 1 1 1
    m.checked = .ok m ∧ m.HasWidths ∧
      ∀ x, m.degree x = Binary32.min ((rampUp 1 1).degree x) ((rampDown 1 1).degree x) := by
  intro m
  have hchecked : m.checked = .ok m := checked_eq_ok.2 ⟨by decide +kernel, rfl⟩
  have hwidths : m.HasWidths := by
    intro s hs
    rcases List.mem_pair.1 hs with rfl | rfl
    · decide +kernel
    · decide +kernel
  obtain ⟨-, -, hmin⟩ := shapes_agree.2 1 1 1 1 hchecked hwidths
  exact ⟨hchecked, hwidths, fun x => (hmin x).1⟩

end Halves

end Membership

end FuzzyMotion
