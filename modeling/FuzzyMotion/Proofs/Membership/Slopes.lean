import FuzzyMotion.Membership
import FuzzyMotion.Proofs.Binary32.Degree
import FuzzyMotion.Proofs.Binary32.Overflow

/-!
The slopes of membership functions. A membership function is zero or one except on its slopes, and there its
height is a part of the width of the slope, divided by the width. The points of a function can be so far apart
that a width is beyond the bounds of the format: a part of it that is a number then has the degree zero, but
a part that is itself beyond the bounds has none. So this is where degrees are not numbers, and they are
between zero and one everywhere else.
-/
namespace FuzzyMotion

open Binary32

/-- A straight piece of a membership function that is not level. -/
inductive Slope where
  /-- From zero up to one. -/
  | up (a b : Float32)
  /-- From one down to zero. -/
  | down (a b : Float32)

namespace Slope

def first : Slope → Float32
  | up a _ => a
  | down a _ => a

def last : Slope → Float32
  | up _ b => b
  | down _ b => b

def width (s : Slope) : Float32 :=
  s.last - s.first

/-- How far away the foot of the slope is. -/
def part : Slope → Float32 → Float32
  | up a _, x => x - a
  | down _ b, x => b - x

def height (s : Slope) (x : Float32) : Float32 :=
  s.part x / s.width

/-- Where the height is that of the slope. -/
def Covers (s : Slope) (x : Float32) : Prop :=
  s.first < x ∧ x ≤ s.last

/-- The part of a width for which `part` stands, before it is rounded. -/
def exactPart (p q r : ℚ) : Slope → ℚ
  | up _ _ => r - p
  | down _ _ => q - r

variable {s : Slope} {x y : Float32} {p q r t : ℚ}

theorem exactPart_nonneg (s : Slope) (hpr : p < r) (hrq : r ≤ q) : 0 ≤ s.exactPart p q r := by
  cases s with
  | up a b => exact sub_nonneg.2 hpr.le
  | down a b => exact sub_nonneg.2 hrq

theorem exactPart_le (s : Slope) (hpr : p < r) (hrq : r ≤ q) : s.exactPart p q r ≤ q - p := by
  cases s with
  | up a b => exact sub_le_sub_right hrq p
  | down a b => exact sub_le_sub_left hpr.le q

/-- A part is the difference of two finite numbers. -/
theorem exists_part_eq_sub (hp : Is s.first p) (hq : Is s.last q) (hr : Is x r) :
    ∃ y z v w, s.part x = y - z ∧ Is y v ∧ Is z w ∧ s.exactPart p q r = v - w := by
  cases s with
  | up a b => exact ⟨x, a, r, p, rfl, hr, hp, rfl⟩
  | down a b => exact ⟨b, x, q, r, rfl, hq, hr, rfl⟩

theorem is_part (hp : Is s.first p) (hq : Is s.last q) (hr : Is x r)
    (h : |rounded (s.exactPart p q r)| < 2 ^ (128 : ℤ)) :
    Is (s.part x) (rounded (s.exactPart p q r)) := by
  obtain ⟨y, z, v, w, hpart, hy, hz, hexact⟩ := exists_part_eq_sub hp hq hr
  rw [hexact] at h ⊢
  rw [hpart]
  exact hy.sub hz h

theorem isFinite_part_iff (hp : Is s.first p) (hq : Is s.last q) (hr : Is x r) :
    (s.part x).isFinite = true ↔ |rounded (s.exactPart p q r)| < 2 ^ (128 : ℤ) := by
  obtain ⟨y, z, v, w, hpart, hy, hz, hexact⟩ := exists_part_eq_sub hp hq hr
  rw [hpart, hexact]
  exact hy.isFinite_sub_iff hz

theorem isInf_part (hp : Is s.first p) (hq : Is s.last q) (hr : Is x r)
    (h : 2 ^ (128 : ℤ) ≤ |rounded (s.exactPart p q r)|) : (s.part x).isInf = true := by
  obtain ⟨y, z, v, w, hpart, hy, hz, hexact⟩ := exists_part_eq_sub hp hq hr
  rw [hexact] at h
  rw [hpart]
  exact hy.isInf_sub hz h

/-- No part is longer than the whole, also after rounding. -/
theorem abs_rounded_exactPart_le (s : Slope) (hpr : p < r) (hrq : r ≤ q) :
    |rounded (s.exactPart p q r)| ≤ |rounded (q - p)| := by
  rw [abs_of_nonneg (rounded_nonneg (s.exactPart_nonneg hpr hrq)),
    abs_of_nonneg (rounded_nonneg (sub_nonneg.2 (hpr.le.trans hrq)))]
  exact rounded_mono (s.exactPart_le hpr hrq)

theorem isFinite_width_iff (hp : Is s.first p) (hq : Is s.last q) :
    s.width.isFinite = true ↔ |rounded (q - p)| < 2 ^ (128 : ℤ) :=
  hq.isFinite_sub_iff hp

theorem isFinite_part (hp : Is s.first p) (hq : Is s.last q) (hr : Is x r) (hpr : p < r) (hrq : r ≤ q)
    (hw : s.width.isFinite = true) : (s.part x).isFinite = true :=
  (isFinite_part_iff hp hq hr).2
    ((s.abs_rounded_exactPart_le hpr hrq).trans_lt ((isFinite_width_iff hp hq).1 hw))

/-- The height above an input, where the width is a number. -/
theorem is_height (hp : Is s.first p) (hq : Is s.last q) (hr : Is x r) (hpr : p < r) (hrq : r ≤ q)
    (hw : s.width.isFinite = true) :
    let fraction := rounded (s.exactPart p q r) / rounded (q - p)
    Is (s.height x) (rounded fraction) ∧ 0 ≤ rounded fraction ∧ rounded fraction ≤ 1 := by
  have hpart := is_part hp hq hr ((isFinite_part_iff hp hq hr).1 (isFinite_part hp hq hr hpr hrq hw))
  have hwidth : Is s.width (rounded (q - p)) := hq.sub hp ((isFinite_width_iff hp hq).1 hw)
  exact is_fraction hpart hwidth (rounded_nonneg (s.exactPart_nonneg hpr hrq))
    (rounded_mono (s.exactPart_le hpr hrq)) (hp.rounded_sub_pos hq (hpr.trans_le hrq))

/-- A part that is a number has a degree, whatever the width. -/
theorem isDegree_height (hp : Is s.first p) (hq : Is s.last q) (hc : s.Covers x)
    (h : (s.part x).isFinite = true) : IsDegree (s.height x) := by
  obtain ⟨r, hr, hpr, hrq⟩ := is_of_lt_of_le hp hq hc.1 hc.2
  by_cases hw : s.width.isFinite = true
  · exact ⟨_, is_height hp hq hr hpr hrq hw⟩
  · have hpart := is_part hp hq hr ((isFinite_part_iff hp hq hr).1 h)
    have hwidth : s.width.isInf = true :=
      hq.isInf_sub hp (not_lt.1 (mt (isFinite_width_iff hp hq).2 hw))
    exact ⟨0, hpart.div_of_isInf hwidth, le_refl 0, zero_le_one⟩

/-- A part beyond the bounds has none, because the width is beyond them too. -/
theorem isNaN_height (hp : Is s.first p) (hq : Is s.last q) (hc : s.Covers x)
    (h : (s.part x).isFinite = false) : (s.height x).isNaN = true := by
  obtain ⟨r, hr, hpr, hrq⟩ := is_of_lt_of_le hp hq hc.1 hc.2
  have hpart : 2 ^ (128 : ℤ) ≤ |rounded (s.exactPart p q r)| := by
    by_contra hcon
    rw [(isFinite_part_iff hp hq hr).2 (not_le.1 hcon)] at h
    cases h
  have hwidth : s.width.isInf = true :=
    hq.isInf_sub hp (hpart.trans (s.abs_rounded_exactPart_le hpr hrq))
  exact isNaN_div_of_isInf (isInf_part hp hq hr hpart) hwidth

end Slope

namespace Membership

variable {m : Membership} {s : Slope} {a b c d x : Float32}

/-- The slopes of a function. Between the second and the third point a trapezoid is level. -/
def slopes : Membership → List Slope
  | rampUp a b => [.up a b]
  | rampDown a b => [.down a b]
  | triangle a b c => [.up a b, .down b c]
  | trapezoid a b c d => [.up a b, .down c d]

/-- The input lies on a slope, so far up that the distance is beyond the bounds of the format. -/
def Overflows (m : Membership) (x : Float32) : Prop :=
  ∃ s ∈ m.slopes, s.Covers x ∧ (s.part x).isFinite = false

/-- The widths of all slopes are numbers. -/
def HasWidths (m : Membership) : Prop :=
  ∀ s ∈ m.slopes, s.width.isFinite = true

theorem isFinite_of_ordered {points : List Float32} (h : ordered points = true)
    (ha : a ∈ points) : a.isFinite = true := by
  induction points with
  | nil => cases ha
  | cons b rest ih =>
    simp only [ordered, Bool.and_eq_true] at h
    obtain ⟨⟨hb, -⟩, hrest⟩ := h
    cases List.mem_cons.1 ha with
    | inl heq => rwa [heq]
    | inr hm => exact ih hrest hm

theorem ends_mem_points (hs : s ∈ m.slopes) : s.first ∈ m.points ∧ s.last ∈ m.points := by
  cases m with
  | rampUp a b =>
    obtain rfl : s = .up a b := List.mem_singleton.1 hs
    simp [points, Slope.first, Slope.last]
  | rampDown a b =>
    obtain rfl : s = .down a b := List.mem_singleton.1 hs
    simp [points, Slope.first, Slope.last]
  | triangle a b c =>
    rcases List.mem_pair.1 hs with rfl | rfl
    · simp [points, Slope.first, Slope.last]
    · simp [points, Slope.first, Slope.last]
  | trapezoid a b c d =>
    rcases List.mem_pair.1 hs with rfl | rfl
    · simp [points, Slope.first, Slope.last]
    · simp [points, Slope.first, Slope.last]

theorem is_ends (h : ordered m.points = true) (hs : s ∈ m.slopes) :
    Is s.first (value s.first) ∧ Is s.last (value s.last) := by
  obtain ⟨hfirst, hlast⟩ := ends_mem_points hs
  exact ⟨is_of_isFinite (isFinite_of_ordered h hfirst), is_of_isFinite (isFinite_of_ordered h hlast)⟩

theorem height_rampUp_of_le (h : x ≤ a) : (rampUp a b).height x = 0 :=
  if_pos h

theorem height_rampUp_of_covers (h : (Slope.up a b).Covers x) : (rampUp a b).height x = rise a b x := by
  obtain ⟨hlow, hhigh⟩ : a < x ∧ x ≤ b := h
  rw [height, if_neg (not_le_of_lt_number hlow), if_neg (not_lt_of_le_number hhigh)]

theorem height_rampUp_of_lt (hab : a ≤ b) (h : b < x) : (rampUp a b).height x = 1 := by
  rw [height, if_neg (not_le_of_lt_number (lt_of_le_of_lt_number hab h)), if_pos h]

theorem height_rampDown_of_le (h : x ≤ a) : (rampDown a b).height x = 1 :=
  if_pos h

theorem height_rampDown_of_covers (h : (Slope.down a b).Covers x) :
    (rampDown a b).height x = fall a b x := by
  obtain ⟨hlow, hhigh⟩ : a < x ∧ x ≤ b := h
  rw [height, if_neg (not_le_of_lt_number hlow), if_neg (not_lt_of_le_number hhigh)]

theorem height_rampDown_of_lt (hab : a ≤ b) (h : b < x) : (rampDown a b).height x = 0 := by
  rw [height, if_neg (not_le_of_lt_number (lt_of_le_of_lt_number hab h)), if_pos h]

/-- Up to its second point, a trapezoid is a ramp up. -/
theorem height_trapezoid_of_le (hbd : b ≤ d) (h : x ≤ b) :
    (trapezoid a b c d).height x = (rampUp a b).height x := by
  have hbx : ¬b < x := not_lt_of_le_number h
  have hdx : ¬d < x := not_lt_of_le_number (le_trans_of_number h hbd)
  simp only [height, if_pos h, if_neg hbx, hdx, or_false]

/-- Beyond its second point, a trapezoid is a ramp down. -/
theorem height_trapezoid_of_lt (hab : a ≤ b) (hcd : c ≤ d) (h : b < x) :
    (trapezoid a b c d).height x = (rampDown c d).height x := by
  have hxa : ¬x ≤ a := not_le_of_lt_number (lt_of_le_of_lt_number hab h)
  have hxb : ¬x ≤ b := not_le_of_lt_number h
  by_cases hxc : x ≤ c
  · have hdx : ¬d < x := not_lt_of_le_number (le_trans_of_number hxc hcd)
    simp only [height, hxa, hdx, or_false, if_neg hxb, if_pos hxc, ↓reduceIte]
  · simp only [height, hxa, false_or, if_neg hxb, if_neg hxc]

/-- A triangle is a trapezoid whose plateau is a point. -/
theorem height_triangle (a b c x : Float32) :
    (triangle a b c).height x = (trapezoid a b b c).height x := by
  by_cases h : x ≤ b
  · simp only [height, if_pos h]
  · simp only [height, if_neg h]

theorem ordered_triangle : ordered [a, b, b, c] = true ↔ ordered [a, b, c] = true := by
  simp only [ordered_cons_cons, ordered_singleton]
  constructor
  · rintro ⟨ha, hab, hb, -, -, hbc, hc⟩
    exact ⟨ha, hab, hb, hbc, hc⟩
  · rintro ⟨ha, hab, hb, hbc, hc⟩
    exact ⟨ha, hab, hb, le_rfl_of_number (is_of_isFinite hb).isNaN, hb, hbc, hc⟩

theorem height_trapezoid_of_covers (h : ordered [a, b, c, d] = true) (hs : s = .up a b ∨ s = .down c d)
    (hc : s.Covers x) : (trapezoid a b c d).height x = s.height x := by
  simp only [ordered_cons_cons] at h
  obtain ⟨-, hab, -, hbc, -, hcd, -⟩ := h
  rcases hs with rfl | rfl
  · rw [height_trapezoid_of_le (le_trans_of_number hbc hcd) hc.2]
    exact height_rampUp_of_covers hc
  · rw [height_trapezoid_of_lt hab hcd (lt_of_le_of_lt_number hbc hc.1)]
    exact height_rampDown_of_covers hc

/-- On a slope, the height is that of the slope. -/
theorem height_of_covers (h : ordered m.points = true) (hs : s ∈ m.slopes) (hc : s.Covers x) :
    m.height x = s.height x := by
  cases m with
  | rampUp a b =>
    obtain rfl : s = .up a b := List.mem_singleton.1 hs
    exact height_rampUp_of_covers hc
  | rampDown a b =>
    obtain rfl : s = .down a b := List.mem_singleton.1 hs
    exact height_rampDown_of_covers hc
  | triangle a b c =>
    rw [height_triangle]
    exact height_trapezoid_of_covers (ordered_triangle.2 h) (List.mem_pair.1 hs) hc
  | trapezoid a b c d => exact height_trapezoid_of_covers h (List.mem_pair.1 hs) hc

/-- Beside the slope of a ramp, the ramp is level. -/
theorem covers_or_level_rampUp (h : ordered [a, b] = true) (hx : x.isNaN = false) :
    (Slope.up a b).Covers x ∨ (rampUp a b).height x = 0 ∨ (rampUp a b).height x = 1 := by
  simp only [ordered_cons_cons, ordered_singleton] at h
  obtain ⟨ha, hab, hb⟩ := h
  cases le_or_lt_of_number hx (is_of_isFinite ha).isNaN with
  | inl hxa => exact Or.inr (Or.inl (height_rampUp_of_le hxa))
  | inr hax =>
    cases le_or_lt_of_number hx (is_of_isFinite hb).isNaN with
    | inl hxb => exact Or.inl ⟨hax, hxb⟩
    | inr hbx => exact Or.inr (Or.inr (height_rampUp_of_lt hab hbx))

theorem covers_or_level_rampDown (h : ordered [a, b] = true) (hx : x.isNaN = false) :
    (Slope.down a b).Covers x ∨ (rampDown a b).height x = 0 ∨ (rampDown a b).height x = 1 := by
  simp only [ordered_cons_cons, ordered_singleton] at h
  obtain ⟨ha, hab, hb⟩ := h
  cases le_or_lt_of_number hx (is_of_isFinite ha).isNaN with
  | inl hxa => exact Or.inr (Or.inr (height_rampDown_of_le hxa))
  | inr hax =>
    cases le_or_lt_of_number hx (is_of_isFinite hb).isNaN with
    | inl hxb => exact Or.inl ⟨hax, hxb⟩
    | inr hbx => exact Or.inr (Or.inl (height_rampDown_of_lt hab hbx))

theorem covers_or_level_trapezoid (h : ordered [a, b, c, d] = true) (hx : x.isNaN = false) :
    (∃ s ∈ [Slope.up a b, .down c d], s.Covers x) ∨
      (trapezoid a b c d).height x = 0 ∨ (trapezoid a b c d).height x = 1 := by
  simp only [ordered_cons_cons, ordered_singleton] at h
  obtain ⟨ha, hab, hb, hbc, hc, hcd, hd⟩ := h
  cases le_or_lt_of_number hx (is_of_isFinite hb).isNaN with
  | inl hxb =>
    rw [height_trapezoid_of_le (le_trans_of_number hbc hcd) hxb]
    exact (covers_or_level_rampUp (by simp [ha, hab, hb]) hx).imp_left fun hc =>
      ⟨_, List.mem_cons_self, hc⟩
  | inr hbx =>
    rw [height_trapezoid_of_lt hab hcd hbx]
    exact (covers_or_level_rampDown (by simp [hc, hcd, hd]) hx).imp_left fun hc =>
      ⟨_, List.mem_cons_of_mem _ (List.mem_singleton_self _), hc⟩

/-- Beside its slopes, a function is level. -/
theorem covers_or_level (h : ordered m.points = true) (hx : x.isNaN = false) :
    (∃ s ∈ m.slopes, s.Covers x) ∨ m.height x = 0 ∨ m.height x = 1 := by
  cases m with
  | rampUp a b =>
    exact (covers_or_level_rampUp h hx).imp_left fun hc => ⟨_, List.mem_singleton_self _, hc⟩
  | rampDown a b =>
    exact (covers_or_level_rampDown h hx).imp_left fun hc => ⟨_, List.mem_singleton_self _, hc⟩
  | triangle a b c =>
    rw [height_triangle]
    exact covers_or_level_trapezoid (ordered_triangle.2 h) hx
  | trapezoid a b c d => exact covers_or_level_trapezoid h hx

theorem degree_of_isNaN_false (m : Membership) (hx : x.isNaN = false) :
    m.degree x = toDegree (m.height x) := by
  rw [degree, hx, if_neg Bool.false_ne_true]

theorem degree_of_height {v : Float32} (hx : x.isNaN = false) (h : m.height x = v) (hv : IsDegree v) :
    m.degree x = v := by
  rw [degree_of_isNaN_false m hx, h, hv.toDegree_eq]

/-- Where the function is not so far up a slope, there is a degree. -/
theorem isDegree_degree_of_not_overflows (h : ordered m.points = true) (ho : ¬m.Overflows x) :
    IsDegree (m.degree x) := by
  cases hx : x.isNaN with
  | true =>
    rw [degree, hx, if_pos rfl]
    exact isDegree_zero
  | false =>
    have hheight : IsDegree (m.height x) := by
      obtain ⟨s, hs, hc⟩ | h0 | h1 := covers_or_level h hx
      · obtain ⟨hfirst, hlast⟩ := is_ends h hs
        rw [height_of_covers h hs hc]
        refine Slope.isDegree_height hfirst hlast hc ?_
        by_contra hpart
        exact ho ⟨s, hs, hc, Bool.eq_false_iff.2 hpart⟩
      · rw [h0]
        exact isDegree_zero
      · rw [h1]
        exact isDegree_one
    rwa [degree_of_height hx rfl hheight]

theorem isFinite_part (h : ordered m.points = true) (hw : m.HasWidths) (hs : s ∈ m.slopes)
    (hc : s.Covers x) : (s.part x).isFinite = true := by
  obtain ⟨hp, hq⟩ := is_ends h hs
  obtain ⟨r, hr, hpr, hrq⟩ := is_of_lt_of_le hp hq hc.1 hc.2
  exact Slope.isFinite_part hp hq hr hpr hrq (hw s hs)

/-- Where all widths are numbers, every input has a degree, also one that is infinite or not a number. -/
theorem isDegree_of_hasWidths (h : ordered m.points = true) (hw : m.HasWidths) (x : Float32) :
    IsDegree (m.degree x) := by
  refine isDegree_degree_of_not_overflows h ?_
  rintro ⟨s, hs, hc, hpart⟩
  rw [isFinite_part h hw hs hc] at hpart
  cases hpart

/-- On a slope whose width is a number, the degree is the height of the slope. -/
theorem degree_of_covers (h : ordered m.points = true) (hw : m.HasWidths) (hs : s ∈ m.slopes)
    (hc : s.Covers x) : m.degree x = s.height x := by
  obtain ⟨hp, hq⟩ := is_ends h hs
  exact degree_of_height (lt_iff_value.1 hc.1).2.1 (height_of_covers h hs hc)
    (Slope.isDegree_height hp hq hc (isFinite_part h hw hs hc))

theorem isNaN_degree_of_overflows (h : ordered m.points = true) (ho : m.Overflows x) :
    (m.degree x).isNaN = true := by
  obtain ⟨s, hs, hc, hpart⟩ := ho
  obtain ⟨hfirst, hlast⟩ := is_ends h hs
  have hnan : (m.height x).isNaN = true := by
    rw [height_of_covers h hs hc]
    exact Slope.isNaN_height hfirst hlast hc hpart
  rw [degree_of_isNaN_false m (lt_iff_value.1 hc.1).2.1, toDegree_of_isNaN hnan]
  exact hnan

/-- The degree of a checked function is a number between zero and one, for every input, except on a slope
whose foot is so far from the input that the distance is beyond the bounds of the format: there, and only
there, the degree is not a number. -/
theorem degree_between_zero_and_one_iff (h : m.checked = .ok m) (x : Float32) :
    ((m.degree x).isNaN = false ∧ 0 ≤ m.degree x ∧ m.degree x ≤ 1 ↔ ¬m.Overflows x) ∧
      ((m.degree x).isNaN = true ↔ m.Overflows x) := by
  have hordered : ordered m.points = true := (checked_eq_ok.1 h).1
  have hnan : (m.degree x).isNaN = true ↔ m.Overflows x := by
    refine ⟨fun hn => ?_, isNaN_degree_of_overflows hordered⟩
    by_contra ho
    rw [(isDegree_degree_of_not_overflows hordered ho).isNaN] at hn
    cases hn
  refine ⟨⟨fun hd ho => ?_, fun ho => (isDegree_degree_of_not_overflows hordered ho).bounds⟩, hnan⟩
  rw [hnan.2 ho] at hd
  cases hd.1

/-- From the least finite number to the largest one, the degree at the upper end is not a number. -/
theorem widest_rampUp_overflows :
    let top : Float32 := .ofBits 0x7F7FFFFF
    let m : Membership := .rampUp (-top) top
    m.checked = .ok m ∧ m.Overflows top ∧ (m.degree top).isNaN = true ∧
      ¬((m.degree top).isNaN = false ∧ 0 ≤ m.degree top ∧ m.degree top ≤ 1) := by
  intro top m
  have hchecked : m.checked = .ok m := checked_eq_ok.2 ⟨by decide +kernel, rfl⟩
  have hoverflows : m.Overflows top :=
    ⟨.up (-top) top, List.mem_singleton_self _, ⟨by decide +kernel, by decide +kernel⟩,
      by decide +kernel⟩
  obtain ⟨hrange, hnan⟩ := degree_between_zero_and_one_iff hchecked top
  exact ⟨hchecked, hoverflows, hnan.2 hoverflows, fun hd => hrange.1 hd hoverflows⟩

end Membership

end FuzzyMotion
