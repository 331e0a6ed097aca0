import FuzzyMotion.Binary32
import FuzzyMotion.Proofs.Binary32.Value

/-!
Degrees of truth as binary32 numbers. They are numbers between zero and one, and the logical
connectives keep them there. A coarse degree is zero or far above the least normal number, so it can
be halved without loss.
-/
namespace FuzzyMotion.Binary32

variable {x y : Float32} {p q : ℚ}

/-- A number between zero and one. -/
def IsDegree (x : Float32) : Prop :=
  ∃ q, Is x q ∧ 0 ≤ q ∧ q ≤ 1

/-- A degree that is zero or not too small. -/
def IsCoarse (x : Float32) : Prop :=
  ∃ q, Is x q ∧ (q = 0 ∨ 2 ^ (-100 : ℤ) ≤ q) ∧ q ≤ 1

theorem IsCoarse.exists_nonneg (h : IsCoarse x) :
    ∃ q, Is x q ∧ (q = 0 ∨ 2 ^ (-100 : ℤ) ≤ q) ∧ 0 ≤ q ∧ q ≤ 1 := by
  obtain ⟨q, hx, h0, h1⟩ := h
  refine ⟨q, hx, h0, ?_, h1⟩
  rcases h0 with rfl | h0
  · exact le_refl 0
  · exact (two_zpow_pos _).le.trans h0

theorem IsCoarse.isDegree (h : IsCoarse x) : IsDegree x := by
  obtain ⟨q, hx, -, hdegree⟩ := h.exists_nonneg
  exact ⟨q, hx, hdegree⟩

theorem is_one : Is 1 1 :=
  is_of_unpack (s := .positive) (m := 8388608) (e := -23) (by decide) rfl
    (by norm_num [signFactor])

theorem Is.eq_one (h : Is x 1) : x = 1 := by
  refine eq_of_value_eq h.isNaN is_one.isNaN ?_ ?_
  · rw [h.value_eq, is_one.value_eq]
  · rw [h.value_eq]
    exact one_ne_zero

theorem pos_of_two_zpow_le (hx : Is x q) (h : 2 ^ (-100 : ℤ) ≤ q) : 0 < x :=
  (is_zero.lt_iff hx).2 ((two_zpow_pos _).trans_le h)

theorem isDegree_zero : IsDegree 0 := ⟨0, is_zero, le_refl 0, zero_le_one⟩

theorem isDegree_one : IsDegree 1 := ⟨1, is_one, zero_le_one, le_refl 1⟩

theorem isCoarse_zero : IsCoarse 0 := ⟨0, is_zero, Or.inl rfl, zero_le_one⟩

theorem isCoarse_one : IsCoarse 1 := ⟨1, is_one, Or.inr (by norm_num), le_refl 1⟩

theorem IsDegree.isNaN (h : IsDegree x) : x.isNaN = false := by
  obtain ⟨q, hx, -, -⟩ := h
  exact hx.isNaN

theorem IsDegree.bounds (h : IsDegree x) : x.isNaN = false ∧ 0 ≤ x ∧ x ≤ 1 := by
  obtain ⟨q, hx, h0, h1⟩ := h
  exact ⟨hx.isNaN, (is_zero.le_iff hx).2 h0, (hx.le_iff is_one).2 h1⟩

theorem isDegree_iff_bounds : IsDegree x ↔ 0 ≤ x ∧ x ≤ 1 :=
  ⟨fun h => h.bounds.2, fun h => is_of_le_of_le is_zero is_one h.1 h.2⟩

section MinMax

theorem Is.min (hx : Is x p) (hy : Is y q) : Is (Binary32.min x y) (p ⊓ q) := by
  rw [Binary32.min]
  rw [hx.isNaN, if_neg Bool.false_ne_true]
  by_cases h : y < x
  · rw [if_pos h, inf_eq_right.2 ((hy.lt_iff hx).1 h).le]
    exact hy
  · rw [if_neg h, inf_eq_left.2 (not_lt.1 fun hlt => h ((hy.lt_iff hx).2 hlt))]
    exact hx

theorem Is.max (hx : Is x p) (hy : Is y q) : Is (Binary32.max x y) (p ⊔ q) := by
  rw [Binary32.max]
  rw [hx.isNaN, if_neg Bool.false_ne_true]
  by_cases h : x < y
  · rw [if_pos h, sup_eq_right.2 ((hx.lt_iff hy).1 h).le]
    exact hy
  · rw [if_neg h, sup_eq_left.2 (not_lt.1 fun hlt => h ((hx.lt_iff hy).2 hlt))]
    exact hx

theorem min_eq_or (hx : x.isNaN = false) : Binary32.min x y = x ∨ Binary32.min x y = y := by
  rw [Binary32.min]
  rw [hx, if_neg Bool.false_ne_true]
  split
  · exact Or.inr rfl
  · exact Or.inl rfl

theorem max_eq_or (hx : x.isNaN = false) : Binary32.max x y = x ∨ Binary32.max x y = y := by
  rw [Binary32.max]
  rw [hx, if_neg Bool.false_ne_true]
  split
  · exact Or.inr rfl
  · exact Or.inl rfl

theorem IsDegree.min (hx : IsDegree x) (hy : IsDegree y) : IsDegree (Binary32.min x y) := by
  rcases min_eq_or (y := y) hx.isNaN with h | h <;> rw [h]
  · exact hx
  · exact hy

theorem IsDegree.max (hx : IsDegree x) (hy : IsDegree y) : IsDegree (Binary32.max x y) := by
  rcases max_eq_or (y := y) hx.isNaN with h | h <;> rw [h]
  · exact hx
  · exact hy

theorem min_one_left (h : IsDegree x) : Binary32.min 1 x = x := by
  rw [Binary32.min, is_one.isNaN, if_neg Bool.false_ne_true]
  by_cases hlt : x < 1
  · exact if_pos hlt
  · rw [if_neg hlt]
    obtain ⟨q, hx, -, hq⟩ := h
    have hq1 : q = 1 := le_antisymm hq (not_lt.1 fun hcon => hlt ((hx.lt_iff is_one).2 hcon))
    rw [hq1] at hx
    exact hx.eq_one.symm

theorem min_one_right (h : IsDegree x) : Binary32.min x 1 = x := by
  rw [Binary32.min, h.isNaN, if_neg Bool.false_ne_true, if_neg (not_lt_of_le_number h.bounds.2.2)]

theorem IsCoarse.min (hx : IsCoarse x) (hy : IsCoarse y) : IsCoarse (Binary32.min x y) := by
  rcases min_eq_or (y := y) hx.isDegree.isNaN with h | h <;> rw [h]
  · exact hx
  · exact hy

theorem IsCoarse.max (hx : IsCoarse x) (hy : IsCoarse y) : IsCoarse (Binary32.max x y) := by
  rcases max_eq_or (y := y) hx.isDegree.isNaN with h | h <;> rw [h]
  · exact hx
  · exact hy

end MinMax

section Complement

theorem representable_one : Representable 1 := by
  simpa using representable_intCast (n := 1) (by norm_num)

theorem lt_two_zpow_128 {r : ℚ} (h : r ≤ 2 ^ (100 : ℤ)) : r < 2 ^ (128 : ℤ) :=
  h.trans_lt (zpow_lt_zpow_right₀ (by norm_num) (by norm_num))

/-- A part of a positive number, divided by the number. -/
theorem is_fraction {v w : ℚ} (hx : Is x v) (hy : Is y w) (hv : 0 ≤ v) (hvw : v ≤ w) (hw : 0 < w) :
    Is (x / y) (rounded (v / w)) ∧ 0 ≤ rounded (v / w) ∧ rounded (v / w) ≤ 1 := by
  have h0 : 0 ≤ v / w := div_nonneg hv hw.le
  have h1 : v / w ≤ 1 := (div_le_one hw).2 hvw
  have hlow := rounded_nonneg h0
  have hhigh := rounded_le representable_one h1
  refine ⟨hx.div hy hw.ne' ?_, hlow, hhigh⟩
  rw [abs_of_nonneg hlow]
  exact lt_two_zpow_128 (hhigh.trans (by norm_num))

theorem is_complement (hx : Is x q) (h0 : 0 ≤ q) (h1 : q ≤ 1) :
    Is (1 - x) (rounded (1 - q)) ∧ 0 ≤ rounded (1 - q) ∧ rounded (1 - q) ≤ 1 := by
  have hlow : 0 ≤ rounded (1 - q) := rounded_nonneg (by linarith)
  have hhigh : rounded (1 - q) ≤ 1 := rounded_le representable_one (by linarith)
  refine ⟨is_one.sub hx ?_, hlow, hhigh⟩
  rw [abs_of_nonneg hlow]
  exact lt_two_zpow_128 (hhigh.trans (by norm_num))

/-- The complement of a degree is coarse: degrees keep their distance from one. -/
theorem IsDegree.complement (h : IsDegree x) : IsCoarse (1 - x) := by
  obtain ⟨q, hx, h0, h1⟩ := h
  obtain ⟨hcomplement, -, hone⟩ := is_complement hx h0 h1
  refine ⟨_, hcomplement, ?_, hone⟩
  rcases h1.lt_or_eq with hlt | rfl
  · right
    have hgap : 2 ^ (-24 : ℤ) ≤ 1 - q :=
      two_zpow_le_sub hx.representable representable_one hlt (Or.inr (by norm_num))
    calc
      (2 : ℚ) ^ (-100 : ℤ) ≤ 2 ^ (-24 : ℤ) := two_zpow_le_two_zpow (by norm_num)
      _ ≤ rounded (1 - q) := le_rounded (representable_two_zpow (by norm_num)) hgap
  · left
    simp

/-- Half a step below one is rounded to one: a tie, and one is the even neighbor. -/
theorem rounded_below_one : rounded (1 - 2 ^ (-25 : ℤ)) = 1 := by
  have hscale : scale (1 - 2 ^ (-25 : ℤ)) = -24 := by
    refine scale_eq (by norm_num) (by norm_num) ?_ (Or.inr ?_)
    · rw [abs_of_pos (by norm_num)]
      norm_num
    · rw [abs_of_pos (by norm_num)]
      norm_num
  have hhalf : ((1 : ℚ) - 2 ^ (-25 : ℤ)) / 2 ^ (-24 : ℤ) = 2 ^ 24 - 1 / 2 := by norm_num
  have hnear : nearestEven (2 ^ 24 - 1 / 2) = 2 ^ 24 := by
    rw [nearestEven]
    norm_num [Int.fract]
  rw [rounded, hscale, hhalf, hnear]
  norm_num

/-- The complement of a degree is off by at most half a step below one. -/
theorem abs_rounded_complement_sub_le {d : ℚ} (h0 : 0 ≤ d) (h1 : d ≤ 1) :
    |rounded (1 - d) - (1 - d)| ≤ 2 ^ (-25 : ℤ) := by
  rcases h0.eq_or_lt with rfl | hpos
  · rw [sub_zero, rounded_of_representable representable_one, sub_self, abs_zero]
    exact (two_zpow_pos _).le
  · rcases h1.eq_or_lt with rfl | hlt
    · rw [sub_self, rounded_zero, sub_self, abs_zero]
      exact (two_zpow_pos _).le
    · have hscale : scale (1 - d) ≤ -24 := by
        refine scale_le (by linarith) (by norm_num) ?_
        rw [abs_of_pos (by linarith)]
        norm_num
        exact hpos
      exact (abs_rounded_sub_le _).trans (two_zpow_le_two_zpow (by omega))

/-- A degree and its complement make up no less than one: where the complement is rounded down, their sum is
rounded up again. -/
theorem one_le_rounded_complement_add {d : ℚ} (h0 : 0 ≤ d) (h1 : d ≤ 1) :
    1 ≤ rounded (rounded (1 - d) + d) := by
  have hlow := (abs_le.1 (abs_rounded_complement_sub_le h0 h1)).1
  calc (1 : ℚ) = rounded (1 - 2 ^ (-25 : ℤ)) := rounded_below_one.symm
    _ ≤ rounded (rounded (1 - d) + d) := rounded_mono (by linarith)

/-- A number is clamped as a rational is. -/
theorem is_toDegree (h : x.isNaN = false) : Is (toDegree x) (0 ⊔ (1 ⊓ value x)) := by
  have hlow : x < 0 ↔ value x < 0 := by
    rw [lt_iff_value, is_zero.value_eq, h, is_zero.isNaN]
    simp only [true_and]
  have hhigh : 1 < x ↔ 1 < value x := by
    rw [lt_iff_value, is_one.value_eq, h, is_one.isNaN]
    simp only [true_and]
  unfold toDegree clamp
  by_cases h0 : value x < 0
  · rw [if_pos (hlow.2 h0), sup_eq_left.2 (inf_le_right.trans h0.le)]
    exact is_zero
  · rw [if_neg fun hlt => h0 (hlow.1 hlt)]
    rw [not_lt] at h0
    by_cases h1 : 1 < value x
    · rw [if_pos (hhigh.2 h1), inf_eq_left.2 h1.le, sup_eq_right.2 zero_le_one]
      exact is_one
    · rw [if_neg fun hlt => h1 (hhigh.1 hlt)]
      rw [not_lt] at h1
      rw [inf_eq_right.2 h1, sup_eq_right.2 h0]
      refine is_of_bounds h ?_
      rw [abs_of_nonneg h0]
      exact lt_two_zpow_128 (h1.trans (by norm_num))

/-- What is a number can be clamped to a degree. -/
theorem isDegree_toDegree (h : x.isNaN = false) : IsDegree (toDegree x) :=
  ⟨_, is_toDegree h, le_sup_left, sup_le zero_le_one inf_le_left⟩

theorem IsDegree.toDegree_eq (h : IsDegree x) : toDegree x = x := by
  obtain ⟨q, hx, h0, h1⟩ := h
  unfold toDegree clamp
  rw [if_neg, if_neg]
  · exact fun hlt => absurd ((is_one.lt_iff hx).1 hlt) (not_lt.2 h1)
  · exact fun hlt => absurd ((hx.lt_iff is_zero).1 hlt) (not_lt.2 h0)

/-- What is not a number cannot be clamped. -/
theorem toDegree_of_isNaN (h : x.isNaN = true) : toDegree x = x := by
  have hlow : ¬x < 0 := fun hlt => Bool.false_ne_true ((lt_iff_value.1 hlt).1.symm.trans h)
  have hhigh : ¬1 < x := fun hlt => Bool.false_ne_true ((lt_iff_value.1 hlt).2.1.symm.trans h)
  rw [toDegree, clamp, if_neg hlow, if_neg hhigh]

/-- To clamp again changes nothing, not even where there is no number. -/
theorem toDegree_toDegree (x : Float32) : toDegree (toDegree x) = toDegree x := by
  by_cases hlow : x < 0
  · have h : toDegree x = 0 := by rw [toDegree, clamp, if_pos hlow]
    rw [h, isDegree_zero.toDegree_eq]
  · by_cases hhigh : 1 < x
    · have h : toDegree x = 1 := by rw [toDegree, clamp, if_neg hlow, if_pos hhigh]
      rw [h, isDegree_one.toDegree_eq]
    · have h : toDegree x = x := by rw [toDegree, clamp, if_neg hlow, if_neg hhigh]
      rw [h, h]

end Complement

section Grade

/-- A degree, if it is a number at all. -/
def IsGrade (x : Float32) : Prop :=
  x.isNaN = false → IsDegree x

theorem IsDegree.isGrade (h : IsDegree x) : IsGrade x :=
  fun _ => h

theorem isGrade_toDegree (x : Float32) : IsGrade (toDegree x) := by
  cases hx : x.isNaN with
  | false => exact (isDegree_toDegree hx).isGrade
  | true =>
    intro h
    rw [toDegree_of_isNaN hx, hx] at h
    cases h

theorem IsGrade.min (hx : IsGrade x) (hy : IsGrade y) : IsGrade (Binary32.min x y) := by
  cases hn : x.isNaN with
  | true =>
    rw [Binary32.min, hn, if_pos rfl]
    exact hy
  | false =>
    cases min_eq_or (y := y) hn with
    | inl h => rwa [h]
    | inr h => rwa [h]

theorem IsGrade.max (hx : IsGrade x) (hy : IsGrade y) : IsGrade (Binary32.max x y) := by
  cases hn : x.isNaN with
  | true =>
    rw [Binary32.max, hn, if_pos rfl]
    exact hy
  | false =>
    cases max_eq_or (y := y) hn with
    | inl h => rwa [h]
    | inr h => rwa [h]

/-- What is not a number does not take the place of a degree. -/
theorem IsDegree.max_of_isGrade (hx : IsDegree x) (hy : IsGrade y) :
    IsDegree (Binary32.max x y) := by
  rw [Binary32.max, hx.isNaN, if_neg Bool.false_ne_true]
  by_cases h : x < y
  · rw [if_pos h]
    exact hy (lt_iff_value.1 h).2.1
  · rw [if_neg h]
    exact hx

/-- What is not a number stays so under the complement. -/
theorem isNaN_complement (h : x.isNaN = true) : (1 - x).isNaN = true := by
  rw [Float32.isNaN_eq_decide_eq_nan, decide_eq_true_eq] at h
  rw [h]
  decide

theorem IsGrade.complement (h : IsGrade x) : IsGrade (1 - x) := by
  intro hn
  cases hx : x.isNaN with
  | false => exact (h hx).complement.isDegree
  | true =>
    rw [isNaN_complement hx] at hn
    cases hn

end Grade

end FuzzyMotion.Binary32
