import FuzzyMotion.Proofs.Binary32.Degree

/-!
The largest of zero and of some numbers. What is not a number does not count, wherever it stands among
them, and so the result is a number in any case.
-/
namespace FuzzyMotion.Binary32

variable {x y : Float32} {values others : List Float32}

/-- Taken one after the other, starting from zero. -/
def largest (values : List Float32) : Float32 :=
  values.foldl max 0

/-- `x` is the largest of zero and of those values that are numbers. -/
structure IsLargest (values : List Float32) (x : Float32) : Prop where
  nonneg : 0 ≤ x
  bound : ∀ y ∈ values, y.isNaN = false → y ≤ x
  attained : x = 0 ∨ x ∈ values

theorem not_lt_zero_self : ¬(0 : Float32) < 0 :=
  not_lt_of_le_number (le_rfl_of_number is_zero.isNaN)

/-- A number that is not positive. -/
def Inactive (x : Float32) : Prop :=
  x.isNaN = false ∧ ¬0 < x

theorem inactive_zero : Inactive 0 := ⟨is_zero.isNaN, not_lt_zero_self⟩

theorem Inactive.min_left (hx : Inactive x) : Inactive (Binary32.min x y) := by
  rw [Binary32.min, hx.1, if_neg Bool.false_ne_true]
  by_cases h : y < x
  · rw [if_pos h]
    exact ⟨(lt_iff_value.1 h).1, fun hy => hx.2 (lt_of_lt_of_le_number hy (le_of_lt_number h))⟩
  · rw [if_neg h]
    exact hx

theorem Inactive.min_right (hy : Inactive y) : Inactive (Binary32.min x y) := by
  rw [Binary32.min]
  cases hn : x.isNaN with
  | true => exact hy
  | false =>
    rw [if_neg Bool.false_ne_true]
    by_cases h : y < x
    · rw [if_pos h]
      exact hy
    · rw [if_neg h]
      exact ⟨hn, fun hx => hy.2 (lt_of_lt_of_le_number hx (le_of_not_lt hy.1 hn h))⟩

theorem Inactive.max_zero (hx : Inactive x) : Binary32.max 0 x = 0 := by
  rw [Binary32.max, is_zero.isNaN, if_neg Bool.false_ne_true, if_neg hx.2]

/-- The larger one of a number and of anything is a number, and no smaller than the numbers it is of. -/
theorem max_of_number (hx : x.isNaN = false) :
    x ≤ max x y ∧ (y.isNaN = false → y ≤ max x y) ∧ (max x y = x ∨ max x y = y) := by
  rw [max, hx, if_neg Bool.false_ne_true]
  by_cases h : x < y
  · rw [if_pos h]
    have hy := (lt_iff_value.1 h).2.1
    exact ⟨le_of_lt_number h, fun _ => le_rfl_of_number hy, Or.inr rfl⟩
  · rw [if_neg h]
    exact ⟨le_rfl_of_number hx, fun hy => le_of_not_lt hx hy h, Or.inl rfl⟩

theorem foldl_max_of_number (values : List Float32) (hx : x.isNaN = false) :
    x ≤ values.foldl max x ∧ (∀ y ∈ values, y.isNaN = false → y ≤ values.foldl max x) ∧
      (values.foldl max x = x ∨ values.foldl max x ∈ values) := by
  induction values generalizing x with
  | nil => exact ⟨le_rfl_of_number hx, by simp, Or.inl rfl⟩
  | cons y rest ih =>
    obtain ⟨hle, hbound, hor⟩ := max_of_number (y := y) hx
    obtain ⟨hlow, hrest, hattained⟩ := ih (x := max x y) (le_iff_value.1 hle).2.1
    refine ⟨le_trans_of_number hle hlow, ?_, ?_⟩
    · intro z hz hn
      cases List.mem_cons.1 hz with
      | inl hzy =>
        subst hzy
        exact le_trans_of_number (hbound hn) hlow
      | inr hz => exact hrest z hz hn
    · cases hattained with
      | inl h =>
        rw [List.foldl_cons, h]
        cases hor with
        | inl hx => exact Or.inl hx
        | inr hy => exact Or.inr (by rw [hy]; simp)
      | inr h => exact Or.inr (List.mem_cons_of_mem _ h)

theorem isLargest_largest (values : List Float32) : IsLargest values (largest values) := by
  obtain ⟨h0, hbound, hattained⟩ := foldl_max_of_number values is_zero.isNaN
  exact ⟨h0, hbound, hattained⟩

/-- The largest is positive where one of the values is. -/
theorem largest_pos_iff : 0 < largest values ↔ ∃ y ∈ values, 0 < y := by
  obtain ⟨-, hbound, hattained⟩ := isLargest_largest values
  constructor
  · intro h
    cases hattained with
    | inl h0 =>
      rw [h0] at h
      exact absurd h not_lt_zero_self
    | inr hm => exact ⟨_, hm, h⟩
  · rintro ⟨y, hy, h⟩
    exact lt_of_lt_of_le_number h (hbound y hy (lt_iff_value.1 h).2.1)

/-- A maximum is never replaced by an equal one. -/
theorem foldl_max_eq_or_lt (values : List Float32) (hx : x.isNaN = false) :
    values.foldl max x = x ∨ x < values.foldl max x := by
  induction values generalizing x with
  | nil => exact Or.inl rfl
  | cons y rest ih =>
    rw [List.foldl_cons, max, hx, if_neg Bool.false_ne_true]
    by_cases h : x < y
    · rw [if_pos h]
      obtain ⟨hle, -⟩ := foldl_max_of_number rest (lt_iff_value.1 h).2.1
      exact Or.inr (lt_of_lt_of_le_number h hle)
    · rw [if_neg h]
      exact ih hx

/-- Of the two zeros, only the positive one is ever the largest. -/
theorem largest_eq_zero_or_pos (values : List Float32) : largest values = 0 ∨ 0 < largest values :=
  foldl_max_eq_or_lt values is_zero.isNaN

theorem largest_of_inactive (h : ∀ y ∈ values, ¬0 < y) : largest values = 0 := by
  refine (largest_eq_zero_or_pos values).resolve_right fun hpos => ?_
  obtain ⟨y, hy, hy0⟩ := largest_pos_iff.1 hpos
  exact h y hy hy0

theorem Is.largest_singleton {q : ℚ} (hx : Is x q) (h0 : 0 ≤ q) : Is (largest [x]) q := by
  have hmax := is_zero.max hx
  rwa [sup_eq_right.2 h0] at hmax

theorem largest_le_largest (h : ∀ y ∈ values, y ∈ others) : largest values ≤ largest others := by
  obtain ⟨h0, -, hattained⟩ := isLargest_largest values
  obtain ⟨h0', hbound, -⟩ := isLargest_largest others
  cases hattained with
  | inl hzero => rwa [hzero]
  | inr hm => exact hbound _ (h _ hm) (le_iff_value.1 h0).2.1

/-- The largest does not depend on the order of the values, nor on how often they occur. -/
theorem largest_congr (h : ∀ y, y ∈ values ↔ y ∈ others) : largest values = largest others := by
  have hle := largest_le_largest fun y => (h y).1
  have hge := largest_le_largest fun y => (h y).2
  cases largest_eq_zero_or_pos values with
  | inl hzero =>
    cases largest_eq_zero_or_pos others with
    | inl hzero' => rw [hzero, hzero']
    | inr hpos =>
      rw [hzero] at hge
      exact absurd (lt_of_lt_of_le_number hpos hge) not_lt_zero_self
  | inr hpos =>
    obtain ⟨hx, hy, hvalue⟩ := le_iff_value.1 hle
    obtain ⟨-, -, hvalue'⟩ := le_iff_value.1 hge
    obtain ⟨-, -, hpos⟩ := lt_iff_value.1 hpos
    rw [is_zero.value_eq] at hpos
    exact eq_of_value_eq hx hy (le_antisymm hvalue hvalue') hpos.ne'

/-- The largest of degrees and of what is not a number is a degree. -/
theorem isDegree_largest (h : ∀ y ∈ values, IsGrade y) :
    IsDegree (largest values) := by
  obtain ⟨h0, -, hattained⟩ := isLargest_largest values
  cases hattained with
  | inl h =>
    rw [h]
    exact isDegree_zero
  | inr hm => exact h _ hm (le_iff_value.1 h0).2.1

end FuzzyMotion.Binary32
