import FuzzyMotion.Proofs.Binary32.Rounding

/-!
The numbers that round to a given one. They form an interval around it: up to the middle between it and the
next number of the format on either side. Below a power of two the next number is half as far away as above
it. The ends belong to the interval exactly where the significand is even.
-/
namespace FuzzyMotion.Binary32

/-- A bound is kept, and it may be met where it counts. -/
def Reaches (closed : Prop) (p q : ℚ) : Prop :=
  p < q ∨ closed ∧ p = q

section Reaches

variable {closed : Prop} {p q c : ℚ}

theorem Reaches.le (h : Reaches closed p q) : p ≤ q := by
  rcases h with h | ⟨-, h⟩
  · exact h.le
  · exact h.le

theorem reaches_mul_right (hc : 0 < c) : Reaches closed (p * c) (q * c) ↔ Reaches closed p q := by
  rw [Reaches, Reaches, mul_lt_mul_iff_of_pos_right hc, mul_left_inj' hc.ne']

theorem reaches_neg : Reaches closed (-p) (-q) ↔ Reaches closed q p := by
  rw [Reaches, Reaches, neg_lt_neg_iff, neg_inj, eq_comm]

end Reaches

theorem le_nearestEven_iff (n : ℤ) (x : ℚ) : n ≤ nearestEven x ↔ Reaches (Even n) (n - 1 / 2) x := by
  have hx := Int.floor_add_fract x
  have h₀ := Int.fract_nonneg x
  have h₁ := Int.fract_lt_one x
  have hle : ∀ k : ℤ, (n : ℚ) ≤ k ↔ n ≤ k := fun k => Int.cast_le
  have hlt : ∀ k : ℤ, (n : ℚ) < k + 1 → n ≤ k := fun k h => by
    have : n < k + 1 := by exact_mod_cast h
    omega
  rw [nearestEven]
  split_ifs with hbelow habove
  · constructor
    · intro h
      have := (hle _).2 h
      exact Or.inl (by linarith)
    · intro h
      exact hlt _ (by linarith [h.le])
  · constructor
    · intro h
      have := (hle _).2 h
      push_cast at this
      exact Or.inl (by linarith)
    · intro h
      refine hlt _ ?_
      push_cast
      linarith [h.le]
  · -- Halfway, the whole part stays where it is even, and goes up by one where it is odd.
    have hhalf : Int.fract x = 1 / 2 := le_antisymm (not_lt.1 habove) (not_lt.1 hbelow)
    have hcut : (n : ℚ) - 1 / 2 < x ↔ n ≤ ⌊x⌋ := by
      rw [← hle]
      constructor
      · intro h
        exact (hle _).2 (hlt _ (by linarith))
      · intro h
        linarith
    have hend : (n : ℚ) - 1 / 2 = x ↔ n = ⌊x⌋ + 1 := by
      constructor
      · intro h
        have : (n : ℚ) = ⌊x⌋ + 1 := by linarith
        exact_mod_cast this
      · rintro rfl
        push_cast
        linarith
    rw [Reaches, hcut, hend, Int.even_iff]
    omega

theorem nearestEven_le_iff (n : ℤ) (x : ℚ) : nearestEven x ≤ n ↔ Reaches (Even n) x (n + 1 / 2) := by
  have h := le_nearestEven_iff (-n) (-x)
  rw [nearestEven_neg, neg_le_neg_iff, even_neg] at h
  rw [h, ← reaches_neg, neg_neg]
  push_cast
  rw [show -(-(n : ℚ) - 1 / 2) = n + 1 / 2 by ring]

section OneScale

variable {d : ℚ} {s : ℤ}

theorem le_rounded_iff_of_scale (h : scale d = s) (n : ℤ) :
    n * 2 ^ s ≤ rounded d ↔ Reaches (Even n) ((n - 1 / 2) * 2 ^ s) d := by
  have hpos := two_zpow_pos s
  have hd : d = d / 2 ^ s * 2 ^ s := (div_mul_cancel₀ d hpos.ne').symm
  rw [rounded, h, mul_le_mul_iff_of_pos_right hpos, Int.cast_le, le_nearestEven_iff]
  conv_rhs => rw [hd]
  rw [reaches_mul_right hpos]

theorem rounded_le_iff_of_scale (h : scale d = s) (n : ℤ) :
    rounded d ≤ n * 2 ^ s ↔ Reaches (Even n) d ((n + 1 / 2) * 2 ^ s) := by
  have hpos := two_zpow_pos s
  have hd : d = d / 2 ^ s * 2 ^ s := (div_mul_cancel₀ d hpos.ne').symm
  rw [rounded, h, mul_le_mul_iff_of_pos_right hpos, Int.cast_le, nearestEven_le_iff]
  conv_rhs => rw [hd]
  rw [reaches_mul_right hpos]

end OneScale

/-- A significand and an exponent that is the one of the grid around the number. -/
structure IsSignificand (m : ℕ) (e : ℤ) : Prop where
  pos : 0 < m
  lt : m < 2 ^ 24
  least : -149 ≤ e
  normal : e = -149 ∨ 2 ^ 23 ≤ m

/-- How far the interval reaches down from a number, in steps of the grid around it. -/
def reachBelow (m : ℕ) (e : ℤ) : ℚ :=
  if m = 2 ^ 23 ∧ -149 < e then 1 / 4 else 1 / 2

def lowerEnd (m : ℕ) (e : ℤ) : ℚ :=
  (m - reachBelow m e) * 2 ^ e

def upperEnd (m : ℕ) (e : ℤ) : ℚ :=
  (m + 1 / 2) * 2 ^ e

section Ends

variable (m : ℕ) (e : ℤ)

theorem reachBelow_bounds : 0 < reachBelow m e ∧ reachBelow m e ≤ 1 / 2 := by
  rw [reachBelow]
  split_ifs <;> norm_num

theorem lowerEnd_lt : lowerEnd m e < m * 2 ^ e := by
  rw [lowerEnd, mul_lt_mul_iff_of_pos_right (two_zpow_pos e)]
  linarith [(reachBelow_bounds m e).1]

theorem lt_upperEnd : (m : ℚ) * 2 ^ e < upperEnd m e := by
  rw [upperEnd, mul_lt_mul_iff_of_pos_right (two_zpow_pos e)]
  linarith

end Ends

namespace IsSignificand

variable {m : ℕ} {e : ℤ} {d : ℚ} (h : IsSignificand m e)
include h

theorem representable : Representable (m * 2 ^ e) :=
  ⟨m, e, by rw [Nat.abs_cast]; exact_mod_cast h.lt, h.least, by push_cast; rfl⟩

theorem value_pos : (0 : ℚ) < m * 2 ^ e :=
  mul_pos (by exact_mod_cast h.pos) (two_zpow_pos e)

theorem value_lt : (m : ℚ) * 2 ^ e < 2 ^ (e + 24) :=
  mul_two_zpow_lt e h.lt

theorem lowerEnd_pos : 0 < lowerEnd m e := by
  have hm : (1 : ℚ) ≤ m := by exact_mod_cast h.pos
  exact mul_pos (by linarith [(reachBelow_bounds m e).2]) (two_zpow_pos e)

theorem two_zpow_le (he : -149 < e) : 2 ^ (e + 23) ≤ (m : ℚ) * 2 ^ e := by
  rw [add_comm, two_zpow_add]
  refine mul_le_mul_of_nonneg_right ?_ (two_zpow_pos e).le
  exact_mod_cast h.normal.resolve_left he.ne'

theorem rounded_le_iff : rounded d ≤ m * 2 ^ e ↔ Reaches (Even m) d (upperEnd m e) := by
  rcases le_or_gt d (m * 2 ^ e) with hle | hgt
  · exact iff_of_true (rounded_le h.representable hle) (Or.inl (hle.trans_lt (lt_upperEnd m e)))
  have hd : 0 < d := h.value_pos.trans hgt
  rcases lt_or_ge d (2 ^ (e + 24)) with hlt | hge
  · have hs : scale d = e := by
      refine scale_eq hd.ne' h.least (by rwa [abs_of_pos hd]) ?_
      rw [abs_of_pos hd]
      exact h.least.eq_or_lt.imp Eq.symm fun he => (h.two_zpow_le he).trans hgt.le
    simpa [upperEnd] using rounded_le_iff_of_scale hs m
  · -- The grid is coarser from here on, and the interval ends before.
    have hnext : upperEnd m e < 2 ^ (e + 24) := by
      rw [upperEnd, add_comm e, two_zpow_add, mul_lt_mul_iff_of_pos_right (two_zpow_pos e)]
      have hm : (m : ℚ) + 1 ≤ 2 ^ 24 := by exact_mod_cast h.lt
      norm_num at hm ⊢
      linarith
    refine iff_of_false (not_le.2 ?_) fun hr => absurd hr.le (not_le.2 (hnext.trans_le hge))
    exact h.value_lt.trans_le (le_rounded (representable_two_zpow (by linarith [h.least])) hge)

omit h in
/-- Below a power of two, the grid is half as coarse. -/
theorem le_rounded_iff_of_power (hm : m = 2 ^ 23) (he : -149 < e) (hd : 0 < d) (hlt : d < m * 2 ^ e) :
    m * 2 ^ e ≤ rounded d ↔ Reaches (Even m) ((m - 1 / 4) * 2 ^ e) d := by
  have hpos := two_zpow_pos (e - 1)
  have hhalf : (2 : ℚ) ^ e = 2 * 2 ^ (e - 1) := by
    rw [mul_comm, ← zpow_add_one₀ two_ne_zero, sub_add_cancel]
  have hpower : (2 : ℚ) ^ (e - 1 + 24) = m * 2 ^ e := by
    rw [add_comm, two_zpow_add, hhalf, hm]
    norm_num
    ring
  rcases lt_or_ge d (2 ^ (e - 1 + 23)) with hsmall | hbig
  · have hlow : (2 : ℚ) ^ (e - 1 + 23) < (m - 1 / 4) * 2 ^ e := by
      rw [add_comm, two_zpow_add, hhalf, hm, ← mul_assoc, mul_lt_mul_iff_of_pos_right hpos]
      norm_num
    have hround := rounded_le (representable_two_zpow (by omega)) hsmall.le
    have hless : (2 : ℚ) ^ (e - 1 + 23) < m * 2 ^ e := by
      rw [← hpower]
      exact zpow_lt_zpow_right₀ one_lt_two (by omega)
    exact iff_of_false (not_le.2 (hround.trans_lt hless))
      fun hr => absurd hr.le (not_le.2 (hsmall.trans hlow))
  · have hs : scale d = e - 1 := by
      refine scale_eq hd.ne' (by omega) ?_ (Or.inr ?_)
      · rwa [abs_of_pos hd, hpower]
      · rwa [abs_of_pos hd]
    have hcut := le_rounded_iff_of_scale hs (2 ^ 24)
    have heven : Even (2 ^ 24 : ℤ) ↔ Even m := iff_of_true (by decide) (by rw [hm]; decide)
    rw [Reaches, heven] at hcut
    have hvalue : ((2 ^ 24 : ℤ) : ℚ) * 2 ^ (e - 1) = m * 2 ^ e := by
      rw [hhalf, hm]
      push_cast
      ring
    have hend : (((2 ^ 24 : ℤ) : ℚ) - 1 / 2) * 2 ^ (e - 1) = (m - 1 / 4) * 2 ^ e := by
      rw [hhalf, hm]
      push_cast
      ring
    rwa [hvalue, hend] at hcut

/-- Above a power of two, the grid goes on as it is. -/
theorem le_rounded_iff_of_inner (hinner : ¬(m = 2 ^ 23 ∧ -149 < e)) (hd : 0 < d) (hlt : d < m * 2 ^ e) :
    m * 2 ^ e ≤ rounded d ↔ Reaches (Even m) ((m - 1 / 2) * 2 ^ e) d := by
  have hpos := two_zpow_pos e
  by_cases hs : e = -149 ∨ (2 : ℚ) ^ (e + 23) ≤ d
  · have hscale : scale d = e := by
      refine scale_eq hd.ne' h.least ?_ ?_
      · rw [abs_of_pos hd]
        exact hlt.trans h.value_lt
      · rwa [abs_of_pos hd]
    simpa using le_rounded_iff_of_scale hscale m
  · -- A power of two lies between, and the interval begins above it.
    obtain ⟨he, hsmall⟩ := not_or.1 hs
    rw [not_le] at hsmall
    have hm : 2 ^ 23 < m := by
      have hne : m ≠ 2 ^ 23 := fun hm => hinner ⟨hm, h.least.lt_of_ne' he⟩
      exact lt_of_le_of_ne (h.normal.resolve_left he) hne.symm
    have hlow : (2 : ℚ) ^ (e + 23) < (m - 1 / 2) * 2 ^ e := by
      rw [add_comm, two_zpow_add, mul_lt_mul_iff_of_pos_right hpos]
      have hm' : (2 ^ 23 : ℚ) + 1 ≤ m := by exact_mod_cast hm
      norm_num
      linarith
    have hbelow : ((m : ℚ) - 1 / 2) * 2 ^ e < m * 2 ^ e := by
      rw [mul_lt_mul_iff_of_pos_right hpos]
      linarith
    have hround := rounded_le (representable_two_zpow (by linarith [h.least])) hsmall.le
    exact iff_of_false (not_le.2 (hround.trans_lt (hlow.trans hbelow)))
      fun hr => absurd hr.le (not_le.2 (hsmall.trans hlow))

theorem le_rounded_iff (hd : 0 < d) : m * 2 ^ e ≤ rounded d ↔ Reaches (Even m) (lowerEnd m e) d := by
  rcases le_or_gt ((m : ℚ) * 2 ^ e) d with hle | hlt
  · exact iff_of_true (le_rounded h.representable hle) (Or.inl ((lowerEnd_lt m e).trans_le hle))
  rw [lowerEnd, reachBelow]
  split_ifs with hpower
  · exact le_rounded_iff_of_power hpower.1 hpower.2 hd hlt
  · exact h.le_rounded_iff_of_inner hpower hd hlt

/-- What rounds to a number. -/
theorem rounded_eq_iff (hd : 0 < d) :
    rounded d = m * 2 ^ e ↔ Reaches (Even m) (lowerEnd m e) d ∧ Reaches (Even m) d (upperEnd m e) := by
  rw [le_antisymm_iff, h.rounded_le_iff, h.le_rounded_iff hd, and_comm]

end IsSignificand

end FuzzyMotion.Binary32
