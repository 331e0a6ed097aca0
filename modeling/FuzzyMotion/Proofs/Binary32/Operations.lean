import FuzzyMotion.Proofs.Binary32.Unpacked

/-!
The four operations on unpacked numbers. Each of them computes the exact result and rounds it once.
-/
namespace FuzzyMotion.Binary32

open Float.Model (UnpackedFloat Format totalExponent)
open Float.Model.UnpackedFloat (Sign Accuracy ExtendedMantissa roundWithAccuracy normalize
  decreaseExponent)

/-- What stands for a number is a zero or has a significand. -/
theorem Stands.zero_or_finite {u : UnpackedFloat} {q : ℚ} (h : Stands u q) :
    (∃ s, u = .zero s ∧ q = 0) ∨
      ∃ s m e hm, u = .finite s m e hm ∧ q = signFactor s * (m * 2 ^ e) := by
  obtain ⟨hf, hc, rfl⟩ := h
  cases u with
  | notANumber => cases hf
  | infinity s => cases hf
  | zero s => exact Or.inl ⟨s, rfl, rfl⟩
  | finite s m e hm => exact Or.inr ⟨s, m, e, hm, rfl, rfl⟩

theorem Stands.exists_finite {u : UnpackedFloat} {q : ℚ} (h : Stands u q) (hq : q ≠ 0) :
    ∃ s m e hm, u = .finite s m e hm ∧ q = signFactor s * (m * 2 ^ e) :=
  h.zero_or_finite.resolve_left fun ⟨_, _, hzero⟩ => hq hzero

theorem stands_zero (s : Sign) : Stands (.zero s) 0 := ⟨rfl, trivial, rfl⟩

theorem Stands.representable {u : UnpackedFloat} {q : ℚ} (h : Stands u q) : Representable q := by
  obtain ⟨s, rfl, rfl⟩ | ⟨s, m, e, hm, rfl, rfl⟩ := h.zero_or_finite
  · exact ⟨0, 0, by norm_num, by norm_num, by simp⟩
  · obtain ⟨hlt, he, -⟩ := h.canonical
    refine ⟨s.apply m, e, ?_, he, ?_⟩
    · rw [abs_signApply]
      exact_mod_cast hlt
    · rw [cast_signApply]
      push_cast
      ring

theorem Stands.rounded_eq {u : UnpackedFloat} {q : ℚ} (h : Stands u q) : rounded q = q :=
  rounded_of_representable h.representable

theorem Stands.neg {u : UnpackedFloat} {q : ℚ} (h : Stands u q) : Stands u.neg (-q) := by
  obtain ⟨s, rfl, rfl⟩ | ⟨s, m, e, hm, rfl, rfl⟩ := h.zero_or_finite
  · rw [neg_zero]
    exact stands_zero (-s)
  · refine ⟨rfl, h.canonical, ?_⟩
    simp only [UnpackedFloat.neg, unpackedValue, signFactor_neg, neg_mul]

theorem shiftLeft_mul_two_zpow (m k : ℕ) (e : ℤ) :
    ((m <<< k : ℕ) : ℚ) * 2 ^ (e - k) = m * 2 ^ e := by
  rw [Nat.shiftLeft_eq, zpow_sub₀ (by norm_num), zpow_natCast]
  push_cast
  field_simp

theorem log2_shiftLeft {m : ℕ} (hm : 0 < m) (k : ℕ) : (m <<< k).log2 = m.log2 + k := by
  rw [Nat.log2_eq_iff (by rw [Nat.shiftLeft_eq]; positivity), Nat.shiftLeft_eq]
  have hlow := Nat.log2_self_le hm.ne'
  have hhigh : m < 2 ^ (m.log2 + 1) := Nat.lt_log2_self
  constructor
  · rw [pow_add]
    exact Nat.mul_le_mul_right _ hlow
  · rw [show m.log2 + k + 1 = m.log2 + 1 + k by omega, pow_add]
    exact Nat.mul_lt_mul_of_pos_right hhigh (by positivity)

theorem stands_round (s : Sign) {m : ℕ} (hm : 0 < m) (e : ℤ) :
    Stands (UnpackedFloat.round Format.binary32 s m e) (signFactor s * rounded (m * 2 ^ e)) := by
  obtain ⟨t, ht⟩ : ∃ t, t = Max.max (m.log2 + e - 23 : ℤ) (-149) := ⟨_, rfl⟩
  have hq : (0 : ℚ) < m * 2 ^ e := mul_pos (by exact_mod_cast hm) (two_zpow_pos e)
  rw [UnpackedFloat.round]
  simp only [targetExponent_eq, ← ht, decreaseExponent]
  refine stands_roundWithAccuracy s hq ?_ ?_
  · rw [← shiftLeft_mul_two_zpow m (e - t).toNat e, mul_div_cancel_right₀ _ (two_zpow_pos _).ne']
    exact locates_exact _
  · rw [log2_shiftLeft hm]
    omega

/-- A signed whole number at any exponent is rounded once. -/
theorem stands_normalize (m e : ℤ) (s : Sign) :
    Stands (UnpackedFloat.normalize Format.binary32 m e s) (rounded (m * 2 ^ e)) := by
  rw [UnpackedFloat.normalize]
  rcases lt_trichotomy m 0 with hm | rfl | hm
  · rw [show compare m 0 = .lt from Int.compare_eq_lt.2 hm]
    have hcast : (((-m).toNat : ℕ) : ℚ) = -m := by
      exact_mod_cast Int.toNat_of_nonneg (show 0 ≤ -m by omega)
    have := stands_round .negative (m := (-m).toNat) (by omega) e
    rwa [hcast, neg_mul, rounded_neg, show signFactor .negative = -1 from rfl, neg_one_mul,
      neg_neg] at this
  · exact ⟨rfl, trivial, by simp [unpackedValue]⟩
  · rw [show compare m 0 = .gt from Int.compare_eq_gt.2 hm]
    have hcast : ((m.toNat : ℕ) : ℚ) = m := by
      exact_mod_cast Int.toNat_of_nonneg (show 0 ≤ m by omega)
    have := stands_round .positive (m := m.toNat) (by omega) e
    rwa [hcast, show signFactor .positive = 1 from rfl, one_mul] at this

/-- Numbers brought to a common exponent keep their values. -/
theorem signApply_decreaseExponent (s : Sign) (m : ℕ) {e t : ℤ} (h : t ≤ e) :
    ((s.apply (decreaseExponent m e t).1 : ℤ) : ℚ) * 2 ^ t = signFactor s * (m * 2 ^ e) := by
  have hk : t = e - (e - t).toNat := by omega
  rw [cast_signApply, mul_assoc]
  congr 1
  have := shiftLeft_mul_two_zpow m (e - t).toNat e
  rwa [← hk] at this

theorem Stands.add {u v : UnpackedFloat} {p q : ℚ} (hu : Stands u p) (hv : Stands v q) :
    Stands (UnpackedFloat.add Format.binary32 u v) (rounded (p + q)) := by
  obtain ⟨s, rfl, rfl⟩ | ⟨s, m, e, hm, rfl, rfl⟩ := hu.zero_or_finite
  · rw [zero_add, hv.rounded_eq]
    obtain ⟨t, rfl, rfl⟩ | ⟨t, n, f, hn, rfl, rfl⟩ := hv.zero_or_finite
    · cases s <;> cases t <;> exact stands_zero _
    · exact hv
  · obtain ⟨t, rfl, rfl⟩ | ⟨t, n, f, hn, rfl, rfl⟩ := hv.zero_or_finite
    · rw [add_zero, hu.rounded_eq]
      exact hu
    · rw [← signApply_decreaseExponent s m (min_le_left e f),
        ← signApply_decreaseExponent t n (min_le_right e f), ← add_mul, ← Int.cast_add]
      exact stands_normalize _ _ _

theorem Stands.sub {u v : UnpackedFloat} {p q : ℚ} (hu : Stands u p) (hv : Stands v q) :
    Stands (UnpackedFloat.sub Format.binary32 u v) (rounded (p - q)) := by
  obtain ⟨s, rfl, rfl⟩ | ⟨s, m, e, hm, rfl, rfl⟩ := hu.zero_or_finite
  · rw [zero_sub, rounded_neg, hv.rounded_eq]
    obtain ⟨t, rfl, rfl⟩ | ⟨t, n, f, hn, rfl, rfl⟩ := hv.zero_or_finite
    · rw [neg_zero]
      cases s <;> cases t <;> exact stands_zero _
    · exact hv.neg
  · obtain ⟨t, rfl, rfl⟩ | ⟨t, n, f, hn, rfl, rfl⟩ := hv.zero_or_finite
    · rw [sub_zero, hu.rounded_eq]
      exact hu
    · rw [← signApply_decreaseExponent s m (min_le_left e f),
        ← signApply_decreaseExponent t n (min_le_right e f), ← sub_mul, ← Int.cast_sub]
      exact stands_normalize _ _ _

theorem rounded_signFactor_mul (s : Sign) (q : ℚ) : rounded (signFactor s * q) = signFactor s * rounded q := by
  cases s with
  | positive => simp [signFactor]
  | negative => simp [signFactor, rounded_neg]

/-- The product of two canonical significands is long enough. -/
theorem exponent_mul_le {m n : ℕ} {e f : ℤ} (hm : e = -149 ∨ 2 ^ 23 ≤ m)
    (hn : f = -149 ∨ 2 ^ 23 ≤ n) (hm0 : 0 < m) (hn0 : 0 < n) :
    e + f ≤ Max.max ((m * n).log2 + (e + f) - 23) (-149) := by
  have hlog : 2 ^ 23 ≤ m * n → 23 ≤ (m * n).log2 := by
    intro h
    exact (Nat.le_log2 (Nat.mul_pos hm0 hn0).ne').2 h
  rcases hm with rfl | hm
  · rcases hn with rfl | hn
    · omega
    · have := hlog (hn.trans (Nat.le_mul_of_pos_left n hm0))
      omega
  · have := hlog (hm.trans (Nat.le_mul_of_pos_right m hn0))
    omega

theorem Stands.mul {u v : UnpackedFloat} {p q : ℚ} (hu : Stands u p) (hv : Stands v q) :
    Stands (UnpackedFloat.mul Format.binary32 u v) (rounded (p * q)) := by
  obtain ⟨s, rfl, rfl⟩ | ⟨s, m, e, hm, rfl, rfl⟩ := hu.zero_or_finite
  · rw [zero_mul, rounded_zero]
    obtain ⟨t, rfl, rfl⟩ | ⟨t, n, f, hn, rfl, rfl⟩ := hv.zero_or_finite
    · exact stands_zero _
    · exact stands_zero _
  · obtain ⟨t, rfl, rfl⟩ | ⟨t, n, f, hn, rfl, rfl⟩ := hv.zero_or_finite
    · rw [mul_zero, rounded_zero]
      exact stands_zero _
    · obtain ⟨-, -, hcm⟩ := hu.canonical
      obtain ⟨-, -, hcn⟩ := hv.canonical
      have hprod : signFactor s * (m * 2 ^ e) * (signFactor t * (n * 2 ^ f)) =
          signFactor (s * t) * ((m * n : ℕ) * 2 ^ (e + f) : ℚ) := by
        rw [signFactor_mul, two_zpow_add]
        push_cast
        ring
      have hpos : (0 : ℚ) < (m * n : ℕ) * 2 ^ (e + f) :=
        mul_pos (by exact_mod_cast Nat.mul_pos hm hn) (two_zpow_pos _)
      rw [hprod, rounded_signFactor_mul]
      refine stands_roundWithAccuracy _ hpos ?_ (exponent_mul_le hcm hcn hm hn)
      rw [mul_div_cancel_right₀ _ (two_zpow_pos _).ne']
      exact locates_exact _

theorem signFactor_div (s t : Sign) : signFactor (s / t) = signFactor s / signFactor t := by
  have hst : s / t = s * t := by cases s <;> cases t <;> rfl
  rw [hst, signFactor_mul]
  cases t with
  | positive => exact (mul_one _).trans (div_one _).symm
  | negative => rw [show signFactor .negative = -1 from rfl, mul_neg_one, div_neg, div_one]

/-- The mantissa of a quotient is at most one bit shorter than the difference of the lengths. -/
theorem log2_add_le_log2_div {m n k : ℕ} (hm : 0 < m) (hn : 0 < n) :
    m.log2 + k ≤ ((m <<< k) / n).log2 + n.log2 + 1 := by
  cases Nat.lt_or_ge (m.log2 + k) (n.log2 + 1) with
  | inl hlt =>
    omega
  | inr hge =>
    have hlow : 2 ^ (m.log2 + k) ≤ m <<< k := by
      rw [Nat.shiftLeft_eq, pow_add]
      exact Nat.mul_le_mul_right _ (Nat.log2_self_le hm.ne')
    have hhigh : n ≤ 2 ^ (n.log2 + 1) := (Nat.lt_log2_self (n := n)).le
    have hq : 2 ^ (m.log2 + k - (n.log2 + 1)) ≤ (m <<< k) / n := by
      rw [Nat.le_div_iff_mul_le hn]
      calc
        2 ^ (m.log2 + k - (n.log2 + 1)) * n
            ≤ 2 ^ (m.log2 + k - (n.log2 + 1)) * 2 ^ (n.log2 + 1) := Nat.mul_le_mul_left _ hhigh
        _ = 2 ^ (m.log2 + k) := by rw [← pow_add, Nat.sub_add_cancel hge]
        _ ≤ m <<< k := hlow
    have hpos : (m <<< k) / n ≠ 0 := (lt_of_lt_of_le (by positivity) hq).ne'
    have := (Nat.le_log2 hpos).2 hq
    omega

theorem stands_divCore (s : Sign) {m n : ℕ} (hm : 0 < m) (hn : 0 < n) (e f : ℤ) :
    let quotient := UnpackedFloat.divCore Format.binary32 m e n f
    Stands (roundWithAccuracy Format.binary32 s quotient.1 quotient.2.1 quotient.2.2)
      (signFactor s * rounded (m * 2 ^ e / (n * 2 ^ f))) := by
  obtain ⟨d, hd⟩ : ∃ d, d = Min.min (e - f) (Max.max (m.log2 + e - (n.log2 + f) - 24) (-149 : ℤ)) :=
    ⟨_, rfl⟩
  obtain ⟨k, hk⟩ : ∃ k : ℕ, e - f = d + k := ⟨(e - f - d).toNat, by omega⟩
  have hcore : UnpackedFloat.divCore Format.binary32 m e n f =
      ((m <<< k) / n, d, UnpackedFloat.accuracyOfFraction ((m <<< k) % n) n) := by
    have htarget : Format.binary32.targetExponent (totalExponent m e - totalExponent n f) =
        Max.max (m.log2 + e - (n.log2 + f) - 24) (-149) := by
      change Max.max ((m.log2 + 1 + e : ℤ) - (n.log2 + 1 + f) - (24 : ℕ)) _ = _
      have hmin : Format.binary32.minExponent = -149 := by decide
      rw [hmin]
      push_cast
      congr 1
      ring
    simp only [UnpackedFloat.divCore, htarget, ← hd]
    have : (e - f - d).toNat = k := by omega
    rw [this]
  have hpos : (0 : ℚ) < m * 2 ^ e / (n * 2 ^ f) := by
    have hmq : (0 : ℚ) < m := by exact_mod_cast hm
    have hnq : (0 : ℚ) < n := by exact_mod_cast hn
    exact div_pos (mul_pos hmq (two_zpow_pos e)) (mul_pos hnq (two_zpow_pos f))
  have hquot : (m * 2 ^ e / (n * 2 ^ f) : ℚ) / 2 ^ d = ((m <<< k : ℕ) : ℚ) / n := by
    have he : e = d + k + f := by omega
    have hnq : (n : ℚ) ≠ 0 := by exact_mod_cast hn.ne'
    rw [he, two_zpow_add, two_zpow_add, zpow_natCast, Nat.shiftLeft_eq]
    push_cast
    field_simp
  intro quotient
  rw [show quotient = _ from hcore]
  refine stands_roundWithAccuracy s hpos ?_ ?_
  · rw [hquot]
    exact locates_fraction (m <<< k) hn
  · have := log2_add_le_log2_div (k := k) hm hn
    change d ≤ Max.max (((m <<< k / n).log2 : ℤ) + d - 23) (-149)
    omega

theorem Stands.div {u v : UnpackedFloat} {p q : ℚ} (hu : Stands u p) (hv : Stands v q)
    (hq : q ≠ 0) : Stands (UnpackedFloat.div Format.binary32 u v) (rounded (p / q)) := by
  obtain ⟨t, n, f, hn, rfl, rfl⟩ := hv.exists_finite hq
  obtain ⟨s, rfl, rfl⟩ | ⟨s, m, e, hm, rfl, rfl⟩ := hu.zero_or_finite
  · rw [zero_div, rounded_zero]
    exact stands_zero _
  · rw [← div_mul_div_comm, ← signFactor_div, rounded_signFactor_mul]
    exact stands_divCore (s / t) hm hn e f

end FuzzyMotion.Binary32
