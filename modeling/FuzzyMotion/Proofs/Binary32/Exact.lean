import FuzzyMotion.Binary32
import FuzzyMotion.Proofs.Binary32.Value

/-!
Operations without rounding. The difference of two numbers is exact where neither is more than twice the
other, and the remainder of a division is exact everywhere.
-/
namespace FuzzyMotion.Binary32

open Float.Model (UnpackedFloat Format)
open Float.Model.UnpackedFloat (Sign normalize)

variable {x y : Float32} {p q r : ℚ}

section Difference

theorem Representable.exists_mul_scale (h : Representable q) : ∃ n : ℤ, q = n * 2 ^ scale q :=
  ⟨_, (rounded_of_representable h).symm⟩

/-- A multiple of a step is representable where the step is not too small for it. -/
theorem representable_mul_two_zpow {n k : ℤ} (hk : -149 ≤ k) (h : |(n : ℚ) * 2 ^ k| < 2 ^ (k + 24)) :
    Representable (n * 2 ^ k) := by
  refine ⟨n, k, ?_, hk, rfl⟩
  rw [abs_mul, abs_of_pos (two_zpow_pos k), add_comm, two_zpow_add,
    mul_lt_mul_iff_left₀ (two_zpow_pos k)] at h
  exact_mod_cast h

/-- Numbers within a factor of two of each other: both are multiples of the step around the smaller one,
and so is their difference, which is no larger than the smaller one. -/
theorem Representable.sub_of_le (hp : Representable p) (hq : Representable q) (h0 : 0 < p) (hpq : p ≤ q)
    (hqp : q ≤ 2 * p) : Representable (q - p) := by
  obtain ⟨m, hm⟩ := hp.exists_mul_scale
  obtain ⟨n, hn⟩ := hq.exists_mul_scale
  have hscale := scale_mono h0 hpq
  have hstep := two_zpow_div hscale
  rw [div_eq_iff (two_zpow_pos _).ne'] at hstep
  have hdiff : q - p = ((n * 2 ^ (scale q - scale p).toNat - m : ℤ) : ℚ) * 2 ^ scale p := by
    calc q - p = n * 2 ^ scale q - m * 2 ^ scale p := by rw [← hm, ← hn]
      _ = ((n * 2 ^ (scale q - scale p).toNat - m : ℤ) : ℚ) * 2 ^ scale p := by
        rw [hstep]
        push_cast
        ring
  have hsmall : |q - p| < 2 ^ (scale p + 24) := by
    have hlt := abs_lt_two_zpow_scale p
    rw [abs_of_pos h0] at hlt
    rw [abs_of_nonneg (sub_nonneg.2 hpq)]
    linarith
  rw [hdiff] at hsmall ⊢
  exact representable_mul_two_zpow (neg_149_le_scale p) hsmall

/-- An operation on numbers whose exact result is representable gives this result. -/
theorem Is.sub_exact (hx : Is x p) (hy : Is y q) (h : Representable (p - q))
    (hsmall : |p - q| < 2 ^ (128 : ℤ)) : Is (x - y) (p - q) := by
  have hround := rounded_of_representable h
  rw [← hround]
  exact hx.sub hy (by rwa [hround])

theorem Is.add_exact (hx : Is x p) (hy : Is y q) (h : Representable (p + q))
    (hsmall : |p + q| < 2 ^ (128 : ℤ)) : Is (x + y) (p + q) := by
  have hround := rounded_of_representable h
  rw [← hround]
  exact hx.add hy (by rwa [hround])

end Difference

section Remainder

/-- What is left of a number after whole multiples of another one have been taken from it: less than the
other one, and on the same side of zero as the number. -/
structure IsRemainder (p q r : ℚ) : Prop where
  congruent : ∃ k : ℤ, p - r = k * q
  smaller : |r| < |q|
  side : 0 ≤ p * r

/-- Of two numbers that differ by a whole multiple, but by less than one of them, there is only one. -/
theorem eq_of_sub_eq_mul {k : ℤ} (h : p - r = k * q) (hlt : |p - r| < |q|) : p = r := by
  have hk : k = 0 := by
    by_contra hne
    have hone : (1 : ℚ) ≤ |(k : ℚ)| := by exact_mod_cast Int.one_le_abs hne
    rw [h, abs_mul] at hlt
    exact absurd hlt (not_lt.2 (le_mul_of_one_le_left (abs_nonneg q) hone))
  rw [hk, Int.cast_zero, zero_mul] at h
  exact sub_eq_zero.1 h

/-- A number that is less than the other one is its own remainder. -/
theorem IsRemainder.eq_of_abs_lt (h : IsRemainder p q r) (hp : |p| < |q|) : r = p := by
  obtain ⟨k, hk⟩ := h.congruent
  refine (eq_of_sub_eq_mul hk ?_).symm
  obtain ⟨hp1, hp2⟩ := abs_lt.1 hp
  obtain ⟨hr1, hr2⟩ := abs_lt.1 h.smaller
  -- Both lie on the same side of zero, so they are no further apart than zero and the larger one.
  have hside := h.side
  rw [abs_lt]
  rcases lt_trichotomy p 0 with hneg | rfl | hpos
  · have hr : r ≤ 0 := nonpos_of_mul_nonneg_right hside hneg
    constructor <;> linarith
  · constructor <;> linarith
  · have hr : 0 ≤ r := nonneg_of_mul_nonneg_right hside hpos
    constructor <;> linarith

/-- A division of whole numbers, in units of one step and with signs. -/
theorem isRemainder_of_nat (s t : Sign) {a b c d : ℕ} (h : a = b * c + d) (hd : d < b) {u : ℚ}
    (hu : 0 < u) :
    IsRemainder (signFactor s * (a * u)) (signFactor t * (b * u)) (signFactor s * (d * u)) := by
  have hrest : (0 : ℚ) ≤ d * u := by positivity
  have hdivisor : (0 : ℚ) ≤ b * u := by positivity
  refine ⟨⟨(s * t).apply c, ?_⟩, ?_, ?_⟩
  · calc signFactor s * (a * u) - signFactor s * (d * u)
        = signFactor s * (c * (b * u)) := by rw [h]; push_cast; ring
      _ = signFactor s * (c * (signFactor t * (signFactor t * (b * u)))) := by rw [signFactor_mul_self]
      _ = (((s * t).apply c : ℤ) : ℚ) * (signFactor t * (b * u)) := by
        rw [cast_signApply, signFactor_mul]
        push_cast
        ring
  · rw [abs_mul, abs_signFactor, one_mul, abs_of_nonneg hrest, abs_mul, abs_signFactor, one_mul,
      abs_of_nonneg hdivisor]
    exact mul_lt_mul_of_pos_right (by exact_mod_cast hd) hu
  · calc (0 : ℚ) ≤ a * u * (d * u) := mul_nonneg (by positivity) hrest
      _ = signFactor s * (signFactor s * (a * u * (d * u))) := (signFactor_mul_self s _).symm
      _ = signFactor s * (a * u) * (signFactor s * (d * u)) := by ring

/-- In units of the finer scale, the remainder is no longer than the significand of that scale. -/
theorem stands_remainder {s t : Sign} {m n : ℕ} {e f : ℤ} {hm : 0 < m} {hn : 0 < n}
    (hu : Canonical (.finite s m e hm)) (hv : Canonical (.finite t n f hn)) :
    ∃ r, Stands (unpackedRemainder (.finite s m e hm) (.finite t n f hn)) r ∧
      IsRemainder (signFactor s * (m * 2 ^ e)) (signFactor t * (n * 2 ^ f)) r := by
  obtain ⟨unit, hunit⟩ : ∃ unit, unit = if e ≤ f then e else f := ⟨_, rfl⟩
  obtain ⟨a, ha⟩ : ∃ a, a = m <<< (e - unit).toNat := ⟨_, rfl⟩
  obtain ⟨b, hb⟩ : ∃ b, b = n <<< (f - unit).toNat := ⟨_, rfl⟩
  have hshift : ∀ {l : ℕ} {g : ℤ}, unit ≤ g →
      (l : ℚ) * 2 ^ g = (l <<< (g - unit).toNat : ℕ) * 2 ^ unit := by
    intro l g hle
    have hg : unit = g - (g - unit).toNat := by omega
    rw [← shiftLeft_mul_two_zpow l (g - unit).toNat g, ← hg]
  have hbounds : -149 ≤ unit ∧ unit ≤ e ∧ unit ≤ f ∧ (unit = e ∨ unit = f) := by
    rw [hunit]
    have := hu.2.1
    have := hv.2.1
    split <;> omega
  obtain ⟨hlow, hue, huf, hor⟩ := hbounds
  have hbpos : 0 < b := by
    rw [hb, Nat.shiftLeft_eq]
    positivity
  have hrest : a % b < 2 ^ 24 := by
    cases hor with
    | inl h =>
      have ham : a = m := by simp [ha, h]
      exact (Nat.mod_le a b).trans_lt (ham ▸ hu.1)
    | inr h =>
      have hbn : b = n := by simp [hb, h]
      exact (Nat.mod_lt a hbpos).trans (hbn ▸ hv.1)
  obtain ⟨d, hd⟩ : ∃ d, d = a % b := ⟨_, rfl⟩
  have hexact : rounded ((s.apply d : ℤ) * 2 ^ unit) = (s.apply d : ℤ) * 2 ^ unit := by
    apply rounded_of_representable
    refine ⟨s.apply d, unit, ?_, hlow, rfl⟩
    rw [abs_signApply, hd]
    exact_mod_cast hrest
  refine ⟨signFactor s * (d * 2 ^ unit), ?_, ?_⟩
  · have hstands := stands_normalize (s.apply d) unit s
    rw [hexact, cast_signApply, mul_assoc] at hstands
    simp only [unpackedRemainder, ← hunit, ← ha, ← hb, ← hd]
    exact_mod_cast hstands
  · rw [hshift hue, hshift huf, ← ha, ← hb]
    refine isRemainder_of_nat s t (c := a / b) ?_ (hd ▸ Nat.mod_lt a hbpos) (two_zpow_pos unit)
    rw [hd, Nat.div_add_mod]

theorem Stands.remainder {u v : UnpackedFloat} (hu : Stands u p) (hv : Stands v q) (hq : q ≠ 0) :
    ∃ r, Stands (unpackedRemainder u v) r ∧ IsRemainder p q r := by
  obtain ⟨t, n, f, hn, rfl, rfl⟩ := hv.exists_finite hq
  obtain ⟨s, rfl, rfl⟩ | ⟨s, m, e, hm, rfl, rfl⟩ := hu.zero_or_finite
  · refine ⟨0, stands_zero s, ⟨0, by simp⟩, ?_, by simp⟩
    rwa [abs_zero, abs_pos]
  · exact stands_remainder hu.canonical hv.canonical

/-- The remainder of finite numbers is not rounded. -/
theorem Is.remainder (hx : Is x p) (hy : Is y q) (hq : q ≠ 0) :
    ∃ r, Is (remainder x y) r ∧ IsRemainder p q r := by
  obtain ⟨r, hr, h⟩ := Stands.remainder hx hy hq
  exact ⟨r, is_ofModel hr (h.smaller.trans hy.abs_lt), h⟩

/-- A number that is less than the divisor stays as it is, also where it is the negative zero. -/
theorem Is.remainder_eq_self (hx : Is x p) (hy : Is y q) (h : |p| < |q|) : Binary32.remainder x y = x := by
  have hq : q ≠ 0 := abs_pos.1 ((abs_nonneg p).trans_lt h)
  by_cases hp : p = 0
  · subst hp
    obtain ⟨s, hs⟩ := Stands.exists_zero hx
    obtain ⟨t, n, f, hn, ht, -⟩ := Stands.exists_finite hy hq
    apply eq_of_unpack_eq
    have hremainder : unpackedRemainder x.toModel.unpack y.toModel.unpack = .zero s := by
      rw [hs, ht]
      rfl
    change Float.Model.UnpackedFloat.unpack Format.binary32
      (Float.Model.UnpackedFloat.pack Format.binary32
        (unpackedRemainder x.toModel.unpack y.toModel.unpack)) = x.toModel.unpack
    rw [hremainder, hs, unpack_pack_zero]
  · obtain ⟨r, hr, hrem⟩ := hx.remainder hy hq
    rw [hrem.eq_of_abs_lt h] at hr
    refine eq_of_value_eq hr.isNaN hx.isNaN ?_ ?_
    · rw [hr.value_eq, hx.value_eq]
    · rwa [hr.value_eq]

end Remainder

end FuzzyMotion.Binary32
