import FuzzyMotion.Proofs.Binary32.Rounding
import Mathlib

/-!
Unpacked binary32 numbers and the numbers for which they stand. An extended mantissa locates a number
between two neighbours and their middle, and this is all that rounding needs to know about it.
-/
namespace FuzzyMotion.Binary32

open Float.Model (UnpackedFloat Format totalExponent)
open Float.Model.UnpackedFloat (Sign Accuracy ExtendedMantissa roundWithAccuracy normalize
  shiftToTargetExponent shiftToExponent decreaseExponent)

def signFactor : Sign → ℚ
  | .positive => 1
  | .negative => -1

theorem cast_signApply (s : Sign) (n : ℤ) : ((s.apply n : ℤ) : ℚ) = signFactor s * n := by
  cases s <;> simp [Sign.apply, signFactor]

theorem abs_signApply (s : Sign) (n : ℕ) : |s.apply (n : ℤ)| = n := by
  cases s <;> simp [Sign.apply]

theorem signFactor_negative : signFactor .negative = -1 := rfl

theorem signFactor_positive : signFactor .positive = 1 := rfl

theorem signFactor_neg (s : Sign) : signFactor (-s) = -signFactor s := by
  cases s with
  | positive => rfl
  | negative => exact (neg_neg (1 : ℚ)).symm

theorem signFactor_mul (s t : Sign) : signFactor (s * t) = signFactor s * signFactor t := by
  cases s with
  | positive =>
    cases t with
    | positive => exact (one_mul (1 : ℚ)).symm
    | negative => exact (one_mul (-1 : ℚ)).symm
  | negative =>
    cases t with
    | positive => exact (mul_one (-1 : ℚ)).symm
    | negative =>
      change (1 : ℚ) = -1 * -1
      norm_num

theorem abs_signFactor (s : Sign) : |signFactor s| = 1 := by
  cases s <;> simp [signFactor]

theorem signFactor_mul_self (s : Sign) (q : ℚ) : signFactor s * (signFactor s * q) = q := by
  cases s with
  | positive => rw [signFactor_positive, one_mul, one_mul]
  | negative => rw [signFactor_negative, neg_one_mul, neg_one_mul, neg_neg]

theorem signFactor_injective {s t : Sign} (h : signFactor s = signFactor t) : s = t := by
  cases s <;> cases t
  · rfl
  · norm_num [signFactor] at h
  · norm_num [signFactor] at h
  · rfl

/-- The number for which an unpacked number stands. An infinity stands for the first power of two
beyond all numbers, and what is not a number for zero. -/
def unpackedValue : UnpackedFloat → ℚ
  | .infinity s => signFactor s * 2 ^ (128 : ℤ)
  | .notANumber => 0
  | .zero _ => 0
  | .finite s m e _ => signFactor s * (m * 2 ^ e)

/-- The exponent is the one of the grid around the number. -/
def Canonical : UnpackedFloat → Prop
  | .finite _ m e _ => m < 2 ^ 24 ∧ -149 ≤ e ∧ (e = -149 ∨ 2 ^ 23 ≤ m)
  | _ => True

/-- An unpacked number that stands for the given one, and that can be packed. -/
structure Stands (u : UnpackedFloat) (q : ℚ) : Prop where
  isFinite : u.isFinite = true
  canonical : Canonical u
  value : unpackedValue u = q

/-- The mantissa is the whole part, the round bit says whether at least a half is missing, and the
sticky bit whether there is still more. -/
def Locates (em : ExtendedMantissa) (x : ℚ) : Prop :=
  ∃ rest : ℚ, 0 ≤ rest ∧ rest < 1 ∧ (em.stickyBit = true ↔ 0 < rest) ∧
    2 * x = 2 * em.mantissa + em.roundBit.toNat + rest

section Locates

theorem locates_exact (m : ℕ) : Locates (.ofMantissaAndAccuracy m .exact) m :=
  ⟨0, le_refl _, by norm_num, by simp [ExtendedMantissa.ofMantissaAndAccuracy],
    by simp [ExtendedMantissa.ofMantissaAndAccuracy]⟩

theorem locates_fraction (n : ℕ) {d : ℕ} (hd : 0 < d) :
    Locates (.ofMantissaAndAccuracy (n / d) (UnpackedFloat.accuracyOfFraction (n % d) d))
      ((n : ℚ) / d) := by
  have hdq : (0 : ℚ) < d := by exact_mod_cast hd
  have hn : (n : ℚ) = d * (n / d : ℕ) + (n % d : ℕ) := by exact_mod_cast (Nat.div_add_mod n d).symm
  have hx : 2 * ((n : ℚ) / d) = 2 * (n / d : ℕ) + (2 * (n % d) : ℕ) / d := by
    rw [hn]
    push_cast
    field_simp
  have hlt : ((2 * (n % d) : ℕ) : ℚ) / d < 2 := by
    rw [div_lt_iff₀ hdq]
    exact_mod_cast Nat.mul_lt_mul_of_pos_left (Nat.mod_lt n hd) (by norm_num)
  rw [UnpackedFloat.accuracyOfFraction]
  split
  · rename_i hzero
    refine ⟨0, le_refl _, by norm_num, by simp [ExtendedMantissa.ofMantissaAndAccuracy], ?_⟩
    simpa [hzero, ExtendedMantissa.ofMantissaAndAccuracy] using hx
  · rename_i hne
    have hpos : (0 : ℚ) < (2 * (n % d) : ℕ) / d := by
      refine div_pos ?_ hdq
      exact_mod_cast (show 0 < 2 * (n % d) by omega)
    cases hc : compare (2 * (n % d)) d with
    | lt =>
      have hone : ((2 * (n % d) : ℕ) : ℚ) / d < 1 := by
        rw [div_lt_one hdq]
        exact_mod_cast Nat.compare_eq_lt.1 hc
      refine ⟨_, hpos.le, hone, ?_, ?_⟩
      · simpa [ExtendedMantissa.ofMantissaAndAccuracy] using hpos
      · simpa [ExtendedMantissa.ofMantissaAndAccuracy] using hx
    | eq =>
      have hone : ((2 * (n % d) : ℕ) : ℚ) / d = 1 := by
        rw [div_eq_one_iff_eq hdq.ne']
        exact_mod_cast Nat.compare_eq_eq.1 hc
      rw [hone] at hx
      refine ⟨0, le_refl _, by norm_num, ?_, ?_⟩
      · simp [ExtendedMantissa.ofMantissaAndAccuracy]
      · simpa [ExtendedMantissa.ofMantissaAndAccuracy] using hx
    | gt =>
      have hone : 1 < ((2 * (n % d) : ℕ) : ℚ) / d := by
        rw [one_lt_div hdq]
        exact_mod_cast Nat.compare_eq_gt.1 hc
      refine ⟨((2 * (n % d) : ℕ) : ℚ) / d - 1, by linarith, by linarith, ?_, ?_⟩
      · simpa [ExtendedMantissa.ofMantissaAndAccuracy] using hone
      · simp only [ExtendedMantissa.ofMantissaAndAccuracy, Bool.toNat_true, Nat.cast_one]
        linarith

theorem Locates.shiftRightOne {em : ExtendedMantissa} {x : ℚ} (h : Locates em x) :
    Locates em.shiftRightOne (x / 2) := by
  obtain ⟨rest, h₀, h₁, hs, hx⟩ := h
  have hm : (em.mantissa : ℚ) = 2 * (em.mantissa / 2 : ℕ) + (em.mantissa % 2 : ℕ) := by
    exact_mod_cast (Nat.div_add_mod em.mantissa 2).symm
  have hodd : ((em.mantissa % 2 != 0).toNat : ℚ) = (em.mantissa % 2 : ℕ) := by
    rcases Nat.mod_two_eq_zero_or_one em.mantissa with he | he <;> simp [he]
  have hbit : (0 : ℚ) ≤ em.roundBit.toNat ∧ (em.roundBit.toNat : ℚ) ≤ 1 := by
    cases em.roundBit <;> simp
  refine ⟨(em.roundBit.toNat + rest) / 2, by linarith, by linarith, ?_, ?_⟩
  · simp only [ExtendedMantissa.shiftRightOne, Bool.or_eq_true, hs]
    cases em.roundBit with
    | false => simp
    | true =>
      simp only [true_or, Bool.toNat_true, Nat.cast_one, true_iff]
      linarith
  · simp only [ExtendedMantissa.shiftRightOne, hodd]
    linarith

theorem Locates.shiftRight {em : ExtendedMantissa} {x : ℚ} (h : Locates em x) (n : ℕ) :
    Locates (em >>> n) (x / 2 ^ n) := by
  change Locates (n.repeat ExtendedMantissa.shiftRightOne em) _
  induction n with
  | zero => simpa [Nat.repeat] using h
  | succ n ih =>
    have := ih.shiftRightOne
    rwa [div_div, ← pow_succ] at this

theorem Locates.floor_eq {em : ExtendedMantissa} {x : ℚ} (h : Locates em x) :
    ⌊x⌋ = em.mantissa := by
  obtain ⟨rest, h₀, h₁, -, hx⟩ := h
  have hbit : (0 : ℚ) ≤ em.roundBit.toNat ∧ (em.roundBit.toNat : ℚ) ≤ 1 := by
    cases em.roundBit <;> simp
  rw [Int.floor_eq_iff]
  constructor
  · push_cast
    linarith
  · push_cast
    linarith

theorem Locates.roundedMantissa {em : ExtendedMantissa} {x : ℚ} (h : Locates em x) :
    (em.roundedMantissa : ℤ) = nearestEven x := by
  have hfloor := h.floor_eq
  obtain ⟨rest, h₀, h₁, hs, hx⟩ := h
  have hfract : 2 * Int.fract x = em.roundBit.toNat + rest := by
    rw [Int.fract]
    rw [hfloor]
    push_cast
    linarith
  obtain ⟨m, r, s⟩ := em
  rw [nearestEven]
  rw [hfloor]
  cases r with
  | false =>
    have hlt : Int.fract x < 1 / 2 := by
      simp only [Bool.toNat_false, Nat.cast_zero] at hfract
      linarith
    rw [if_pos hlt]
    cases s <;> rfl
  | true =>
    simp only [Bool.toNat_true, Nat.cast_one] at hfract
    rw [if_neg (by linarith)]
    cases s with
    | false =>
      have hrest : ¬0 < rest := fun h => Bool.false_ne_true (hs.2 h)
      rw [if_neg (by linarith)]
      simp [ExtendedMantissa.roundedMantissa, ExtendedMantissa.accuracy, Accuracy.roundToNearestEven]
    | true =>
      have hrest : 0 < rest := hs.1 rfl
      rw [if_pos (by linarith)]
      simp [ExtendedMantissa.roundedMantissa, ExtendedMantissa.accuracy, Accuracy.roundToNearestEven]

end Locates

section Round

theorem targetExponent_eq (m : ℕ) (e : ℤ) :
    Format.binary32.targetExponent (totalExponent m e) = Max.max (m.log2 + e - 23) (-149) := by
  change Max.max ((m.log2 + 1 + e : ℤ) - (24 : ℕ)) _ = _
  have hmin : Format.binary32.minExponent = -149 := by decide
  rw [hmin]
  push_cast
  congr 1
  ring

theorem stands_mantissa (s : Sign) {m : ℕ} {e : ℤ} (hm : m < 2 ^ 24) (he : -149 ≤ e)
    (hc : e = -149 ∨ 2 ^ 23 ≤ m) :
    Stands (if h : m = 0 then .zero s else .finite s m e (Nat.pos_of_ne_zero h))
      (signFactor s * (m * 2 ^ e)) := by
  by_cases h0 : m = 0
  · rw [dif_pos h0]
    exact ⟨rfl, trivial, by simp [unpackedValue, h0]⟩
  · rw [dif_neg h0]
    exact ⟨rfl, ⟨hm, he, hc⟩, rfl⟩

/-- The first rounding can only be too long by one bit, and then the number is a power of two. -/
theorem stands_after_shift (s : Sign) {r : ℕ} {t : ℤ} (hr : r ≤ 2 ^ 24) (ht : -149 ≤ t)
    (hc : t = -149 ∨ 2 ^ 23 ≤ r) :
    let shifted := shiftToTargetExponent Format.binary32 r t .exact
    Stands (if h : shifted.1.mantissa = 0 then .zero s
      else .finite s shifted.1.mantissa shifted.2 (Nat.pos_of_ne_zero h))
      (signFactor s * (r * 2 ^ t)) := by
  intro shifted
  rcases hr.lt_or_eq with hlt | rfl
  · have hlog : r.log2 ≤ 23 := by
      rcases Nat.eq_zero_or_pos r with rfl | hpos
      · simp
      · exact Nat.le_of_lt_succ ((Nat.log2_lt hpos.ne').2 hlt)
    have hshifted : shifted = (⟨r, false, false⟩, t) := by
      simp only [shifted, shiftToTargetExponent, shiftToExponent, targetExponent_eq]
      have : (Max.max (r.log2 + t - 23 : ℤ) (-149) - t).toNat = 0 := by omega
      rw [this]
      simp
      rfl
    rw [hshifted]
    exact stands_mantissa s hlt ht hc
  · have hshifted : shifted = (⟨2 ^ 23, false, false⟩, t + 1) := by
      simp only [shifted, shiftToTargetExponent, shiftToExponent, targetExponent_eq]
      have : (Max.max (((2 ^ 24 : ℕ).log2 : ℤ) + t - 23) (-149) - t).toNat = 1 := by
        rw [Nat.log2_two_pow]
        omega
      rw [this]
      rfl
    have hvalue : ((2 ^ 24 : ℕ) : ℚ) * 2 ^ t = ((2 ^ 23 : ℕ) : ℚ) * 2 ^ (t + 1) := by
      rw [zpow_add_one₀ (by norm_num)]
      push_cast
      ring
    rw [hshifted, hvalue]
    exact stands_mantissa s (by norm_num) (by omega) (Or.inr (le_refl _))

/-- A located number has the exponent that its mantissa has, unless the mantissa is too short. -/
theorem scale_of_locates {em : ExtendedMantissa} {e : ℤ} {q : ℚ} (hq : 0 < q)
    (hl : Locates em (q / 2 ^ e)) (he : e ≤ Max.max (em.mantissa.log2 + e - 23) (-149)) :
    scale q = Max.max (em.mantissa.log2 + e - 23) (-149) := by
  obtain ⟨m, hm⟩ : ∃ m, m = em.mantissa := ⟨_, rfl⟩
  have hfloor : ⌊q / 2 ^ e⌋ = m := by rw [hl.floor_eq, hm]
  rw [← hm] at he ⊢
  obtain ⟨hlow, hhigh⟩ := Int.floor_eq_iff.1 hfloor
  rw [le_div_iff₀ (two_zpow_pos e)] at hlow
  rw [div_lt_iff₀ (two_zpow_pos e)] at hhigh
  have habs : |q| = q := abs_of_pos hq
  refine scale_eq hq.ne' (le_max_right _ _) ?_ ?_
  · rw [habs]
    have hlog : m + 1 ≤ 2 ^ (m.log2 + 1) := Nat.lt_log2_self
    calc
      q < (m + 1) * 2 ^ e := by exact_mod_cast hhigh
      _ ≤ 2 ^ (m.log2 + 1 : ℤ) * 2 ^ e := by
        refine mul_le_mul_of_nonneg_right ?_ (two_zpow_pos e).le
        exact_mod_cast hlog
      _ = 2 ^ (m.log2 + 1 + e : ℤ) := (two_zpow_add _ _).symm
      _ ≤ 2 ^ (Max.max (m.log2 + e - 23) (-149) + 24 : ℤ) := two_zpow_le_two_zpow (by omega)
  · rw [habs]
    cases eq_or_ne (Max.max (m.log2 + e - 23 : ℤ) (-149)) (-149) with
    | inl h =>
      exact Or.inl h
    | inr h =>
      have hm0 : m ≠ 0 := by
        rintro rfl
        simp only [Nat.log2_zero, Nat.cast_zero] at he h
        omega
      right
      calc
        (2 : ℚ) ^ (Max.max (m.log2 + e - 23) (-149) + 23 : ℤ) = 2 ^ (m.log2 : ℤ) * 2 ^ e := by
          rw [← two_zpow_add]
          congr 1
          omega
        _ ≤ m * 2 ^ e := by
          refine mul_le_mul_of_nonneg_right ?_ (two_zpow_pos e).le
          exact_mod_cast Nat.log2_self_le hm0
        _ ≤ q := by exact_mod_cast hlow

theorem mantissa_ofMantissaAndAccuracy (m : ℕ) (acc : Accuracy) :
    (ExtendedMantissa.ofMantissaAndAccuracy m acc).mantissa = m := by
  rcases acc with _ | (_ | _ | _) <;> rfl

/-- The first shift brings the mantissa of a located number to the exponent of its grid. -/
theorem locates_shiftToTargetExponent {m : ℕ} {e : ℤ} {acc : Accuracy} {q : ℚ} (hq : 0 < q)
    (hl : Locates (.ofMantissaAndAccuracy m acc) (q / 2 ^ e))
    (he : e ≤ Max.max (m.log2 + e - 23) (-149)) :
    ∃ em : ExtendedMantissa, shiftToTargetExponent Format.binary32 m e acc = (em, scale q) ∧
      Locates em (q / 2 ^ scale q) := by
  have hscale := scale_of_locates hq hl (by rwa [mantissa_ofMantissaAndAccuracy])
  rw [mantissa_ofMantissaAndAccuracy] at hscale
  rw [← hscale] at he
  obtain ⟨k, hk⟩ : ∃ k : ℕ, scale q = e + k := ⟨(scale q - e).toNat, by omega⟩
  refine ⟨ExtendedMantissa.ofMantissaAndAccuracy m acc >>> k, ?_, ?_⟩
  · simp only [shiftToTargetExponent, shiftToExponent, targetExponent_eq, ← hscale]
    rw [hk, add_sub_cancel_left, Int.toNat_natCast]
  · have := hl.shiftRight k
    rwa [div_div, ← zpow_natCast, ← two_zpow_add, ← hk] at this

/-- Rounding a located number rounds the number. The mantissa must not be too short. -/
theorem stands_roundWithAccuracy (s : Sign) {m : ℕ} {e : ℤ} {acc : Accuracy} {q : ℚ} (hq : 0 < q)
    (hl : Locates (.ofMantissaAndAccuracy m acc) (q / 2 ^ e))
    (he : e ≤ Max.max (m.log2 + e - 23) (-149)) :
    Stands (roundWithAccuracy Format.binary32 s m e acc) (signFactor s * rounded q) := by
  obtain ⟨em, hshift, hem⟩ := locates_shiftToTargetExponent hq hl he
  have hr := hem.roundedMantissa
  obtain ⟨hle, hcanon⟩ := nearestEven_div_scale hq
  rw [← hr] at hle hcanon
  have hround : rounded q = em.roundedMantissa * 2 ^ scale q := by
    rw [rounded]
    rw [← hr]
    push_cast
    rfl
  rw [hround]
  rw [roundWithAccuracy]
  rw [hshift]
  exact stands_after_shift s (by exact_mod_cast hle) (neg_149_le_scale q) (by exact_mod_cast hcanon)

end Round

end FuzzyMotion.Binary32
