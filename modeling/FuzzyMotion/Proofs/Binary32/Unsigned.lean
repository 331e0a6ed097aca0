import FuzzyMotion.Binary32
import FuzzyMotion.Proofs.Binary32.Value

/-!
Numbers without a minus sign. Of the two zeros they have only the positive one, so they are told apart by
their values. Magnitudes and square roots are such numbers, as far as they are numbers.
-/
namespace FuzzyMotion.Binary32

open Float.Model (UnpackedFloat Format)
open Float.Model.UnpackedFloat (Sign pack unpack unpackSign packComponents packedNaN packedInfinity
  packedZero unpackSign_packComponents roundWithAccuracy)

variable {x y : Float32} {u : UnpackedFloat}

/-- What is a number is the positive zero, or positive. -/
def Unsigned (x : Float32) : Prop :=
  x.isNaN = false → x = 0 ∨ 0 < x

section Packing

/-- The unpacked forms that are packed with a positive sign. -/
def WithoutMinus : UnpackedFloat → Prop
  | .notANumber => True
  | .infinity s => s = .positive
  | .zero s => s = .positive
  | .finite s _ _ _ => s = .positive

theorem unpackSign_pack (h : WithoutMinus u) :
    unpackSign (pack Format.binary32 u) = Sign.toBitVec .positive := by
  cases u with
  | notANumber => exact unpackSign_packComponents _ _ _
  | infinity s =>
    cases h
    exact unpackSign_packComponents _ _ _
  | zero s =>
    cases h
    exact unpackSign_packComponents _ _ _
  | finite s m e hm =>
    cases h
    simp only [pack]
    split
    · exact unpackSign_packComponents _ _ _
    · split <;> exact unpackSign_packComponents _ _ _

theorem withoutMinus_unpack {b : BitVec 32}
    (h : @unpackSign Format.binary32 b = Sign.toBitVec .positive) :
    WithoutMinus (unpack Format.binary32 b) := by
  have hsign : Sign.ofBitVec (@unpackSign Format.binary32 b) = .positive := by
    rw [h]
    rfl
  simp only [unpack, hsign]
  split_ifs <;> trivial

theorem unsigned_of_withoutMinus (h : WithoutMinus x.toModel.unpack) : Unsigned x := by
  intro hx
  have hc := unpack_canonical x
  change x.toModel.unpack.isNaN = false at hx
  cases hu : x.toModel.unpack with
  | notANumber =>
    rw [hu] at hx
    cases hx
  | infinity s =>
    rw [hu] at h
    cases h
    right
    obtain ⟨hnan, hvalue⟩ := value_of_infinity hu
    refine lt_iff_value.2 ⟨is_zero.isNaN, hnan, ?_⟩
    rw [is_zero.value_eq, hvalue, signFactor_positive, one_mul]
    exact two_zpow_pos _
  | zero s =>
    rw [hu] at h
    cases h
    exact Or.inl (eq_of_unpack_eq hu)
  | finite s m e hm =>
    rw [hu] at h
    cases h
    right
    have hvalue : Is x (signFactor .positive * (m * 2 ^ e)) := is_of_unpack hm hu rfl
    refine (is_zero.lt_iff hvalue).2 ?_
    rw [signFactor_positive, one_mul]
    exact magnitude_pos hm e

theorem unsigned_ofModel (h : WithoutMinus u) : Unsigned (.ofModel (.pack u)) :=
  unsigned_of_withoutMinus (withoutMinus_unpack (unpackSign_pack h))

end Packing

/-- Rounding keeps the sign. -/
theorem withoutMinus_roundWithAccuracy (m : ℕ) (e : ℤ) (acc : Float.Model.UnpackedFloat.Accuracy) :
    WithoutMinus (roundWithAccuracy Format.binary32 .positive m e acc) := by
  simp only [roundWithAccuracy]
  split_ifs <;> rfl

theorem unsigned_sqrt (x : Float32) : Unsigned (Binary32.sqrt x) := by
  rw [Binary32.sqrt]
  split_ifs with h
  · exact fun _ => Or.inl rfl
  · refine unsigned_ofModel ?_
    cases hu : x.toModel.unpack with
    | notANumber => trivial
    | infinity s => cases s <;> trivial
    | zero s =>
      -- Both zeros have been excluded.
      refine absurd (le_iff_value.2 ⟨?_, is_zero.isNaN, ?_⟩) h
      · change x.toModel.unpack.isNaN = false
        rw [hu]
        rfl
      · rw [value, hu, is_zero.value_eq]
        exact le_refl _
    | finite s m e hm =>
      cases s with
      | negative => trivial
      | positive => exact withoutMinus_roundWithAccuracy _ _ _

section Zero

variable {q : ℚ}

theorem Unsigned.eq_zero (h : Unsigned x) (hx : Is x 0) : x = 0 := by
  cases h hx.isNaN with
  | inl hzero => exact hzero
  | inr hpos => exact absurd ((is_zero.lt_iff hx).1 hpos) (lt_irrefl 0)

/-- The positive zero stays what it is, whichever zero is added to it. -/
theorem zero_add_of_is_zero (hy : Is y 0) : 0 + y = 0 := by
  refine Unsigned.eq_zero (unsigned_ofModel ?_) (is_zero.zero_add hy)
  change WithoutMinus (UnpackedFloat.add Format.binary32 (.zero .positive) y.toModel.unpack)
  obtain ⟨s, hs⟩ := Stands.exists_zero hy
  rw [hs]
  cases s <;> rfl

theorem sum_eq_zero {values : List Float32} (h : ∀ x ∈ values, Is x 0) : sum values = 0 := by
  induction values with
  | nil => rfl
  | cons x rest ih =>
    rw [List.forall_mem_cons] at h
    have hstep : sum (x :: rest) = rest.foldl (· + ·) (0 + x) := rfl
    rw [hstep, zero_add_of_is_zero h.1]
    exact ih h.2

theorem zero_div_of_pos (hy : Is y q) (h : 0 < q) : 0 / y = 0 := by
  have hquot : Is (0 / y) 0 := by
    have hround : rounded (0 / q) = 0 := by rw [zero_div, rounded_zero]
    have hsmall : |rounded (0 / q)| < 2 ^ (128 : ℤ) := by
      rw [hround, abs_zero]
      exact two_zpow_pos _
    have hdiv := is_zero.div hy h.ne' hsmall
    rwa [hround] at hdiv
  refine Unsigned.eq_zero (unsigned_ofModel ?_) hquot
  change WithoutMinus (UnpackedFloat.div Format.binary32 (.zero .positive) y.toModel.unpack)
  obtain ⟨s, m, e, hm, hu, rfl⟩ := Stands.exists_finite hy h.ne'
  rw [hu]
  cases s with
  | positive => rfl
  | negative =>
    rw [signFactor_negative, neg_one_mul] at h
    exact absurd (magnitude_pos hm e) (lt_asymm (neg_pos.1 h))

end Zero

/-- Numbers without a minus sign that bound each other are the same. -/
theorem Unsigned.eq_of_le_of_le (hx : Unsigned x) (hy : Unsigned y) (hxy : x ≤ y) (hyx : y ≤ x) :
    x = y := by
  obtain ⟨hnx, hny, hle⟩ := le_iff_value.1 hxy
  obtain ⟨-, -, hge⟩ := le_iff_value.1 hyx
  have hvalue := le_antisymm hle hge
  cases hx hnx with
  | inl hzero =>
    cases hy hny with
    | inl hzero' => rw [hzero, hzero']
    | inr hpos =>
      rw [hzero] at hyx
      exact absurd hyx (not_le_of_lt_number hpos)
  | inr hpos =>
    obtain ⟨-, -, hpos⟩ := lt_iff_value.1 hpos
    rw [is_zero.value_eq] at hpos
    exact eq_of_value_eq hnx hny hvalue hpos.ne'

section Magnitude

theorem unpack_abs (x : Float32) : x.abs.toModel.unpack = x.toModel.unpack.abs := by
  obtain ⟨hc, hb⟩ := unpack_canonical x
  have hpack : x.abs.toModel.unpack =
      unpack Format.binary32 (pack Format.binary32 x.toModel.unpack.abs) := rfl
  rw [hpack]
  cases hu : x.toModel.unpack with
  | notANumber => rfl
  | infinity s => cases s <;> rfl
  | zero s => exact unpack_pack_zero _
  | finite s m e hm =>
    rw [hu] at hc hb
    exact unpack_pack_finite _ hm hc hb

theorem isNaN_abs (x : Float32) : x.abs.isNaN = x.isNaN := by
  change x.abs.toModel.unpack.isNaN = x.toModel.unpack.isNaN
  rw [unpack_abs]
  cases x.toModel.unpack <;> rfl

theorem value_abs (x : Float32) : value x.abs = |value x| := by
  rw [value, value, unpack_abs]
  cases x.toModel.unpack with
  | notANumber => exact abs_zero.symm
  | zero s => exact abs_zero.symm
  | infinity s =>
    change signFactor .positive * 2 ^ (128 : ℤ) = |signFactor s * 2 ^ (128 : ℤ)|
    rw [abs_mul, abs_signFactor, abs_of_pos (two_zpow_pos _), signFactor_positive]
  | finite s m e hm =>
    change signFactor .positive * (m * 2 ^ e) = |signFactor s * (m * 2 ^ e)|
    rw [abs_mul, abs_signFactor, abs_of_pos (magnitude_pos hm e), signFactor_positive]

end Magnitude

end FuzzyMotion.Binary32
