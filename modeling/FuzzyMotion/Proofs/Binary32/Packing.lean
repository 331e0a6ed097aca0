import FuzzyMotion.Proofs.Binary32.Operations

/-!
Packing into 32 bits. What is unpacked is canonical and below the bound of the format, and what is
canonical and below the bound is packed without loss.
-/
namespace FuzzyMotion.Binary32

open Float.Model (UnpackedFloat Format)
open Float.Model.UnpackedFloat (Sign pack unpack packComponents unpackExponent unpackMantissa
  unpackSign_packComponents unpackExponent_packComponents unpackMantissa_packComponents)

/-- The largest exponent is one less than that of an infinity. -/
def Bounded : UnpackedFloat → Prop
  | .finite _ _ e _ => e ≤ 104
  | _ => True

theorem toNat_one_append (m : BitVec 23) : (1#1 ++ m).toNat = 2 ^ 23 + m.toNat := by
  rw [BitVec.toNat_append, ← Nat.shiftLeft_add_eq_or_of_lt m.isLt]
  rfl

theorem exponentBias_eq : Format.binary32.exponentBias = 127 := by decide

theorem canonical_unpack (b : BitVec 32) :
    Canonical (unpack Format.binary32 b) ∧ Bounded (unpack Format.binary32 b) := by
  obtain ⟨m, hm⟩ : ∃ m : BitVec 23, m = @unpackMantissa Format.binary32 b := ⟨_, rfl⟩
  obtain ⟨e, he⟩ : ∃ e : BitVec 8, e = @unpackExponent Format.binary32 b := ⟨_, rfl⟩
  have hmlt := m.isLt
  have helt := e.isLt
  rw [unpack]
  simp only [← hm, ← he, exponentBias_eq]
  split_ifs with h₁ h₂ h₃ h₄
  · exact ⟨trivial, trivial⟩
  · exact ⟨trivial, trivial⟩
  · exact ⟨trivial, trivial⟩
  · subst h₃
    refine ⟨⟨by omega, ?_, Or.inl ?_⟩, ?_⟩
    · simp
    · simp
    · simp [Bounded]
  · have hmax : e.toNat ≠ 255 := fun h => h₁ (BitVec.eq_of_toNat_eq h)
    have hmin : e.toNat ≠ 0 := fun h => h₃ (BitVec.eq_of_toNat_eq h)
    have hbig := toNat_one_append m
    refine ⟨⟨by omega, ?_, Or.inr (by omega)⟩, ?_⟩
    · push_cast
      omega
    · simp only [Bounded]
      push_cast
      omega

theorem unpack_normal (s : Sign) {k m : ℕ} (hk : 0 < k) (hk' : k < 255) (hm : 2 ^ 23 ≤ m)
    (hm' : m < 2 ^ 24) :
    unpack Format.binary32 (packComponents Format.binary32 s (BitVec.ofNat 8 k) (BitVec.ofNat 23 m)) =
      .finite s m (k - 150) (by omega) := by
  have hex : (BitVec.ofNat 8 k).toNat = k := by
    rw [BitVec.toNat_ofNat, Nat.mod_eq_of_lt (by omega)]
  have hmant : (1#1 ++ BitVec.ofNat 23 m).toNat = m := by
    rw [toNat_one_append, BitVec.toNat_ofNat]
    omega
  have hmax : BitVec.ofNat 8 k ≠ -1#8 := by
    intro h
    have := congrArg BitVec.toNat h
    rw [hex, show (-1#8 : BitVec 8).toNat = 255 from rfl] at this
    omega
  have hmin : BitVec.ofNat 8 k ≠ 0#8 := by
    intro h
    have := congrArg BitVec.toNat h
    rw [hex, show (0#8 : BitVec 8).toNat = 0 from rfl] at this
    omega
  rw [unpack]
  simp only [unpackExponent_packComponents, unpackMantissa_packComponents, unpackSign_packComponents,
    Sign.ofBitVec_toBitVec, exponentBias_eq]
  rw [if_neg hmax, if_neg hmin]
  congr 1
  rw [hex]
  norm_num

theorem unpack_subnormal (s : Sign) {m : ℕ} (hm : 0 < m) (hm' : m < 2 ^ 23) :
    unpack Format.binary32 (packComponents Format.binary32 s 0#8 (BitVec.ofNat 23 m)) =
      .finite s m (-149) hm := by
  have hmant : (BitVec.ofNat 23 m).toNat = m := by
    rw [BitVec.toNat_ofNat, Nat.mod_eq_of_lt hm']
  have hne : BitVec.ofNat 23 m ≠ 0#23 := by
    intro h
    have := congrArg BitVec.toNat h
    rw [hmant, show (0#23 : BitVec 23).toNat = 0 from rfl] at this
    omega
  rw [unpack]
  simp only [unpackExponent_packComponents, unpackMantissa_packComponents, unpackSign_packComponents,
    Sign.ofBitVec_toBitVec, exponentBias_eq]
  rw [if_neg (by decide), if_pos trivial, dif_neg hne]
  congr 1

/-- A canonical number below the bound survives packing. -/
theorem unpack_pack_finite (s : Sign) {m : ℕ} {e : ℤ} (hm : 0 < m)
    (hc : Canonical (.finite s m e hm)) (hb : e ≤ 104) :
    unpack Format.binary32 (pack Format.binary32 (.finite s m e hm)) = .finite s m e hm := by
  obtain ⟨hlt, hlow, hnormal⟩ := hc
  obtain ⟨k, hk⟩ : ∃ k : ℕ, (k : ℤ) = e + 150 := ⟨(e + 150).toNat, by omega⟩
  have hbiased : (e + (127 : ℕ) + (23 : ℕ)).toNat = k := by omega
  have hbits : Format.binary32.mantissaBits = 24 := by decide
  rw [pack]
  simp only [exponentBias_eq, hbiased, hbits]
  rw [if_neg (by omega)]
  by_cases hbit : 2 ^ 23 ≤ m
  · have hlog : m.log2 + 1 = 24 := by
      have h₁ := (Nat.le_log2 hm.ne').2 hbit
      have h₂ := (Nat.log2_lt hm.ne').2 hlt
      omega
    rw [if_pos hlog, unpack_normal s (by omega) (by omega) hbit hlt]
    congr 1
    omega
  · have hlog : ¬m.log2 + 1 = 24 := by
      have := (Nat.log2_lt hm.ne').2 (Nat.lt_of_not_le hbit)
      omega
    rw [if_neg hlog, unpack_subnormal s hm (Nat.lt_of_not_le hbit)]
    congr 1
    exact (hnormal.resolve_right hbit).symm

theorem unpack_pack_zero (s : Sign) :
    unpack Format.binary32 (pack Format.binary32 (.zero s)) = .zero s := by
  cases s <;> rfl

/-- What stands for a number within the bounds of the format is unchanged by packing. -/
theorem Stands.unpack_pack {u : UnpackedFloat} {q : ℚ} (h : Stands u q) (hq : |q| < 2 ^ (128 : ℤ)) :
    unpack Format.binary32 (pack Format.binary32 u) = u := by
  obtain ⟨s, rfl, rfl⟩ | ⟨s, m, e, hm, rfl, rfl⟩ := h.zero_or_finite
  · exact unpack_pack_zero s
  · apply unpack_pack_finite s hm h.canonical
    by_contra hcon
    obtain ⟨-, -, hnormal⟩ := h.canonical
    have hm23 : 2 ^ 23 ≤ m := hnormal.resolve_left (by omega)
    have hpos : (0 : ℚ) ≤ m * 2 ^ e := mul_nonneg (by positivity) (two_zpow_pos e).le
    rw [abs_mul, abs_signFactor, one_mul, abs_of_nonneg hpos] at hq
    have hbig : (2 : ℚ) ^ (128 : ℤ) ≤ m * 2 ^ e := by
      calc
        (2 : ℚ) ^ (128 : ℤ) = 2 ^ (23 : ℤ) * 2 ^ (105 : ℤ) := by rw [← two_zpow_add]; norm_num
        _ ≤ m * 2 ^ e := by
          refine mul_le_mul ?_ (two_zpow_le_two_zpow (by omega)) (two_zpow_pos _).le (by positivity)
          exact_mod_cast hm23
    exact absurd hq (not_lt.2 hbig)

/-- What stands for a number beyond the bounds of the format is packed as an infinity of its sign. -/
theorem Stands.unpack_pack_infinity {u : UnpackedFloat} {q : ℚ} (h : Stands u q)
    (hq : 2 ^ (128 : ℤ) ≤ |q|) :
    ∃ s, unpack Format.binary32 (pack Format.binary32 u) = .infinity s ∧ 0 < signFactor s * q := by
  obtain ⟨s, rfl, rfl⟩ | ⟨s, m, e, hm, rfl, rfl⟩ := h.zero_or_finite
  · rw [abs_zero] at hq
    exact absurd hq (not_le.2 (two_zpow_pos _))
  · have he : 104 < e := by
      by_contra hcon
      have hpos : (0 : ℚ) ≤ m * 2 ^ e := mul_nonneg (by positivity) (two_zpow_pos e).le
      rw [abs_mul, abs_signFactor, one_mul, abs_of_nonneg hpos] at hq
      have hsmall : (m : ℚ) * 2 ^ e < 2 ^ (128 : ℤ) :=
        (mul_two_zpow_lt e h.canonical.1).trans_le (two_zpow_le_two_zpow (by omega))
      exact absurd hq (not_le.2 hsmall)
    have hbiased : 2 ^ 8 ≤ (e + (127 : ℕ) + (23 : ℕ)).toNat + 1 := by omega
    refine ⟨s, ?_, ?_⟩
    · rw [pack]
      simp only [exponentBias_eq]
      rw [if_pos hbiased]
      cases s <;> rfl
    · rw [signFactor_mul_self]
      exact mul_pos (by exact_mod_cast hm) (two_zpow_pos e)

end FuzzyMotion.Binary32
