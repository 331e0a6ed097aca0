import FuzzyMotion.Decimal
import FuzzyMotion.Proofs.Binary32.Value

/-!
Numbers with two decimal places. The digits are those of the whole number of hundredths that is nearest to
the exact value, a half going to the even neighbour; a minus sign stands before them wherever the number
carries one, also where all the digits are zeros. This determines the text, and it is what is written.
-/
namespace FuzzyMotion.Decimal

open Binary32 (value unpackedValue abs_unpackedValue)
open Float.Model (UnpackedFloat Format)
open Float.Model.UnpackedFloat (Sign unpack unpackSign)

/-- A whole number of units as a text, with a point before the last `places` of its digits. -/
inductive Numeral (units : ℕ) : ℕ → String → Prop where
  | whole : Numeral units 0 (toString units)
  | fraction {places : ℕ} {digits : List Char} (hpos : 0 < places) (hlength : digits.length = places)
    (hdigits : ∀ c ∈ digits, c.isDigit = true)
    (hvalue : Nat.ofDigitChars 10 digits 0 = units % 10 ^ places) :
    Numeral units places (toString (units / 10 ^ places) ++ "." ++ String.ofList digits)

section Numerals

theorem length_leftPad {width : ℕ} {digits : List Char} (h : digits.length ≤ width) :
    (leftPad width digits).length = width := by
  simp only [leftPad, List.length_append, List.length_replicate]
  omega

theorem leftPad_of_length_eq {width : ℕ} {digits : List Char} (h : digits.length = width) :
    leftPad width digits = digits := by
  simp [leftPad, h]

theorem isDigit_of_mem_leftPad {width n : ℕ} {c : Char} (h : c ∈ leftPad width (Nat.toDigits 10 n)) :
    c.isDigit = true := by
  cases List.mem_append.1 h with
  | inl hzero =>
    rw [List.eq_of_mem_replicate hzero]
    rfl
  | inr hdigit => exact Nat.isDigit_of_mem_toDigits (by omega) (by omega) hdigit

/-- Zeros in front do not count. -/
theorem ofDigitChars_leftPad (width n : ℕ) :
    Nat.ofDigitChars 10 (leftPad width (Nat.toDigits 10 n)) 0 = n := by
  rw [leftPad, Nat.ofDigitChars_append, Nat.ofDigitChars_replicate_zero, Nat.mul_zero,
    Nat.ofDigitChars_toDigits (by omega) (by omega)]

theorem numeral_positional (units places : ℕ) : Numeral units places (positional units places) := by
  cases places with
  | zero => exact .whole
  | succ p =>
    have hlt : units % 10 ^ (p + 1) < 10 ^ (p + 1) := Nat.mod_lt _ (by positivity)
    have hlength := (Nat.length_toDigits_le_iff (by omega) (Nat.succ_pos p)).2 hlt
    exact .fraction (Nat.succ_pos p) (length_leftPad hlength) (fun _ => isDigit_of_mem_leftPad)
      (ofDigitChars_leftPad _ _)

theorem toNat_sub_lt {c : Char} (h : c.isDigit = true) : 48 ≤ c.toNat ∧ c.toNat - 48 < 10 := by
  have hbounds : 48 ≤ c.toNat ∧ c.toNat ≤ 57 := by
    simpa [Char.isDigit, UInt32.le_iff_toNat_le] using h
  omega

/-- As many digits with the same value are the same digits. -/
theorem digits_injective {a b : List Char} (hlength : a.length = b.length)
    (ha : ∀ c ∈ a, c.isDigit = true) (hb : ∀ c ∈ b, c.isDigit = true)
    (h : Nat.ofDigitChars 10 a 0 = Nat.ofDigitChars 10 b 0) : a = b := by
  -- The last digit is the remainder by ten, so the induction goes from the end.
  induction a using List.reverseRecOn generalizing b with
  | nil => exact (List.length_eq_zero_iff.1 hlength.symm).symm
  | append_singleton a c ih =>
    obtain ⟨b, d, rfl⟩ : ∃ b' d, b = b' ++ [d] := by
      cases b using List.reverseRecOn with
      | nil => simp at hlength
      | append_singleton b d _ => exact ⟨b, d, rfl⟩
    simp only [List.forall_mem_append, List.forall_mem_singleton] at ha hb
    simp only [Nat.ofDigitChars_append, Nat.ofDigitChars_cons, Nat.ofDigitChars_nil] at h
    have hc := toNat_sub_lt ha.2
    have hd := toNat_sub_lt hb.2
    change 10 * _ + (c.toNat - 48) = 10 * _ + (d.toNat - 48) at h
    have hlast : c = d := Char.toNat_inj.1 (by omega)
    have hinit : a = b := ih (by simpa using hlength) ha.1 hb.1 (by omega)
    rw [hlast, hinit]

theorem Numeral.unique {units places : ℕ} {s t : String} (hs : Numeral units places s)
    (ht : Numeral units places t) : s = t := by
  cases hs with
  | whole =>
    cases ht with
    | whole => rfl
    | fraction hpos => exact absurd hpos (lt_irrefl 0)
  | fraction hpos hlength hdigits hvalue =>
    cases ht with
    | whole => exact absurd hpos (lt_irrefl 0)
    | fraction _ hlength' hdigits' hvalue' =>
      rw [digits_injective (hlength.trans hlength'.symm) hdigits hdigits' (hvalue.trans hvalue'.symm)]

end Numerals

/-- A whole number that is no farther than a half from a number; at a half, the even one. -/
structure IsNearest (n : ℕ) (r : ℚ) : Prop where
  close : |n - r| ≤ 1 / 2
  even : |n - r| = 1 / 2 → Even n

section Nearest

theorem IsNearest.unique {n m : ℕ} {r : ℚ} (hn : IsNearest n r) (hm : IsNearest m r) : n = m := by
  wlog hlt : n < m generalizing n m
  · rcases lt_trichotomy n m with h | h | h
    · exact absurd h hlt
    · exact h
    · exact (this hm hn h).symm
  obtain ⟨hn₁, hn₂⟩ := abs_le.1 hn.close
  obtain ⟨hm₁, hm₂⟩ := abs_le.1 hm.close
  have hstep : (n : ℚ) + 1 ≤ m := by exact_mod_cast hlt
  have hnhalf : |n - r| = 1 / 2 := by
    rw [abs_eq (by norm_num)]
    exact Or.inr (by linarith)
  have hmhalf : |m - r| = 1 / 2 := by
    rw [abs_eq (by norm_num)]
    exact Or.inl (by linarith)
  have hnext : (m : ℚ) = (n + 1 : ℕ) := by
    push_cast
    linarith
  obtain rfl : m = n + 1 := by exact_mod_cast hnext
  exact absurd (hn.even hnhalf) (Nat.even_add_one.1 (hm.even hmhalf))

/-- Twice the distance to the quotient is at most one, and where it is one, the number is even. -/
theorem nearestEven_close (num : ℕ) {den : ℕ} (h : 0 < den) :
    2 * (nearestEven num den * den) ≤ 2 * num + den ∧ 2 * num ≤ 2 * (nearestEven num den * den) + den ∧
      (2 * (nearestEven num den * den) = 2 * num + den ∨ 2 * num = 2 * (nearestEven num den * den) + den →
        nearestEven num den % 2 = 0) := by
  have hd : den * (num / den) + num % den = num := Nat.div_add_mod num den
  have hr : num % den < den := Nat.mod_lt _ h
  have hq : (num / den + 1) * den = den * (num / den) + den := by
    rw [Nat.add_mul, Nat.one_mul, Nat.mul_comm]
  have hm : num / den * den = den * (num / den) := Nat.mul_comm _ _
  unfold nearestEven
  dsimp only
  split_ifs
  · rw [hm]; omega
  · rw [hq]; omega
  · rw [hm]; omega
  · rw [hq]; omega

theorem isNearest_nearestEven (num : ℕ) {den : ℕ} (h : 0 < den) :
    IsNearest (nearestEven num den) (num / den) := by
  obtain ⟨hup, hdown, heven⟩ := nearestEven_close num h
  have hden : (0 : ℚ) < den := by exact_mod_cast h
  have hup' : (2 * (nearestEven num den * den) : ℚ) ≤ 2 * num + den := by exact_mod_cast hup
  have hdown' : (2 * num : ℚ) ≤ 2 * (nearestEven num den * den) + den := by exact_mod_cast hdown
  have hmul : ((nearestEven num den : ℚ) - num / den) * den = nearestEven num den * den - num := by
    rw [sub_mul, div_mul_cancel₀ _ hden.ne']
  constructor
  · refine abs_le.2 ⟨le_of_mul_le_mul_right ?_ hden, le_of_mul_le_mul_right ?_ hden⟩
    · rw [hmul]
      linarith
    · rw [hmul]
      linarith
  · intro hhalf
    rw [Nat.even_iff]
    apply heven
    rcases (abs_eq (by norm_num)).1 hhalf with hside | hside
    · left
      rw [hside] at hmul
      have : (2 * (nearestEven num den * den) : ℚ) = 2 * num + den := by linarith
      exact_mod_cast this
    · right
      rw [hside] at hmul
      have : (2 * num : ℚ) = 2 * (nearestEven num den * den) + den := by linarith
      exact_mod_cast this

theorem shift_div_shift (n : ℕ) (e : ℤ) :
    ((n <<< e.toNat : ℕ) : ℚ) / (1 <<< (-e).toNat : ℕ) = n * 2 ^ e := by
  simp only [Nat.shiftLeft_eq, one_mul]
  obtain ⟨k, rfl | rfl⟩ := e.eq_nat_or_neg
  · simp
  · simp [div_eq_mul_inv]

theorem isNearest_hundredths (m : ℕ) (e : ℤ) : IsNearest (hundredths m e) (100 * (m * 2 ^ e)) := by
  have hden : 0 < 1 <<< (-e).toNat := by
    rw [Nat.one_shiftLeft]
    positivity
  have h := isNearest_nearestEven ((100 * m) <<< e.toNat) hden
  rw [shift_div_shift, Nat.cast_mul, mul_assoc] at h
  exact h

end Nearest

theorem toList_fixed (x : Float32) :
    (fixed x).toList = ((fixedParts x).map String.toList).flatten := by
  rw [fixed, String.toList_join, List.flatMap_def]

/-- What stands before a number: a minus sign where its first bit is set. -/
def sign (x : Float32) : String :=
  if x.toBits.toBitVec.msb then "-" else ""

/-- A text shows a number with two decimal places. -/
def ShowsHundredths (x : Float32) (text : String) : Prop :=
  if x.isNaN then text = "NaN"
  else if x.isInf then text = sign x ++ "inf"
  else ∃ n numeral, IsNearest n (100 * |value x|) ∧ Numeral n 2 numeral ∧ text = sign x ++ numeral

section Shows

variable {x : Float32}

/-- The sign of what has one. -/
def unpackedSign : UnpackedFloat → Option Sign
  | .notANumber => none
  | .infinity s => some s
  | .zero s => some s
  | .finite s _ _ _ => some s

theorem ofBitVec_unpackSign (b : BitVec 32) :
    (Sign.ofBitVec (@unpackSign Format.binary32 b) == .negative) = b.msb := by
  have hbit : @unpackSign Format.binary32 b = BitVec.ofBool b.msb := by
    refine BitVec.eq_of_getLsbD_eq fun i hi => ?_
    obtain rfl : i = 0 := by omega
    simp [unpackSign, BitVec.msb_eq_getLsbD_last]
    rfl
  rw [hbit]
  cases b.msb <;> rfl

theorem msb_of_unpackedSign {b : BitVec 32} {s : Sign}
    (h : unpackedSign (unpack Format.binary32 b) = some s) : (s == .negative) = b.msb := by
  rw [← ofBitVec_unpackSign]
  rw [unpack] at h
  simp only at h
  split_ifs at h <;> cases h <;> rfl

/-- The sign stands before what is written without it. -/
theorem join_signed {s : Sign} (h : unpackedSign x.toModel.unpack = some s) (parts : List String) :
    String.join (signed (s == .negative) parts) = sign x ++ String.join parts := by
  have hbit : (s == .negative) = x.toBits.toBitVec.msb := msb_of_unpackedSign h
  rw [hbit, sign]
  cases x.toBits.toBitVec.msb
  · simp [signed]
  · simp [signed, String.join_cons]

theorem fraction_of_lt_ten {n : ℕ} (h : n < 10) : fraction n 2 = "0" ++ toString n := by
  interval_cases n <;> rfl

theorem fraction_of_lt_hundred {n : ℕ} (h : 10 ≤ n) (h' : n < 100) : fraction n 2 = toString n := by
  have hle : (Nat.toDigits 10 n).length ≤ 2 := (Nat.length_toDigits_le_iff (by omega) (by omega)).2 h'
  have hgt : ¬(Nat.toDigits 10 n).length ≤ 1 :=
    mt (Nat.length_toDigits_le_iff (by omega) (by omega)).1 (by omega)
  have hrest : n % powerOfTen 2 = n := Nat.mod_eq_of_lt h'
  rw [fraction, hrest, leftPad_of_length_eq (by omega)]
  exact String.toList_inj.1 (String.toList_ofList.trans Nat.toList_repr.symm)

/-- In whatever parts a number of hundredths is written, together they are its numeral. -/
theorem join_hundredthParts (n : ℕ) : String.join (hundredthParts n) = positional n 2 := by
  have hwhole : n < 100 → toString (n / powerOfTen 2) ++ "." = "0." := by
    intro h
    have hnone : n / powerOfTen 2 = 0 := Nat.div_eq_of_lt h
    rw [hnone]
    rfl
  rw [hundredthParts, positional, if_neg two_ne_zero]
  split_ifs with hzero hten hhundred
  · rw [hzero]
    rfl
  · rw [hwhole (by omega), fraction_of_lt_ten hten]
    simp [String.join_cons]
  · rw [hwhole hhundred, fraction_of_lt_hundred (by omega) hhundred]
    simp [String.join_cons]
  · simp [String.join_cons, String.append_assoc, powerOfTen]

theorem showsHundredths_fixed (x : Float32) : ShowsHundredths x (fixed x) := by
  have hnan : x.isNaN = x.toModel.unpack.isNaN := rfl
  have hinf : x.isInf = x.toModel.unpack.isInf := rfl
  rw [ShowsHundredths, hnan, hinf, fixed, fixedParts, value]
  cases hu : x.toModel.unpack with
  | notANumber => rfl
  | infinity s => exact join_signed (congrArg unpackedSign hu) ["inf"]
  | zero s =>
    refine ⟨0, positional 0 2, ⟨?_, ?_⟩, numeral_positional 0 2, ?_⟩
    · norm_num [unpackedValue]
    · norm_num
    · rw [unpackedFixedParts, join_signed (congrArg unpackedSign hu), join_hundredthParts]
  | finite s m e hm =>
    refine ⟨hundredths m e, _, ?_, numeral_positional _ 2, ?_⟩
    · rw [abs_unpackedValue]
      exact isNearest_hundredths m e
    · rw [unpackedFixedParts, join_signed (congrArg unpackedSign hu), join_hundredthParts]

/-- A number is shown by one text. -/
theorem ShowsHundredths.unique {s t : String} (hs : ShowsHundredths x s) (ht : ShowsHundredths x t) :
    s = t := by
  rw [ShowsHundredths] at hs ht
  split_ifs at hs ht
  · rw [hs, ht]
  · rw [hs, ht]
  · obtain ⟨n, a, hn, ha, rfl⟩ := hs
    obtain ⟨m, b, hm, hb, rfl⟩ := ht
    obtain rfl := hn.unique hm
    rw [ha.unique hb]

end Shows

end FuzzyMotion.Decimal
