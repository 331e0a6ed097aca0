import FuzzyMotion.Proofs.Binary32.Packing

/-!
The values of binary32 numbers. Comparison compares values, and an operation whose rounded result
lies within the bounds of the format gives this result.
-/
namespace FuzzyMotion.Binary32

open Float.Model (UnpackedFloat Format)
open Float.Model.UnpackedFloat (Sign)

/-- The value of a binary32 number; infinities lie at the bounds of the format. -/
def value (x : Float32) : ℚ :=
  unpackedValue x.toModel.unpack

/-- A binary32 number that is finite and has the given value. -/
def Is (x : Float32) (q : ℚ) : Prop :=
  Stands x.toModel.unpack q

section Compare

theorem two_zpow_le_mul {n : ℕ} {e f : ℤ} (h : e < f) (hn : 2 ^ 23 ≤ n) :
    (2 : ℚ) ^ (e + 24) ≤ n * 2 ^ f := by
  calc
    (2 : ℚ) ^ (e + 24) = 2 ^ (23 : ℤ) * 2 ^ (e + 1) := by
      rw [← two_zpow_add]
      congr 1
      omega
    _ ≤ n * 2 ^ f := by
      refine mul_le_mul ?_ (two_zpow_le_two_zpow (by omega)) (two_zpow_pos _).le (by positivity)
      exact_mod_cast hn

/-- Canonical magnitudes are ordered by their exponents first, and then by their significands. -/
theorem compare_magnitude {m n : ℕ} {e f : ℤ} (hm : m < 2 ^ 24) (hn : n < 2 ^ 24)
    (he : -149 ≤ e ∧ (e = -149 ∨ 2 ^ 23 ≤ m)) (hf : -149 ≤ f ∧ (f = -149 ∨ 2 ^ 23 ≤ n)) :
    compare ((m : ℚ) * 2 ^ e) (n * 2 ^ f) = (compare e f).then (compare m n) := by
  rcases lt_trichotomy e f with h | rfl | h
  · have hn23 : 2 ^ 23 ≤ n := hf.2.resolve_left (by omega)
    rw [Int.compare_eq_lt.2 h, compare_lt_iff_lt.2]
    · rfl
    · exact (mul_two_zpow_lt e hm).trans_le (two_zpow_le_mul h hn23)
  · rw [Int.compare_eq_eq.2 rfl]
    change _ = compare m n
    have hpos := two_zpow_pos e
    rcases lt_trichotomy m n with h | rfl | h
    · rw [compare_lt_iff_lt.2 h, compare_lt_iff_lt.2]
      exact mul_lt_mul_of_pos_right (by exact_mod_cast h) hpos
    · rw [compare_eq_iff_eq.2 rfl, compare_eq_iff_eq.2 rfl]
    · rw [compare_gt_iff_gt.2 h, compare_gt_iff_gt.2]
      exact mul_lt_mul_of_pos_right (by exact_mod_cast h) hpos
  · have hm23 : 2 ^ 23 ≤ m := he.2.resolve_left (by omega)
    rw [Int.compare_eq_gt.2 h, compare_gt_iff_gt.2]
    · rfl
    · exact (mul_two_zpow_lt f hn).trans_le (two_zpow_le_mul h hm23)

theorem compare_neg (p q : ℚ) : compare (-p) (-q) = (compare p q).swap := by
  rcases lt_trichotomy p q with h | rfl | h
  · rw [compare_lt_iff_lt.2 h, compare_gt_iff_gt.2 (neg_lt_neg h)]
    rfl
  · rw [compare_eq_iff_eq.2 rfl, compare_eq_iff_eq.2 rfl]
    rfl
  · rw [compare_gt_iff_gt.2 h, compare_lt_iff_lt.2 (neg_lt_neg h)]
    rfl

theorem magnitude_pos {m : ℕ} (hm : 0 < m) (e : ℤ) : (0 : ℚ) < m * 2 ^ e :=
  mul_pos (by exact_mod_cast hm) (two_zpow_pos e)

/-- Only a zero stands for zero. -/
theorem Stands.exists_zero {u : UnpackedFloat} (h : Stands u 0) : ∃ s, u = .zero s := by
  obtain ⟨s, hs, -⟩ | ⟨s, m, e, hm, -, hvalue⟩ := h.zero_or_finite
  · exact ⟨s, hs⟩
  · rw [zero_eq_mul, or_iff_left (magnitude_pos hm e).ne', ← abs_eq_zero, abs_signFactor] at hvalue
    exact absurd hvalue one_ne_zero

theorem abs_unpackedValue (s : Sign) {m : ℕ} (hm : 0 < m) (e : ℤ) :
    |unpackedValue (.finite s m e hm)| = m * 2 ^ e := by
  rw [unpackedValue, abs_mul, abs_signFactor, one_mul, abs_of_pos (magnitude_pos hm e)]

theorem abs_unpackedValue_lt {s : Sign} {m : ℕ} {e : ℤ} {hm : 0 < m}
    (hc : Canonical (.finite s m e hm)) (hb : Bounded (.finite s m e hm)) :
    |unpackedValue (.finite s m e hm)| < 2 ^ (128 : ℤ) := by
  rw [abs_unpackedValue]
  refine (mul_two_zpow_lt e hc.1).trans_le (two_zpow_le_two_zpow ?_)
  have : e ≤ 104 := hb
  omega

theorem some_lt {p q : ℚ} (h : p < q) : some .lt = some (compare p q) :=
  congrArg some (compare_lt_iff_lt.2 h).symm

theorem some_eq (p : ℚ) : some .eq = some (compare p p) :=
  congrArg some (compare_eq_iff_eq.2 rfl).symm

theorem some_gt {p q : ℚ} (h : q < p) : some .gt = some (compare p q) :=
  congrArg some (compare_gt_iff_gt.2 h).symm

/-- Comparison of finite magnitudes with their signs. -/
theorem compare_finite {s t : Sign} {m n : ℕ} {e f : ℤ} {hm : 0 < m} {hn : 0 < n}
    (hu : Canonical (.finite s m e hm)) (hv : Canonical (.finite t n f hn)) :
    UnpackedFloat.compare (.finite s m e hm) (.finite t n f hn) =
      some (compare (unpackedValue (.finite s m e hm)) (unpackedValue (.finite t n f hn))) := by
  have hmag := compare_magnitude hu.1 hv.1 hu.2 hv.2
  have hp := magnitude_pos hm e
  have hq := magnitude_pos hn f
  simp only [unpackedValue]
  cases s with
  | positive =>
    cases t with
    | positive => simp only [UnpackedFloat.compare, signFactor, one_mul, hmag]
    | negative => exact some_gt (by simp only [signFactor]; linarith)
  | negative =>
    cases t with
    | positive => exact some_lt (by simp only [signFactor]; linarith)
    | negative => simp only [UnpackedFloat.compare, signFactor, neg_one_mul, compare_neg, hmag]

/-- An infinity lies beyond every other number. -/
theorem compare_infinity (s : Sign) {v : UnpackedFloat} (hv : Canonical v ∧ Bounded v)
    (hnan : v.isNaN = false) :
    UnpackedFloat.compare (.infinity s) v =
      some (compare (unpackedValue (.infinity s)) (unpackedValue v)) := by
  have htop : (0 : ℚ) < 2 ^ (128 : ℤ) := two_zpow_pos _
  cases v with
  | notANumber => cases hnan
  | infinity t =>
    cases s <;> cases t
    · exact some_eq _
    · exact some_lt (by simp only [unpackedValue, signFactor_negative, signFactor_positive]; linarith)
    · exact some_gt (by simp only [unpackedValue, signFactor_negative, signFactor_positive]; linarith)
    · exact some_eq _
  | zero t =>
    cases s
    · exact some_lt (by simp only [unpackedValue, signFactor_negative]; linarith)
    · exact some_gt (by simp only [unpackedValue, signFactor_positive]; linarith)
  | finite t n f hn =>
    obtain ⟨hlow, hhigh⟩ := abs_lt.1 (abs_unpackedValue_lt hv.1 hv.2)
    cases s
    · exact some_lt (by rw [unpackedValue, signFactor_negative]; linarith)
    · exact some_gt (by rw [unpackedValue, signFactor_positive, one_mul]; exact hhigh)

theorem compare_zero (s : Sign) {v : UnpackedFloat} (hnan : v.isNaN = false) :
    UnpackedFloat.compare (.zero s) v = some (compare (unpackedValue (.zero s)) (unpackedValue v)) := by
  have htop : (0 : ℚ) < 2 ^ (128 : ℤ) := two_zpow_pos _
  cases v with
  | notANumber => cases hnan
  | infinity t =>
    cases t
    · exact some_gt (by simp only [unpackedValue, signFactor_negative]; linarith)
    · exact some_lt (by simp only [unpackedValue, signFactor_positive]; linarith)
  | zero t => exact some_eq _
  | finite t n f hn =>
    have hq := magnitude_pos hn f
    cases t
    · exact some_gt (by simp only [unpackedValue, signFactor_negative]; linarith)
    · exact some_lt (by simp only [unpackedValue, signFactor_positive]; linarith)

/-- Unpacked numbers compare as their values do. -/
theorem compare_eq {u v : UnpackedFloat} (hu : Canonical u ∧ Bounded u) (hv : Canonical v ∧ Bounded v)
    (hnu : u.isNaN = false) (hnv : v.isNaN = false) :
    UnpackedFloat.compare u v = some (compare (unpackedValue u) (unpackedValue v)) := by
  cases u with
  | notANumber => cases hnu
  | infinity s => exact compare_infinity s hv hnv
  | zero s => exact compare_zero s hnv
  | finite s m e hm =>
    obtain ⟨hlow, hhigh⟩ := abs_lt.1 (abs_unpackedValue_lt hu.1 hu.2)
    have hp := magnitude_pos hm e
    cases v with
    | notANumber => cases hnv
    | infinity t =>
      cases t
      · have hgt : unpackedValue (.infinity .negative) < unpackedValue (.finite s m e hm) := by
          rw [unpackedValue, signFactor_negative]
          linarith
        cases s <;> exact some_gt hgt
      · have hlt : unpackedValue (.finite s m e hm) < unpackedValue (.infinity .positive) := by
          rw [unpackedValue.eq_1, signFactor_positive, one_mul]
          exact hhigh
        cases s <;> exact some_lt hlt
    | zero t =>
      cases s
      · exact some_lt (by simp only [unpackedValue, signFactor_negative]; linarith)
      · exact some_gt (by simp only [unpackedValue, signFactor_positive]; linarith)
    | finite t n f hn => exact compare_finite hu.1 hv.1

end Compare

section Order

variable {x y : Float32} {p q : ℚ}

theorem unpack_canonical (x : Float32) : Canonical x.toModel.unpack ∧ Bounded x.toModel.unpack :=
  canonical_unpack x.toModel.toBits.toBitVec

theorem compare_toModel (hx : x.isNaN = false) (hy : y.isNaN = false) :
    UnpackedFloat.compare x.toModel.unpack y.toModel.unpack = some (compare (value x) (value y)) :=
  compare_eq (unpack_canonical x) (unpack_canonical y) hx hy

theorem compare_isNaN (h : x.isNaN = true ∨ y.isNaN = true) :
    UnpackedFloat.compare x.toModel.unpack y.toModel.unpack = none := by
  have hx : x.isNaN = x.toModel.unpack.isNaN := rfl
  have hy : y.isNaN = y.toModel.unpack.isNaN := rfl
  rw [hx, hy] at h
  revert h
  generalize x.toModel.unpack = u
  generalize y.toModel.unpack = v
  intro h
  cases u with
  | notANumber => cases v <;> rfl
  | infinity s =>
    cases v with
    | notANumber => rfl
    | _ => simp [UnpackedFloat.isNaN] at h
  | zero s =>
    cases v with
    | notANumber => rfl
    | _ => simp [UnpackedFloat.isNaN] at h
  | finite s m e hm =>
    cases v with
    | notANumber => cases s <;> rfl
    | _ => simp [UnpackedFloat.isNaN] at h

/-- Numbers compare as their values do, and there is no comparison with what is not a number. -/
theorem compare_toModel_eq_some_iff {o : Ordering} :
    UnpackedFloat.compare x.toModel.unpack y.toModel.unpack = some o ↔
      x.isNaN = false ∧ y.isNaN = false ∧ compare (value x) (value y) = o := by
  by_cases h : x.isNaN = true ∨ y.isNaN = true
  · rw [compare_isNaN h]
    refine ⟨nofun, ?_⟩
    rintro ⟨hx, hy, -⟩
    rw [hx, hy] at h
    simp only [Bool.false_eq_true, or_self] at h
  · simp only [not_or, Bool.not_eq_true] at h
    obtain ⟨hx, hy⟩ := h
    simp only [compare_toModel hx hy, hx, hy, true_and, Option.some.injEq]

/-- Order is order of values, except that what is not a number is not in it. -/
theorem le_iff_value :
    x ≤ y ↔ x.isNaN = false ∧ y.isNaN = false ∧ value x ≤ value y := by
  have hdef : x ≤ y ↔
      (UnpackedFloat.compare x.toModel.unpack y.toModel.unpack).any (·.isLE) = true :=
    decide_eq_true_iff
  have hle : value x ≤ value y ↔ (compare (value x) (value y)).isLE = true := by
    rw [Ordering.isLE_iff_ne_gt, compare_gt_iff_gt, not_lt]
  rw [hdef, Option.any_eq_true, hle]
  simp only [compare_toModel_eq_some_iff, and_assoc, exists_and_left, exists_eq_left']

theorem lt_iff_value :
    x < y ↔ x.isNaN = false ∧ y.isNaN = false ∧ value x < value y := by
  have hdef : x < y ↔
      (UnpackedFloat.compare x.toModel.unpack y.toModel.unpack == some .lt) = true :=
    decide_eq_true_iff
  rw [hdef, beq_iff_eq, compare_toModel_eq_some_iff, compare_lt_iff_lt]

/-- The two zeros are equal to each other. -/
theorem beq_iff_value :
    x == y ↔ x.isNaN = false ∧ y.isNaN = false ∧ value x = value y := by
  have hdef : x == y ↔
      (UnpackedFloat.compare x.toModel.unpack y.toModel.unpack == some .eq) = true := Iff.rfl
  rw [hdef, beq_iff_eq, compare_toModel_eq_some_iff, compare_eq_iff_eq]

theorem le_of_beq (h : x == y) : x ≤ y := by
  obtain ⟨hx, hy, hvalue⟩ := beq_iff_value.1 h
  exact le_iff_value.2 ⟨hx, hy, hvalue.le⟩

theorem ge_of_beq (h : x == y) : y ≤ x := by
  obtain ⟨hx, hy, hvalue⟩ := beq_iff_value.1 h
  exact le_iff_value.2 ⟨hy, hx, hvalue.ge⟩

theorem le_rfl_of_number (hx : x.isNaN = false) : x ≤ x :=
  le_iff_value.2 ⟨hx, hx, le_refl _⟩

theorem le_trans_of_number {z : Float32} (hxy : x ≤ y) (hyz : y ≤ z) : x ≤ z := by
  obtain ⟨hx, -, hle⟩ := le_iff_value.1 hxy
  obtain ⟨-, hz, hle'⟩ := le_iff_value.1 hyz
  exact le_iff_value.2 ⟨hx, hz, hle.trans hle'⟩

theorem lt_of_lt_of_le_number {z : Float32} (hxy : x < y) (hyz : y ≤ z) : x < z := by
  obtain ⟨hx, -, hlt⟩ := lt_iff_value.1 hxy
  obtain ⟨-, hz, hle⟩ := le_iff_value.1 hyz
  exact lt_iff_value.2 ⟨hx, hz, hlt.trans_le hle⟩

theorem lt_of_le_of_lt_number {z : Float32} (hxy : x ≤ y) (hyz : y < z) : x < z := by
  obtain ⟨hx, -, hle⟩ := le_iff_value.1 hxy
  obtain ⟨-, hz, hlt⟩ := lt_iff_value.1 hyz
  exact lt_iff_value.2 ⟨hx, hz, hle.trans_lt hlt⟩

theorem le_of_lt_number (h : x < y) : x ≤ y := by
  obtain ⟨hx, hy, hlt⟩ := lt_iff_value.1 h
  exact le_iff_value.2 ⟨hx, hy, hlt.le⟩

theorem not_lt_of_le_number (h : x ≤ y) : ¬y < x :=
  fun hlt => absurd (le_iff_value.1 h).2.2 (not_le.2 (lt_iff_value.1 hlt).2.2)

theorem not_le_of_lt_number (h : x < y) : ¬y ≤ x :=
  fun hle => not_lt_of_le_number hle h

end Order

section Equality

theorem eq_of_unpack_eq {x y : Float32} (h : x.toModel.unpack = y.toModel.unpack) : x = y := by
  obtain ⟨⟨a, ha⟩⟩ := x
  obtain ⟨⟨b, hb⟩⟩ := y
  have hbits : a.toBitVec = b.toBitVec := (UnpackedFloat.unpack_inj_of_valid ha hb).1 h
  obtain rfl : a = b := UInt32.toBitVec_inj.1 hbits
  rfl

/-- Canonical magnitudes are equal only where their parts are. -/
theorem magnitude_inj {m n : ℕ} {e f : ℤ} (hm : m < 2 ^ 24) (hn : n < 2 ^ 24)
    (he : -149 ≤ e ∧ (e = -149 ∨ 2 ^ 23 ≤ m)) (hf : -149 ≤ f ∧ (f = -149 ∨ 2 ^ 23 ≤ n))
    (h : (m : ℚ) * 2 ^ e = n * 2 ^ f) : m = n ∧ e = f := by
  have hcompare := compare_magnitude hm hn he hf
  rw [compare_eq_iff_eq.2 h, eq_comm, Ordering.then_eq_eq] at hcompare
  exact ⟨compare_eq_iff_eq.1 hcompare.2, compare_eq_iff_eq.1 hcompare.1⟩

/-- Magnitudes that are equal with their signs are equal in both. -/
theorem signed_inj {s t : Sign} {a b : ℚ} (ha : 0 < a) (hb : 0 < b)
    (h : signFactor s * a = signFactor t * b) : s = t ∧ a = b := by
  have hab : a = b := by
    have habs := congrArg abs h
    rwa [abs_mul, abs_mul, abs_signFactor, abs_signFactor, one_mul, one_mul, abs_of_pos ha,
      abs_of_pos hb] at habs
  subst hab
  exact ⟨signFactor_injective (mul_right_cancel₀ ha.ne' h), rfl⟩

theorem unpackedValue_inj {u v : UnpackedFloat} (hu : Canonical u ∧ Bounded u)
    (hv : Canonical v ∧ Bounded v) (hnu : u.isNaN = false) (hnv : v.isNaN = false)
    (h : unpackedValue u = unpackedValue v) (h0 : unpackedValue u ≠ 0) : u = v := by
  have htop : (0 : ℚ) < 2 ^ (128 : ℤ) := two_zpow_pos _
  have hinf : ∀ s, |unpackedValue (.infinity s)| = 2 ^ (128 : ℤ) := fun s => by
    rw [unpackedValue, abs_mul, abs_signFactor, one_mul, abs_of_pos htop]
  cases u with
  | notANumber => cases hnu
  | zero s => exact absurd rfl h0
  | infinity s =>
    cases v with
    | notANumber => cases hnv
    | zero t => exact absurd h h0
    | infinity t => rw [(signed_inj htop htop h).1]
    | finite t n f hn =>
      have hbelow := abs_unpackedValue_lt hv.1 hv.2
      rw [← h, hinf] at hbelow
      exact absurd hbelow (lt_irrefl _)
  | finite s m e hm =>
    cases v with
    | notANumber => cases hnv
    | zero t => exact absurd h h0
    | infinity t =>
      have hbelow := abs_unpackedValue_lt hu.1 hu.2
      rw [h, hinf] at hbelow
      exact absurd hbelow (lt_irrefl _)
    | finite t n f hn =>
      obtain ⟨rfl, hmag⟩ := signed_inj (magnitude_pos hm e) (magnitude_pos hn f) h
      obtain ⟨rfl, rfl⟩ := magnitude_inj hu.1.1 hv.1.1 hu.1.2 hv.1.2 hmag
      rfl

/-- Numbers with the same value are the same, except that there are two zeros. -/
theorem eq_of_value_eq {x y : Float32} (hx : x.isNaN = false) (hy : y.isNaN = false)
    (h : value x = value y) (h0 : value x ≠ 0) : x = y :=
  eq_of_unpack_eq (unpackedValue_inj (unpack_canonical x) (unpack_canonical y) hx hy h h0)

end Equality

section Is

variable {x y : Float32} {p q : ℚ}

theorem is_of_isFinite (h : x.isFinite = true) : Is x (value x) :=
  ⟨h, (unpack_canonical x).1, rfl⟩

theorem Is.value_eq (h : Is x p) : value x = p := Stands.value h

theorem Is.isFinite (h : Is x p) : x.isFinite = true := Stands.isFinite h

theorem Is.isNaN (h : Is x p) : x.isNaN = false := by
  change x.toModel.unpack.isNaN = false
  obtain ⟨s, hu, -⟩ | ⟨s, m, e, hm, hu, -⟩ := Stands.zero_or_finite h <;> rw [hu] <;> rfl

theorem finite_or_infinite (hx : x.isNaN = false) :
    (∃ p, Is x p) ∨ ∃ s, x.toModel.unpack = .infinity s := by
  by_cases hf : x.isFinite = true
  · exact Or.inl ⟨_, is_of_isFinite hf⟩
  · change x.toModel.unpack.isNaN = false at hx
    change ¬x.toModel.unpack.isFinite = true at hf
    cases hu : x.toModel.unpack with
    | notANumber =>
      rw [hu] at hx
      cases hx
    | infinity s => exact Or.inr ⟨s, rfl⟩
    | zero s => exact absurd (congrArg UnpackedFloat.isFinite hu) hf
    | finite s m e hm => exact absurd (congrArg UnpackedFloat.isFinite hu) hf

theorem value_of_infinity {s : Sign} (hs : x.toModel.unpack = .infinity s) :
    x.isNaN = false ∧ value x = signFactor s * 2 ^ (128 : ℤ) := by
  have hnan : x.isNaN = x.toModel.unpack.isNaN := rfl
  refine ⟨?_, ?_⟩
  · rw [hnan, hs]
    rfl
  · rw [value, hs, unpackedValue]

theorem is_of_bounds (hx : x.isNaN = false) (h : |value x| < 2 ^ (128 : ℤ)) : Is x (value x) := by
  obtain ⟨p, hp⟩ | ⟨s, hs⟩ := finite_or_infinite hx
  · rw [hp.value_eq]
    exact hp
  · rw [(value_of_infinity hs).2, abs_mul, abs_signFactor, one_mul, abs_of_pos (two_zpow_pos _)] at h
    exact absurd h (lt_irrefl _)

theorem Is.abs_lt (h : Is x p) : |p| < 2 ^ (128 : ℤ) := by
  obtain ⟨s, hu, rfl⟩ | ⟨s, m, e, hm, hu, rfl⟩ := Stands.zero_or_finite h
  · rw [abs_zero]
    exact two_zpow_pos _
  · have hx := unpack_canonical x
    rw [hu] at hx
    exact abs_unpackedValue_lt hx.1 hx.2

theorem Is.of_beq (hy : Is y q) (h : x == y) : Is x q := by
  obtain ⟨hx, -, hvalue⟩ := beq_iff_value.1 h
  rw [hy.value_eq] at hvalue
  have hfinite := is_of_bounds hx (by rw [hvalue]; exact hy.abs_lt)
  rwa [hvalue] at hfinite

theorem Is.representable (h : Is x p) : Representable p := Stands.representable h

theorem Is.onGrid (h : Is x p) : OnGrid p := h.representable.onGrid

/-- Two numbers that differ are a step of the grid apart, so their difference is not rounded to zero. -/
theorem Is.rounded_sub_pos (hx : Is x p) (hy : Is y q) (h : p < q) : 0 < rounded (q - p) := by
  have hgrid : OnGrid (q - p) := by
    rw [sub_eq_add_neg]
    exact hy.onGrid.add hx.onGrid.neg
  apply (two_zpow_pos (-149)).trans_le
  exact le_rounded (representable_two_zpow (le_refl _)) (hgrid.step_le (sub_pos.2 h))

theorem Is.le_iff (hx : Is x p) (hy : Is y q) : x ≤ y ↔ p ≤ q := by
  rw [le_iff_value, hx.value_eq, hy.value_eq]
  exact ⟨fun h => h.2.2, fun h => ⟨hx.isNaN, hy.isNaN, h⟩⟩

theorem Is.lt_iff (hx : Is x p) (hy : Is y q) : x < y ↔ p < q := by
  rw [lt_iff_value, hx.value_eq, hy.value_eq]
  exact ⟨fun h => h.2.2, fun h => ⟨hx.isNaN, hy.isNaN, h⟩⟩

theorem lt_of_not_le (hx : x.isNaN = false) (hy : y.isNaN = false) (h : ¬x ≤ y) : y < x := by
  refine lt_iff_value.2 ⟨hy, hx, ?_⟩
  by_contra hcon
  exact h (le_iff_value.2 ⟨hx, hy, not_lt.1 hcon⟩)

theorem le_of_not_lt (hx : x.isNaN = false) (hy : y.isNaN = false) (h : ¬x < y) : y ≤ x := by
  refine le_iff_value.2 ⟨hy, hx, ?_⟩
  by_contra hcon
  exact h (lt_iff_value.2 ⟨hx, hy, not_le.1 hcon⟩)

theorem le_or_lt_of_number (hx : x.isNaN = false) (hy : y.isNaN = false) : x ≤ y ∨ y < x := by
  by_cases h : x ≤ y
  · exact Or.inl h
  · exact Or.inr (lt_of_not_le hx hy h)

/-- What lies between two finite numbers is finite. -/
theorem is_of_le_of_le {z : Float32} (hx : Is x p) (hy : Is y q) (hxz : x ≤ z) (hzy : z ≤ y) :
    ∃ r, Is z r ∧ p ≤ r ∧ r ≤ q := by
  obtain ⟨-, hz, hlow⟩ := le_iff_value.1 hxz
  obtain ⟨-, -, hhigh⟩ := le_iff_value.1 hzy
  rw [hx.value_eq] at hlow
  rw [hy.value_eq] at hhigh
  refine ⟨value z, is_of_bounds hz ?_, hlow, hhigh⟩
  exact abs_lt.2 ⟨(abs_lt.1 hx.abs_lt).1.trans_le hlow, hhigh.trans_lt (abs_lt.1 hy.abs_lt).2⟩

theorem is_of_lt_of_le {z : Float32} (hx : Is x p) (hy : Is y q) (hxz : x < z) (hzy : z ≤ y) :
    ∃ r, Is z r ∧ p < r ∧ r ≤ q := by
  obtain ⟨hnx, hnz, hlt⟩ := lt_iff_value.1 hxz
  obtain ⟨r, hr, -, hrq⟩ := is_of_le_of_le hx hy (le_iff_value.2 ⟨hnx, hnz, hlt.le⟩) hzy
  rw [hx.value_eq, hr.value_eq] at hlt
  exact ⟨r, hr, hlt, hrq⟩

/-- A finite number written down by its parts. -/
theorem is_of_unpack {s : Sign} {m : ℕ} {e : ℤ} (hm : 0 < m)
    (hx : x.toModel.unpack = .finite s m e hm) (hp : signFactor s * (m * 2 ^ e) = p) : Is x p := by
  have hc := unpack_canonical x
  rw [← hp]
  rw [Is]
  rw [hx] at hc ⊢
  exact ⟨rfl, hc.1, rfl⟩

theorem is_zero : Is 0 0 := ⟨rfl, trivial, rfl⟩

theorem Is.beq_zero (h : Is x 0) : x == 0 :=
  beq_iff_value.2 ⟨h.isNaN, is_zero.isNaN, by rw [h.value_eq, is_zero.value_eq]⟩

/-- An operation whose rounded result is within the bounds gives this result. -/
theorem is_ofModel {u : UnpackedFloat} (h : Stands u p) (hp : |p| < 2 ^ (128 : ℤ)) :
    Is (.ofModel (.pack u)) p := by
  have hu : (Float32.ofModel (.pack u)).toModel.unpack = u := h.unpack_pack hp
  rw [Is]
  rw [hu]
  exact h

theorem Is.neg (hx : Is x p) : Is (-x) (-p) :=
  is_ofModel (Stands.neg hx) (by rw [abs_neg]; exact hx.abs_lt)

theorem Is.add (hx : Is x p) (hy : Is y q) (h : |rounded (p + q)| < 2 ^ (128 : ℤ)) :
    Is (x + y) (rounded (p + q)) :=
  is_ofModel (Stands.add hx hy) h

theorem Is.sub (hx : Is x p) (hy : Is y q) (h : |rounded (p - q)| < 2 ^ (128 : ℤ)) :
    Is (x - y) (rounded (p - q)) :=
  is_ofModel (Stands.sub hx hy) h

theorem Is.mul (hx : Is x p) (hy : Is y q) (h : |rounded (p * q)| < 2 ^ (128 : ℤ)) :
    Is (x * y) (rounded (p * q)) :=
  is_ofModel (Stands.mul hx hy) h

theorem Is.div (hx : Is x p) (hy : Is y q) (hq : q ≠ 0) (h : |rounded (p / q)| < 2 ^ (128 : ℤ)) :
    Is (x / y) (rounded (p / q)) :=
  is_ofModel (Stands.div hx hy hq) h

/-- An operation whose result is finite gives the rounded one. -/
theorem is_ofModel_of_isFinite {u : UnpackedFloat} (h : Stands u p)
    (hf : (Float32.ofModel (.pack u)).isFinite = true) : Is (.ofModel (.pack u)) p := by
  apply is_ofModel h
  by_contra hcon
  obtain ⟨s, hs, -⟩ := Stands.unpack_pack_infinity h (not_lt.1 hcon)
  have hinf : (Float32.ofModel (.pack u)).toModel.unpack = .infinity s := hs
  have : (Float32.ofModel (.pack u)).toModel.unpack.isFinite = true := hf
  rw [hinf] at this
  cases this

theorem Is.add_of_isFinite (hx : Is x p) (hy : Is y q) (h : (x + y).isFinite = true) :
    Is (x + y) (rounded (p + q)) :=
  is_ofModel_of_isFinite (Stands.add hx hy) h

theorem Is.div_of_isFinite (hx : Is x p) (hy : Is y q) (hq : q ≠ 0) (h : (x / y).isFinite = true) :
    Is (x / y) (rounded (p / q)) :=
  is_ofModel_of_isFinite (Stands.div hx hy hq) h

/-- The largest finite number lies one step of its grid below the bound. -/
theorem le_top_of_is (hx : Is x p) : p ≤ 2 ^ (128 : ℤ) - 2 ^ (104 : ℤ) := by
  have hbound : p < 2 ^ (128 : ℤ) := (abs_lt.1 hx.abs_lt).2
  have hstep := two_zpow_le_sub (k := 104) hx.representable
    (representable_two_zpow (k := 128) (by norm_num)) hbound
    (Or.inr (by rw [abs_of_pos (two_zpow_pos _)]; norm_num))
  linarith

theorem abs_rounded_add_lt (hx : Is x p) (h0 : 0 ≤ q) (hq : q < 2 ^ (103 : ℤ)) :
    |rounded (p + q)| < 2 ^ (128 : ℤ) := by
  obtain ⟨hlow, -⟩ := abs_lt.1 hx.abs_lt
  have hhigh : rounded (p + q) ≤ rounded (2 ^ (128 : ℤ) - 2 ^ (104 : ℤ) + q) :=
    rounded_mono (add_le_add_left (le_top_of_is hx) q)
  exact abs_lt.2 ⟨hlow.trans_le (le_rounded hx.representable (by linarith)),
    hhigh.trans_lt (rounded_top_add_lt h0 hq)⟩

/-- A number that is not too large can be added to every finite number, and makes it no smaller. -/
theorem Is.add_small (hx : Is x p) (hy : Is y q) (h0 : 0 ≤ q) (hq : q < 2 ^ (103 : ℤ)) :
    (x + y).isFinite = true ∧ x ≤ x + y := by
  have hsum := hx.add hy (abs_rounded_add_lt hx h0 hq)
  exact ⟨hsum.isFinite, (hx.le_iff hsum).2 (le_rounded hx.representable (by linarith))⟩

theorem Is.add_zero (hx : Is x p) (hy : Is y 0) : Is (x + y) p := by
  have hp : rounded (p + 0) = p := by rw [Rat.add_zero, rounded_of_representable hx.representable]
  rw [← hp]
  exact hx.add hy (by rw [hp]; exact hx.abs_lt)

theorem Is.zero_add (hx : Is x 0) (hy : Is y q) : Is (x + y) q := by
  have hq : rounded (0 + q) = q := by rw [Rat.zero_add, rounded_of_representable hy.representable]
  rw [← hq]
  exact hx.add hy (by rw [hq]; exact hy.abs_lt)

theorem Is.mul_zero (hx : Is x p) (hy : Is y 0) : Is (x * y) 0 := by
  have h := hx.mul hy
  rw [Rat.mul_zero, rounded_zero, abs_zero] at h
  exact h (two_zpow_pos _)

theorem Is.zero_mul (hx : Is x 0) (hy : Is y q) : Is (x * y) 0 := by
  have h := hx.mul hy
  rw [Rat.zero_mul, rounded_zero, abs_zero] at h
  exact h (two_zpow_pos _)

end Is

end FuzzyMotion.Binary32
