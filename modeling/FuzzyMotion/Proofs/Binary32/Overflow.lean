import FuzzyMotion.Proofs.Binary32.Value

/-!
Results beyond the bounds of the format. A difference of finite numbers that is out of bounds is infinite.
A finite number divided by an infinity is zero, but the quotient of two infinities is not a number. Sums
and quotients stay on their side of zero, whether or not they are out of bounds.
-/
namespace FuzzyMotion.Binary32

open Float.Model (UnpackedFloat Format)
open Float.Model.UnpackedFloat (Sign)

variable {x y : Float32} {p q : ℚ}

theorem isInf_eq_true_iff : x.isInf = true ↔ ∃ s, x.toModel.unpack = .infinity s := by
  have hdef : x.isInf = x.toModel.unpack.isInf := rfl
  rw [hdef]
  generalize x.toModel.unpack = u
  cases u with
  | infinity s => simp [UnpackedFloat.isInf]
  | _ => simp [UnpackedFloat.isInf]

theorem Is.isInf_sub (hx : Is x p) (hy : Is y q) (h : 2 ^ (128 : ℤ) ≤ |rounded (p - q)|) :
    (x - y).isInf = true := by
  obtain ⟨s, hs, -⟩ := Stands.unpack_pack_infinity (Stands.sub hx hy) h
  exact isInf_eq_true_iff.2 ⟨s, hs⟩

theorem isFinite_of_isInf (h : x.isInf = true) : x.isFinite = false := by
  obtain ⟨s, hs⟩ := isInf_eq_true_iff.1 h
  change x.toModel.unpack.isFinite = false
  rw [hs]
  rfl

/-- A difference is finite exactly where the rounded difference is within the bounds. -/
theorem Is.isFinite_sub_iff (hx : Is x p) (hy : Is y q) :
    (x - y).isFinite = true ↔ |rounded (p - q)| < 2 ^ (128 : ℤ) := by
  constructor
  · intro hfinite
    by_contra hcon
    have hinf : (x - y).isInf = true := hx.isInf_sub hy (not_lt.1 hcon)
    rw [isFinite_of_isInf hinf] at hfinite
    cases hfinite
  · intro h
    exact (hx.sub hy h).isFinite

theorem Is.div_of_isInf (hx : Is x p) (hy : y.isInf = true) : Is (x / y) 0 := by
  obtain ⟨t, ht⟩ := isInf_eq_true_iff.1 hy
  have hquotient : ∃ s, UnpackedFloat.div Format.binary32 x.toModel.unpack y.toModel.unpack = .zero s := by
    rw [ht]
    obtain ⟨s, hs, -⟩ | ⟨s, m, e, hm, hs, -⟩ := Stands.zero_or_finite hx
    · rw [hs]
      exact ⟨s / t, rfl⟩
    · rw [hs]
      exact ⟨s / t, rfl⟩
  obtain ⟨s, hs⟩ := hquotient
  have hzero : Stands (UnpackedFloat.div Format.binary32 x.toModel.unpack y.toModel.unpack) 0 := by
    rw [hs]
    exact stands_zero s
  exact is_ofModel hzero (by rw [abs_zero]; exact two_zpow_pos _)

theorem isNaN_div_of_isInf (hx : x.isInf = true) (hy : y.isInf = true) : (x / y).isNaN = true := by
  obtain ⟨s, hs⟩ := isInf_eq_true_iff.1 hx
  obtain ⟨t, ht⟩ := isInf_eq_true_iff.1 hy
  have hquotient : x / y = .ofModel (.pack
      (UnpackedFloat.div Format.binary32 x.toModel.unpack y.toModel.unpack)) := rfl
  rw [hquotient, hs, ht]
  change (Float32.ofModel (.pack .notANumber)).isNaN = true
  decide

section Side

variable {s : Sign}

/-- A number that is zero or has the given sign. -/
def OnSide (s : Sign) (x : Float32) : Prop :=
  x.isNaN = false ∧ 0 ≤ signFactor s * value x

theorem Is.onSide (hx : Is x p) (hp : 0 ≤ signFactor s * p) : OnSide s x :=
  ⟨hx.isNaN, by rwa [hx.value_eq]⟩

/-- A number other than zero is on one side only. -/
theorem sign_unique {t : Sign} (hp : 0 ≤ signFactor s * p) (hpos : 0 < signFactor t * p) : t = s := by
  cases s <;> cases t
  · rfl
  · rw [signFactor_negative] at hp
    rw [signFactor_positive] at hpos
    linarith
  · rw [signFactor_positive] at hp
    rw [signFactor_negative] at hpos
    linarith
  · rfl

theorem onSide_of_unpack (h : x.toModel.unpack = .infinity s) : OnSide s x := by
  obtain ⟨hnan, hvalue⟩ := value_of_infinity h
  refine ⟨hnan, ?_⟩
  rw [hvalue, signFactor_mul_self]
  exact (two_zpow_pos _).le

theorem onSide_infinity (s : Sign) : OnSide s (.ofModel (.pack (.infinity s))) := by
  apply onSide_of_unpack
  cases s <;> rfl

/-- There is only one infinity on each side. -/
theorem OnSide.is_or_infinity (h : OnSide s x) :
    (∃ p, Is x p ∧ 0 ≤ signFactor s * p) ∨ x.toModel.unpack = .infinity s := by
  obtain ⟨hnan, hside⟩ := h
  obtain ⟨p, hp⟩ | ⟨t, ht⟩ := finite_or_infinite hnan
  · rw [hp.value_eq] at hside
    exact Or.inl ⟨p, hp, hside⟩
  · rw [(value_of_infinity ht).2] at hside
    have hbound : 0 < signFactor t * (signFactor t * 2 ^ (128 : ℤ)) := by
      rw [signFactor_mul_self]
      exact two_zpow_pos _
    exact Or.inr (sign_unique hside hbound ▸ ht)

/-- An operation keeps the side of its exact result, also where it overflows. -/
theorem onSide_ofModel {u : UnpackedFloat} (h : Stands u p) (hp : 0 ≤ signFactor s * p) :
    OnSide s (.ofModel (.pack u)) := by
  cases lt_or_ge |p| (2 ^ (128 : ℤ)) with
  | inl hsmall => exact (is_ofModel h hsmall).onSide hp
  | inr hbig =>
    obtain ⟨t, ht, hpos⟩ := h.unpack_pack_infinity hbig
    exact onSide_of_unpack (sign_unique hp hpos ▸ ht)

theorem OnSide.add (hx : OnSide s x) (hy : OnSide s y) : OnSide s (x + y) := by
  have hsum : x + y = .ofModel (.pack
      (UnpackedFloat.add Format.binary32 x.toModel.unpack y.toModel.unpack)) := rfl
  cases hx.is_or_infinity with
  | inl hp =>
    obtain ⟨p, hp, hp0⟩ := hp
    cases hy.is_or_infinity with
    | inl hq =>
      obtain ⟨q, hq, hq0⟩ := hq
      refine onSide_ofModel (Stands.add hp hq) ?_
      rw [← rounded_signFactor_mul, mul_add]
      exact rounded_nonneg (add_nonneg hp0 hq0)
    | inr hq =>
      rw [hsum, hq]
      obtain ⟨t, ht, -⟩ | ⟨t, m, e, hm, ht, -⟩ := Stands.zero_or_finite hp <;> rw [ht] <;>
        exact onSide_infinity s
  | inr hp =>
    rw [hsum, hp]
    cases hy.is_or_infinity with
    | inl hq =>
      obtain ⟨q, hq, -⟩ := hq
      obtain ⟨t, ht, -⟩ | ⟨t, m, e, hm, ht, -⟩ := Stands.zero_or_finite hq <;> rw [ht] <;>
        exact onSide_infinity s
    | inr hq =>
      rw [hq]
      cases s <;> exact onSide_infinity _

/-- A positive divisor keeps the side. -/
theorem OnSide.div (hx : OnSide s x) (hy : Is y q) (hq : 0 < q) : OnSide s (x / y) := by
  have hquotient : x / y = .ofModel (.pack
      (UnpackedFloat.div Format.binary32 x.toModel.unpack y.toModel.unpack)) := rfl
  cases hx.is_or_infinity with
  | inl hp =>
    obtain ⟨p, hp, hp0⟩ := hp
    refine onSide_ofModel (Stands.div hp hy hq.ne') ?_
    rw [← rounded_signFactor_mul, ← mul_div_assoc]
    exact rounded_nonneg (div_nonneg hp0 hq.le)
  | inr hp =>
    obtain ⟨t, m, e, hm, ht, rfl⟩ := Stands.exists_finite hy hq.ne'
    rw [hquotient, hp, ht]
    cases t with
    | positive => cases s <;> exact onSide_infinity _
    | negative =>
      have hmag := magnitude_pos hm e
      rw [signFactor_negative] at hq
      linarith

theorem onSide_positive_iff (hx : x.isNaN = false) : OnSide .positive x ↔ ¬x < 0 := by
  rw [OnSide, lt_iff_value, is_zero.value_eq, signFactor_positive, one_mul]
  simp only [hx, is_zero.isNaN, true_and, not_lt]

theorem onSide_negative_iff (hx : x.isNaN = false) : OnSide .negative x ↔ ¬0 < x := by
  rw [OnSide, lt_iff_value, is_zero.value_eq, signFactor_negative, neg_one_mul, neg_nonneg]
  simp only [hx, is_zero.isNaN, true_and, not_lt]

end Side

end FuzzyMotion.Binary32
