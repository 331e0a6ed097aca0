import Mathlib.Data.Int.Log
import Mathlib.Data.Rat.Floor
import Mathlib.Tactic.FieldSimp
import Mathlib.Tactic.Linarith
import Mathlib.Tactic.NormNum
import Mathlib.Tactic.Positivity
import Mathlib.Tactic.Ring

/-!
Rounding of rational numbers to the grid of binary32, without a bound on the exponent above. Between
two powers of two the grid is uniform; below the least normal number it is uniform down to zero.
-/
namespace FuzzyMotion.Binary32

/-- The nearest whole number; halfway, the even one. -/
def nearestEven (x : ℚ) : ℤ :=
  if Int.fract x < 1 / 2 then ⌊x⌋
  else if 1 / 2 < Int.fract x then ⌊x⌋ + 1
  else ⌊x⌋ + ⌊x⌋ % 2

/-- The exponent of the grid around a number. -/
def scale (q : ℚ) : ℤ :=
  Max.max (Int.log 2 |q| - 23) (-149)

def rounded (q : ℚ) : ℚ :=
  nearestEven (q / 2 ^ scale q) * 2 ^ scale q

/-- A significand of 24 bits, and an exponent that is not below the least one. -/
def Representable (q : ℚ) : Prop :=
  ∃ n k : ℤ, |n| < 2 ^ 24 ∧ -149 ≤ k ∧ q = n * 2 ^ k

/-- A multiple of the least positive number. -/
def OnGrid (q : ℚ) : Prop :=
  ∃ n : ℤ, q = n * 2 ^ (-149 : ℤ)

section NearestEven

theorem floor_le_nearestEven (x : ℚ) : ⌊x⌋ ≤ nearestEven x := by
  rw [nearestEven]
  split
  · exact le_refl _
  · split <;> omega

theorem nearestEven_le_floor_add_one (x : ℚ) : nearestEven x ≤ ⌊x⌋ + 1 := by
  rw [nearestEven]
  split
  · omega
  · split <;> omega

@[simp] theorem nearestEven_intCast (n : ℤ) : nearestEven n = n := by
  simp [nearestEven]

theorem nearestEven_mono {x y : ℚ} (h : x ≤ y) : nearestEven x ≤ nearestEven y := by
  cases (Int.floor_le_floor h).lt_or_eq with
  | inl hlt =>
    calc
      nearestEven x ≤ ⌊x⌋ + 1 := nearestEven_le_floor_add_one x
      _ ≤ ⌊y⌋ := hlt
      _ ≤ nearestEven y := floor_le_nearestEven y
  | inr heq =>
    have hfract : Int.fract x ≤ Int.fract y := by
      unfold Int.fract
      rw [heq]
      linarith
    unfold nearestEven
    rw [heq]
    split_ifs <;> first | omega | exact absurd hfract (by linarith)

theorem nearestEven_neg (x : ℚ) : nearestEven (-x) = -nearestEven x := by
  by_cases hx : Int.fract x = 0
  · obtain ⟨n, rfl⟩ : ∃ n : ℤ, x = n := ⟨⌊x⌋, by
      have := Int.floor_add_fract x
      rw [hx, add_zero] at this
      exact this.symm⟩
    have : (-(n : ℚ)) = ((-n : ℤ) : ℚ) := by push_cast; rfl
    rw [this, nearestEven_intCast, nearestEven_intCast]
  · have hfract : Int.fract (-x) = 1 - Int.fract x := Int.fract_neg hx
    have hfloor : ⌊-x⌋ = -⌊x⌋ - 1 := by
      have h₁ := Int.floor_add_fract x
      have h₂ := Int.floor_add_fract (-x)
      have : ((⌊-x⌋ : ℤ) : ℚ) = ((-⌊x⌋ - 1 : ℤ) : ℚ) := by
        push_cast
        linarith
      exact_mod_cast this
    unfold nearestEven
    rw [hfract, hfloor]
    split_ifs <;> first | omega | (exfalso; linarith)

theorem abs_nearestEven_sub_le (x : ℚ) : |nearestEven x - x| ≤ 1 / 2 := by
  have hx := Int.floor_add_fract x
  have h₀ := Int.fract_nonneg x
  have h₁ := Int.fract_lt_one x
  rw [nearestEven]
  rw [abs_le]
  split_ifs with hlt hgt
  · constructor <;> linarith
  · push_cast
    constructor <;> linarith
  · have hhalf : Int.fract x = 1 / 2 := le_antisymm (not_lt.1 hgt) (not_lt.1 hlt)
    cases Int.emod_two_eq_zero_or_one ⌊x⌋ with
    | inl he =>
      rw [he]
      push_cast
      constructor <;> linarith
    | inr he =>
      rw [he]
      push_cast
      constructor <;> linarith

end NearestEven

section Scale

theorem two_zpow_pos (k : ℤ) : (0 : ℚ) < 2 ^ k := zpow_pos (by norm_num) k

theorem two_zpow_add (k l : ℤ) : (2 : ℚ) ^ (k + l) = 2 ^ k * 2 ^ l := zpow_add₀ (by norm_num) k l

theorem two_zpow_le_two_zpow {k l : ℤ} (h : k ≤ l) : (2 : ℚ) ^ k ≤ 2 ^ l :=
  zpow_le_zpow_right₀ (by norm_num) h

theorem mul_two_zpow_lt {m : ℕ} (e : ℤ) (hm : m < 2 ^ 24) : (m : ℚ) * 2 ^ e < 2 ^ (e + 24) := by
  rw [add_comm, two_zpow_add]
  refine mul_lt_mul_of_pos_right ?_ (two_zpow_pos e)
  exact_mod_cast hm

theorem two_zpow_div {k l : ℤ} (h : l ≤ k) : (2 : ℚ) ^ k / 2 ^ l = ((2 ^ (k - l).toNat : ℤ) : ℚ) := by
  push_cast
  rw [← zpow_natCast, Int.toNat_of_nonneg (by omega), zpow_sub₀ (by norm_num)]

@[simp] theorem scale_neg (q : ℚ) : scale (-q) = scale q := by
  simp [scale]

theorem neg_149_le_scale (q : ℚ) : -149 ≤ scale q := le_max_right _ _

theorem abs_lt_two_zpow_scale (q : ℚ) : |q| < 2 ^ (scale q + 24) := by
  have h := Int.lt_zpow_succ_log_self (b := 2) (by norm_num) |q|
  calc
    |q| < 2 ^ (Int.log 2 |q| + 1) := by simpa using h
    _ ≤ 2 ^ (scale q + 24) := by
      apply two_zpow_le_two_zpow
      rw [scale]
      omega

/-- Above the least exponent a number has its first bit in the place 23. -/
theorem two_zpow_scale_le_abs {q : ℚ} (hq : q ≠ 0) (hs : -149 < scale q) :
    2 ^ (scale q + 23) ≤ |q| := by
  have hlog : scale q + 23 = Int.log 2 |q| := by
    unfold scale at hs ⊢
    omega
  have h := Int.zpow_log_le_self (b := 2) (r := |q|) (by norm_num) (abs_pos.2 hq)
  rw [hlog]
  simpa using h

theorem scale_le {q : ℚ} {k : ℤ} (hq : q ≠ 0) (hk : -149 ≤ k) (h : |q| < 2 ^ (k + 24)) :
    scale q ≤ k := by
  have hlog : Int.log 2 |q| < k + 24 :=
    (Int.lt_zpow_iff_log_lt (b := 2) (by norm_num) (abs_pos.2 hq)).1 (by simpa using h)
  rw [scale]
  omega

theorem scale_mono {p q : ℚ} (hp : 0 < p) (h : p ≤ q) : scale p ≤ scale q := by
  apply scale_le hp.ne' (neg_149_le_scale q)
  calc
    |p| ≤ |q| := by rwa [abs_of_pos hp, abs_of_pos (hp.trans_le h)]
    _ < 2 ^ (scale q + 24) := abs_lt_two_zpow_scale q

/-- Where a number has its first bit in the place 23, or lies below the least normal number. -/
theorem scale_eq {q : ℚ} {k : ℤ} (hq : q ≠ 0) (hk : -149 ≤ k) (hlt : |q| < 2 ^ (k + 24))
    (hle : k = -149 ∨ 2 ^ (k + 23) ≤ |q|) : scale q = k := by
  apply le_antisymm (scale_le hq hk hlt)
  rcases hle with rfl | hle
  · exact neg_149_le_scale q
  · have hlog : k + 23 ≤ Int.log 2 |q| :=
      (Int.zpow_le_iff_le_log (b := 2) (by norm_num) (abs_pos.2 hq)).1 (by simpa using hle)
    rw [scale]
    omega

end Scale

section Round

@[simp] theorem rounded_zero : rounded 0 = 0 := by
  have h : nearestEven 0 = 0 := nearestEven_intCast 0
  simp [rounded, h]

theorem rounded_neg (q : ℚ) : rounded (-q) = -rounded q := by
  unfold rounded
  rw [scale_neg, neg_div, nearestEven_neg]
  push_cast
  ring

/-- Rounding is exact on the points of the grid. -/
theorem rounded_eq_self_of_div {q : ℚ} {n : ℤ} (h : q / 2 ^ scale q = n) : rounded q = q := by
  rw [rounded]
  rw [h, nearestEven_intCast, ← h]
  exact div_mul_cancel₀ q (two_zpow_pos _).ne'

theorem rounded_of_representable {q : ℚ} (h : Representable q) : rounded q = q := by
  obtain ⟨n, k, hn, hk, rfl⟩ := h
  cases eq_or_ne ((n : ℚ) * 2 ^ k) 0 with
  | inl h0 =>
    rw [h0, rounded_zero]
  | inr h0 =>
    have habs : |(n : ℚ) * 2 ^ k| < 2 ^ (k + 24) := by
      rw [abs_mul, abs_of_pos (two_zpow_pos k), add_comm, two_zpow_add]
      refine mul_lt_mul_of_pos_right ?_ (two_zpow_pos k)
      exact_mod_cast hn
    have hs : scale (n * 2 ^ k) ≤ k := scale_le h0 hk habs
    apply rounded_eq_self_of_div (n := n * 2 ^ (k - scale (n * 2 ^ k)).toNat)
    rw [mul_div_assoc, two_zpow_div hs]
    push_cast
    rfl

/-- Between zero and a power of two, rounding stays there. -/
theorem nearestEven_div_le {q : ℚ} {s j : ℤ} (hj : s ≤ j) (h : q ≤ 2 ^ j) :
    nearestEven (q / 2 ^ s) * 2 ^ s ≤ (2 : ℚ) ^ j := by
  have hpow := two_zpow_div hj
  have hle : nearestEven (q / 2 ^ s) ≤ 2 ^ (j - s).toNat := by
    rw [← nearestEven_intCast (2 ^ (j - s).toNat), ← hpow]
    exact nearestEven_mono (div_le_div_of_nonneg_right h (two_zpow_pos s).le)
  have hcast : ((nearestEven (q / 2 ^ s) : ℤ) : ℚ) ≤ 2 ^ j / 2 ^ s := by
    rw [hpow]
    exact_mod_cast hle
  exact (le_div_iff₀ (two_zpow_pos s)).1 hcast

theorem le_nearestEven_div {q : ℚ} {s j : ℤ} (hj : s ≤ j) (h : 2 ^ j ≤ q) :
    (2 : ℚ) ^ j ≤ nearestEven (q / 2 ^ s) * 2 ^ s := by
  have hpow := two_zpow_div hj
  have hle : 2 ^ (j - s).toNat ≤ nearestEven (q / 2 ^ s) := by
    rw [← nearestEven_intCast (2 ^ (j - s).toNat), ← hpow]
    exact nearestEven_mono (div_le_div_of_nonneg_right h (two_zpow_pos s).le)
  have hcast : (2 : ℚ) ^ j / 2 ^ s ≤ ((nearestEven (q / 2 ^ s) : ℤ) : ℚ) := by
    rw [hpow]
    exact_mod_cast hle
  exact (div_le_iff₀ (two_zpow_pos s)).1 hcast

/-- The rounded significand has at most 24 bits, or is the next power of two; and it has all of them
unless the exponent is the least one. -/
theorem nearestEven_div_scale {q : ℚ} (hq : 0 < q) :
    nearestEven (q / 2 ^ scale q) ≤ 2 ^ 24 ∧
      (scale q = -149 ∨ 2 ^ 23 ≤ nearestEven (q / 2 ^ scale q)) := by
  have hpos := two_zpow_pos (scale q)
  constructor
  · have hlt := abs_lt_two_zpow_scale q
    rw [abs_of_pos hq, add_comm, two_zpow_add] at hlt
    have hdiv : q / 2 ^ scale q ≤ ((2 ^ 24 : ℤ) : ℚ) := by
      rw [div_le_iff₀ hpos]
      exact_mod_cast hlt.le
    exact (nearestEven_mono hdiv).trans_eq (nearestEven_intCast _)
  · cases (neg_149_le_scale q).lt_or_eq with
    | inl hs =>
      right
      have hle := two_zpow_scale_le_abs hq.ne' hs
      rw [abs_of_pos hq, add_comm, two_zpow_add] at hle
      have hdiv : ((2 ^ 23 : ℤ) : ℚ) ≤ q / 2 ^ scale q := by
        rw [le_div_iff₀ hpos]
        exact_mod_cast hle
      exact (nearestEven_intCast _).symm.trans_le (nearestEven_mono hdiv)
    | inr hs =>
      exact Or.inl hs.symm

theorem rounded_nonneg {q : ℚ} (h : 0 ≤ q) : 0 ≤ rounded q := by
  have hdiv : (0 : ℚ) ≤ q / 2 ^ scale q := div_nonneg h (two_zpow_pos _).le
  have hn : 0 ≤ nearestEven (q / 2 ^ scale q) := by
    have := nearestEven_mono hdiv
    rwa [show nearestEven 0 = 0 from nearestEven_intCast 0] at this
  exact mul_nonneg (by exact_mod_cast hn) (two_zpow_pos _).le

theorem rounded_mono_of_pos {p q : ℚ} (hp : 0 < p) (h : p ≤ q) : rounded p ≤ rounded q := by
  cases (scale_mono hp h).lt_or_eq with
  | inl hlt =>
    -- A power of two lies between the two grids.
    have hq : 0 < q := hp.trans_le h
    have hup : p ≤ 2 ^ (scale p + 24) := by
      have := abs_lt_two_zpow_scale p
      rw [abs_of_pos hp] at this
      exact this.le
    have hdown : 2 ^ (scale q + 23) ≤ q := by
      have := two_zpow_scale_le_abs hq.ne' ((neg_149_le_scale p).trans_lt hlt)
      rwa [abs_of_pos hq] at this
    calc
      rounded p ≤ 2 ^ (scale p + 24) := nearestEven_div_le (by omega) hup
      _ ≤ 2 ^ (scale q + 23) := two_zpow_le_two_zpow (by omega)
      _ ≤ rounded q := le_nearestEven_div (by omega) hdown
  | inr heq =>
    rw [rounded]
    rw [heq]
    have := nearestEven_mono (div_le_div_of_nonneg_right h (two_zpow_pos (scale q)).le)
    exact mul_le_mul_of_nonneg_right (by exact_mod_cast this) (two_zpow_pos _).le

theorem rounded_mono {p q : ℚ} (h : p ≤ q) : rounded p ≤ rounded q := by
  cases lt_or_ge 0 p with
  | inl hp =>
    exact rounded_mono_of_pos hp h
  | inr hp =>
    cases lt_or_ge q 0 with
    | inl hq =>
      have := rounded_mono_of_pos (neg_pos.2 hq) (neg_le_neg h)
      rw [rounded_neg, rounded_neg] at this
      linarith
    | inr hq =>
      have hnp := rounded_nonneg (neg_nonneg.2 hp)
      rw [rounded_neg] at hnp
      have hnq := rounded_nonneg hq
      linarith

theorem rounded_le {q r : ℚ} (hr : Representable r) (h : q ≤ r) : rounded q ≤ r := by
  rw [← rounded_of_representable hr]
  exact rounded_mono h

theorem le_rounded {q r : ℚ} (hr : Representable r) (h : r ≤ q) : r ≤ rounded q := by
  rw [← rounded_of_representable hr]
  exact rounded_mono h

theorem abs_rounded_le {q r : ℚ} (hr : Representable r) (h : |q| ≤ r) : |rounded q| ≤ r := by
  obtain ⟨hlow, hhigh⟩ := abs_le.1 h
  refine abs_le.2 ⟨?_, rounded_le hr hhigh⟩
  have := rounded_le hr (neg_le.1 hlow)
  rw [rounded_neg] at this
  linarith

theorem Representable.neg {q : ℚ} (h : Representable q) : Representable (-q) := by
  obtain ⟨n, k, hn, hk, rfl⟩ := h
  exact ⟨-n, k, by rwa [abs_neg], hk, by push_cast; ring⟩

theorem representable_intCast {n : ℤ} (hn : |n| < 2 ^ 24) : Representable n :=
  ⟨n, 0, hn, by norm_num, by simp⟩

theorem representable_two_zpow {k : ℤ} (hk : -149 ≤ k) : Representable (2 ^ k) :=
  ⟨1, k, by norm_num, hk, by simp⟩

end Round

section Grid

theorem OnGrid.zero : OnGrid 0 := ⟨0, by simp⟩

theorem OnGrid.neg {q : ℚ} (h : OnGrid q) : OnGrid (-q) := by
  obtain ⟨n, rfl⟩ := h
  exact ⟨-n, by push_cast; ring⟩

theorem OnGrid.add {p q : ℚ} (hp : OnGrid p) (hq : OnGrid q) : OnGrid (p + q) := by
  obtain ⟨n, rfl⟩ := hp
  obtain ⟨m, rfl⟩ := hq
  exact ⟨n + m, by push_cast; ring⟩

theorem OnGrid.intCast_mul {q : ℚ} (n : ℤ) (h : OnGrid q) : OnGrid (n * q) := by
  obtain ⟨m, rfl⟩ := h
  exact ⟨n * m, by push_cast; ring⟩

theorem onGrid_mul_two_zpow (n : ℤ) {k : ℤ} (hk : -149 ≤ k) : OnGrid (n * 2 ^ k) := by
  refine ⟨n * 2 ^ (k - -149).toNat, ?_⟩
  have := two_zpow_div hk
  rw [div_eq_iff (two_zpow_pos _).ne'] at this
  rw [this]
  push_cast
  ring

theorem Representable.onGrid {q : ℚ} (h : Representable q) : OnGrid q := by
  obtain ⟨n, k, -, hk, rfl⟩ := h
  exact onGrid_mul_two_zpow n hk

theorem onGrid_rounded (q : ℚ) : OnGrid (rounded q) :=
  onGrid_mul_two_zpow _ (neg_149_le_scale q)

/-- Two different points of the grid are at least one step apart. -/
theorem OnGrid.step_le {q : ℚ} (h : OnGrid q) (hq : 0 < q) : 2 ^ (-149 : ℤ) ≤ q := by
  obtain ⟨n, rfl⟩ := h
  have hn : (0 : ℚ) < n := (mul_pos_iff_of_pos_right (two_zpow_pos _)).1 hq
  have : (1 : ℚ) ≤ n := by exact_mod_cast (show (0 : ℤ) < n by exact_mod_cast hn)
  exact le_mul_of_one_le_left (two_zpow_pos _).le this

/-- A number of a certain size is a multiple of the step of the grid there. -/
theorem Representable.exists_mul {q : ℚ} {k : ℤ} (h : Representable q) (hk : 2 ^ (k + 23) ≤ |q|) :
    ∃ n : ℤ, q = n * 2 ^ k := by
  obtain ⟨m, e, hm, -, rfl⟩ := h
  have hlt : |(m : ℚ) * 2 ^ e| < 2 ^ (e + 24) := by
    rw [abs_mul, abs_of_pos (two_zpow_pos e), add_comm, two_zpow_add]
    refine mul_lt_mul_of_pos_right ?_ (two_zpow_pos e)
    exact_mod_cast hm
  have he : k ≤ e := by
    by_contra hcon
    exact absurd (hlt.trans_le (two_zpow_le_two_zpow (show e + 24 ≤ k + 23 by omega))) (not_lt.2 hk)
  refine ⟨m * 2 ^ (e - k).toNat, ?_⟩
  have := two_zpow_div he
  rw [div_eq_iff (two_zpow_pos _).ne'] at this
  rw [this]
  push_cast
  ring

/-- The numbers near a number of a certain size keep their distance from it. -/
theorem two_zpow_le_sub {p q : ℚ} {k : ℤ} (hp : Representable p) (hq : Representable q)
    (hlt : p < q) (h : 2 ^ (k + 24) ≤ |p| ∨ 2 ^ (k + 24) ≤ |q|) : 2 ^ k ≤ q - p := by
  have hhalf : (2 : ℚ) ^ (k + 24) = 2 ^ (k + 23) * 2 := by
    rw [← zpow_add_one₀ (by norm_num), add_assoc]
    norm_num
  have hstep : (2 : ℚ) ^ k ≤ 2 ^ (k + 23) := two_zpow_le_two_zpow (by omega)
  have hdist : |p| - |q| ≤ q - p ∧ |q| - |p| ≤ q - p := by
    have h₁ := abs_sub_abs_le_abs_sub p q
    have h₂ := abs_sub_abs_le_abs_sub q p
    rw [abs_sub_comm, abs_of_pos (sub_pos.2 hlt)] at h₁
    rw [abs_of_pos (sub_pos.2 hlt)] at h₂
    exact ⟨h₁, h₂⟩
  cases lt_or_ge |p| (2 ^ (k + 23)) with
  | inl hp' =>
    have : 2 ^ (k + 24) ≤ |q| := h.resolve_left (by linarith [two_zpow_pos (k + 23)])
    linarith [hdist.2]
  | inr hp' =>
    cases lt_or_ge |q| (2 ^ (k + 23)) with
    | inl hq' =>
      have : 2 ^ (k + 24) ≤ |p| := h.resolve_right (by linarith [two_zpow_pos (k + 23)])
      linarith [hdist.1]
    | inr hq' =>
      obtain ⟨m, rfl⟩ := hp.exists_mul hp'
      obtain ⟨n, rfl⟩ := hq.exists_mul hq'
      have hpos := two_zpow_pos k
      have hmn : m < n := by
        have := lt_of_mul_lt_mul_right hlt hpos.le
        exact_mod_cast this
      rw [← sub_mul]
      apply le_mul_of_one_le_left hpos.le
      exact_mod_cast (show (1 : ℤ) ≤ n - m by omega)

/-- Rounding is off by at most half a step of the grid around the number. -/
theorem abs_rounded_sub_le (q : ℚ) : |rounded q - q| ≤ 2 ^ (scale q - 1) := by
  have hpos := two_zpow_pos (scale q)
  have hq : rounded q - q = (nearestEven (q / 2 ^ scale q) - q / 2 ^ scale q) * 2 ^ scale q := by
    rw [sub_mul, div_mul_cancel₀ q hpos.ne']
    rfl
  rw [hq, abs_mul, abs_of_pos hpos, zpow_sub_one₀ (by norm_num), mul_comm]
  refine mul_le_mul_of_nonneg_left ?_ hpos.le
  have := abs_nearestEven_sub_le (q / 2 ^ scale q)
  norm_num at this ⊢
  exact this

/-- Less than half a step from a point of the grid, a number is rounded to this point. -/
theorem rounded_eq_of_abs_sub_lt {q : ℚ} {n : ℤ} (h : |q - n * 2 ^ scale q| < 2 ^ (scale q - 1)) :
    rounded q = n * 2 ^ scale q := by
  have hpos := two_zpow_pos (scale q)
  obtain ⟨m, hm⟩ : ∃ m : ℤ, rounded q = m * 2 ^ scale q := ⟨_, rfl⟩
  have hnear := abs_rounded_sub_le q
  rw [zpow_sub_one₀ (by norm_num)] at h hnear
  rw [abs_lt] at h
  rw [abs_le] at hnear
  -- Both are whole multiples of the step, and less than one step apart.
  have hlow : ((n - 1 : ℤ) : ℚ) * 2 ^ scale q < m * 2 ^ scale q := by
    push_cast
    linarith
  have hhigh : (m : ℚ) * 2 ^ scale q < ((n + 1 : ℤ) : ℚ) * 2 ^ scale q := by
    push_cast
    linarith
  have hmn : m = n := by
    have h1 := Int.cast_lt.1 (lt_of_mul_lt_mul_right hlow hpos.le)
    have h2 := Int.cast_lt.1 (lt_of_mul_lt_mul_right hhigh hpos.le)
    omega
  rw [hm, hmn]

/-- Beside the bound of the format, one is less than half a step. -/
theorem rounded_top_add {d : ℚ} (h : |d| ≤ 1) : rounded (2 ^ (128 : ℤ) + d) = 2 ^ (128 : ℤ) := by
  obtain ⟨hd1, hd2⟩ := abs_le.1 h
  obtain ⟨q, hq⟩ : ∃ q, q = (2 : ℚ) ^ (128 : ℤ) + d := ⟨_, rfl⟩
  have hpos : 0 < q := by
    norm_num at hq
    linarith
  have hlow : 104 ≤ scale q := by
    have hlt := abs_lt_two_zpow_scale q
    rw [abs_of_pos hpos] at hlt
    have htop : (2 : ℚ) ^ (127 : ℤ) < 2 ^ (scale q + 24) := by
      refine lt_of_le_of_lt ?_ hlt
      rw [hq]
      norm_num
      linarith
    have := (zpow_lt_zpow_iff_right₀ (by norm_num)).1 htop
    omega
  have hhigh : scale q ≤ 105 := by
    refine scale_le hpos.ne' (by norm_num) ?_
    rw [abs_of_pos hpos, hq]
    norm_num
    linarith
  have hpoint := two_zpow_div (show scale q ≤ 128 by omega)
  rw [div_eq_iff (two_zpow_pos _).ne'] at hpoint
  rw [← hq, hpoint]
  apply rounded_eq_of_abs_sub_lt
  rw [← hpoint, hq, add_sub_cancel_left, ← hq]
  calc |d| ≤ 1 := h
    _ < 2 ^ (103 : ℤ) := by norm_num
    _ ≤ 2 ^ (scale q - 1) := two_zpow_le_two_zpow (by omega)

/-- Above the last number before a power of two, less than half a step does not reach the power. -/
theorem rounded_top_add_lt {q : ℚ} (h0 : 0 ≤ q) (hq : q < 2 ^ (103 : ℤ)) :
    rounded (2 ^ (128 : ℤ) - 2 ^ (104 : ℤ) + q) < 2 ^ (128 : ℤ) := by
  have htop : (2 : ℚ) ^ (128 : ℤ) - 2 ^ (104 : ℤ) + q < 2 ^ (104 + 24 : ℤ) := by
    norm_num at hq ⊢
    linarith
  have hpos : 0 < (2 : ℚ) ^ (128 : ℤ) - 2 ^ (104 : ℤ) + q := by
    norm_num
    linarith
  have hscale : scale (2 ^ (128 : ℤ) - 2 ^ (104 : ℤ) + q) ≤ 104 :=
    scale_le hpos.ne' (by norm_num) (by rwa [abs_of_pos hpos])
  have herr : rounded (2 ^ (128 : ℤ) - 2 ^ (104 : ℤ) + q) - (2 ^ (128 : ℤ) - 2 ^ (104 : ℤ) + q) ≤
      2 ^ (103 : ℤ) :=
    (le_abs_self _).trans ((abs_rounded_sub_le _).trans (two_zpow_le_two_zpow (by omega)))
  norm_num at herr hq ⊢
  linarith

/-- Above the least normal number the error is relative. -/
theorem abs_rounded_sub_le_of_scale {q : ℚ} (hq : q ≠ 0) (hs : -149 < scale q) :
    |rounded q - q| ≤ |q| / 2 ^ 24 := by
  have hbit := two_zpow_scale_le_abs hq hs
  calc
    |rounded q - q| ≤ 2 ^ (scale q - 1) := abs_rounded_sub_le q
    _ = 2 ^ (scale q + 23) / 2 ^ 24 := by
      rw [show scale q - 1 = (scale q + 23) - 24 by ring, zpow_sub₀ (by norm_num)]
      norm_num
    _ ≤ |q| / 2 ^ 24 := by gcongr

theorem OnGrid.rounded_of_scale {q : ℚ} (h : OnGrid q) (hs : scale q = -149) : rounded q = q := by
  obtain ⟨n, hn⟩ := h
  apply rounded_eq_self_of_div (n := n)
  rw [hs, hn, mul_div_assoc, div_self (two_zpow_pos _).ne', mul_one]

/-- On the finest grid the error is relative everywhere. -/
theorem OnGrid.abs_rounded_sub_le {q : ℚ} (h : OnGrid q) : |rounded q - q| ≤ |q| / 2 ^ 24 := by
  rcases eq_or_ne q 0 with rfl | hq
  · simp
  · cases (neg_149_le_scale q).lt_or_eq with
    | inl hs =>
      exact abs_rounded_sub_le_of_scale hq hs
    | inr hs =>
      rw [h.rounded_of_scale hs.symm, sub_self, abs_zero]
      positivity

/-- On the grid, rounding takes little from a number, and adds little to it. -/
theorem OnGrid.mul_le_rounded {q : ℚ} (h : OnGrid q) (hq : 0 ≤ q) :
    q * (1 - 1 / 2 ^ 24) ≤ rounded q := by
  have herr := (abs_le.1 h.abs_rounded_sub_le).1
  rw [abs_of_nonneg hq] at herr
  linarith

theorem OnGrid.abs_rounded_le_mul {q : ℚ} (h : OnGrid q) :
    |rounded q| ≤ |q| * (1 + 1 / 2 ^ 24) := by
  have herr := h.abs_rounded_sub_le
  have htri := abs_sub_abs_le_abs_sub (rounded q) q
  linarith

theorem abs_rounded_sub_le_add (q : ℚ) : |rounded q - q| ≤ |q| / 2 ^ 24 + 2 ^ (-150 : ℤ) := by
  have hpos : (0 : ℚ) ≤ 2 ^ (-150 : ℤ) := (two_zpow_pos _).le
  have hrel : (0 : ℚ) ≤ |q| / 2 ^ 24 := by positivity
  rcases eq_or_ne q 0 with rfl | hq
  · simp
  · cases (neg_149_le_scale q).lt_or_eq with
    | inl hs =>
      exact le_add_of_le_of_nonneg (abs_rounded_sub_le_of_scale hq hs) hpos
    | inr hs =>
      have := Binary32.abs_rounded_sub_le q
      rw [← hs, show (-149 - 1 : ℤ) = -150 by norm_num] at this
      exact le_add_of_nonneg_of_le hrel this

end Grid

section Half

/-- Halving commutes with rounding as long as the half is a normal number. -/
theorem rounded_half {q : ℚ} (h : 2 ^ (-125 : ℤ) ≤ |q|) : rounded (q / 2) = rounded q / 2 := by
  have hq : q ≠ 0 := by
    intro h0
    rw [h0, abs_zero] at h
    exact absurd h (not_le.2 (two_zpow_pos _))
  have hs : -149 < scale q := by
    by_contra hcon
    have hle : scale q + 24 ≤ -125 := by omega
    exact absurd ((abs_lt_two_zpow_scale q).trans_le (two_zpow_le_two_zpow hle)) (not_lt.2 h)
  have hhalf : ∀ k : ℤ, (2 : ℚ) ^ k = 2 ^ (k - 1) * 2 := by
    intro k
    rw [zpow_sub_one₀ (by norm_num), mul_assoc, inv_mul_cancel₀ (by norm_num), mul_one]
  have habs : |q / 2| = |q| / 2 := by
    rw [abs_div, abs_of_pos (show (0 : ℚ) < 2 by norm_num)]
  have hscale : scale (q / 2) = scale q - 1 := by
    have hlt := abs_lt_two_zpow_scale q
    have hle := two_zpow_scale_le_abs hq hs
    rw [hhalf] at hlt hle
    refine scale_eq (by simpa using hq) (by omega) ?_ (Or.inr ?_)
    · rw [habs, show scale q - 1 + 24 = scale q + 24 - 1 by ring]
      linarith
    · rw [habs, show scale q - 1 + 23 = scale q + 23 - 1 by ring]
      linarith
  unfold rounded
  have hdiv : q / 2 / 2 ^ (scale q - 1) = q / 2 ^ scale q := by
    rw [hhalf (scale q), div_div, mul_comm]
  rw [hscale, hdiv, hhalf (scale q)]
  ring

theorem OnGrid.rounded_eq_self {q : ℚ} (h : OnGrid q) (hq : |q| < 2 ^ (-125 : ℤ)) : rounded q = q := by
  rcases eq_or_ne q 0 with rfl | h0
  · exact rounded_zero
  · refine h.rounded_of_scale (le_antisymm ?_ (neg_149_le_scale q))
    exact scale_le h0 (le_refl _) (by simpa using hq)

/-- On the finest grid, what is at most a half stays at most a half. -/
theorem OnGrid.rounded_le_half {p q : ℚ} (hp : OnGrid p) (hq : OnGrid q) (h0 : 0 ≤ p)
    (h : p ≤ q / 2) : rounded p ≤ rounded q / 2 := by
  have hq0 : 0 ≤ q := by linarith
  cases le_or_gt (2 ^ (-125 : ℤ)) |q| with
  | inl hbig =>
    rw [← rounded_half hbig]
    exact rounded_mono h
  | inr hsmall =>
    rw [hq.rounded_eq_self hsmall, hp.rounded_eq_self]
    · exact h
    · rw [abs_of_nonneg hq0] at hsmall
      rw [abs_of_nonneg h0]
      linarith

/-- On the finest grid, doubling commutes with rounding everywhere. -/
theorem OnGrid.rounded_double {q : ℚ} (h : OnGrid q) : rounded (2 * q) = 2 * rounded q := by
  have hdouble : OnGrid (2 * q) := by simpa using h.intCast_mul 2
  cases le_or_gt (2 ^ (-125 : ℤ)) |2 * q| with
  | inl hbig =>
    have hhalf := rounded_half hbig
    rw [mul_div_cancel_left₀ q two_ne_zero] at hhalf
    linarith
  | inr hsmall =>
    have hq : |q| < 2 ^ (-125 : ℤ) := by
      rw [abs_mul, abs_of_pos (show (0 : ℚ) < 2 by norm_num)] at hsmall
      linarith [abs_nonneg q]
    rw [hdouble.rounded_eq_self hsmall, h.rounded_eq_self hq]

theorem OnGrid.two_pow_mul {q : ℚ} (h : OnGrid q) (k : ℕ) : OnGrid (2 ^ k * q) := by
  simpa using h.intCast_mul (2 ^ k)

theorem OnGrid.rounded_two_pow_mul {q : ℚ} (h : OnGrid q) (k : ℕ) :
    rounded (2 ^ k * q) = 2 ^ k * rounded q := by
  induction k with
  | zero => simp
  | succ k ih => rw [pow_succ', mul_assoc, (h.two_pow_mul k).rounded_double, ih, mul_assoc]

end Half

end FuzzyMotion.Binary32
