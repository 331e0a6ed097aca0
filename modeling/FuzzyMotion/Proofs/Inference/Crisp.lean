import FuzzyMotion.Inference
import FuzzyMotion.Proofs.Binary32.Degree
import FuzzyMotion.Proofs.Binary32.Unsigned

/-!
Weighted means of label values. All sums are rounded after every addition, so the mean can leave the
interval of the label values; it leaves it by no more than the rounding errors add up to.
-/
namespace FuzzyMotion.FuzzySet

open Binary32

theorem isZero_iff {x : Float32} {q : ℚ} (hx : Is x q) : isZero x = true ↔ q = 0 := by
  have hdef : isZero x = true ↔ x == 0 := Iff.rfl
  rw [hdef, beq_iff_value, hx.value_eq, is_zero.value_eq]
  exact ⟨fun h => h.2.2, fun h => ⟨hx.isNaN, is_zero.isNaN, h⟩⟩

theorem representable_natCast {n : ℕ} (hn : n < 2 ^ 24) : Representable n := by
  have := representable_intCast (n := n) (by rw [Nat.abs_cast]; exact_mod_cast hn)
  exact_mod_cast this

theorem lt_two_zpow_128_of_le {q r : ℚ} (hq : |q| ≤ r) (hr : r ≤ 1000) : |q| < 2 ^ (128 : ℤ) :=
  lt_two_zpow_128 (hq.trans (hr.trans (by norm_num)))

theorem abs_lt_two_zpow_128 {q : ℚ} (h0 : 0 ≤ q) (h : q ≤ 1000) : |q| < 2 ^ (128 : ℤ) := by
  rw [abs_of_nonneg h0]
  exact lt_two_zpow_128 (h.trans (by norm_num))

/-- What one more label preserves of the two running sums, the sums of at most eight labels have. -/
theorem sums_induction {P : ℕ → Float32 → Float32 → Prop} {Q : Float32 → Float32 → Prop}
    (step : ∀ {k total weighted m v}, P k total weighted → k < 8 → Q m v →
      P (k + 1) (total + m) (weighted + m * v))
    {set values : List Float32} {k : ℕ} {total weighted : Float32} (h : P k total weighted)
    (hk : k + set.length ≤ 8) (hlabels : List.Forall₂ Q set values) :
    P (k + set.length) (set.foldl (· + ·) total)
      ((List.zipWith (· * ·) set values).foldl (· + ·) weighted) := by
  induction hlabels generalizing k total weighted with
  | nil => exact h
  | @cons m v set values hlabel _ ih =>
    rw [List.length_cons] at hk ⊢
    rw [← Nat.add_assoc, Nat.add_right_comm]
    exact ih (step h (by omega) hlabel) (by omega)

/-- The two running sums after `k` labels, all of them at most 40: the second sum is at most 40 times
the first, but for the errors so far. -/
def Tracks (k : ℕ) (total weighted : Float32) : Prop :=
  ∃ t w, Is total t ∧ Is weighted w ∧ 0 ≤ t ∧ t ≤ k ∧ |w| ≤ (40 + (k + 1) / 1000) * t

theorem tracks_zero : Tracks 0 0 0 :=
  ⟨0, 0, is_zero, is_zero, le_refl 0, by simp, by simp⟩

/-- A product with a whole number stays on the grid, so its error is relative. -/
theorem abs_rounded_mul_le {m : ℚ} {n : ℤ} (hm : OnGrid m) (h0 : 0 ≤ m) (hn : |n| ≤ 40) :
    |rounded (m * n)| ≤ 40 * m * (1 + 1 / 2 ^ 24) := by
  have hgrid : OnGrid (m * n) := by
    rw [mul_comm]
    exact hm.intCast_mul n
  have hsize : |m * n| ≤ 40 * m := by
    rw [abs_mul, abs_of_nonneg h0, mul_comm]
    have : ((|n| : ℤ) : ℚ) ≤ 40 := by exact_mod_cast hn
    rw [Int.cast_abs] at this
    exact mul_le_mul_of_nonneg_right this h0
  exact hgrid.abs_rounded_le_mul.trans (mul_le_mul_of_nonneg_right hsize (by norm_num))

/-- The errors of one more label fit into the allowance for it. -/
theorem allowance_step {k : ℕ} {t q w p : ℚ} (ht : 0 ≤ t) (hq : 0 ≤ q) (hk : (k : ℚ) ≤ 7)
    (hw : |w| ≤ (40 + (k + 1) / 1000) * t) (hp : |p| ≤ 40 * q * (1 + 1 / 2 ^ 24)) :
    (|w| + |p|) * (1 + 1 / 2 ^ 24) ≤
      (40 + ((k + 1 : ℕ) + 1) / 1000) * ((t + q) * (1 - 1 / 2 ^ 24)) := by
  have hk0 : (0 : ℚ) ≤ k := by positivity
  have hq' : 40 * q * (1 + 1 / 2 ^ 24) ≤ (40 + (k + 1) / 1000) * q := by
    have hfactor : (40 : ℚ) * (1 + 1 / 2 ^ 24) ≤ 40 + (k + 1) / 1000 := by
      norm_num
      linarith
    have := mul_le_mul_of_nonneg_right hfactor hq
    linarith
  have hsum : |w| + |p| ≤ (40 + (k + 1) / 1000) * (t + q) := by linarith
  have hfactor : (40 + ((k : ℚ) + 1) / 1000) * (1 + 1 / 2 ^ 24) ≤
      (40 + ((k : ℚ) + 1 + 1) / 1000) * (1 - 1 / 2 ^ 24) := by
    norm_num
    linarith
  calc
    (|w| + |p|) * (1 + 1 / 2 ^ 24) ≤ (40 + (k + 1) / 1000) * (t + q) * (1 + 1 / 2 ^ 24) :=
      mul_le_mul_of_nonneg_right hsum (by norm_num)
    _ = (40 + (k + 1) / 1000) * (1 + 1 / 2 ^ 24) * (t + q) := by ring
    _ ≤ (40 + (k + 1 + 1) / 1000) * (1 - 1 / 2 ^ 24) * (t + q) :=
      mul_le_mul_of_nonneg_right hfactor (by linarith)
    _ = (40 + ((k + 1 : ℕ) + 1) / 1000) * ((t + q) * (1 - 1 / 2 ^ 24)) := by
      push_cast
      ring

/-- The sum of activations after one more of them: rounding takes away no more than a small part of it. -/
theorem is_total_step {k : ℕ} {total m : Float32} {t q : ℚ} (ht : Is total t) (hq : Is m q)
    (ht0 : 0 ≤ t) (htk : t ≤ k) (hq0 : 0 ≤ q) (hq1 : q ≤ 1) (hk : k < 8) :
    Is (total + m) (rounded (t + q)) ∧ 0 ≤ rounded (t + q) ∧ rounded (t + q) ≤ (k + 1 : ℕ) ∧
      (t + q) * (1 - 1 / 2 ^ 24) ≤ rounded (t + q) := by
  have hsum0 : 0 ≤ rounded (t + q) := rounded_nonneg (by linarith)
  have hsumk : rounded (t + q) ≤ (k + 1 : ℕ) := by
    apply rounded_le (representable_natCast (by omega))
    push_cast
    linarith
  have hlow : (t + q) * (1 - 1 / 2 ^ 24) ≤ rounded (t + q) :=
    (ht.onGrid.add hq.onGrid).mul_le_rounded (by linarith)
  have hk1 : ((k + 1 : ℕ) : ℚ) ≤ 8 := by exact_mod_cast hk
  exact ⟨ht.add hq (abs_lt_two_zpow_128 hsum0 (by linarith)), hsum0, hsumk, hlow⟩

/-- One more label. -/
theorem Tracks.step {k : ℕ} {total weighted m v : Float32} {n : ℤ} (h : Tracks k total weighted)
    (hk : k < 8) (hm : IsDegree m) (hv : Is v n) (hn : |n| ≤ 40) :
    Tracks (k + 1) (total + m) (weighted + m * v) := by
  obtain ⟨t, w, ht, hw, ht0, htk, hwt⟩ := h
  obtain ⟨q, hq, hq0, hq1⟩ := hm
  obtain ⟨htotal, hsum0, hsumk, hlow⟩ := is_total_step ht hq ht0 htk hq0 hq1 hk
  have hkq : (k : ℚ) ≤ 7 := by exact_mod_cast Nat.le_of_lt_succ hk
  have hpsize := abs_rounded_mul_le hq.onGrid hq0 hn
  have hprod : Is (m * v) (rounded (q * n)) :=
    hq.mul hv (lt_two_zpow_128_of_le (r := 100) (by linarith) (by norm_num))
  have hbound : |rounded (w + rounded (q * n))| ≤
      (40 + ((k + 1 : ℕ) + 1) / 1000) * rounded (t + q) := by
    calc
      |rounded (w + rounded (q * n))| ≤ |w + rounded (q * n)| * (1 + 1 / 2 ^ 24) :=
        (hw.onGrid.add hprod.onGrid).abs_rounded_le_mul
      _ ≤ (|w| + |rounded (q * n)|) * (1 + 1 / 2 ^ 24) :=
        mul_le_mul_of_nonneg_right (abs_add_le _ _) (by norm_num)
      _ ≤ (40 + ((k + 1 : ℕ) + 1) / 1000) * ((t + q) * (1 - 1 / 2 ^ 24)) :=
        allowance_step ht0 hq0 hkq hwt hpsize
      _ ≤ (40 + ((k + 1 : ℕ) + 1) / 1000) * rounded (t + q) :=
        mul_le_mul_of_nonneg_left hlow (by positivity)
  have hk1 : ((k + 1 : ℕ) : ℚ) ≤ 8 := by exact_mod_cast hk
  have hweighted : Is (weighted + m * v) (rounded (w + rounded (q * n))) := by
    refine hw.add hprod (lt_two_zpow_128_of_le (r := 41 * 8) (hbound.trans ?_) (by norm_num))
    exact mul_le_mul (by linarith) (by linarith) hsum0 (by norm_num)
  exact ⟨_, _, htotal, hweighted, hsum0, hsumk, hbound⟩

/-- Where there is a mean, the sum of the activations is not zero, and divides. -/
theorem crisp?_eq_some {set : FuzzySet} {values : List Float32} {y : Float32} {t : ℚ}
    (ht : Is set.total t) (h : crisp? set values = some y) :
    t ≠ 0 ∧ y = set.weighted values / set.total := by
  unfold crisp? at h
  split at h
  · cases h
  · rename_i hz
    exact ⟨fun h0 => hz ((isZero_iff ht).2 h0), (Option.some.inj h).symm⟩

/-- The mean of label values of at most 40, rounding errors included. -/
theorem crisp?_bound {set : FuzzySet} {values : List Float32} {y : Float32} (h : crisp? set values = some y)
    (hlen : set.length = values.length) (hle : set.length ≤ 8) (hset : ∀ m ∈ set, IsDegree m)
    (hvalues : ∀ v ∈ values, ∃ n : ℤ, Is v n ∧ |n| ≤ 40) : ∃ q, Is y q ∧ |q| ≤ 641 / 16 := by
  have hlabels : List.Forall₂ (fun m v => IsDegree m ∧ ∃ n : ℤ, Is v n ∧ |n| ≤ 40) set values :=
    List.forall₂_iff_zip.2 ⟨hlen, fun hm =>
      ⟨hset _ (List.of_mem_zip hm).1, hvalues _ (List.of_mem_zip hm).2⟩⟩
  have htracks := sums_induction (fun h hk ⟨hm, _, hv, hn⟩ => Tracks.step h hk hm hv hn) tracks_zero
    (by omega) hlabels
  obtain ⟨t, w, ht, hw, ht0, -, hwt⟩ := htracks
  have htotal : Is set.total t := ht
  have hweighted : Is (set.weighted values) w := hw
  obtain ⟨hne, rfl⟩ := crisp?_eq_some htotal h
  have htpos : 0 < t := lt_of_le_of_ne ht0 (Ne.symm hne)
  have hratio : |w / t| ≤ 641 / 16 := by
    rw [abs_div, abs_of_pos htpos, div_le_iff₀ htpos]
    refine hwt.trans (mul_le_mul_of_nonneg_right ?_ ht0)
    have : ((0 + set.length : ℕ) : ℚ) ≤ 8 := by exact_mod_cast (show 0 + set.length ≤ 8 by omega)
    linarith
  have hrep : Representable (641 / 16) := ⟨641, -4, by norm_num, by norm_num, by norm_num⟩
  have hround := abs_rounded_le hrep hratio
  exact ⟨_, hweighted.div htotal hne (lt_two_zpow_128_of_le hround (by norm_num)), hround⟩

/-- The sum of up to eight activations is zero exactly where none of them is positive, although it is
rounded after every addition. -/
theorem is_total {set : List Float32} {k : ℕ} {total : Float32} {t : ℚ} (ht : Is total t)
    (ht0 : 0 ≤ t) (htk : t ≤ k) (hk : k + set.length ≤ 8) (hset : ∀ m ∈ set, IsDegree m) :
    ∃ s, Is (set.foldl (· + ·) total) s ∧ 0 ≤ s ∧ s ≤ 8 ∧ (s = 0 ↔ t = 0 ∧ ∀ m ∈ set, ¬0 < m) := by
  induction set generalizing k total t with
  | nil =>
    have hk8 : (k : ℚ) ≤ 8 := by exact_mod_cast hk
    exact ⟨t, ht, ht0, htk.trans hk8, by simp⟩
  | cons m set ih =>
    obtain ⟨q, hq, hq0, hq1⟩ := hset m (by simp)
    rw [List.length_cons] at hk
    obtain ⟨hsum, hsum0, hsumk, hlow⟩ := is_total_step ht hq ht0 htk hq0 hq1 (by omega)
    obtain ⟨s, hs, hs0, hs8, hzero⟩ := ih hsum hsum0 hsumk (by omega) fun m hm =>
      hset m (List.mem_cons_of_mem _ hm)
    have hstep : rounded (t + q) = 0 ↔ t = 0 ∧ ¬0 < m := by
      rw [is_zero.lt_iff hq]
      constructor
      · intro h0
        constructor <;> linarith
      · rintro ⟨rfl, hq'⟩
        rw [le_antisymm (not_lt.1 hq') hq0, add_zero, rounded_zero]
    refine ⟨s, hs, hs0, hs8, ?_⟩
    rw [hzero, hstep, List.forall_mem_cons, and_assoc]

section Active

variable {set : FuzzySet} (hle : set.length ≤ 8) (hset : ∀ m ∈ set, IsDegree m)
  (values : List Float32)
include hle hset

theorem exists_total :
    ∃ s, Is set.total s ∧ 0 ≤ s ∧ s ≤ 8 ∧ (s = 0 ↔ ∀ m ∈ set, ¬0 < m) := by
  obtain ⟨s, hs, hs0, hs8, hzero⟩ :=
    is_total is_zero (le_refl 0) (by simp) (by omega : 0 + set.length ≤ 8) hset
  exact ⟨s, hs, hs0, hs8, by rw [hzero, and_iff_right rfl]⟩

/-- There is no mean exactly where no activation is positive. -/
theorem isZero_total_iff : isZero set.total = true ↔ ∀ m ∈ set, ¬0 < m := by
  obtain ⟨s, hs, -, -, hzero⟩ := exists_total hle hset
  rw [isZero_iff hs, hzero]

/-- The sum of the activations is positive where one of them is. -/
theorem total_of_positive {m : Float32} (hm : m ∈ set) (h : 0 < m) :
    ∃ s, Is set.total s ∧ 0 < s ∧ s ≤ 8 := by
  obtain ⟨s, hs, hs0, hs8, hzero⟩ := exists_total hle hset
  have hne : s ≠ 0 := fun h0 => hzero.1 h0 m hm h
  exact ⟨s, hs, lt_of_le_of_ne hs0 hne.symm, hs8⟩

theorem total_pos_of_positive {m : Float32} (hm : m ∈ set) (h : 0 < m) : 0 < set.total := by
  obtain ⟨s, hs, hpos, -⟩ := total_of_positive hle hset hm h
  exact (is_zero.lt_iff hs).2 hpos

theorem mean_of_crisp? {y : Float32} (h : crisp? set values = some y) :
    0 < set.total ∧ y = set.weighted values / set.total := by
  obtain ⟨s, hs, hs0, -⟩ := exists_total hle hset
  obtain ⟨hne, hy⟩ := crisp?_eq_some hs h
  exact ⟨(is_zero.lt_iff hs).2 (lt_of_le_of_ne hs0 hne.symm), hy⟩

theorem crisp?_of_none_positive (h : ∀ m ∈ set, ¬0 < m) : crisp? set values = none := by
  rw [crisp?, if_pos ((isZero_total_iff hle hset).2 h)]

theorem crisp?_of_positive {m : Float32} (hm : m ∈ set) (h : 0 < m) :
    crisp? set values = some (set.weighted values / set.total) := by
  rw [crisp?, if_neg fun hz => (isZero_total_iff hle hset).1 hz m hm h]

/-- Where only labels with the value zero are active, the mean is the positive zero. -/
theorem crisp?_eq_zero {y : Float32} (hproducts : ∀ x ∈ List.zipWith (· * ·) set values, Is x 0)
    (hy : crisp? set values = some y) : y = 0 := by
  obtain ⟨t, ht, ht0, -⟩ := exists_total hle hset
  obtain ⟨hne, rfl⟩ := crisp?_eq_some ht hy
  rw [weighted, sum_eq_zero hproducts]
  exact zero_div_of_pos ht (lt_of_le_of_ne ht0 hne.symm)

end Active

end FuzzyMotion.FuzzySet
