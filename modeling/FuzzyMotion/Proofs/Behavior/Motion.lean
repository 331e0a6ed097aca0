import FuzzyMotion.Behavior.Basic
import FuzzyMotion.Proofs.Angle.Wrapping
import FuzzyMotion.Proofs.Inference.Crisp

/-!
The two means of motion. The linear speed is at most the label `Fast` exactly, although every sum on
the way is rounded; the angular speed exceeds the label `Left` by no more than its rounding errors.
-/
namespace FuzzyMotion.Motion

open Binary32 FuzzySet

theorem is_half : Is 0.5 (1 / 2) :=
  is_of_unpack (s := .positive) (m := 8388608) (e := -24) (by decide) rfl
    (by norm_num [signFactor])

theorem is_tenth : Is 0.1 (13421773 / 2 ^ 27) :=
  is_of_unpack (s := .positive) (m := 13421773) (e := -27) (by decide) rfl
    (by norm_num [signFactor])

/-- A coarse degree is halved without loss. -/
theorem is_mul_half {f : Float32} (h : IsCoarse f) :
    ∃ p, Is f p ∧ 0 ≤ p ∧ p ≤ 1 ∧ Is (f * 0.5) (p / 2) := by
  obtain ⟨p, hp, h0, hp0, h1⟩ := h.exists_nonneg
  have hexact : rounded (p * (1 / 2)) = p / 2 := by
    rw [mul_one_div]
    rcases h0 with rfl | h0
    · simp
    · have hbig : (2 : ℚ) ^ (-125 : ℤ) ≤ |p| := by
        rw [abs_of_nonneg hp0]
        exact (two_zpow_le_two_zpow (by norm_num)).trans h0
      rw [rounded_half hbig, rounded_of_representable hp.representable]
  refine ⟨p, hp, hp0, h1, ?_⟩
  rw [← hexact]
  exact hp.mul is_half (abs_lt_two_zpow_128 (by linarith) (by linarith))

/-- A tenth of a degree is at most its half and at most the label `Slow`, also where it is rounded up. -/
theorem is_mul_tenth {s : Float32} {q : ℚ} (hq : Is s q) (h0 : 0 ≤ q) (h1 : q ≤ 1) :
    ∃ w, Is (s * 0.1) w ∧ 0 ≤ w ∧ w ≤ q / 2 ∧ w ≤ 13421773 / 2 ^ 27 := by
  obtain ⟨c, hc⟩ : ∃ c : ℚ, c = 13421773 / 2 ^ 27 := ⟨_, rfl⟩
  have hctenth : 0 < c ∧ c ≤ 1 / 8 := by
    rw [hc]
    norm_num
  have hprod : 0 ≤ q * c := mul_nonneg h0 hctenth.1.le
  have hw0 : 0 ≤ rounded (q * c) := rounded_nonneg hprod
  have hle : q * c ≤ q / 8 := by
    have := mul_le_mul_of_nonneg_left hctenth.2 h0
    linarith
  have herr : rounded (q * c) ≤ q / 8 + q / 8 / 2 ^ 24 + 2 ^ (-150 : ℤ) := by
    have := (abs_le.1 (abs_rounded_sub_le_add (q * c))).2
    rw [abs_of_nonneg hprod] at this
    linarith
  have hstep : (2 : ℚ) ^ (-149 : ℤ) = 2 * 2 ^ (-150 : ℤ) := by
    rw [← zpow_one_add₀ (by norm_num)]
    norm_num
  have hw : rounded (q * c) ≤ q / 2 := by
    cases hw0.lt_or_eq with
    | inl hpos =>
      -- A positive result is at least one step of the grid, and more than the error.
      have hgrid := (onGrid_rounded (q * c)).step_le hpos
      rw [hstep] at hgrid
      generalize (2 : ℚ) ^ (-150 : ℤ) = step at hgrid herr
      linarith
    | inr hzero =>
      rw [← hzero]
      linarith
  have hslow : rounded (q * c) ≤ c := by
    rw [hc]
    exact rounded_le is_tenth.representable (mul_le_of_le_one_left (by norm_num) h1)
  refine ⟨rounded (q * c), ?_, hw0, hw, by rwa [← hc]⟩
  rw [hc] at hw0 hw ⊢
  exact hq.mul is_tenth (abs_lt_two_zpow_128 hw0 (by linarith))

/-- The sum of the activations of the linear speed, if nothing drives backwards. -/
theorem is_total_move {f s n k : Float32} {a b c : ℚ} (hf : Is f a) (hs : Is s b) (hn : Is n c)
    (hk : Is k 0) (ha : 0 ≤ a ∧ a ≤ 1) (hb : 0 ≤ b ∧ b ≤ 1) (hc : 0 ≤ c ∧ c ≤ 1) :
    let t := rounded (rounded (a + b) + c)
    Is (FuzzySet.total [f, s, n, k]) t ∧ rounded (a + b) ≤ t ∧ t ≤ 3 := by
  obtain ⟨ha0, ha1⟩ := ha
  obtain ⟨hb0, hb1⟩ := hb
  obtain ⟨hc0, hc1⟩ := hc
  have hab0 : 0 ≤ rounded (a + b) := rounded_nonneg (by linarith)
  have hab2 : rounded (a + b) ≤ 2 :=
    rounded_le (representable_natCast (n := 2) (by norm_num)) (by linarith)
  have habc0 : 0 ≤ rounded (rounded (a + b) + c) := rounded_nonneg (by linarith)
  have habc3 : rounded (rounded (a + b) + c) ≤ 3 :=
    rounded_le (representable_natCast (n := 3) (by norm_num)) (by linarith)
  have ht₁ : Is (0 + f) a := is_zero.zero_add hf
  have ht₂ : Is (0 + f + s) (rounded (a + b)) :=
    ht₁.add hs (abs_lt_two_zpow_128 hab0 (by linarith))
  have ht₃ : Is (0 + f + s + n) (rounded (rounded (a + b) + c)) :=
    ht₂.add hn (abs_lt_two_zpow_128 habc0 (by linarith))
  have ht₄ : Is (0 + f + s + n + k) (rounded (rounded (a + b) + c)) := ht₃.add_zero hk
  exact ⟨ht₄, le_rounded ht₂.representable (by linarith), habc3⟩

/-- The weighted sum is at most half of the sum of the two forward activations. -/
theorem is_weighted_move {f s n k : Float32} {a b c w : ℚ} (hf : Is (f * 0.5) (a / 2))
    (hs : Is (s * 0.1) w) (hn : Is n c) (hk : Is k 0) (ha : OnGrid a) (hb : OnGrid b) (ha0 : 0 ≤ a)
    (hw0 : 0 ≤ w) (hwb : w ≤ b / 2) (hab : a + b ≤ 2) :
    let u := rounded (a / 2 + w)
    Is (FuzzySet.weighted [f, s, n, k] (move.labels.map Prod.snd)) u ∧ 0 ≤ u ∧
      u ≤ rounded (a + b) / 2 := by
  have hu0 : 0 ≤ rounded (a / 2 + w) := rounded_nonneg (by linarith)
  have hu1 : rounded (a / 2 + w) ≤ 1 := rounded_le representable_one (by linarith)
  have hhalf : rounded (a / 2 + w) ≤ rounded (a + b) / 2 := by
    refine OnGrid.rounded_le_half (hf.onGrid.add hs.onGrid) (ha.add hb) ?_ ?_
    · linarith
    · linarith
  have hw₁ : Is (0 + f * 0.5) (a / 2) := is_zero.zero_add hf
  have hw₂ : Is (0 + f * 0.5 + s * 0.1) (rounded (a / 2 + w)) :=
    hw₁.add hs (abs_lt_two_zpow_128 hu0 (by linarith))
  have hw₃ : Is (0 + f * 0.5 + s * 0.1 + n * 0) (rounded (a / 2 + w)) :=
    hw₂.add_zero (hn.mul_zero is_zero)
  have hw₄ : Is (0 + f * 0.5 + s * 0.1 + n * 0 + k * (-0.1)) (rounded (a / 2 + w)) :=
    hw₃.add_zero (hk.zero_mul is_tenth.neg)
  exact ⟨hw₄, hu0, hhalf⟩

/-- A mean that is not negative and at most a number of the format, before it is rounded. -/
theorem crisp?_of_ratio {set : FuzzySet} {values : List Float32} {t u c : ℚ} (ht : Is set.total t)
    (hu : Is (set.weighted values) u) (htpos : 0 < t) (hu0 : 0 ≤ u) (hc : Representable c)
    (hc1 : c ≤ 1) (hle : u ≤ c * t) :
    ∃ y q, crisp? set values = some y ∧ Is y q ∧ 0 ≤ q ∧ q ≤ c := by
  have hmean0 : 0 ≤ rounded (u / t) := rounded_nonneg (div_nonneg hu0 htpos.le)
  have hmean : rounded (u / t) ≤ c := by
    apply rounded_le hc
    rwa [div_le_iff₀ htpos]
  have hne : t ≠ 0 := htpos.ne'
  refine ⟨_, _, ?_, hu.div ht hne (abs_lt_two_zpow_128 hmean0 (by linarith)), hmean0, hmean⟩
  rw [crisp?, if_neg fun hz => hne ((isZero_iff ht).1 hz)]

/-- The linear speed is between zero and the label `Fast`, if nothing drives backwards. -/
theorem crisp?_move {f s n k y : Float32} (hf : IsCoarse f) (hs : IsDegree s) (hn : IsDegree n)
    (hk : Is k 0) (h : crisp? [f, s, n, k] (move.labels.map Prod.snd) = some y) :
    ∃ q, Is y q ∧ 0 ≤ q ∧ q ≤ 1 / 2 := by
  obtain ⟨a, ha, ha0, ha1, hahalf⟩ := is_mul_half hf
  obtain ⟨b, hb, hb0, hb1⟩ := hs
  obtain ⟨c, hc, hc0, hc1⟩ := hn
  obtain ⟨w, hw, hw0, hwb, -⟩ := is_mul_tenth hb hb0 hb1
  obtain ⟨ht, hsum, -⟩ := is_total_move ha hb hc hk ⟨ha0, ha1⟩ ⟨hb0, hb1⟩ ⟨hc0, hc1⟩
  obtain ⟨hu, hu0, hhalf⟩ :=
    is_weighted_move hahalf hw hc hk ha.onGrid hb.onGrid ha0 hw0 hwb (by linarith)
  obtain ⟨hne, -⟩ := crisp?_eq_some ht h
  have htpos := lt_of_le_of_ne (show 0 ≤ rounded (rounded (a + b) + c) by linarith) (Ne.symm hne)
  obtain ⟨z, q, hz, hq, hq0, hqhalf⟩ :=
    crisp?_of_ratio ht hu htpos hu0 is_half.representable (by norm_num) (by linarith)
  obtain rfl : z = y := Option.some.inj (hz.symm.trans h)
  exact ⟨q, hq, hq0, hqhalf⟩

/-- Where nothing drives fast, and the labels `Slow` and `None` share the whole activation, the linear speed
is at most the label `Slow` exactly. -/
theorem crisp?_move_careful {f s n k : Float32} {d : ℚ} (hf : Is f 0) (hs : Is s (rounded (1 - d)))
    (hn : Is n d) (hk : Is k 0) (h0 : 0 ≤ d) (h1 : d ≤ 1) :
    ∃ y q, crisp? [f, s, n, k] (move.labels.map Prod.snd) = some y ∧ Is y q ∧ 0 ≤ q ∧
      q ≤ 13421773 / 2 ^ 27 := by
  have hb0 : 0 ≤ rounded (1 - d) := rounded_nonneg (by linarith)
  have hb1 : rounded (1 - d) ≤ 1 := rounded_le representable_one (by linarith)
  have hfhalf : Is (f * 0.5) (0 / 2) := by
    rw [zero_div]
    exact hf.zero_mul is_half
  obtain ⟨w, hw, hw0, hwb, hslow⟩ := is_mul_tenth hs hb0 hb1
  obtain ⟨ht, -, -⟩ := is_total_move hf hs hn hk ⟨le_rfl, zero_le_one⟩ ⟨hb0, hb1⟩ ⟨h0, h1⟩
  obtain ⟨hu, hu0, -⟩ :=
    is_weighted_move hfhalf hw hn hk .zero hs.onGrid le_rfl hw0 hwb (by linarith)
  -- The complement is not rounded away: both activations add up to one at least.
  have hone := one_le_rounded_complement_add h0 h1
  rw [zero_add, rounded_of_representable hs.representable] at ht
  rw [zero_div, zero_add, rounded_of_representable hw.representable] at hu
  refine crisp?_of_ratio ht hu (by linarith) hw0 is_tenth.representable (by norm_num) ?_
  calc
    w ≤ 13421773 / 2 ^ 27 * 1 := by linarith
    _ ≤ 13421773 / 2 ^ 27 * rounded (rounded (1 - d) + d) :=
      mul_le_mul_of_nonneg_left hone (by norm_num)

theorem is_ten : Is 10 10 :=
  is_of_unpack (s := .positive) (m := 10485760) (e := -20) (by decide) rfl
    (by norm_num [signFactor])

theorem is_forty : Is 40 40 :=
  is_of_unpack (s := .positive) (m := 10485760) (e := -18) (by decide) rfl
    (by norm_num [signFactor])

/-- The labels of the angular speed are whole numbers of degrees. -/
theorem turn_labels : ∀ v ∈ turn.labels.map Prod.snd, ∃ n : ℤ, Is v n ∧ |n| ≤ 40 := by
  intro v hv
  have hlabels : turn.labels.map Prod.snd = [40, 10, 0, -10, -40] := rfl
  rw [hlabels] at hv
  simp only [List.mem_cons, List.not_mem_nil, or_false] at hv
  rcases hv with rfl | rfl | rfl | rfl | rfl
  · exact ⟨40, by exact_mod_cast is_forty, by norm_num⟩
  · exact ⟨10, by exact_mod_cast is_ten, by norm_num⟩
  · exact ⟨0, by exact_mod_cast is_zero, by norm_num⟩
  · exact ⟨-10, by exact_mod_cast is_ten.neg, by norm_num⟩
  · exact ⟨-40, by exact_mod_cast is_forty.neg, by norm_num⟩

/-- The angular speed in degrees. -/
theorem crisp?_turn {set : FuzzySet} {y : Float32} (hlen : set.length = 5)
    (hset : ∀ m ∈ set, IsDegree m) (h : set.crisp? (turn.labels.map Prod.snd) = some y) :
    ∃ q, Is y q ∧ |q| ≤ 641 / 16 :=
  crisp?_bound h hlen (by omega) hset turn_labels

theorem is_seven_tenths : Is 0.7 (11744051 / 2 ^ 24) :=
  is_of_unpack (s := .positive) (m := 11744051) (e := -24) (by decide) rfl
    (by norm_num [signFactor])

theorem is_180 : Is 180 180 :=
  is_of_unpack (s := .positive) (m := 11796480) (e := -16) (by decide) rfl
    (by norm_num [signFactor])

/-- The conversion of an angular speed to radians is rounded twice. -/
def radians (q : ℚ) : ℚ :=
  rounded (rounded (q * (13176795 / 2 ^ 22)) / 180)

theorem is_toRadians {y : Float32} {q : ℚ} (hy : Is y q) (hq : |q| ≤ 641 / 16) :
    Is (Angle.toRadians y) (radians q) ∧ |radians q| ≤ 11744051 / 2 ^ 24 := by
  have hrep : Representable (1007 / 8) := ⟨1007, -3, by norm_num, by norm_num, by norm_num⟩
  have hprod : |rounded (q * (13176795 / 2 ^ 22))| ≤ 1007 / 8 := by
    apply abs_rounded_le hrep
    rw [abs_mul, abs_of_pos (show (0 : ℚ) < 13176795 / 2 ^ 22 by norm_num)]
    linarith
  have hmul : Is (y * pi) (rounded (q * (13176795 / 2 ^ 22))) :=
    hy.mul Angle.is_pi (lt_two_zpow_128_of_le hprod (by norm_num))
  have hquot : |radians q| ≤ 11744051 / 2 ^ 24 := by
    apply abs_rounded_le is_seven_tenths.representable
    rw [abs_div, abs_of_pos (show (0 : ℚ) < 180 by norm_num)]
    linarith
  exact ⟨hmul.div is_180 (by norm_num) (lt_two_zpow_128_of_le hquot (by norm_num)), hquot⟩

/-- The angular speed in radians. -/
theorem toRadians_bound {y : Float32} {q : ℚ} (hy : Is y q) (hq : |q| ≤ 641 / 16) :
    ∃ r, Is (Angle.toRadians y) r ∧ |r| ≤ 11744051 / 2 ^ 24 :=
  ⟨_, is_toRadians hy hq⟩

end FuzzyMotion.Motion
