import FuzzyMotion.Proofs.Binary32.Interval
import FuzzyMotion.Proofs.Decimal.Hundredths

/-!
The shortest decimal texts. The digits are those of the coarsest decimal grid that has a point which rounds to
the number, and of these points they are the nearest to the number. So the text reads back as the number that
it shows, and no text with fewer digits does. This determines the text, and it is what is written.
-/
namespace FuzzyMotion.Decimal

open Binary32 (rounded rounded_zero rounded_mono rounded_of_representable le_rounded two_zpow_le_two_zpow
  representable_two_zpow IsSignificand Reaches reaches_mul_right reachBelow lowerEnd upperEnd lowerEnd_lt
  lt_upperEnd value unpackedValue abs_unpackedValue magnitude_pos unpack_canonical abs_unpackedValue_lt)

/-- Of the multiples of `10 ^ k` that read back as a number, the nearest to it; halfway, the upper one. -/
structure IsNearestOn (q : ℚ) (k : ℤ) (n : ℕ) : Prop where
  reads : rounded (n * 10 ^ k) = q
  nearest : ∀ m : ℕ, rounded (m * 10 ^ k) = q →
    |n * 10 ^ k - q| < |m * 10 ^ k - q| ∨ |n * 10 ^ k - q| = |m * 10 ^ k - q| ∧ m ≤ n

/-- And no multiple of a greater power of ten reads back as the number. -/
structure IsShortest (q : ℚ) (n : ℕ) (k : ℤ) : Prop extends IsNearestOn q k n where
  coarser : ∀ (m : ℕ) (j : ℤ), k < j → rounded (m * 10 ^ j) ≠ q

section Spec

variable {q : ℚ} {n m : ℕ} {k j : ℤ}

theorem ten_zpow_pos (k : ℤ) : (0 : ℚ) < 10 ^ k := zpow_pos (by norm_num) k

theorem IsShortest.unique (h : IsShortest q n k) (h' : IsShortest q m j) : n = m ∧ k = j := by
  obtain rfl : k = j := by
    rcases lt_trichotomy k j with hlt | heq | hgt
    · exact absurd h'.reads (h.coarser m j hlt)
    · exact heq
    · exact absurd h.reads (h'.coarser n k hgt)
  refine ⟨?_, rfl⟩
  rcases h.nearest m h'.reads with hlt | ⟨heq, hle⟩
  · rcases h'.nearest n h.reads with hlt' | ⟨heq', -⟩
    · exact absurd hlt hlt'.not_gt
    · exact absurd heq' hlt.ne'
  · rcases h'.nearest n h.reads with hlt' | ⟨-, hle'⟩
    · exact absurd heq hlt'.ne'
    · exact le_antisymm hle' hle

/-- What lies between two numbers that read back as the same one does so, too. -/
theorem rounded_eq_of_between {a b d : ℚ} (ha : rounded a = q) (hb : rounded b = q) (had : a ≤ d)
    (hdb : d ≤ b) : rounded d = q :=
  le_antisymm ((rounded_mono hdb).trans hb.le) (ha.ge.trans (rounded_mono had))

/-- No decimal with fewer digits reads back as the number, wherever its point is. -/
theorem IsShortest.fewest_digits (h : IsShortest q n k) (hm : rounded (m * 10 ^ j) = q) :
    (Nat.toDigits 10 n).length ≤ (Nat.toDigits 10 m).length := by
  by_contra hcon
  obtain ⟨p, hp⟩ : ∃ p, (Nat.toDigits 10 n).length = p + 1 :=
    ⟨_, (Nat.succ_pred_eq_of_pos (List.length_pos_iff.2 Nat.toDigits_ne_nil)).symm⟩
  have hp0 : 0 < p := by
    have := List.length_pos_iff.2 (Nat.toDigits_ne_nil (b := 10) (n := m))
    omega
  -- A power of ten lies between the two, and it has a single digit.
  have hsmall : m < 10 ^ p := (Nat.length_toDigits_le_iff (by omega) hp0).1 (by omega)
  have hlarge : 10 ^ p ≤ n := by
    by_contra hlt
    have := (Nat.length_toDigits_le_iff (b := 10) (by omega) hp0).2 (not_le.1 hlt)
    omega
  have hj : j ≤ k := not_lt.1 fun hlt => h.coarser m j hlt hm
  have hpower : ((10 ^ p : ℕ) : ℚ) * 10 ^ k = (1 : ℕ) * 10 ^ (k + p) := by
    rw [zpow_add₀ (by norm_num), zpow_natCast]
    push_cast
    ring
  refine h.coarser 1 (k + p) (by omega) ?_
  rw [← hpower]
  refine rounded_eq_of_between hm h.reads ?_ ?_
  · calc (m : ℚ) * 10 ^ j ≤ (10 ^ p : ℕ) * 10 ^ j := by
          refine mul_le_mul_of_nonneg_right ?_ (ten_zpow_pos j).le
          exact_mod_cast hsmall.le
      _ ≤ (10 ^ p : ℕ) * 10 ^ k :=
          mul_le_mul_of_nonneg_left (zpow_le_zpow_right₀ (by norm_num) hj) (by positivity)
  · refine mul_le_mul_of_nonneg_right ?_ (ten_zpow_pos k).le
    exact_mod_cast hlarge

end Spec

section Between

variable {q : ℚ} {k : ℤ} {under n : ℕ}

theorem mul_ten_zpow_le (k : ℤ) (h : n ≤ under) : (n : ℚ) * 10 ^ k ≤ under * 10 ^ k :=
  mul_le_mul_of_nonneg_right (by exact_mod_cast h) (ten_zpow_pos k).le

variable (hq : rounded q = q) (hdown : under * 10 ^ k ≤ q) (hup : q < (under + 1 : ℕ) * 10 ^ k)
include hq hdown hup

/-- A grid on which some point reads back has one next to the number that does. -/
theorem reads_beside (h : rounded (n * 10 ^ k) = q) :
    n ≤ under ∧ rounded (under * 10 ^ k) = q ∨ under < n ∧ rounded ((under + 1 : ℕ) * 10 ^ k) = q := by
  rcases le_or_gt n under with hle | hlt
  · exact Or.inl ⟨hle, rounded_eq_of_between h hq (mul_ten_zpow_le k hle) hdown⟩
  · exact Or.inr ⟨hlt, rounded_eq_of_between hq h hup.le (mul_ten_zpow_le k hlt)⟩

theorem isNearestOn_upper (h : rounded ((under + 1 : ℕ) * 10 ^ k) = q)
    (hcloser : rounded (under * 10 ^ k) = q → (under + 1 : ℕ) * 10 ^ k - q ≤ q - under * 10 ^ k) :
    IsNearestOn q k (under + 1) where
  reads := h
  nearest n hn := by
    rw [abs_of_pos (sub_pos.2 hup)]
    rcases reads_beside hq hdown hup hn with ⟨hle, hunder⟩ | ⟨hlt, -⟩
    · have hn' := mul_ten_zpow_le k hle
      rw [abs_of_nonpos (by linarith)]
      rcases (hcloser hunder).trans (show q - under * 10 ^ k ≤ -(n * 10 ^ k - q) by linarith) |>.lt_or_eq
        with hless | heq
      · exact Or.inl hless
      · exact Or.inr ⟨heq, hle.trans (Nat.le_succ _)⟩
    · have hn' := mul_ten_zpow_le k hlt
      rw [abs_of_pos (by linarith)]
      rcases (Nat.succ_le_of_lt hlt).eq_or_lt with rfl | hmore
      · exact Or.inr ⟨rfl, le_refl _⟩
      · left
        have : ((under + 1 : ℕ) : ℚ) < n := by exact_mod_cast hmore
        have := mul_lt_mul_of_pos_right this (ten_zpow_pos k)
        linarith

theorem isNearestOn_lower (h : rounded (under * 10 ^ k) = q)
    (hcloser : rounded ((under + 1 : ℕ) * 10 ^ k) = q → q - under * 10 ^ k < (under + 1 : ℕ) * 10 ^ k - q) :
    IsNearestOn q k under where
  reads := h
  nearest n hn := by
    rw [abs_of_nonpos (sub_nonpos.2 hdown)]
    rcases reads_beside hq hdown hup hn with ⟨hle, -⟩ | ⟨hlt, hover⟩
    · have hn' := mul_ten_zpow_le k hle
      rw [abs_of_nonpos (by linarith)]
      rcases (neg_le_neg (sub_le_sub_right hn' q)).lt_or_eq with hless | heq
      · exact Or.inl hless
      · exact Or.inr ⟨heq, hle⟩
    · have hn' := mul_ten_zpow_le k hlt
      left
      rw [abs_of_pos (by linarith)]
      linarith [hcloser hover]

end Between

section Grid

theorem powerOfTen_eq (places : ℕ) : powerOfTen places = 10 ^ places := rfl

/-- The two units, in the proportion of the powers for which they stand. -/
theorem exists_units (e k : ℤ) :
    ∃ c : ℚ, 0 < c ∧ (binaryUnit e k : ℚ) = 2 ^ (e - 2) * c ∧ (gridUnit e k : ℚ) = 10 ^ k * c := by
  have hpow : ∀ (b : ℚ) (j : ℤ), b ≠ 0 → b ^ j.toNat = b ^ j * b ^ (-j).toNat := by
    intro b j hb
    obtain ⟨i, rfl | rfl⟩ := j.eq_nat_or_neg
    · simp
    · simp [hb]
  have htwo := hpow 2 (e - 2) (by norm_num)
  rw [neg_sub] at htwo
  refine ⟨10 ^ (-k).toNat * 2 ^ (2 - e).toNat, by positivity, ?_, ?_⟩
  · rw [binaryUnit, powerOfTen_eq, Nat.shiftLeft_eq]
    push_cast
    rw [htwo]
    ring
  · rw [gridUnit, powerOfTen_eq, Nat.shiftLeft_eq]
    push_cast
    rw [hpow 10 k (by norm_num)]
    ring

variable {m : ℕ} {e : ℤ} (h : IsSignificand m e)

theorem reachesDown_iff {n : Neighbourhood} {scale point : ℕ} :
    n.reachesDown scale point = true ↔ Reaches (n.closed = true) (n.low * scale : ℕ) (point : ℕ) := by
  rw [Reaches, Nat.cast_lt, Nat.cast_inj, Neighbourhood.reachesDown]
  cases n.closed <;> simp [le_iff_lt_or_eq]

theorem reachesUp_iff {n : Neighbourhood} {scale point : ℕ} :
    n.reachesUp scale point = true ↔ Reaches (n.closed = true) (point : ℕ) (n.high * scale : ℕ) := by
  rw [Reaches, Nat.cast_lt, Nat.cast_inj, Neighbourhood.reachesUp]
  cases n.closed <;> simp [le_iff_lt_or_eq]

theorem neighbourhood_closed_iff : (neighbourhood m e).closed = true ↔ Even m := by
  simp [neighbourhood, Nat.even_iff]

theorem two_zpow_eq_four_mul (e : ℤ) : (2 : ℚ) ^ e = 4 * 2 ^ (e - 2) := by
  rw [zpow_sub₀ two_ne_zero]
  norm_num
  ring

theorem neighbourhood_value : ((neighbourhood m e).value : ℚ) * 2 ^ (e - 2) = m * 2 ^ e := by
  rw [two_zpow_eq_four_mul e, neighbourhood]
  push_cast
  ring

theorem neighbourhood_high : ((neighbourhood m e).high : ℚ) * 2 ^ (e - 2) = upperEnd m e := by
  rw [upperEnd, two_zpow_eq_four_mul e, neighbourhood]
  push_cast
  ring

include h

theorem neighbourhood_low : ((neighbourhood m e).low : ℚ) * 2 ^ (e - 2) = lowerEnd m e := by
  have hm := h.pos
  rw [lowerEnd, two_zpow_eq_four_mul e, neighbourhood, reachBelow, show (2 : ℕ) ^ 23 = 0x800000 from rfl]
  split_ifs
  · rw [Nat.cast_sub (by omega)]
    push_cast
    ring
  · rw [Nat.cast_sub (by omega)]
    push_cast
    ring

theorem reachesDown_grid {k : ℤ} {point : ℕ} :
    (neighbourhood m e).reachesDown (binaryUnit e k) (point * gridUnit e k) = true ↔
      Reaches (Even m) (lowerEnd m e) (point * 10 ^ k) := by
  obtain ⟨c, hc, hscale, hstep⟩ := exists_units e k
  rw [reachesDown_iff, Nat.cast_mul, Nat.cast_mul, hscale, hstep, ← mul_assoc, ← mul_assoc, neighbourhood_low h,
    reaches_mul_right hc, neighbourhood_closed_iff]

omit h in
theorem reachesUp_grid {k : ℤ} {point : ℕ} :
    (neighbourhood m e).reachesUp (binaryUnit e k) (point * gridUnit e k) = true ↔
      Reaches (Even m) (point * 10 ^ k) (upperEnd m e) := by
  obtain ⟨c, hc, hscale, hstep⟩ := exists_units e k
  rw [reachesUp_iff, Nat.cast_mul, Nat.cast_mul, hscale, hstep, ← mul_assoc, ← mul_assoc, neighbourhood_high,
    reaches_mul_right hc, neighbourhood_closed_iff]

/-- Looking down from a number, a point of the grid lies in the neighbourhood where it reads back. -/
theorem reads_iff_reachesDown {k : ℤ} {point : ℕ} (hle : (point : ℚ) * 10 ^ k ≤ m * 2 ^ e) :
    rounded (point * 10 ^ k) = m * 2 ^ e ↔
      (neighbourhood m e).reachesDown (binaryUnit e k) (point * gridUnit e k) = true := by
  rw [reachesDown_grid h]
  rcases Nat.eq_zero_or_pos point with rfl | hpoint
  · rw [Nat.cast_zero, zero_mul, rounded_zero]
    exact iff_of_false h.value_pos.ne fun hr => absurd hr.le (not_le.2 h.lowerEnd_pos)
  · have hd : 0 < (point : ℚ) * 10 ^ k := mul_pos (by exact_mod_cast hpoint) (ten_zpow_pos k)
    rw [h.rounded_eq_iff hd]
    exact and_iff_left (Or.inl (hle.trans_lt (lt_upperEnd m e)))

theorem reads_iff_reachesUp {k : ℤ} {point : ℕ} (hlt : m * 2 ^ e < (point : ℚ) * 10 ^ k) :
    rounded (point * 10 ^ k) = m * 2 ^ e ↔
      (neighbourhood m e).reachesUp (binaryUnit e k) (point * gridUnit e k) = true := by
  rw [reachesUp_grid, h.rounded_eq_iff (h.value_pos.trans hlt)]
  exact and_iff_right (Or.inl ((lowerEnd_lt m e).trans hlt))

omit h in
/-- The magnitude between two points of the grid, and the one to which it is nearer. -/
theorem between_of_split {k : ℤ} {under rest : ℕ}
    (hsplit : gridUnit e k * under + rest = (neighbourhood m e).value * binaryUnit e k)
    (hrest : rest < gridUnit e k) :
    (under : ℚ) * 10 ^ k ≤ m * 2 ^ e ∧ (m : ℚ) * 2 ^ e < (under + 1 : ℕ) * 10 ^ k ∧
      (gridUnit e k ≤ 2 * rest ↔
        (under + 1 : ℕ) * 10 ^ k - (m : ℚ) * 2 ^ e ≤ m * 2 ^ e - under * 10 ^ k) := by
  obtain ⟨c, hc, hscale, hstep⟩ := exists_units e k
  have htotal : 10 ^ k * c * under + rest = (m : ℚ) * 2 ^ e * c := by
    rw [← neighbourhood_value, mul_assoc _ _ c, ← hscale, ← hstep]
    exact_mod_cast hsplit
  have hless : (rest : ℚ) < 10 ^ k * c := by
    rw [← hstep]
    exact_mod_cast hrest
  have hrest0 : (0 : ℚ) ≤ rest := Nat.cast_nonneg rest
  push_cast
  refine ⟨?_, ?_, ?_⟩
  · rw [← mul_le_mul_iff_of_pos_right hc]
    linarith
  · rw [← mul_lt_mul_iff_of_pos_right hc]
    linarith
  · have hcast : gridUnit e k ≤ 2 * rest ↔ 10 ^ k * c ≤ 2 * (rest : ℚ) := by
      rw [← hstep]
      exact_mod_cast Iff.rfl
    rw [hcast, ← mul_le_mul_iff_of_pos_right (b := ((under : ℚ) + 1) * 10 ^ k - m * 2 ^ e) hc, sub_mul,
      sub_mul]
    constructor
    · intro hle
      linarith
    · intro hle
      linarith

/-- What `gridPoint?` finds is the nearest point that reads back; and it finds one if there is any. -/
theorem gridPoint?_spec (k : ℤ) :
    (∀ n, gridPoint? (neighbourhood m e) e k = some n → IsNearestOn (m * 2 ^ e) k n) ∧
      (gridPoint? (neighbourhood m e) e k = none → ∀ n : ℕ, rounded (n * 10 ^ k) ≠ m * 2 ^ e) := by
  have hunit : 0 < gridUnit e k := by
    rw [gridUnit, powerOfTen_eq, Nat.shiftLeft_eq]
    positivity
  have hq : rounded (m * 2 ^ e) = m * 2 ^ e := rounded_of_representable h.representable
  obtain ⟨hdown, hup, hnearer⟩ := between_of_split
    (Nat.div_add_mod ((neighbourhood m e).value * binaryUnit e k) (gridUnit e k)) (Nat.mod_lt _ hunit)
  rw [gridPoint?]
  generalize (neighbourhood m e).value * binaryUnit e k / gridUnit e k = under at hdown hup hnearer ⊢
  generalize (neighbourhood m e).value * binaryUnit e k % gridUnit e k = rest at hnearer ⊢
  have hbelow := reads_iff_reachesDown h hdown
  have habove := reads_iff_reachesUp h hup
  simp only [Bool.and_eq_true, Bool.or_eq_true, Bool.not_eq_true', decide_eq_true_eq, ← habove, ← hbelow,
    ← Bool.not_eq_true, hnearer]
  split_ifs with hupper hlower
  · refine ⟨?_, nofun⟩
    rintro n ⟨⟩
    exact isNearestOn_upper hq hdown hup hupper.1 fun hunder => hupper.2.resolve_left fun h => h hunder
  · refine ⟨?_, nofun⟩
    rintro n ⟨⟩
    refine isNearestOn_lower hq hdown hup hlower fun hover => ?_
    exact not_le.1 fun hle => hupper ⟨hover, Or.inr hle⟩
  · refine ⟨nofun, fun _ n hn => ?_⟩
    rcases reads_beside hq hdown hup hn with ⟨-, hunder⟩ | ⟨-, hover⟩
    · exact hlower hunder
    · exact hupper ⟨hover, Or.inl hlower⟩

end Grid

section Search

variable {m : ℕ} {e : ℤ}

/-- The search goes down from a power of ten of which no multiple reads back, until one does. -/
theorem isShortest_coarsest (h : IsSignificand m e) (fuel : ℕ) {k : ℤ}
    (hcoarser : ∀ (n : ℕ) (j : ℤ), k < j → rounded (n * 10 ^ j) ≠ m * 2 ^ e)
    (hfound : ∃ n : ℕ, rounded (n * 10 ^ (k - fuel)) = m * 2 ^ e) :
    let found := coarsest (neighbourhood m e) e k fuel
    IsShortest (m * 2 ^ e) found.1 found.2 := by
  induction fuel generalizing k with
  | zero =>
    obtain ⟨n, hn⟩ := hfound
    rw [Nat.cast_zero, sub_zero] at hn
    cases hg : gridPoint? (neighbourhood m e) e k with
    | none => exact absurd hn ((gridPoint?_spec h k).2 hg n)
    | some digits =>
      simp only [coarsest, hg, Option.getD_some]
      exact ⟨(gridPoint?_spec h k).1 digits hg, hcoarser⟩
  | succ fuel ih =>
    cases hg : gridPoint? (neighbourhood m e) e k with
    | some digits =>
      simp only [coarsest, hg]
      exact ⟨(gridPoint?_spec h k).1 digits hg, hcoarser⟩
    | none =>
      simp only [coarsest, hg]
      refine ih (fun n j hj => ?_) ?_
      · rcases (Int.sub_one_lt_iff.1 hj).eq_or_lt with rfl | hlt
        · exact (gridPoint?_spec h k).2 hg n
        · exact hcoarser n j hlt
      · obtain ⟨n, hn⟩ := hfound
        refine ⟨n, ?_⟩
        rwa [sub_sub, ← Nat.cast_one, ← Nat.cast_add, add_comm 1 fuel]

/-- The multiples of greater powers of ten lie beyond the numbers of the format. -/
theorem not_reads_of_lt {q : ℚ} (h0 : 0 < q) (hlt : q < 2 ^ (128 : ℤ)) {j : ℤ} (hj : 38 < j) (n : ℕ) :
    rounded (n * 10 ^ j) ≠ q := by
  intro hn
  rcases Nat.eq_zero_or_pos n with rfl | hpos
  · rw [Nat.cast_zero, zero_mul, rounded_zero] at hn
    exact h0.ne hn
  · have hbig : (2 : ℚ) ^ (128 : ℤ) ≤ n * 10 ^ j := by
      calc (2 : ℚ) ^ (128 : ℤ) ≤ 10 ^ (39 : ℤ) := by norm_num
        _ ≤ 10 ^ j := zpow_le_zpow_right₀ (by norm_num) (by omega)
        _ ≤ n * 10 ^ j := le_mul_of_one_le_left (ten_zpow_pos j).le (by exact_mod_cast hpos)
    have := le_rounded (representable_two_zpow (by norm_num)) hbig
    linarith

/-- The interval of what rounds to a number is wider than the step of the finest grid. -/
theorem exists_reads (h : IsSignificand m e) : ∃ n : ℕ, rounded (n * 10 ^ (-45 : ℤ)) = m * 2 ^ e := by
  have hstep : (0 : ℚ) < 10 ^ (-45 : ℤ) := ten_zpow_pos _
  have hwidth : lowerEnd m e + 10 ^ (-45 : ℤ) < upperEnd m e := by
    rw [← lt_sub_iff_add_lt', upperEnd, lowerEnd, ← sub_mul, reachBelow]
    split_ifs with hpower
    · have := two_zpow_le_two_zpow (show -148 ≤ e by omega)
      norm_num at this ⊢
      linarith
    · have := two_zpow_le_two_zpow h.least
      norm_num at this ⊢
      linarith
  -- The first multiple beyond the lower end of the interval is before the upper one.
  obtain ⟨n, hn⟩ : ∃ n, n = ⌊lowerEnd m e / 10 ^ (-45 : ℤ)⌋₊ := ⟨_, rfl⟩
  have hle : (n : ℚ) * 10 ^ (-45 : ℤ) ≤ lowerEnd m e := by
    rw [hn, ← le_div_iff₀ hstep]
    exact Nat.floor_le (div_nonneg h.lowerEnd_pos.le hstep.le)
  have hlt : lowerEnd m e < (n + 1 : ℕ) * 10 ^ (-45 : ℤ) := by
    rw [← div_lt_iff₀ hstep, hn]
    exact_mod_cast Nat.lt_floor_add_one _
  have hnext : ((n + 1 : ℕ) : ℚ) * 10 ^ (-45 : ℤ) < upperEnd m e := by
    rw [Nat.cast_succ, add_one_mul]
    exact (add_le_add_left hle _).trans_lt hwidth
  exact ⟨n + 1, (h.rounded_eq_iff (h.lowerEnd_pos.trans hlt)).2 ⟨Or.inl hlt, Or.inl hnext⟩⟩

theorem isShortest_shortestDigits (h : IsSignificand m e) (hlt : (m : ℚ) * 2 ^ e < 2 ^ (128 : ℤ)) :
    IsShortest (m * 2 ^ e) (shortestDigits m e).1 (shortestDigits m e).2 :=
  isShortest_coarsest h 83 (fun n _ hj => not_reads_of_lt h.value_pos hlt hj n) (exists_reads h)

end Search

/-- A text shows a number with the digits of its shortest decimal. -/
def ShowsShortest (x : Float32) (text : String) : Prop :=
  if x.isNaN then text = "NaN"
  else if x.isInf then text = sign x ++ "inf"
  else if value x = 0 then text = sign x ++ "0"
  else ∃ n k numeral, IsShortest |value x| n k ∧
    Numeral (n * 10 ^ k.toNat) (-k).toNat numeral ∧ text = sign x ++ numeral

section Shows

variable {x : Float32}

theorem showsShortest_shortest (x : Float32) : ShowsShortest x (shortest x) := by
  have hnan : x.isNaN = x.toModel.unpack.isNaN := rfl
  have hinf : x.isInf = x.toModel.unpack.isInf := rfl
  have hcanonical := unpack_canonical x
  rw [ShowsShortest, hnan, hinf, shortest, value]
  cases hu : x.toModel.unpack with
  | notANumber => rfl
  | infinity s => exact join_signed (congrArg unpackedSign hu) ["inf"]
  | zero s => exact join_signed (congrArg unpackedSign hu) ["0"]
  | finite s m e hm =>
    rw [hu] at hcanonical
    obtain ⟨⟨hlt, hleast, hnormal⟩, hbounded⟩ := hcanonical
    have hvalue : |unpackedValue (.finite s m e hm)| = m * 2 ^ e := abs_unpackedValue s hm e
    have hpos : unpackedValue (.finite s m e hm) ≠ 0 := by
      rw [← abs_pos, hvalue]
      exact magnitude_pos hm e
    have hbelow := abs_unpackedValue_lt ⟨hlt, hleast, hnormal⟩ hbounded
    rw [hvalue] at hbelow
    have hfound := isShortest_shortestDigits ⟨hm, hlt, hleast, hnormal⟩ hbelow
    rw [← hvalue] at hfound
    have htext : unpackedShortest (.finite s m e hm) =
        signed (s == .negative) [positional ((shortestDigits m e).1 * powerOfTen (shortestDigits m e).2.toNat)
          (-(shortestDigits m e).2).toNat] := rfl
    refine (if_neg hpos).mpr ⟨_, _, _, hfound, numeral_positional _ _, ?_⟩
    rw [htext, join_signed (congrArg unpackedSign hu), powerOfTen_eq]
    simp [String.join_cons]

/-- A number is shown by one text. -/
theorem ShowsShortest.unique {s t : String} (hs : ShowsShortest x s) (ht : ShowsShortest x t) : s = t := by
  rw [ShowsShortest] at hs ht
  split_ifs at hs ht
  · rw [hs, ht]
  · rw [hs, ht]
  · rw [hs, ht]
  · obtain ⟨n, k, a, hn, ha, rfl⟩ := hs
    obtain ⟨m, j, b, hm, hb, rfl⟩ := ht
    obtain ⟨rfl, rfl⟩ := hn.unique hm
    rw [ha.unique hb]

end Shows

end FuzzyMotion.Decimal
