import FuzzyMotion.Proofs.Behavior.Turning
import FuzzyMotion.Proofs.Binary32.Largest
import FuzzyMotion.Proofs.Membership.Support

/-!
Heading for a target. The three headings cover all bearings: one is positive beyond five degrees to the
left, one beyond five degrees to the right, and one up to sixty degrees on both sides. The rules for turning
weaken them by the degree to which the target is reached, and one more rule turns straight ahead to this
degree. So some label is always active, and away from obstacles the speed has the sign of the bearing.

Driving is weakened by the same degree: near something, either the robot drives slowly or it has arrived.
-/
namespace FuzzyMotion.Motion

open Binary32 FuzzySet FuzzyMotion.Membership

section Headings

variable {phi : Float32}

/-- How true it is, at a bearing in degrees, that the target is on the left. -/
def toLeft (phi : Float32) : Float32 :=
  (rampUp 5 60).degree phi

def toRight (phi : Float32) : Float32 :=
  (rampDown (-60) (-5)).degree phi

def ahead (phi : Float32) : Float32 :=
  (triangle (-60) 0 60).degree phi

theorem is_five : Is 5 5 :=
  is_of_unpack (s := .positive) (m := 10485760) (e := -21) (by decide) rfl
    (by norm_num [signFactor])

theorem is_sixty : Is 60 60 :=
  is_of_unpack (s := .positive) (m := 15728640) (e := -18) (by decide) rfl
    (by norm_num [signFactor])

theorem isCoarse_toLeft (phi : Float32) : IsCoarse (toLeft phi) := by
  refine isCoarse_rampUp is_five is_sixty ?_ ?_ phi <;> norm_num

theorem isCoarse_toRight (phi : Float32) : IsCoarse (toRight phi) := by
  refine isCoarse_rampDown is_sixty.neg is_five.neg ?_ ?_ phi <;> norm_num

theorem isCoarse_ahead (phi : Float32) : IsCoarse (ahead phi) := by
  refine isCoarse_triangle is_sixty.neg is_zero is_sixty ?_ ?_ ?_ ?_ phi <;> norm_num

variable (hphi : phi.isNaN = false)
include hphi

theorem toLeft_pos_iff : 0 < toLeft phi ↔ 5 < phi := by
  refine rampUp_pos_iff is_five is_sixty ?_ ?_ ?_ hphi <;> norm_num

theorem toRight_pos_iff : 0 < toRight phi ↔ phi < -5 := by
  refine rampDown_pos_iff is_sixty.neg is_five.neg ?_ ?_ ?_ hphi <;> norm_num

theorem ahead_pos_iff : 0 < ahead phi ↔ -60 < phi ∧ phi < 60 := by
  refine triangle_pos_iff is_sixty.neg is_zero is_sixty ?_ ?_ ?_ ?_ ?_ ?_ hphi <;> norm_num

/-- Every bearing is on the left, on the right, or between. -/
theorem between_iff : -5 ≤ phi ∧ phi ≤ 5 ↔ ¬5 < phi ∧ ¬phi < -5 := by
  constructor
  · rintro ⟨hlow, hhigh⟩
    exact ⟨not_lt_of_le_number hhigh, not_lt_of_le_number hlow⟩
  · rintro ⟨hleft, hright⟩
    exact ⟨le_of_not_lt hphi is_five.neg.isNaN hright, le_of_not_lt is_five.isNaN hphi hleft⟩

theorem heading_pos : 0 < toLeft phi ∨ 0 < toRight phi ∨ 0 < ahead phi := by
  rw [toLeft_pos_iff hphi, toRight_pos_iff hphi, ahead_pos_iff hphi]
  by_cases hleft : 5 < phi
  · exact Or.inl hleft
  · by_cases hright : phi < -5
    · exact Or.inr (Or.inl hright)
    · obtain ⟨hlow, hhigh⟩ := (between_iff hphi).2 ⟨hleft, hright⟩
      have hfirst : (-60 : Float32) < -5 := (is_sixty.neg.lt_iff is_five.neg).2 (by norm_num)
      have hlast : (5 : Float32) < 60 := (is_five.lt_iff is_sixty).2 (by norm_num)
      exact Or.inr (Or.inr ⟨lt_of_lt_of_le_number hfirst hlow, lt_of_le_of_lt_number hhigh hlast⟩)

end Headings

section Steering

variable {phi done x : Float32}

/-- What holds at most to the degree to which the target is not reached. -/
def untilDone (x done : Float32) : Float32 :=
  Binary32.min x (1 - done)

theorem isCoarse_untilDone (hx : IsCoarse x) (hd : IsDegree done) : IsCoarse (untilDone x done) :=
  hx.min hd.complement

theorem untilDone_pos_iff (hx : IsDegree x) (hd : IsDegree done) :
    0 < untilDone x done ↔ 0 < x ∧ done < 1 := by
  obtain ⟨p, hp, -, -⟩ := hx
  obtain ⟨q, hq, h0, h1⟩ := hd
  have hcomplement : 0 < rounded (1 - q) ↔ q < 1 := by
    refine ⟨fun hpos => lt_of_le_of_ne h1 ?_, fun hlt => hq.rounded_sub_pos is_one hlt⟩
    rintro rfl
    simp at hpos
  rw [untilDone, is_zero.lt_iff (hp.min (is_complement hq h0 h1).1), is_zero.lt_iff hp,
    hq.lt_iff is_one, lt_inf_iff, hcomplement]

/-- The activations for turning to a target, and aside as the two lists say. -/
def steering (phi done : Float32) (asideLeft asideRight : List Float32) : FuzzySet :=
  [largest [untilDone (toLeft phi) done], largest asideLeft, largest [untilDone (ahead phi) done, done],
    largest asideRight, largest [untilDone (toRight phi) done]]

variable {asideLeft asideRight : List Float32}

/-- Whatever the bearing is, and however far the target is reached, some label is active: as far as the
headings are weakened, the target is reached. -/
theorem steering_pos (hphi : phi.isNaN = false) (hd : IsDegree done) :
    ∃ m ∈ steering phi done asideLeft asideRight, 0 < m := by
  have hone : ∀ {y : Float32}, 0 < y → 0 < largest [y] := fun hy =>
    largest_pos_iff.2 ⟨_, List.mem_singleton_self _, hy⟩
  by_cases hdone : 0 < done
  · exact ⟨largest [untilDone (ahead phi) done, done], by simp [steering],
      largest_pos_iff.2 ⟨done, by simp, hdone⟩⟩
  · have hlt : done < 1 :=
      lt_of_le_of_lt_number (le_of_not_lt is_zero.isNaN hd.isNaN hdone) (by decide)
    rcases heading_pos hphi with hleft | hright | hahead
    · exact ⟨largest [untilDone (toLeft phi) done], by simp [steering],
        hone ((untilDone_pos_iff (isCoarse_toLeft phi).isDegree hd).2 ⟨hleft, hlt⟩)⟩
    · exact ⟨largest [untilDone (toRight phi) done], by simp [steering],
        hone ((untilDone_pos_iff (isCoarse_toRight phi).isDegree hd).2 ⟨hright, hlt⟩)⟩
    · exact ⟨largest [untilDone (ahead phi) done, done], by simp [steering],
        largest_pos_iff.2 ⟨_, List.mem_cons_self,
          (untilDone_pos_iff (isCoarse_ahead phi).isDegree hd).2 ⟨hahead, hlt⟩⟩⟩

/-- The speed turns to the side on which the target lies, and is zero within five degrees of it. -/
structure Steers (phi speed : Float32) : Prop where
  left : 0 < speed ↔ 5 < phi
  right : speed < 0 ↔ phi < -5
  straight : isZero speed = true ↔ -5 ≤ phi ∧ phi ≤ 5

/-- What the labels `Left` and `Right` make of their activations, if nothing turns aside. -/
theorem is_weighted_steering {l n r : Float32} {a b : ℚ} (hn : IsDegree n) (ha : Is (l * 40) a)
    (hb : Is (r * (-40)) (-b)) (ha0 : 0 ≤ a ∧ a ≤ 40) (hb0 : 0 ≤ b ∧ b ≤ 40) :
    Is (FuzzySet.weighted [l, 0, n, 0, r] (turn.labels.map Prod.snd)) (rounded (a - b)) := by
  obtain ⟨c, hc, -⟩ := hn
  have hdiff : |rounded (a + -b)| ≤ 40 :=
    abs_rounded_le is_forty.representable (abs_le.2 ⟨by linarith, by linarith⟩)
  have hw₁ : Is (0 + l * 40) a := is_zero.zero_add ha
  have hw₂ : Is (0 + l * 40 + 0 * 10) a := hw₁.add_zero (is_zero.zero_mul is_ten)
  have hw₃ : Is (0 + l * 40 + 0 * 10 + n * 0) a := hw₂.add_zero (hc.mul_zero is_zero)
  have hw₄ : Is (0 + l * 40 + 0 * 10 + n * 0 + 0 * (-10)) a :=
    hw₃.add_zero (is_zero.zero_mul is_ten.neg)
  have hw₅ : Is (0 + l * 40 + 0 * 10 + n * 0 + 0 * (-10) + r * (-40)) (rounded (a + -b)) :=
    hw₄.add hb (lt_two_zpow_128_of_le hdiff (by norm_num))
  rw [sub_eq_add_neg]
  exact hw₅

/-- A speed with the sign of a difference whose sides are what turns left and what turns right. -/
theorem steers_of_sign {z : Float32} {r a b : ℚ} (hphi : phi.isNaN = false) (hz : Is z r)
    (hsign : SignType.sign r = SignType.sign (a - b)) (ha0 : 0 ≤ a) (hb0 : 0 ≤ b)
    (ha : 0 < a ↔ 5 < phi) (hb : 0 < b ↔ phi < -5) : Steers phi z := by
  have hpoints : (-5 : Float32) < 5 := (is_five.neg.lt_iff is_five).2 (by norm_num)
  -- The target is not on both sides, so one of the two is zero.
  have hside : a = 0 ∨ b = 0 := by
    by_contra hcon
    rw [not_or] at hcon
    have hleft : 5 < phi := ha.1 (lt_of_le_of_ne ha0 (Ne.symm hcon.1))
    have hright : phi < -5 := hb.1 (lt_of_le_of_ne hb0 (Ne.symm hcon.2))
    have hlow : (-5 : Float32) < phi := lt_of_lt_of_le_number hpoints (le_of_lt_number hleft)
    exact not_lt_of_le_number (le_of_lt_number hlow) hright
  refine ⟨?_, ?_, ?_⟩
  · rw [is_zero.lt_iff hz, ← sign_eq_one_iff, hsign, sign_eq_one_iff, sub_pos, ← ha]
    rcases hside with rfl | rfl
    · exact iff_of_false (not_lt.2 hb0) (lt_irrefl 0)
    · exact Iff.rfl
  · rw [hz.lt_iff is_zero, ← sign_eq_neg_one_iff, hsign, sign_eq_neg_one_iff, sub_neg, ← hb]
    rcases hside with rfl | rfl
    · exact Iff.rfl
    · exact iff_of_false (not_lt.2 ha0) (lt_irrefl 0)
  · rw [isZero_iff hz, ← sign_eq_zero_iff, hsign, sign_eq_zero_iff, sub_eq_zero, between_iff hphi,
      ← ha, ← hb, not_lt, not_lt]
    constructor
    · rintro rfl
      rcases hside with rfl | rfl <;> exact ⟨le_rfl, le_rfl⟩
    · rintro ⟨ha, hb⟩
      rw [le_antisymm ha ha0, le_antisymm hb hb0]

/-- The activation for a heading, and what its label makes of it. -/
theorem exists_heading_weight {heading : Float32} (hh : IsCoarse heading) (hd : IsDegree done)
    (hlt : done < 1) :
    ∃ w, Is (largest [untilDone heading done] * 40) w ∧
      Is (largest [untilDone heading done] * (-40)) (-w) ∧ AwayFromZero (-100) w ∧
      (0 ≤ w ∧ w ≤ 40) ∧ (0 < w ↔ 0 < heading) := by
  have hcoarse := isCoarse_untilDone hh hd
  obtain ⟨p, hp, hpaway, hp0, hp1⟩ := (isCoarse_zero.max hcoarse).awayFromZero
  obtain ⟨hw, hneg, haway, hw0, hw40, hsign⟩ :=
    is_mul_label hp hpaway hp0 hp1 is_forty (by norm_num) (by norm_num)
  refine ⟨_, hw, hneg, haway, ⟨hw0, hw40⟩, ?_⟩
  have hlargest : 0 < largest [untilDone heading done] ↔ 0 < heading := by
    rw [largest_pos_iff]
    simp [untilDone_pos_iff hh.isDegree hd, hlt]
  rw [← sign_eq_one_iff, hsign, sign_eq_one_iff, ← is_zero.lt_iff hp]
  exact hlargest

/-- Without obstacles beside the robot, and as long as the target is not reached, the speed turns to it. -/
theorem exists_steers (hphi : phi.isNaN = false) (hd : IsDegree done) (hlt : done < 1)
    (hl : ∀ y ∈ asideLeft, ¬0 < y) (hr : ∀ y ∈ asideRight, ¬0 < y) :
    ∃ y, (steering phi done asideLeft asideRight).crisp? (turn.labels.map Prod.snd) = some y ∧
      Steers phi (Angle.toRadians y) := by
  obtain ⟨a, ha, -, haway, ha0, hleft⟩ := exists_heading_weight (isCoarse_toLeft phi) hd hlt
  obtain ⟨b, -, hb, hbaway, hb0, hright⟩ := exists_heading_weight (isCoarse_toRight phi) hd hlt
  have hn : IsDegree (largest [untilDone (ahead phi) done, done]) :=
    (isDegree_zero.max (isCoarse_untilDone (isCoarse_ahead phi) hd).isDegree).max hd
  have hf : IsDegree (largest [untilDone (toLeft phi) done]) :=
    isDegree_zero.max (isCoarse_untilDone (isCoarse_toLeft phi) hd).isDegree
  have hg : IsDegree (largest [untilDone (toRight phi) done]) :=
    isDegree_zero.max (isCoarse_untilDone (isCoarse_toRight phi) hd).isDegree
  have hpos : ∃ m ∈ steering phi done asideLeft asideRight, 0 < m := steering_pos hphi hd
  rw [steering, largest_of_inactive hl, largest_of_inactive hr] at hpos ⊢
  have hset : ∀ m ∈ [largest [untilDone (toLeft phi) done], 0,
      largest [untilDone (ahead phi) done, done], 0, largest [untilDone (toRight phi) done]],
      IsDegree m := by
    simp [hf, hn, hg, isDegree_zero]
  obtain ⟨y, r, hy, hr, hsign⟩ := crisp?_turn_sign rfl hset hpos
    (is_weighted_steering hn ha hb ha0 hb0)
    (.sub ha.representable (by simpa using hb.representable.neg) haway hbaway)
  refine ⟨y, hy, steers_of_sign hphi hr hsign ha0.1 hb0.1 ?_ ?_⟩
  · rw [hleft, toLeft_pos_iff hphi]
  · rw [hright, toRight_pos_iff hphi]

end Steering

section Driving

variable {fast done : Float32}

/-- The activations for driving: fast, slowly near something until the target is reached, and not at all
where it is reached. -/
def driving (fast near done : Float32) : FuzzySet :=
  [largest [fast], largest [untilDone near done], largest [done], largest []]

/-- Where something is near and nothing drives fast, the speed is at most the label `Slow`. -/
theorem exists_careful (hf : Inactive fast) (hd : IsDegree done) :
    ∃ y q, (driving fast 1 done).crisp? (move.labels.map Prod.snd) = some y ∧ Is y q ∧ 0 ≤ q ∧
      q ≤ 13421773 / 2 ^ 27 := by
  obtain ⟨d, hdone, h0, h1⟩ := id hd
  obtain ⟨hrest, hrest0, -⟩ := is_complement hdone h0 h1
  have hslow : Is (largest [untilDone 1 done]) (rounded (1 - d)) := by
    rw [untilDone, min_one_left hd.complement.isDegree]
    exact hrest.largest_singleton hrest0
  have hfast : Is (largest [fast]) 0 := by
    rw [largest_of_inactive (List.forall_mem_singleton.2 hf.2)]
    exact is_zero
  exact crisp?_move_careful hfast hslow (hdone.largest_singleton h0) is_zero h0 h1

end Driving

end FuzzyMotion.Motion
