import FuzzyMotion.Pilot
import FuzzyMotion.Proofs.Behavior.Motion
import FuzzyMotion.Proofs.Behavior.Renewed
import FuzzyMotion.Proofs.Membership.Range
import FuzzyMotion.Proofs.Statement.Range

/-!
Arrival at an object. A cycle of approaching returns the degree to which the robot is there, and this
counts as arrival only near the object, as long as the distance is a number. The distance to the edge
is made non-negative before it is judged, and this also makes zero of a distance that is none.
-/
namespace FuzzyMotion.Approach

open Binary32 FuzzyMotion.Membership

section Here

variable {x : Float32} {q : ℚ}

/-- How true it is, at a distance from the edge, that the robot is there. -/
def here (gap : Float32) : Float32 :=
  (rampDown 0.1 2).degree gap

theorem is_three_tenths : Is 0.3 (10066330 / 2 ^ 25) :=
  is_of_unpack (s := .positive) (m := 10066330) (e := -25) (by decide) rfl
    (by norm_num [signFactor])

theorem is_threshold : Is achievementThreshold (15099494 / 2 ^ 24) :=
  is_of_unpack (s := .positive) (m := 15099494) (e := -24) (by decide) rfl
    (by norm_num [signFactor])

theorem is_two : Is 2 2 :=
  is_of_unpack (s := .positive) (m := 8388608) (e := -22) (by decide) rfl
    (by norm_num [signFactor])

/-- On the edge of the ramp, and not near, the degree stays below the threshold. -/
theorem fall_lt_threshold (hx : Is x q) (hlow : 10066330 / 2 ^ 25 ≤ q) (hhigh : q ≤ 2) :
    ∃ r, Is (fall 0.1 2 x) r ∧ 0 ≤ r ∧ r < 15099494 / 2 ^ 24 := by
  have hwidth : rounded (2 - 13421773 / 2 ^ 27) ≤ 2 :=
    rounded_le is_two.representable (by norm_num)
  have hbound := hwidth.trans_lt (show (2 : ℚ) < 2 ^ (128 : ℤ) by norm_num)
  obtain ⟨hfall, h0, -⟩ := is_fall Motion.is_tenth is_two hx (by linarith) hhigh hbound
  have hlong : Representable (15938355 / 2 ^ 23) :=
    ⟨15938355, -23, by norm_num, by norm_num, by norm_num⟩
  have hshort : Representable (14260634 / 2 ^ 23) :=
    ⟨14260634, -23, by norm_num, by norm_num, by norm_num⟩
  have hmost : Representable (115 / 128) := ⟨115, -7, by norm_num, by norm_num, by norm_num⟩
  have hd : 15938355 / 2 ^ 23 ≤ rounded (2 - 13421773 / 2 ^ 27) := le_rounded hlong (by norm_num)
  have hn : rounded (2 - q) ≤ 14260634 / 2 ^ 23 := rounded_le hshort (by linarith)
  refine ⟨_, hfall, h0, ?_⟩
  refine (rounded_le hmost ?_).trans_lt (by norm_num)
  rw [div_le_iff₀ (by linarith)]
  linarith

theorem value_of_not_near (hx : x.isNaN = false) (h : ¬x < 0.3) : 10066330 / 2 ^ 25 ≤ value x := by
  obtain ⟨-, -, hvalue⟩ := le_iff_value.1 (le_of_not_lt hx is_three_tenths.isNaN h)
  rwa [is_three_tenths.value_eq] at hvalue

/-- At a distance that is not near, the degree stays below the threshold. -/
theorem here_lt_threshold (hx : x.isNaN = false) (h : ¬x < 0.3) : here x < achievementThreshold := by
  have hvalue := value_of_not_near hx h
  have hramp : ¬x ≤ 0.1 := by
    intro hcon
    obtain ⟨-, -, hlow⟩ := le_iff_value.1 hcon
    rw [Motion.is_tenth.value_eq] at hlow
    linarith
  unfold here degree
  rw [hx, if_neg Bool.false_ne_true, height.eq_2, if_neg hramp]
  by_cases hfar : 2 < x
  · rw [if_pos hfar, isDegree_zero.toDegree_eq]
    exact (is_zero.lt_iff is_threshold).2 (by norm_num)
  · obtain ⟨q, hq, hlow, hhigh⟩ := is_of_le_of_le is_three_tenths is_two
      (le_of_not_lt hx is_three_tenths.isNaN h)
      (le_of_not_lt is_two.isNaN hx hfar)
    obtain ⟨r, hr, h0, hlt⟩ := fall_lt_threshold hq hlow hhigh
    have hdegree : IsDegree (fall 0.1 2 x) := ⟨r, hr, h0, by linarith⟩
    rw [if_neg hfar, hdegree.toDegree_eq]
    exact (hr.lt_iff is_threshold).2 hlt

theorem here_zero : here 0 = 1 := by
  unfold here degree
  rw [is_zero.isNaN, if_neg Bool.false_ne_true, height.eq_2, if_pos, isDegree_one.toDegree_eq]
  exact (is_zero.le_iff Motion.is_tenth).2 (by norm_num)

/-- The larger of a number that is not near and zero is this number. -/
theorem max_zero_eq_self (hx : x.isNaN = false) (h : ¬x < 0.3) : Binary32.max x 0 = x := by
  have hvalue := value_of_not_near hx h
  rw [Binary32.max]
  rw [hx, if_neg Bool.false_ne_true, if_neg]
  intro hcon
  obtain ⟨-, -, hneg⟩ := lt_iff_value.1 hcon
  rw [is_zero.value_eq] at hneg
  linarith

/-- A distance that is not a number counts as none. -/
theorem max_zero_of_isNaN (hx : x.isNaN = true) : Binary32.max x 0 = 0 := by
  rw [Binary32.max]
  rw [if_pos hx]

end Here

section Cycle

open Operation

theorem isDegree_here (gap : Float32) : IsDegree (here gap) := by
  have hedges : (rampDown 0.1 2).HasEdges := by
    change ([0.1, 2] : List Float32).IsChain Edge
    exact isChain_edge (by decide) (by decide)
  exact isDegree_degree hedges gap

variable [Trig]

/-- Approaching can be started for every target. -/
theorem start_succeeds (target : Location) :
    ∃ a, ((behavior target).start : Operation Unit Activity).outcome () = .ok a := by
  obtain ⟨a, ha⟩ := (reliable target).prepare
  exact ⟨a, by rw [← run_fst, Behavior.run_start, ha]⟩

/-- In every state, a cycle returns how true it is that the robot is there. -/
theorem cycle_outcome_eq {target : Location} {a : Activity} (h : a.Reachable (behavior target))
    (o : Observation) (v : Verbosity) :
    (Activity.cycle o v).outcome a = .ok (here (gapTo target o.pose)) :=
  (reliable target).cycle_outcome (run_sense target o) h v "TargetHere" rfl (by decide)

/-- The distance from the robot to the edge of the target, negative inside it. -/
def distanceTo (target : Location) (pose : Pose) : Float32 :=
  (pose.polar target.center).2 - target.radius

/-- A cycle of approaching always returns. That this counts as arrival only at a known distance, and
near, holds exactly where the distance is a number; where it is none, the robot has arrived. -/
theorem arrives_near_iff_distance_known {target : Location} {a : Activity}
    (h : a.Reachable (behavior target)) (o : Observation) (v : Verbosity) :
    ∃ achieved, (Activity.cycle o v).outcome a = .ok achieved ∧
      ((achievementThreshold ≤ achieved →
          (distanceTo target o.pose).isNaN = false ∧ distanceTo target o.pose < 0.3) ↔
        (distanceTo target o.pose).isNaN = false) ∧
      ((distanceTo target o.pose).isNaN = true → achieved = 1) := by
  refine ⟨here (gapTo target o.pose), cycle_outcome_eq h o v, ?_⟩
  have hgap : gapTo target o.pose = Binary32.max (distanceTo target o.pose) 0 := rfl
  rw [hgap]
  generalize distanceTo target o.pose = distance
  have hlost : distance.isNaN = true → here (Binary32.max distance 0) = 1 := by
    intro hn
    rw [max_zero_of_isNaN hn, here_zero]
  refine ⟨⟨?_, ?_⟩, hlost⟩
  · intro hlaw
    by_contra hn
    have hone : here (Binary32.max distance 0) = 1 := hlost (Bool.eq_true_of_not_eq_false hn)
    rw [hone] at hlaw
    exact hn (hlaw ((is_threshold.le_iff is_one).2 (by norm_num))).1
  · intro hn harrived
    refine ⟨hn, ?_⟩
    by_contra hfar
    rw [max_zero_eq_self hn hfar] at harrived
    obtain ⟨-, -, hge⟩ := le_iff_value.1 harrived
    obtain ⟨-, -, hlt⟩ := lt_iff_value.1 (here_lt_threshold hn hfar)
    exact absurd hlt (not_lt.2 hge)

omit [Trig] in
/-- A robot that has lost its position arrives at once. For this heading and these coordinates the
functions here give what those of the platform give. -/
theorem arrives_without_position :
    let trig : Trig := ⟨fun x => x, fun _ => 1, fun y x => y + x⟩
    let nan : Float32 := Float32.ofBits 0x7FC00000
    let target : Location := ⟨3, 0, 0, 0⟩
    let o : Observation := .ofPose ⟨nan, nan, 0⟩
    ∃ a, Activity.Reachable (@behavior trig target) a ∧
      (@distanceTo trig target o.pose).isNaN = true ∧
      ∃ achieved, (Activity.cycle o Verbosity.quiet).outcome a = .ok achieved ∧
        achievementThreshold ≤ achieved := by
  intro trig nan target o
  obtain ⟨a, ha⟩ := @start_succeeds trig target
  have hlost : (@distanceTo trig target o.pose).isNaN = true := by decide +kernel
  obtain ⟨achieved, hout, -, hone⟩ :=
    @arrives_near_iff_distance_known trig target a (.started ha) o Verbosity.quiet
  refine ⟨a, .started ha, hlost, achieved, hout, ?_⟩
  rw [hone hlost]
  exact (is_threshold.le_iff is_one).2 (by norm_num)

end Cycle

end FuzzyMotion.Approach
