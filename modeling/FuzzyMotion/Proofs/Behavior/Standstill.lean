import FuzzyMotion.Proofs.Behavior.Arrival
import FuzzyMotion.Proofs.Behavior.Renewed
import FuzzyMotion.Proofs.Behavior.Tables
import FuzzyMotion.Proofs.Behavior.Turning

/-!
What a robot does that is fully there. The rules that drive it and those that turn it to the target are
off then, but those that turn it away from an obstacle beside it are not: they never ask whether it is
there. So it does not drive, and it turns to the side with the more room, if one has more.
-/
namespace FuzzyMotion

open Binary32 FuzzyMotion.Membership

namespace Motion

open FuzzySet

/-- What the two labels beside `None` make of a degree. -/
theorem is_mul_ten {x : Float32} {p : ℚ} (hp : Is x p) (haway : AwayFromZero (-100) p) (h0 : 0 ≤ p)
    (h1 : p ≤ 1) :
    let q := rounded (p * 10)
    Is (x * 10) q ∧ Is (x * (-10)) (-q) ∧ AwayFromZero (-100) q ∧ 0 ≤ q ∧ q ≤ 10 := by
  obtain ⟨hq, hneg, hround, h0, h10, -⟩ :=
    is_mul_label hp haway h0 h1 is_ten (by norm_num) (by norm_num)
  exact ⟨hq, hneg, hround, h0, h10⟩

theorem is_value_mul_ten {x : Float32} (hx : IsCoarse x) : Is (x * 10) (value (x * 10)) := by
  obtain ⟨p, hp, haway, h0, h1⟩ := hx.awayFromZero
  have hten := (is_mul_ten hp haway h0 h1).1
  rwa [hten.value_eq]

/-- An activation weighs what the degree weighs from which it comes. -/
theorem value_max_zero_mul_ten {x : Float32} (hx : IsCoarse x) :
    value (Binary32.max 0 x * 10) = value (x * 10) := by
  obtain ⟨p, hp, haway, h0, h1⟩ := hx.awayFromZero
  have hmax : Is (Binary32.max 0 x) p := by
    have := is_zero.max hp
    rwa [sup_eq_right.2 h0] at this
  rw [(is_mul_ten hmax haway h0 h1).1.value_eq, (is_mul_ten hp haway h0 h1).1.value_eq]

/-- The labels to both sides cancel out as far as their activations are equal. -/
theorem is_weighted_aside {r l : Float32} {a b : ℚ} (ha : Is (r * 10) a) (hb : Is (l * (-10)) (-b))
    (ha0 : 0 ≤ a ∧ a ≤ 10) (hb0 : 0 ≤ b ∧ b ≤ 10) :
    Is (FuzzySet.weighted [0, r, 1, l, 0] (turn.labels.map Prod.snd)) (rounded (a - b)) := by
  obtain ⟨n₁, hleft, -⟩ := turn_labels 40 (by simp [turn])
  obtain ⟨n₂, hright, -⟩ := turn_labels (-40) (by simp [turn])
  have hdiff : |rounded (a + -b)| ≤ 10 :=
    abs_rounded_le is_ten.representable (abs_le.2 ⟨by linarith, by linarith⟩)
  have hw₁ : Is (0 + 0 * 40 + r * 10) a :=
    (is_zero.zero_add (is_zero.zero_mul hleft)).zero_add ha
  have hw₂ : Is (0 + 0 * 40 + r * 10 + 1 * 0) a := hw₁.add_zero (is_one.mul_zero is_zero)
  have hw₃ : Is (0 + 0 * 40 + r * 10 + 1 * 0 + l * (-10)) (rounded (a + -b)) :=
    hw₂.add hb (lt_two_zpow_128_of_le hdiff (by norm_num))
  have hw₄ : Is (0 + 0 * 40 + r * 10 + 1 * 0 + l * (-10) + 0 * (-40)) (rounded (a + -b)) :=
    hw₃.add_zero (is_zero.zero_mul hright)
  rw [sub_eq_add_neg]
  exact hw₄

/-- Between an obstacle on the right and one on the left, with the label `None` fully active, the speed has
the sign of the difference of the two. -/
theorem crisp?_turn_aside {r l : Float32} (hr : IsCoarse r) (hl : IsCoarse l) :
    ∃ y z, crisp? [0, r, 1, l, 0] (turn.labels.map Prod.snd) = some y ∧ Is (Angle.toRadians y) z ∧
      SignType.sign z = SignType.sign (value (r * 10) - value (l * 10)) := by
  obtain ⟨p, hp, hpaway, hp0, hp1⟩ := hr.awayFromZero
  obtain ⟨q, hq, hqaway, hq0, hq1⟩ := hl.awayFromZero
  obtain ⟨ha, -, haway, ha0⟩ := is_mul_ten hp hpaway hp0 hp1
  obtain ⟨hb, hbneg, hbaway, hb0⟩ := is_mul_ten hq hqaway hq0 hq1
  rw [ha.value_eq, hb.value_eq]
  have hdegrees : ∀ m ∈ [0, r, 1, l, 0], IsDegree m := by
    simp [isDegree_zero, isDegree_one, hr.isDegree, hl.isDegree]
  have hone : ∃ m ∈ [0, r, 1, l, 0], 0 < m := ⟨1, by simp, (is_zero.lt_iff is_one).2 zero_lt_one⟩
  exact crisp?_turn_sign rfl hdegrees hone (is_weighted_aside ha hbneg ha0 hb0)
    (.sub ha.representable hb.representable haway hbaway)

end Motion

namespace Approach

open Inference Operation Motion

/-- What holds at most to the degree to which the robot is not there. -/
def unlessHere (name : String) : Statement :=
  .both .and (.atom name) (.negation (.single (.atom "TargetHere")))

/-- The antecedents of the rules, in their order. -/
def antecedents : List Statement :=
  [unlessHere "TargetLeft", unlessHere "TargetRight", unlessHere "TargetAhead",
    fastStatement "TargetHere" "ObstacleFront", unlessHere "ObstacleFront",
    .single (.atom "ObstacleLeft"), .single (.atom "ObstacleRight"),
    .single (.atom "TargetHere"), .single (.atom "TargetHere")]

theorem tokens_antecedents : ∀ pair ∈ rules.zip antecedents,
    Token.ofText pair.1.antecedent = pair.2.tokens := by
  set_option maxRecDepth 2000 in decide

theorem inactive_unlessHere {i : Interpretation} (h : i.value "TargetHere" = 1) (name : String) :
    Inactive ((unlessHere name).degree i) :=
  (inactive_complement h).min_right

/-- How true it is, at a clearance, that there is an obstacle on this side. -/
def beside (clearance : Float32) : Float32 :=
  (rampDown 0.3 0.8).degree clearance

theorem is_eight_tenths : Is 0.8 (13421773 / 2 ^ 24) :=
  is_of_unpack (s := .positive) (m := 13421773) (e := -24) (by decide) rfl
    (by norm_num [signFactor])

theorem isCoarse_beside (clearance : Float32) : IsCoarse (beside clearance) := by
  refine isCoarse_rampDown is_three_tenths is_eight_tenths ?_ ?_ clearance <;> norm_num

variable [Trig]

/-- The levels of the rules, by the statements that they are. -/
theorem levels_eq (target : Location) (o : Observation) (action label : String) :
    tables.levels (inputs target o) action label = (rules.zip antecedents).filterMap fun pair =>
      if pair.1.action = action ∧ pair.1.label = label then
        some (pair.2.degree (tables.meaning (inputs target o))) else none :=
  RuleBase.levels_of_statements check_tables (missing?_inputs target o) rfl tokens_antecedents action
    label

/-- The activations for driving: one rule for each of the first three labels, none for `Back`. -/
theorem activations_move (target : Location) (o : Observation) :
    let i := tables.meaning (inputs target o)
    tables.activations (inputs target o) move =
      [largest [(fastStatement "TargetHere" "ObstacleFront").degree i],
        largest [(unlessHere "ObstacleFront").degree i], largest [i.value "TargetHere"],
        largest []] := by
  simp only [RuleBase.activations, levels_eq]
  rfl

/-- The activations for turning: a rule for every label, and two for `None`. -/
theorem activations_turn (target : Location) (o : Observation) :
    let i := tables.meaning (inputs target o)
    tables.activations (inputs target o) turn =
      [largest [(unlessHere "TargetLeft").degree i],
        largest [beside (Clearance.ofSonars o.sonars).right],
        largest [(unlessHere "TargetAhead").degree i, i.value "TargetHere"],
        largest [beside (Clearance.ofSonars o.sonars).left],
        largest [(unlessHere "TargetRight").degree i]] := by
  simp only [RuleBase.activations, levels_eq]
  rfl

/-- Where the robot is fully there, only `None` is active for driving, and for turning `None` and what
leads away from the sides. -/
theorem activations_of_here {target : Location} {o : Observation}
    (h : here (gapTo target o.pose) = 1) :
    tables.activations (inputs target o) move = [0, 0, 1, 0] ∧
      tables.activations (inputs target o) turn =
        [0, Binary32.max 0 (beside (Clearance.ofSonars o.sonars).right), 1,
          Binary32.max 0 (beside (Clearance.ofSonars o.sonars).left), 0] := by
  have hhere : (tables.meaning (inputs target o)).value "TargetHere" = 1 := h
  have hone : Binary32.max 0 1 = 1 := by decide
  constructor
  · simp only [activations_move, hhere, largest, List.foldl_cons, List.foldl_nil, hone,
      (inactive_fastStatement (Or.inl hhere)).max_zero, (inactive_unlessHere hhere _).max_zero]
  · simp only [activations_turn, hhere, largest, List.foldl_cons, List.foldl_nil, hone,
      (inactive_unlessHere hhere _).max_zero]

/-- What a cycle sets an output to where some label of its action is active. -/
theorem output?_after_cycle {target : Location} {a : Activity} (h : a.Reachable (behavior target))
    (o : Observation) (v : Verbosity) {action : Action} (ha : action ∈ Motion.actions) {y : Float32}
    (hy : (tables.activations (inputs target o) action).crisp? (action.labels.map Prod.snd) =
      some y) :
    ((Activity.cycle o v).after a).output? action.output = some y :=
  ((reliable target).renews (run_sense target o) ha hy).output v h

/-- Where the robot is fully there, its angular speed has the sign of the difference of both sides. -/
theorem sign_angular_of_here {target : Location} {a : Activity} (h : a.Reachable (behavior target))
    {o : Observation} (hhere : here (gapTo target o.pose) = 1) (v : Verbosity) :
    ∃ q, Is ((Activity.cycle o v).after a).angular q ∧ SignType.sign q =
      SignType.sign (value (beside (Clearance.ofSonars o.sonars).right * 10) -
        value (beside (Clearance.ofSonars o.sonars).left * 10)) := by
  obtain ⟨-, hturn⟩ := activations_of_here hhere
  obtain ⟨y, q, hcrisp, hy, hsign⟩ := crisp?_turn_aside
    (isCoarse_zero.max (isCoarse_beside (Clearance.ofSonars o.sonars).right))
    (isCoarse_zero.max (isCoarse_beside (Clearance.ofSonars o.sonars).left))
  have hangular : ((Activity.cycle o v).after a).output? angularOutput = some y := by
    refine output?_after_cycle h o v (show turn ∈ Motion.actions by simp [Motion.actions]) ?_
    rw [hturn, hcrisp]
  refine ⟨q, ?_, ?_⟩
  · rw [Activity.angular, hangular]
    exact hy
  · rw [hsign, value_max_zero_mul_ten (isCoarse_beside _), value_max_zero_mul_ten (isCoarse_beside _)]

/-- After a cycle that returns one, the robot does not drive. It turns away from the side on which there
is more of an obstacle, and it stands still exactly where both sides weigh the same. -/
theorem stands_still_iff_sides_balance {target : Location} {a : Activity}
    (h : a.Reachable (behavior target)) (o : Observation) (v : Verbosity)
    (hdone : (Activity.cycle o v).outcome a = .ok 1) :
    let next := (Activity.cycle o v).after a
    let left := beside (Clearance.ofSonars o.sonars).left
    let right := beside (Clearance.ofSonars o.sonars).right
    next.linear = 0 ∧
      (isZero next.angular = true ↔ left * 10 ≤ right * 10 ∧ right * 10 ≤ left * 10) ∧
      (0 < next.angular ↔ left * 10 < right * 10) ∧
      (next.angular < 0 ↔ right * 10 < left * 10) := by
  intro next left right
  have hhere : here (gapTo target o.pose) = 1 := by
    rw [cycle_outcome_eq h o v] at hdone
    exact Except.ok.inj hdone
  obtain ⟨hmove, -⟩ := activations_of_here hhere
  have hlinear : next.output? linearOutput = some 0 := by
    refine output?_after_cycle h o v (show move ∈ Motion.actions by simp [Motion.actions]) ?_
    rw [hmove]
    decide +kernel
  obtain ⟨q, hangular, hsign⟩ := sign_angular_of_here h hhere v
  refine ⟨?_, signs_of_difference hangular (is_value_mul_ten (isCoarse_beside _))
    (is_value_mul_ten (isCoarse_beside _)) hsign⟩
  rw [Activity.linear, hlinear]
  rfl

omit [Trig] in
/-- A robot on its target, with an obstacle to its left. For these angles the functions here give what those
of the platform give. -/
theorem turns_on_target_beside_obstacle :
    let trig : Trig := ⟨fun x => x, fun _ => 1, fun y _ => if 0 < y then 1.5707964 else 0⟩
    let target : Location := ⟨1, 1, 0, 0⟩
    let o : Observation := ⟨⟨1, 1, 0⟩, [⟨⟨-0.3, 0.4, 0⟩, 0.3⟩], .empty⟩
    ∃ a, Activity.Reachable (@behavior trig target) a ∧
      (Activity.cycle o Verbosity.quiet).outcome a = .ok 1 ∧
      ((Activity.cycle o Verbosity.quiet).after a).angular < 0 := by
  intro trig target o
  obtain ⟨a, ha⟩ := @start_succeeds trig target
  have hdone : (Activity.cycle o Verbosity.quiet).outcome a = .ok 1 := by
    rw [@cycle_outcome_eq trig target a (.started ha) o Verbosity.quiet]
    decide +kernel
  obtain ⟨-, -, -, hturn⟩ :=
    @stands_still_iff_sides_balance trig target a (.started ha) o Verbosity.quiet hdone
  refine ⟨a, .started ha, hdone, hturn.2 ?_⟩
  decide +kernel

end Approach

end FuzzyMotion
