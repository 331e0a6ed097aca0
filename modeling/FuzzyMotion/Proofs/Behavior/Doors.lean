import FuzzyMotion.Proofs.Behavior.Steering
import FuzzyMotion.Proofs.Observation.Reports

/-!
The behaviors at a door. Going through a door ends exactly where the robot is half a metre behind it: there,
and nowhere before it, the door is fully crossed, and the rules that stop the robot are the only active ones.
Waiting for a door never moves the robot, not even between the steps of a cycle; whether it ends is what the
last accepted report about this door says.
-/
namespace FuzzyMotion

open Binary32 Motion FuzzyMotion.Membership

namespace Crossing

variable {way : Float32}

theorem ordered_crossed : ordered (rampUp 0 0.5).points = true := by decide

theorem hasWidths_crossed : (rampUp 0 0.5).HasWidths := by
  intro s hs
  obtain rfl := List.mem_singleton.1 hs
  decide

/-- Doubling a number below one half does not round it up to one. -/
theorem rounded_double_lt_one {r : ℚ} (hr : Representable r) (h0 : 0 < r) (h : r < 1 / 2) :
    rounded (2 * r) < 1 := by
  by_cases hbig : (2 : ℚ) ^ (-125 : ℤ) ≤ |2 * r|
  · have hhalf := rounded_half hbig
    rw [mul_div_cancel_left₀ r two_ne_zero, rounded_of_representable hr] at hhalf
    linarith
  · rw [abs_of_pos (by linarith), not_le] at hbig
    have hsmall : 2 * r ≤ 1 / 2 := hbig.le.trans (by norm_num)
    exact (rounded_le is_half.representable hsmall).trans_lt (by norm_num)

/-- Between the door and half a metre behind it, the door is not fully crossed. -/
theorem crossed_lt_one (hlow : 0 < way) (hhigh : way < 0.5) : crossed way < 1 := by
  have hcovers : (Slope.up 0 0.5).Covers way := ⟨hlow, le_of_lt_number hhigh⟩
  obtain ⟨r, hr, h0, hle⟩ := is_of_lt_of_le is_zero is_half hlow hcovers.2
  obtain ⟨hheight, -⟩ := Slope.is_height (s := .up 0 0.5) is_zero is_half hr h0 hle
    (hasWidths_crossed _ (List.mem_singleton_self _))
  have hlt : r < 1 / 2 := (hr.lt_iff is_half).1 hhigh
  have hhalf : rounded (1 / 2 - 0) = 1 / 2 := by
    rw [sub_zero, rounded_of_representable is_half.representable]
  have hpart : rounded ((Slope.up 0 0.5).exactPart 0 (1 / 2) r) = r := by
    simp only [Slope.exactPart, sub_zero, rounded_of_representable hr.representable]
  rw [hpart, hhalf, div_div_eq_mul_div, div_one, mul_comm] at hheight
  rw [crossed, degree_of_covers ordered_crossed hasWidths_crossed (List.mem_singleton_self _) hcovers]
  exact (hheight.lt_iff is_one).2 (rounded_double_lt_one hr.representable h0 hlt)

theorem crossed_eq_zero (h : way ≤ 0 ∨ way.isNaN = true) : crossed way = 0 := by
  cases h with
  | inl hle => exact degree_rampUp_of_le hle
  | inr hnan => rw [crossed, degree, if_pos hnan]

/-- The door is fully crossed exactly half a metre behind it and beyond. -/
theorem crossed_eq_one_iff : crossed way = 1 ↔ 0.5 ≤ way := by
  have hrising := rising_rampUp ordered_crossed hasWidths_crossed
  have hzero : ∀ x : Float32, x = 0 → x ≠ 1 := by
    rintro x rfl
    decide
  constructor
  · intro hone
    have hlow : ¬(way ≤ 0 ∨ way.isNaN = true) := fun h => hzero _ (crossed_eq_zero h) hone
    rw [not_or, Bool.not_eq_true] at hlow
    obtain ⟨hpos, hnumber⟩ := hlow
    refine le_of_not_lt hnumber is_half.isNaN fun hhigh => ?_
    have hlt := crossed_lt_one (lt_of_not_le hnumber is_zero.isNaN hpos) hhigh
    rw [hone] at hlt
    exact lt_irrefl 1 ((is_one.lt_iff is_one).1 hlt)
  · intro hle
    obtain ⟨-, hnumber, hvalue⟩ := le_iff_value.1 hle
    cases le_or_lt_of_number hnumber is_half.isNaN with
    | inl hge =>
      obtain ⟨-, -, hvalue'⟩ := le_iff_value.1 hge
      exact hrising.top (by decide) way
        (beq_iff_value.2 ⟨hnumber, is_half.isNaN, le_antisymm hvalue' hvalue⟩)
    | inr hlt => exact hrising.high way hlt

variable [Trig] {door : Location} {a : Activity} {o : Observation}

/-- In every state, a cycle returns how true it is that the door is crossed. -/
theorem cycle_outcome (h : a.Reachable (behavior door)) (o : Observation) (v : Verbosity) :
    (Activity.cycle o v).outcome a = .ok (crossed (progress door o.pose)) :=
  (reliable_of_reachable h).cycle_outcome (run_sense door o) h v "Crossed" rfl (by decide)

/-- Where the door is fully crossed, only `None` is active for both speeds. -/
theorem activations_of_crossed (h : crossed (progress door o.pose) = 1) :
    (tables door).activations (inputs door o) move = [0, 0, 1, 0] ∧
      (tables door).activations (inputs door o) turn = [0, 0, 1, 0, 0] := by
  have hone : Binary32.max 0 1 = 1 := by decide
  have hmeaning : ((tables door).meaning (inputs door o)).value "Crossed" = 1 := h
  constructor
  · rw [activations_move, h]
    simp only [driving, untilDone, largest, List.foldl_cons, List.foldl_nil, hone,
      (inactive_fastStatement (Or.inr hmeaning)).max_zero, (inactive_complement rfl).min_right.max_zero]
  · rw [activations_turn, h]
    simp only [steering, untilDone, largest, List.foldl_cons, List.foldl_nil, hone,
      (inactive_complement rfl).min_right.max_zero]

theorem stops (h : a.Reachable (behavior door)) (hcrossed : crossed (progress door o.pose) = 1)
    (v : Verbosity) :
    ((Activity.cycle o v).after a).linear = 0 ∧ ((Activity.cycle o v).after a).angular = 0 := by
  have hreliable := reliable_of_reachable h
  obtain ⟨hmove, hturn⟩ := activations_of_crossed hcrossed
  have hlinear : (behavior door).Renews o move 0 :=
    hreliable.renews (run_sense door o) (by simp [tables, Motion.actions]) (by
      rw [hmove]
      decide +kernel)
  have hangular : (behavior door).Renews o turn 0 :=
    hreliable.renews (run_sense door o) (by simp [tables, Motion.actions]) (by
      rw [hturn]
      decide +kernel)
  refine ⟨hlinear.linear_eq h v, ?_⟩
  rw [hangular.angular_eq h v]
  decide

end Crossing

namespace Waiting

open Inference

/-- Of both actions, only the label `None` is ever active. -/
def NoneOnly (c : Consequent) (activation : Float32) : Prop :=
  c.label ≠ 2 → activation = 0

/-- Both outputs are zero, and no label is active that could change this. -/
structure Halted (goal : String) (e : Inference) : Prop where
  steady : Steady (tables goal) e
  noneOnly : Activated NoneOnly e.sets
  linear : ∀ x, e.outputs.get? linearOutput = some x → x = 0
  angular : ∀ x, e.outputs.get? angularOutput = some x → x = 0

section Steps

variable {goal : String} {e : Inference}

/-- Both rules are for the label `None`. -/
theorem Halted.creditors (h : Halted goal e) : ∀ pair ∈ e.creditors, pair.2.label = 2 := by
  have hconsequents : e.consequents = [⟨0, 2⟩, ⟨1, 2⟩] := (Except.ok.inj h.steady.consequents).symm
  have hrules : ∀ pair ∈ rules.zip [(⟨0, 2⟩ : Consequent), ⟨1, 2⟩], pair.2.label = 2 := by decide
  rw [Inference.creditors, h.steady.base, hconsequents]
  exact hrules

theorem Halted.fuzzify (h : Halted goal e) : Halted goal (Inference.fuzzify.after e) := by
  have hsteady := h.steady.fuzzify (cautious goal)
  rw [← Operation.run_snd, run_fuzzify] at hsteady ⊢
  exact { h with steady := hsteady }

theorem Halted.applyRules (h : Halted goal e) (v : Verbosity) :
    Halted goal ((Inference.applyRules v).after e) := by
  have hsteady := h.steady.applyRules (cautious goal) v
  have hreset : Activated NoneOnly (e.sets.map FuzzySet.reset) := activated_reset (fun _ _ => rfl) e.sets
  have hmax : ∀ (c : Consequent) (x y : Float32), NoneOnly c x → c.label = 2 →
      NoneOnly c (Binary32.max x y) := fun _ _ _ _ hc hne => absurd hc hne
  have hcredit := hreset.creditAll (i := e.truths.interpretation) hmax
    fun pair hp _ _ => h.creditors pair hp
  rw [← Operation.run_snd, run_applyRules] at hsteady ⊢
  exact { h with
    steady := hsteady
    noneOnly := hcredit }

/-- The value of the label `None` is zero, and the values of the others are numbers. -/
theorem labels_of_motion : ∀ action ∈ Motion.actions,
    (action.labels.map Prod.snd)[2]? = some 0 ∧
      ∀ v ∈ action.labels.map Prod.snd, v.isFinite = true := by
  decide

/-- A mean of what is active, for either action, is zero. -/
theorem Halted.crisp?_eq_zero (h : Halted goal e) {i : ℕ} {set : FuzzySet} (hset : e.sets[i]? = some set)
    (hlen : set.length ≤ 8) {action : Action} (haction : action ∈ Motion.actions) {y : Float32}
    (hy : set.crisp? (action.labels.map Prod.snd) = some y) : y = 0 := by
  obtain ⟨hnone, hfinite⟩ := labels_of_motion action haction
  have hplace : ∀ {j : ℕ} {m : Float32}, set[j]? = some m →
      activation? e.sets ⟨i, j⟩ = some m := by
    intro j m hm
    rw [activation?, hset]
    exact hm
  have hdegree : ∀ {j : ℕ} {m : Float32}, set[j]? = some m → IsDegree m := fun hm =>
    (h.steady.activated _ _ (hplace hm)).1
  refine FuzzySet.crisp?_eq_zero hlen ?degrees _ ?products hy
  case degrees =>
    intro m hm
    obtain ⟨j, hj⟩ := List.mem_iff_getElem?.1 hm
    exact hdegree hj
  case products =>
    intro x hx
    obtain ⟨j, hj⟩ := List.mem_iff_getElem?.1 hx
    obtain ⟨m, v, hm, hv, rfl⟩ := List.getElem?_zipWith_eq_some.1 hj
    obtain ⟨q, hq, -⟩ := hdegree hm
    have hnumber := is_of_isFinite (hfinite v (List.mem_of_getElem? hv))
    by_cases hj : j = 2
    · obtain rfl : v = 0 := by
        rw [hj, hnone] at hv
        exact (Option.some.inj hv).symm
      exact hq.mul_zero is_zero
    · rw [h.noneOnly ⟨i, j⟩ m (hplace hm) hj]
      exact is_zero.zero_mul hnumber

theorem Halted.refreshed (h : Halted goal e) : Halted goal e.refreshed := by
  have hsteady := h.steady.refreshed (cautious goal)
  obtain ⟨f, s, n, k, turning, hsets, hlen⟩ := h.steady.sets_eq
  have hpairs : e.base.actions.zip e.sets = [(move, [f, s, n, k]), (turn, turning)] := by
    rw [h.steady.base, hsets]
    rfl
  have hcrisp : ∀ pair ∈ e.base.actions.zip e.sets, ∀ x,
      pair.2.crisp? (pair.1.labels.map Prod.snd) = some x → x = 0 := by
    rw [hpairs]
    simp only [List.forall_mem_cons]
    refine ⟨fun x hx => ?_, fun x hx => ?_, by simp⟩
    · exact h.crisp?_eq_zero (i := 0) (by rw [hsets]; rfl) (by simp) (by simp [Motion.actions]) hx
    · exact h.crisp?_eq_zero (i := 1) (by rw [hsets]; rfl) (by omega) (by simp [Motion.actions]) hx
  have hheld : ∀ name, (∀ x, e.outputs.get? name = some x → x = 0) →
      ∀ x, e.refreshed.outputs.get? name = some x → x = 0 := by
    intro name hname x hx
    rcases get?_refresh hx with hx | ⟨pair, hm, -, hx⟩
    · exact hname x hx
    · exact hcrisp pair hm x hx
  exact ⟨hsteady, h.noneOnly, hheld _ h.linear, hheld _ h.angular⟩

theorem halted_ofRuleBase (h : ofRuleBase (tables goal) = .ok e) : Halted goal e := by
  have hsteady := steady_ofRuleBase (cautious goal) h
  obtain ⟨-, consequents, sets, outputs, -, hz, rfl⟩ := ofRuleBase_eq_ok h
  obtain ⟨rfl, rfl⟩ : [[0, 0, 0, 0], [0, 0, 0, 0, 0]] = sets ∧
      ⟨[(linearOutput, 0), (angularOutput, 0)]⟩ = outputs := Prod.mk.inj (Except.ok.inj hz)
  have hreset : Activated NoneOnly ([[0, 0, 0, 0], [0, 0, 0, 0, 0]].map FuzzySet.reset) :=
    activated_reset (fun _ _ => rfl) _
  exact ⟨hsteady, hreset, fun x hx => (Option.some.inj hx).symm, fun x hx => (Option.some.inj hx).symm⟩

theorem halted_of_reachable (h : Inference.Reachable (tables goal) e) : Halted goal e := by
  induction h with
  | made h => exact halted_ofRuleBase h
  | called c _ ih =>
    refine preserved_by_call ?_ (fun _ h => h.fuzzify) (fun _ h => h.applyRules _)
      (fun _ h => h.refreshed) c ih
    exact fun inputs e h => { h with steady := { h.steady with } }

end Steps

section Waits

/-- The inputs that an observation gives. -/
def inputs (door : DoorId) (o : Observation) : Inputs :=
  ⟨[("door", doorValue (o.door? door))]⟩

theorem run_sense (door : DoorId) (o : Observation) :
    (sense door o).run .empty = (.ok (), inputs door o) := rfl

variable {name goal : String} {door : DoorId} {a : Activity} (hg : goal ∈ predicates.map Predicate.name)
  (h : a.Reachable ⟨name, RuleBase.enter (tables goal), sense door⟩)
include hg h

/-- In every state, the robot stands still. -/
theorem halts : a.linear = 0 ∧ a.angular = 0 := by
  have hreliable := reliable name door hg
  have hhalted := halted_of_reachable (hreliable.inference h)
  obtain ⟨x, hx⟩ := hreliable.exists_output? h hreliable.linear
  obtain ⟨y, hy⟩ := hreliable.exists_output? h hreliable.angular
  constructor
  · rw [Activity.linear, hx, Option.getD_some]
    exact hhalted.linear x hx
  · rw [Activity.angular, hy, hhalted.angular y hy]
    decide

/-- In every state, a cycle returns how true the goal is of what is known about the door. -/
theorem cycle_outcome (o : Observation) (v : Verbosity) :
    (Activity.cycle o v).outcome a = .ok (((tables goal).meaning (inputs door o)).value goal) := by
  have htokens : ∀ goal ∈ predicates.map Predicate.name,
      Token.ofText goal = (Phrase.single (.atom goal) : Statement).tokens := by decide
  have hreliable := reliable name door hg
  exact hreliable.cycle_outcome (run_sense door o) h v goal rfl (htokens goal hg)

end Waits

theorem value_open (door : DoorId) (o : Observation) :
    ((tables "DoorOpen").meaning (inputs door o)).value "DoorOpen" =
      match o.door? door with
      | some true => 1
      | some false => 0
      | none => 0.5 := by
  rw [inputs]
  rcases o.door? door with - | - | - <;> decide +kernel

theorem value_closed (door : DoorId) (o : Observation) :
    ((tables "DoorClosed").meaning (inputs door o)).value "DoorClosed" =
      match o.door? door with
      | some true => 0
      | some false => 1
      | none => 0.5 := by
  rw [inputs]
  rcases o.door? door with - | - | - <;> decide +kernel

end Waiting

variable [Trig]

/-- In every state that going through a door can reach, a cycle returns one exactly where the robot is half a
metre behind the door or farther, and then it stops the robot; before the door, and where the way is not a
number, it returns zero. In every state that waiting for a door can reach, the robot stands still; and a
cycle returns what the last accepted report about this door says, whatever was reported about others. -/
theorem ends_behind_door_or_as_reported (o : Observation) (v : Verbosity) (a : Activity) :
    let next := (Activity.cycle o v).after a
    (∀ door, a.Reachable (Crossing.behavior door) →
      let xd := Crossing.progress door o.pose
      next.input? "xd" = some xd ∧ (∃ achieved, (Activity.cycle o v).outcome a = .ok achieved) ∧
        ((Activity.cycle o v).outcome a = .ok 1 ↔ 0.5 ≤ xd) ∧
        (xd ≤ 0 ∨ xd.isNaN = true → (Activity.cycle o v).outcome a = .ok 0) ∧
        ((Activity.cycle o v).outcome a = .ok 1 → next.linear = 0 ∧ next.angular = 0)) ∧
      (∀ door, a.Reachable (Waiting.untilOpen door) ∨ a.Reachable (Waiting.untilClosed door) →
        a.linear = 0 ∧ a.angular = 0) ∧
      ∀ (door : DoorId) (before : Observation) reports,
        before.doors = .empty → o = before.afterReports reports →
        (a.Reachable (Waiting.untilOpen door) → (Activity.cycle o v).outcome a = .ok
          (match before.lastReport? reports door with
            | some true => 1
            | some false => 0
            | none => 0.5)) ∧
        (a.Reachable (Waiting.untilClosed door) → (Activity.cycle o v).outcome a = .ok
          (match before.lastReport? reports door with
            | some true => 0
            | some false => 1
            | none => 0.5)) := by
  intro next
  refine ⟨fun door h => ?crossing, fun door h => ?waiting, fun door before reports hnone ho => ?reported⟩
  case crossing =>
    intro xd
    have hout : (Activity.cycle o v).outcome a = .ok (Crossing.crossed xd) := Crossing.cycle_outcome h o v
    rw [hout, Except.ok.injEq, Except.ok.injEq]
    exact ⟨(Crossing.reliable_of_reachable h).input?_after_cycle (Crossing.run_sense door o) h v "xd",
      ⟨_, rfl⟩, Crossing.crossed_eq_one_iff, Crossing.crossed_eq_zero,
      fun hcrossed => Crossing.stops h hcrossed v⟩
  case waiting =>
    cases h with
    | inl h => exact Waiting.halts (by decide) h
    | inr h => exact Waiting.halts (by decide) h
  case reported =>
    have hknown : o.door? door = before.lastReport? reports door := by
      rw [ho, before.door?_afterReports, Observation.door?_of_noReports hnone, Option.or_none]
    constructor
    · intro h
      rw [Waiting.cycle_outcome (by decide) h, Waiting.value_open, hknown]
    · intro h
      rw [Waiting.cycle_outcome (by decide) h, Waiting.value_closed, hknown]

omit [Trig] in
/-- Half a metre behind a door, and waiting for one that was reported closed and then open. Straight ahead the
functions here give what those of the platform give. -/
theorem ends_behind_door_after_reports :
    let trig : Trig := ⟨fun x => x, fun _ => 1, fun y _ => y⟩
    let door : Location := ⟨1, 0, 0, 0.5⟩
    let before : Observation := .ofPose ⟨1.5, 0, 0⟩
    let o := before.afterReports [(3, false), (4, false), (3, true)]
    (∃ a : Activity, a.Reachable (@Crossing.behavior trig door) ∧
      (Activity.cycle o Verbosity.quiet).outcome a = .ok 1 ∧
      ((Activity.cycle o Verbosity.quiet).after a).linear = 0) ∧
      ∃ a : Activity, a.Reachable (Waiting.untilOpen 3) ∧ a.linear = 0 ∧
        (Activity.cycle o Verbosity.quiet).outcome a = .ok 1 := by
  intro trig door before o
  obtain ⟨a, hcrossing⟩ := (@Crossing.reliable trig door (by decide)).exists_reachable
  have hgoal : "DoorOpen" ∈ Waiting.predicates.map Predicate.name := by decide
  obtain ⟨c, hwaiting⟩ := (Waiting.reliable Waiting.openName 3 hgoal).exists_reachable
  obtain ⟨-, -, hdone, -, hstops⟩ :=
    (@ends_behind_door_or_as_reported trig o Verbosity.quiet a).1 door hcrossing
  obtain ⟨-, hhalts, hreported⟩ := @ends_behind_door_or_as_reported trig o Verbosity.quiet c
  have hone := hdone.2 (by decide)
  exact ⟨⟨a, hcrossing, hone, (hstops hone).1⟩, c, hwaiting, (hhalts 3 (Or.inl hwaiting)).1,
    (hreported 3 before _ rfl rfl).1 hwaiting⟩

end FuzzyMotion
