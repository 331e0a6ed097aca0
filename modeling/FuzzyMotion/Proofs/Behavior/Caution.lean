import FuzzyMotion.Proofs.Behavior.Doorway
import FuzzyMotion.Proofs.Behavior.Standstill

/-!
Caution. Close to an obstacle ahead, and within the radius of a door, the label `Fast` is not active at all,
and `Slow` and `None` share the whole activation between them. So the linear speed is at most that of `Slow`,
whatever the target or the way through the door says, and it is never one that an earlier cycle has left.
-/
namespace FuzzyMotion

open Binary32 Motion FuzzyMotion.Membership

/-- The activations for driving near something set a careful speed. -/
theorem Behavior.Reliable.careful {behavior : Behavior} {b : RuleBase} {a : Activity} {o : Observation}
    {inputs : Inputs} {fast done : Float32} (h : behavior.Reliable b)
    (hs : (behavior.sense o).run .empty = (.ok (), inputs)) (hmove : move ∈ b.actions)
    (hset : b.activations inputs move = driving fast 1 done) (hf : Inactive fast)
    (hd : IsDegree done) (ha : a.Reachable behavior) (v : Verbosity) :
    ∃ y, behavior.Renews o move y ∧ ((Activity.cycle o v).after a).linear = y ∧ 0 ≤ y ∧ y ≤ 0.1 := by
  obtain ⟨y, q, hy, hq, h0, hslow⟩ := exists_careful hf hd
  have hrenews : behavior.Renews o move y := h.renews hs hmove (by rw [hset, hy])
  exact ⟨y, hrenews, hrenews.linear_eq ha v, (is_zero.le_iff hq).2 h0, (hq.le_iff is_tenth).2 hslow⟩

variable [Trig]

theorem Approach.careful {target : Location} {a : Activity} {o : Observation}
    (h : a.Reachable (behavior target)) (hfront : (Clearance.ofSonars o.sonars).front ≤ 0.4)
    (v : Verbosity) :
    ∃ y, (behavior target).Renews o move y ∧ ((Activity.cycle o v).after a).linear = y ∧ 0 ≤ y ∧
      y ≤ 0.1 := by
  have hnear : (tables.meaning (inputs target o)).value "ObstacleFront" = 1 :=
    degree_rampDown_of_le hfront
  have hset : tables.activations (inputs target o) move =
      driving ((fastStatement "TargetHere" "ObstacleFront").degree (tables.meaning (inputs target o)))
        1 (here (gapTo target o.pose)) := by
    rw [activations_move, ← hnear]
    rfl
  exact (reliable target).careful (run_sense target o) (by simp [tables, Motion.actions]) hset
    (inactive_fastStatement (Or.inr hnear)) (isDegree_here _) h v

theorem Crossing.careful {door : Location} {a : Activity} {o : Observation}
    (h : a.Reachable (behavior door)) (hgap : (o.pose.polar door.center).2 ≤ door.radius)
    (v : Verbosity) :
    ∃ y, (behavior door).Renews o move y ∧ ((Activity.cycle o v).after a).linear = y ∧ 0 ≤ y ∧
      y ≤ 0.1 := by
  have hnear : nearDoor door (o.pose.polar door.center).2 = 1 := degree_rampDown_of_le hgap
  have hset := activations_move door o
  rw [hnear] at hset
  exact (reliable_of_reachable h).careful (run_sense door o) (by simp [tables, Motion.actions]) hset
    (inactive_fastStatement (Or.inl hnear)) (isDegree_crossed _) h v

/-- In every state that approaching can reach, a cycle with at most 0.4 metres in front of the robot, and in
every state that crossing can reach, a cycle within the radius of the door, sets a linear speed between zero
and the label `Slow`, and computes it from the activations of this cycle. -/
theorem careful_whatever_came_before (o : Observation) (v : Verbosity) (a : Activity) :
    let next := (Activity.cycle o v).after a
    (∀ target front, a.Reachable (Approach.behavior target) → next.input? "front" = some front →
      front ≤ 0.4 →
        ∃ y, (Approach.behavior target).Renews o move y ∧ next.linear = y ∧ 0 ≤ y ∧ y ≤ 0.1) ∧
      ∀ door gap, a.Reachable (Crossing.behavior door) → next.input? "gap" = some gap →
        gap ≤ door.radius →
          ∃ y, (Crossing.behavior door).Renews o move y ∧ next.linear = y ∧ 0 ≤ y ∧ y ≤ 0.1 := by
  intro next
  refine ⟨fun target front h hfront hle => ?_, fun door gap h hgap hle => ?_⟩
  · have hinput : next.input? "front" = some (Clearance.ofSonars o.sonars).front :=
      (Approach.reliable target).input?_after_cycle (Approach.run_sense target o) h v "front"
    rw [← Option.some.inj (hinput.symm.trans hfront)] at hle
    exact Approach.careful h hle v
  · have hinput : next.input? "gap" = some (o.pose.polar door.center).2 :=
      (Crossing.reliable_of_reachable h).input?_after_cycle (Crossing.run_sense door o) h v "gap"
    rw [← Option.some.inj (hinput.symm.trans hgap)] at hle
    exact Crossing.careful h hle v

omit [Trig] in
/-- Close to an obstacle after a cycle with free sight, and in a doorway after a cycle far from it. Both
robots have driven at the speed of `Fast` before. Straight ahead the functions here give what those of the
platform give. -/
theorem careful_after_free_sight :
    let trig : Trig := ⟨fun x => x, fun _ => 1, fun y _ => y⟩
    let target : Location := ⟨3, 0, 0, 0⟩
    let door : Location := ⟨1, 0, 0, 1.5⟩
    let free : Observation := .ofPose ⟨0, 0, 0⟩
    let close : Observation := ⟨⟨0, 0, 0⟩, [⟨⟨0, 0, 0⟩, 0.3⟩], .empty⟩
    let far : Observation := .ofPose ⟨-4, 0, 0⟩
    (∃ a : Activity, a.Reachable (@Approach.behavior trig target) ∧
      let before := (Activity.cycle free Verbosity.quiet).after a
      let next := (Activity.cycle close Verbosity.quiet).after before
      before.linear = 0.5 ∧ (∃ front, next.input? "front" = some front ∧ front ≤ 0.4) ∧
        ∃ y, (@Approach.behavior trig target).Renews close move y ∧ next.linear = y ∧ 0 ≤ y ∧
          y ≤ 0.1) ∧
      ∃ a : Activity, a.Reachable (@Crossing.behavior trig door) ∧
        let before := (Activity.cycle far Verbosity.quiet).after a
        let next := (Activity.cycle free Verbosity.quiet).after before
        before.linear = 0.5 ∧ (∃ gap, next.input? "gap" = some gap ∧ gap ≤ door.radius) ∧
          ∃ y, (@Crossing.behavior trig door).Renews free move y ∧ next.linear = y ∧ 0 ≤ y ∧
            y ≤ 0.1 := by
  intro trig target door free close far
  have happroach := @Approach.reliable trig target
  have hcrossing := @Crossing.reliable trig door (by decide)
  obtain ⟨a, hreachable⟩ := happroach.exists_reachable
  obtain ⟨c, hentered⟩ := hcrossing.exists_reachable
  have hdriven := Activity.Reachable.cycled free Verbosity.quiet hreachable
  have hneared := Activity.Reachable.cycled far Verbosity.quiet hentered
  have hfree : (@Approach.behavior trig target).Renews free move 0.5 :=
    happroach.renews (@Approach.run_sense trig target free) (by simp [Approach.tables, Motion.actions])
      (by decide +kernel)
  have hfar : (@Crossing.behavior trig door).Renews far move 0.5 :=
    hcrossing.renews (@Crossing.run_sense trig door far) (by simp [Crossing.tables, Motion.actions])
      (by decide +kernel)
  have hfront := happroach.input?_after_cycle (@Approach.run_sense trig target close) hdriven
    Verbosity.quiet "front"
  have hgap := hcrossing.input?_after_cycle (@Crossing.run_sense trig door free) hneared
    Verbosity.quiet "gap"
  have hclose : (@Clearance.ofSonars trig close.sonars).front ≤ 0.4 := by decide +kernel
  have hnear : (@Pose.polar trig free.pose door.center).2 ≤ door.radius := by decide +kernel
  have happroaches := (@careful_whatever_came_before trig close Verbosity.quiet _).1 target _ hdriven
    hfront hclose
  have hcrosses := (@careful_whatever_came_before trig free Verbosity.quiet _).2 door _ hneared
    hgap hnear
  exact ⟨⟨a, hreachable, hfree.linear_eq hreachable Verbosity.quiet, ⟨_, hfront, hclose⟩, happroaches⟩,
    c, hentered, hfar.linear_eq hentered Verbosity.quiet, ⟨_, hgap, hnear⟩, hcrosses⟩

end FuzzyMotion
