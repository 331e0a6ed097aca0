import FuzzyMotion.Proofs.Behavior.Doorway
import FuzzyMotion.Proofs.Behavior.Standstill

/-!
Steering. As long as the bearing of the target is a number, a cycle sets the angular speed anew: some label
is active for every bearing and every degree to which the target is reached. Until the target is reached,
and without obstacles beside the robot, this speed turns to the target.
-/
namespace FuzzyMotion

open Binary32 Motion FuzzyMotion.Membership

namespace Behavior

variable {behavior : Behavior} {b : RuleBase} {a : Activity} {o : Observation} {inputs : Inputs}
variable {phi done : Float32} {asideLeft asideRight : List Float32}

section Steering

variable (h : behavior.Reliable b) (hs : (behavior.sense o).run .empty = (.ok (), inputs))
  (hturn : turn ∈ b.actions)
  (hset : b.activations inputs turn = steering phi done asideLeft asideRight)
include h hs hturn hset

/-- The activations for steering set the speed anew. -/
theorem Reliable.renews_turn (hphi : phi.isNaN = false) (hd : IsDegree done) :
    ∃ y, behavior.Renews o turn y :=
  h.exists_renews hs hturn (by rw [hset]; exact steering_pos hphi hd)

theorem Reliable.steers (hphi : phi.isNaN = false) (hd : IsDegree done) (hlt : done < 1)
    (hl : ∀ y ∈ asideLeft, ¬0 < y) (hr : ∀ y ∈ asideRight, ¬0 < y) (ha : a.Reachable behavior)
    (v : Verbosity) : Steers phi ((Activity.cycle o v).after a).angular := by
  obtain ⟨y, hy, hsteers⟩ := exists_steers hphi hd hlt hl hr
  have hrenews : behavior.Renews o turn y := h.renews hs hturn (by rw [hset, hy])
  rwa [hrenews.angular_eq ha v]

end Steering

end Behavior

variable [Trig]

namespace Approach

variable (target : Location) (o : Observation)

theorem activations_eq_steering :
    tables.activations (inputs target o) turn =
      steering (o.pose.polar target.center).1 (here (gapTo target o.pose))
        [beside (Clearance.ofSonars o.sonars).right] [beside (Clearance.ofSonars o.sonars).left] := by
  rw [activations_turn]
  rfl

omit [Trig] in
/-- An obstacle at 0.8 metres or more does not turn the robot aside. -/
theorem not_beside {clearance : Float32} (h : 0.8 ≤ clearance) : ¬0 < beside clearance := by
  have hpos : 0 < beside clearance ↔ clearance < 0.8 := by
    refine rampDown_pos_iff is_three_tenths is_eight_tenths ?_ ?_ ?_ (le_iff_value.1 h).2.1 <;> norm_num
  rw [hpos]
  exact not_lt_of_le_number h

theorem renews_turn {target : Location} {o : Observation}
    (hphi : (o.pose.polar target.center).1.isNaN = false) :
    ∃ y, (behavior target).Renews o turn y :=
  (reliable target).renews_turn (run_sense target o) (by simp [tables, Motion.actions])
    (activations_eq_steering target o) hphi (isDegree_here _)

theorem steers {target : Location} {o : Observation} {a : Activity} (h : a.Reachable (behavior target))
    (hphi : (o.pose.polar target.center).1.isNaN = false) (hlt : here (gapTo target o.pose) < 1)
    (hl : 0.8 ≤ (Clearance.ofSonars o.sonars).left) (hr : 0.8 ≤ (Clearance.ofSonars o.sonars).right)
    (v : Verbosity) :
    Steers (o.pose.polar target.center).1 ((Activity.cycle o v).after a).angular :=
  (reliable target).steers (run_sense target o) (by simp [tables, Motion.actions])
    (activations_eq_steering target o) hphi (isDegree_here _) hlt
    (List.forall_mem_singleton.2 (not_beside hr)) (List.forall_mem_singleton.2 (not_beside hl)) h v

end Approach

namespace Crossing

variable {door : Location} {o : Observation} {a : Activity} (h : a.Reachable (behavior door))
  (hphi : (o.pose.polar (exit door)).1.isNaN = false)
include h hphi

theorem renews_turn : ∃ y, (behavior door).Renews o turn y :=
  (reliable_of_reachable h).renews_turn (run_sense door o) (by simp [tables, Motion.actions])
    (activations_turn door o) hphi (isDegree_crossed _)

theorem steers (hlt : crossed (progress door o.pose) < 1) (v : Verbosity) :
    Steers (o.pose.polar (exit door)).1 ((Activity.cycle o v).after a).angular :=
  (reliable_of_reachable h).steers (run_sense door o) (by simp [tables, Motion.actions])
    (activations_turn door o) hphi (isDegree_crossed _) hlt (by simp) (by simp) h v

end Crossing

/-- In every state that approaching can reach, a cycle without obstacles beside the robot turns it to the
target until it is fully there; and crossing turns it to the point behind the door until the door is fully
crossed. The speed is positive for a bearing of more than five degrees to the left, negative for one of more
than five degrees to the right, and zero between. -/
theorem turns_to_target (o : Observation) (v : Verbosity) (a : Activity) :
    let next := (Activity.cycle o v).after a
    (∀ target left right phi here, a.Reachable (Approach.behavior target) →
      next.input? "left" = some left → next.input? "right" = some right → 0.8 ≤ left → 0.8 ≤ right →
        next.truth? "TargetHere" = some here → here < 1 → next.input? "phi" = some phi →
          phi.isNaN = false → Steers phi next.angular) ∧
      ∀ door phi crossed, a.Reachable (Crossing.behavior door) →
        next.truth? "Crossed" = some crossed → crossed < 1 → next.input? "phi" = some phi →
          phi.isNaN = false → Steers phi next.angular := by
  intro next
  constructor
  · intro target left right phi here h hleft hright hl hr hhere hlt hphi hnumber
    have hinput := (Approach.reliable target).input?_after_cycle (Approach.run_sense target o) h v
    have htruth := (Approach.reliable target).truth?_after_cycle (Approach.run_sense target o) h v
    obtain rfl := Option.some.inj ((hinput "left").symm.trans hleft)
    obtain rfl := Option.some.inj ((hinput "right").symm.trans hright)
    obtain rfl := Option.some.inj ((hinput "phi").symm.trans hphi)
    obtain rfl := Option.some.inj ((htruth "TargetHere").symm.trans hhere)
    exact Approach.steers h hnumber hlt hl hr v
  · intro door phi crossed h hcrossed hlt hphi hnumber
    have hreliable := Crossing.reliable_of_reachable h
    have hinput := hreliable.input?_after_cycle (Crossing.run_sense door o) h v "phi"
    have htruth := hreliable.truth?_after_cycle (Crossing.run_sense door o) h v "Crossed"
    obtain rfl := Option.some.inj (hinput.symm.trans hphi)
    obtain rfl := Option.some.inj (htruth.symm.trans hcrossed)
    exact Crossing.steers h hnumber hlt v

omit [Trig] in
/-- A target, and the point behind a door, both half a right angle to the left. For these angles the functions
here give what those of the platform give. -/
theorem turns_left_to_target :
    let trig : Trig := ⟨fun x => x, fun _ => 1, fun y _ => if 0 < y then 0.7853982 else 0⟩
    let target : Location := ⟨1, 1, 0, 0⟩
    let door : Location := ⟨1, 2, 0, 0.5⟩
    let o : Observation := .ofPose ⟨0, 0, 0⟩
    (∃ a : Activity, a.Reachable (@Approach.behavior trig target) ∧
      let next := (Activity.cycle o Verbosity.quiet).after a
      (∃ here, next.truth? "TargetHere" = some here ∧ here < 1) ∧ 0 < next.angular) ∧
      ∃ a : Activity, a.Reachable (@Crossing.behavior trig door) ∧
        let next := (Activity.cycle o Verbosity.quiet).after a
        (∃ crossed, next.truth? "Crossed" = some crossed ∧ crossed < 1) ∧ 0 < next.angular := by
  intro trig target door o
  have happroach := @Approach.reliable trig target
  have hcrossing := @Crossing.reliable trig door (by decide)
  obtain ⟨a, hstarted⟩ := happroach.exists_reachable
  obtain ⟨c, hentered⟩ := hcrossing.exists_reachable
  have hinput := happroach.input?_after_cycle (@Approach.run_sense trig target o) hstarted Verbosity.quiet
  have htruth := happroach.truth?_after_cycle (@Approach.run_sense trig target o) hstarted Verbosity.quiet
  have hsensed := hcrossing.input?_after_cycle (@Crossing.run_sense trig door o) hentered Verbosity.quiet
  have hknown := hcrossing.truth?_after_cycle (@Crossing.run_sense trig door o) hentered Verbosity.quiet
  have hhere : @Approach.here (@Approach.gapTo trig target o.pose) < 1 := by decide +kernel
  have hcrossed : Crossing.crossed (@Crossing.progress trig door o.pose) < 1 := by decide
  have hsteers := (@turns_to_target trig o Verbosity.quiet a).1 target _ _ _ _ hstarted (hinput "left")
    (hinput "right") (by decide) (by decide) (htruth "TargetHere") hhere (hinput "phi")
    (by decide)
  have hcrosses := (@turns_to_target trig o Verbosity.quiet c).2 door _ _ hentered (hknown "Crossed")
    hcrossed (hsensed "phi") (by decide +kernel)
  exact ⟨⟨a, hstarted, ⟨_, htruth "TargetHere", hhere⟩, hsteers.left.2 (by decide)⟩,
    c, hentered, ⟨_, hknown "Crossed", hcrossed⟩, hcrosses.left.2 (by decide +kernel)⟩

/-- As long as the bearing is a number, a cycle of approaching or of crossing sets the angular speed anew;
whatever came before it, the speed is the same. -/
theorem turn_never_held (o : Observation) (v : Verbosity) (a : Activity) :
    let next := (Activity.cycle o v).after a
    (∀ target phi, a.Reachable (Approach.behavior target) → next.input? "phi" = some phi →
      phi.isNaN = false → (∃ y, (Approach.behavior target).Renews o turn y) ∧
        ∀ other w, other.Reachable (Approach.behavior target) →
          ((Activity.cycle o w).after other).angular = next.angular) ∧
      ∀ door phi, a.Reachable (Crossing.behavior door) → next.input? "phi" = some phi →
        phi.isNaN = false → (∃ y, (Crossing.behavior door).Renews o turn y) ∧
          ∀ other w, other.Reachable (Crossing.behavior door) →
            ((Activity.cycle o w).after other).angular = next.angular := by
  intro next
  constructor
  · intro target phi h hphi hnumber
    have hinput := (Approach.reliable target).input?_after_cycle (Approach.run_sense target o) h v "phi"
    obtain rfl := Option.some.inj (hinput.symm.trans hphi)
    obtain ⟨y, hy⟩ := Approach.renews_turn hnumber
    exact ⟨⟨y, hy⟩, fun other w hother => (hy.angular_eq hother w).trans (hy.angular_eq h v).symm⟩
  · intro door phi h hphi hnumber
    have hinput := (Crossing.reliable_of_reachable h).input?_after_cycle (Crossing.run_sense door o) h v
      "phi"
    obtain rfl := Option.some.inj (hinput.symm.trans hphi)
    obtain ⟨y, hy⟩ := Crossing.renews_turn h hnumber
    exact ⟨⟨y, hy⟩, fun other w hother => (hy.angular_eq hother w).trans (hy.angular_eq h v).symm⟩

omit [Trig] in
/-- A robot that has turned to the left before, and one that has just been started, both on their target; and
both in front of a door. For these angles the functions here give what those of the platform give. -/
theorem turn_never_held_after_turning :
    let trig : Trig := ⟨fun x => x, fun _ => 1, fun y _ => if 0 < y then 0.7853982 else 0⟩
    let target : Location := ⟨1, 1, 0, 0⟩
    let door : Location := ⟨1, 2, 0, 0.5⟩
    let before : Observation := .ofPose ⟨0, 0, 0⟩
    let o : Observation := .ofPose ⟨1, 1, 0⟩
    (∃ a : Activity, a.Reachable (@Approach.behavior trig target) ∧
      ((Activity.cycle o Verbosity.quiet).after
        ((Activity.cycle before Verbosity.quiet).after a)).angular =
          ((Activity.cycle o Verbosity.quiet).after a).angular) ∧
      ∃ a : Activity, a.Reachable (@Crossing.behavior trig door) ∧
        ((Activity.cycle o Verbosity.quiet).after
          ((Activity.cycle before Verbosity.quiet).after a)).angular =
            ((Activity.cycle o Verbosity.quiet).after a).angular := by
  intro trig target door before o
  have happroach := @Approach.reliable trig target
  have hcrossing := @Crossing.reliable trig door (by decide)
  obtain ⟨a, hstarted⟩ := happroach.exists_reachable
  obtain ⟨c, hentered⟩ := hcrossing.exists_reachable
  have hinput := happroach.input?_after_cycle (@Approach.run_sense trig target o) hstarted Verbosity.quiet
  have hsensed := hcrossing.input?_after_cycle (@Crossing.run_sense trig door o) hentered Verbosity.quiet
  have hheld := (@turn_never_held trig o Verbosity.quiet a).1 target _ hstarted (hinput "phi")
    (by decide)
  have hrepeated := (@turn_never_held trig o Verbosity.quiet c).2 door _ hentered (hsensed "phi")
    (by decide +kernel)
  exact ⟨⟨a, hstarted, hheld.2 _ _ (hstarted.cycled before Verbosity.quiet)⟩,
    c, hentered, hrepeated.2 _ _ (hentered.cycled before Verbosity.quiet)⟩

end FuzzyMotion
