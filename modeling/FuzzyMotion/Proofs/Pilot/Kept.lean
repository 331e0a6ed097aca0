import FuzzyMotion.Proofs.Inference.Held
import FuzzyMotion.Proofs.Pilot.Engaging

/-!
What a pilot keeps. The degree of the goal and the two speeds are copied from the active behavior, so that
they can be read between cycles. The copies are made in two places, on engaging and after a cycle that
succeeds; after any calls they say what the behavior says, and without a behavior they are zero.
-/
namespace FuzzyMotion

open Operation

/-- What a cycle returns is the degree of the goal under the truths that it leaves. -/
theorem Activity.goal_after_cycle {o : Observation} {v : Verbosity} {a next : Activity}
    {achieved : Float32} (h : (Activity.cycle o v).run a = (.ok achieved, next)) :
    ∃ goal, next.inference.base.goal = some goal ∧
      Statement.evaluate goal next.inference.truths.interpretation = .ok achieved := by
  rw [run_cycle] at h
  rcases hs : (a.behavior.sense o).run .empty with ⟨r, inputs⟩
  rw [hs] at h
  cases r with
  | error f => cases h
  | ok u =>
    obtain ⟨hout, rfl⟩ := Prod.mk.inj h
    exact Inference.goalDegree_eq_ok_iff.1 (Inference.goalDegree_after_cycle hout)

namespace Pilot

variable {last : Option Float32} {p : Pilot} {behavior : Behavior} {b : RuleBase} {a : Activity}

/-- The degree that the last successful cycle returned since the pilot was last engaged, after one more
call. -/
def Call.lastDegree? (last : Option Float32) : Call → Pilot → Option Float32
  | setVerbosity _, _ => last
  | engage .., _ => none
  | cycle o, p =>
    match (Pilot.cycle o).outcome p with
    | .ok achieved => some achieved
    | .error _ => last

/-- The copies for an active behavior. -/
structure Mirrors (p : Pilot) (a : Activity) (last : Option Float32) : Prop where
  active : p.active = some a
  linear : a.output? linearOutput = some p.linear
  angular : (a.output? angularOutput).map Angle.toRadians = some p.angular
  achieved : p.achieved = last.getD 0
  goal : ∀ achieved, last = some achieved → ∃ goal, a.inference.base.goal = some goal ∧
    Statement.evaluate goal a.inference.truths.interpretation = .ok achieved

section Mirrors

/-- A behavior that has been prepared has both speeds at zero. -/
theorem mirrors_of_prepare (h : behavior.Reliable b) (ha : behavior.prepare = .ok a) (v : Verbosity) :
    Mirrors { idle v with active := some a } a none := by
  obtain ⟨c, hdeclares, hmade, -⟩ := Behavior.prepare_eq_ok ha
  rw [h.declares] at hdeclares
  obtain rfl : b = c := congrArg Prod.snd hdeclares
  have hzero : ∀ name ∈ b.outputs, a.output? name = some 0 := fun _ hn =>
    Inference.output?_of_made h.wellFormed hmade hn
  have hradians : Angle.toRadians 0 = 0 := by decide
  refine ⟨rfl, hzero _ h.linear, ?_, rfl, ?_⟩
  · rw [hzero _ h.angular, Option.map_some, hradians]
    rfl
  · intro achieved hnone
    cases hnone

theorem mirrors_of_cycle (hr : behavior.Reliable b) (ha : a.Reachable behavior) {o : Observation}
    {v : Verbosity} {next : Activity} {achieved : Float32}
    (h : (Activity.cycle o v).run a = (.ok achieved, next)) :
    Mirrors ⟨some next, v, achieved, next.linear, next.angular⟩ next (some achieved) := by
  have hafter : (Activity.cycle o v).after a = next := congrArg Prod.snd h
  have hnext : next.Reachable behavior := hafter ▸ .cycled o v ha
  obtain ⟨x, hx⟩ := hr.exists_output? hnext hr.linear
  obtain ⟨y, hy⟩ := hr.exists_output? hnext hr.angular
  refine ⟨rfl, ?_, ?_, rfl, ?_⟩
  · rw [Activity.linear, hx, Option.getD_some]
  · rw [Activity.angular, hy, Option.getD_some, Option.map_some]
  · rintro _ ⟨⟩
    exact Activity.goal_after_cycle h

end Mirrors

/-- Either nothing is active, or the copies are those of a behavior that cannot fail. -/
inductive Kept : Pilot → Option Float32 → Prop
  | idle (v : Verbosity) : Kept (idle v) none
  | running {p : Pilot} {behavior : Behavior} {b : RuleBase} {a : Activity} {last : Option Float32}
    (hr : Running p behavior b a) (hm : Mirrors p a last) : Kept p last

section Kept

theorem Kept.setVerbosity (h : Kept p last) (v : Verbosity) :
    Kept ((Pilot.setVerbosity v).after p) last := by
  cases h with
  | idle w => exact .idle v
  | running hr hm => exact .running { hr with } { hm with }

theorem Kept.cycle (h : Kept p last) (o : Observation) :
    Kept ((Pilot.cycle o).after p) ((Call.cycle o).lastDegree? last p) := by
  rw [Call.lastDegree?, ← run_fst, ← run_snd]
  cases h with
  | idle v =>
    rw [run_cycle_of_idle rfl]
    exact .idle v
  | running hr hm =>
    obtain ⟨achieved, next, hcycle, hrun, hnext⟩ := hr.run_cycle o
    rw [hrun]
    exact .running hnext (mirrors_of_cycle hr.reliable hr.reachable hcycle)

theorem kept_engage [Trig] (p : Pilot) (name : String) (target : Target) :
    Kept ((engage name target).after p) none := by
  cases hout : (engage name target).outcome p with
  | ok u =>
    obtain ⟨behavior, b, a, hrun, ha, hr⟩ := (engage_eq_ok_iff.1 hout).engage p
    have hafter : (engage name target).after p = _ := congrArg Prod.snd hrun
    rw [hafter]
    exact .running hr (mirrors_of_prepare hr.reliable ha p.verbosity)
  | error f =>
    rw [after_engage_of_error hout]
    exact .idle p.verbosity

/-- One call keeps the copies right, whether or not it succeeds. -/
theorem Kept.call [Trig] (h : Kept p last) (c : Call) : Kept (c.after p) (c.lastDegree? last p) := by
  cases c with
  | setVerbosity v => exact h.setVerbosity v
  | engage name target => exact kept_engage p name target
  | cycle o => exact h.cycle o

/-- What can be read from an idle pilot. -/
theorem idle_command (v : Verbosity) :
    (idle v).velocity = ⟨0, 0⟩ ∧ (idle v).goalReached = false := by
  have hlinear : Binary32.clamp (-maxLinearSpeed) maxLinearSpeed 0 = 0 := by decide
  have hangular : Binary32.clamp (-maxAngularSpeed) maxAngularSpeed 0 = 0 := by decide
  have hthreshold : ¬achievementThreshold ≤ 0 := by decide
  exact ⟨congrArg₂ Velocity.mk hlinear hangular, decide_eq_false hthreshold⟩

theorem Kept.zero_or_mirrors (h : Kept p last) :
    (p.active = none ∧ p.achieved = 0 ∧ p.linear = 0 ∧ p.angular = 0 ∧ p.velocity = ⟨0, 0⟩ ∧
        p.goalReached = false) ∨
      ∃ a, Mirrors p a last := by
  cases h with
  | idle v => exact .inl ⟨rfl, rfl, rfl, rfl, idle_command v⟩
  | running hr hm => exact .inr ⟨_, hm⟩

end Kept

section Calls

variable [Trig]

/-- The degree that the last successful cycle returned since the pilot was last engaged, after a sequence
of calls. -/
def lastDegree? (last : Option Float32) : List Call → Pilot → Option Float32
  | [], _ => last
  | c :: rest, p => lastDegree? (c.lastDegree? last p) rest (c.after p)

theorem Kept.calls (h : Kept p last) (calls : List Call) :
    Kept (afterCalls calls p) (Pilot.lastDegree? last calls p) := by
  induction calls generalizing p last with
  | nil => exact h
  | cons c rest ih => exact ih (h.call c)

/-- After any calls, whether or not they succeed, there is either no active behavior, and then
everything that is kept is zero; or what is kept is what the active behavior says: its linear output, its
angular output in radians, and the degree that the last successful cycle returned since it was engaged, which
is the degree of its goal under its truths, or zero before the first such cycle. Engaging leaves no active
behavior exactly if it fails. -/
theorem kept_agrees_with_behavior :
    (∀ calls : List Call,
      let p := afterCalls calls initial
      (p.active = none ∧ p.achieved = 0 ∧ p.linear = 0 ∧ p.angular = 0 ∧ p.velocity = ⟨0, 0⟩ ∧
          p.goalReached = false) ∨
        ∃ a, Mirrors p a (lastDegree? none calls initial)) ∧
      ∀ (p : Pilot) (name : String) (target : Target),
        ((engage name target).after p).active = none ↔
          ∃ f, (engage name target).outcome p = .error f := by
  constructor
  · intro calls
    have hkept : Kept (afterCalls calls initial) (lastDegree? none calls initial) :=
      (Kept.idle Verbosity.quiet).calls calls
    exact hkept.zero_or_mirrors
  · exact active_after_engage_eq_none_iff

end Calls

end Pilot

end FuzzyMotion
