import FuzzyMotion.Proofs.Behavior.Reliable
import FuzzyMotion.Proofs.Pilot.Calls

/-!
What can be engaged, and what follows. A pilot can be engaged exactly for a behavior that it knows, with a
target of its kind; the radius of a door that is to be crossed must be finite. Once engaged, it never
fails: until it is engaged again, each of its cycles returns, whatever is observed.
-/
namespace FuzzyMotion

open Operation

theorem Skill.named?_eq_some_iff {name : String} {skill : Skill} :
    named? name = some skill ↔ skill.name = name := by
  constructor
  · intro h
    rw [named?] at h
    have hname := List.find?_some h
    exact of_decide_eq_true hname
  · rintro rfl
    cases skill <;> decide

namespace Pilot

/-- The name of a behavior, and a target for it. -/
inductive Engageable : String → Target → Prop
  | approach (l : Location) : Engageable "GoTo" (.location l)
  | cross {l : Location} (h : l.radius.isFinite = true) : Engageable "Cross" (.location l)
  | waitOpen (d : DoorId) : Engageable "Open" (.door d)
  | waitClosed (d : DoorId) : Engageable "Close" (.door d)

variable [Trig]

section Prepared

variable {name : String} {target : Target} {a : Activity}

/-- Every behavior that can be engaged for is one that cannot fail. -/
theorem Engageable.reliable (h : Engageable name target) : ∃ skill behavior b,
    Skill.named? name = some skill ∧ skill.behavior target = .ok behavior ∧ behavior.Reliable b := by
  cases h with
  | approach l => exact ⟨.approach, _, _, Skill.named?_eq_some_iff.2 rfl, rfl, Approach.reliable l⟩
  | cross h => exact ⟨.cross, _, _, Skill.named?_eq_some_iff.2 rfl, rfl, Crossing.reliable h⟩
  | waitOpen d =>
    exact ⟨.waitOpen, _, _, Skill.named?_eq_some_iff.2 rfl, rfl,
      Waiting.reliable Waiting.openName d (by decide)⟩
  | waitClosed d =>
    exact ⟨.waitClosed, _, _, Skill.named?_eq_some_iff.2 rfl, rfl,
      Waiting.reliable Waiting.closedName d (by decide)⟩

theorem engageable_of_prepared (h : prepared name target = .ok a) : Engageable name target := by
  obtain ⟨skill, behavior, hname, hb, hprepare⟩ := prepared_eq_ok_iff.1 h
  obtain rfl := Skill.named?_eq_some_iff.1 hname
  cases target with
  | location l =>
    cases skill with
    | approach => exact .approach l
    | cross =>
      cases hb
      -- The tables of crossing are entered only if their last ramp is in order.
      obtain ⟨b, hdeclares, -, -⟩ := Behavior.prepare_eq_ok hprepare
      exact .cross (Crossing.ordered_tables_iff.1 (RuleBase.run_enter_eq_ok hdeclares).2)
    | waitOpen => cases hb
    | waitClosed => cases hb
  | door d =>
    cases skill with
    | approach => cases hb
    | cross => cases hb
    | waitOpen => exact .waitOpen d
    | waitClosed => exact .waitClosed d

end Prepared

/-- A pilot runs a behavior that cannot fail, in one of its states. -/
structure Running (p : Pilot) (behavior : Behavior) (b : RuleBase) (a : Activity) : Prop where
  active : p.active = some a
  reliable : behavior.Reliable b
  reachable : a.Reachable behavior

section Running

variable {p : Pilot} {behavior : Behavior} {b : RuleBase} {a : Activity} {name : String}
  {target : Target}

omit [Trig] in
/-- A cycle returns, and what it computed is kept. -/
theorem Running.run_cycle (h : Running p behavior b a) (o : Observation) : ∃ achieved next,
    (Activity.cycle o p.verbosity).run a = (.ok achieved, next) ∧
      (cycle o).run p = (.ok achieved, ⟨some next, p.verbosity, achieved, next.linear, next.angular⟩) ∧
      Running ⟨some next, p.verbosity, achieved, next.linear, next.angular⟩ behavior b next := by
  obtain ⟨achieved, hout⟩ := h.reliable.cycle h.reachable o p.verbosity
  have hrun : (Activity.cycle o p.verbosity).run a =
      (.ok achieved, (Activity.cycle o p.verbosity).after a) := Prod.ext hout rfl
  exact ⟨achieved, _, hrun, run_cycle_of_ok h.active hrun, rfl, h.reliable,
    .cycled o p.verbosity h.reachable⟩

theorem Running.call (h : Running p behavior b a) {c : Call} (hc : c.engages = false) :
    ∃ next, Running (c.after p) behavior b next := by
  cases c with
  | setVerbosity v => exact ⟨a, h.active, h.reliable, h.reachable⟩
  | engage name target => cases hc
  | cycle o =>
    obtain ⟨achieved, next, -, hrun, hnext⟩ := h.run_cycle o
    have hafter : (Pilot.cycle o).after p = _ := congrArg Prod.snd hrun
    exact ⟨next, by rw [Call.after, hafter]; exact hnext⟩

/-- It goes on running until it is engaged again. -/
theorem Running.calls (h : Running p behavior b a) {calls : List Call}
    (hc : ∀ c ∈ calls, c.engages = false) : ∃ next, Running (afterCalls calls p) behavior b next := by
  induction calls generalizing p a with
  | nil => exact ⟨a, h⟩
  | cons c rest ih =>
    obtain ⟨hfirst, hrest⟩ := List.forall_mem_cons.1 hc
    obtain ⟨next, hnext⟩ := h.call hfirst
    exact ih hnext hrest

/-- Engaging for what can be engaged succeeds, and leaves the pilot running. -/
theorem Engageable.engage (h : Engageable name target) (p : Pilot) : ∃ behavior b a,
    (Pilot.engage name target).run p = (.ok (), { idle p.verbosity with active := some a }) ∧
      behavior.prepare = .ok a ∧
      Running { idle p.verbosity with active := some a } behavior b a := by
  obtain ⟨skill, behavior, b, hname, hb, hreliable⟩ := h.reliable
  obtain ⟨a, ha⟩ := hreliable.prepare
  have hprepared : prepared name target = .ok a := prepared_eq_ok_iff.2 ⟨skill, behavior, hname, hb, ha⟩
  refine ⟨behavior, b, a, ?_, ha, rfl, hreliable, Behavior.reachable_of_prepare ha⟩
  rw [run_engage, hprepared]
  rfl

theorem engage_eq_ok_iff : (engage name target).outcome p = .ok () ↔ Engageable name target := by
  constructor
  · intro h
    rw [← run_fst, run_engage] at h
    cases hprepared : prepared name target with
    | error f =>
      rw [hprepared] at h
      cases h
    | ok a => exact engageable_of_prepared hprepared
  · intro h
    obtain ⟨_, _, _, hrun, -⟩ := h.engage p
    exact congrArg Prod.fst hrun

end Running

/-- In every state, engaging succeeds exactly for a known behavior with a target of its kind, and for
crossing only if the radius of the door is finite; and then, until the pilot is engaged again, each of its
cycles returns, after any number of cycles and whatever is observed. -/
theorem engages_iff_engageable_and_keeps_running (p : Pilot) (name : String) (target : Target) :
    ((engage name target).outcome p = .ok () ↔ Engageable name target) ∧
      ((engage name target).outcome p = .ok () → ∀ calls : List Call,
        (∀ c ∈ calls, c.engages = false) → ∀ o : Observation, ∃ achieved,
          (cycle o).outcome (afterCalls calls ((engage name target).after p)) = .ok achieved) := by
  refine ⟨engage_eq_ok_iff, fun hengaged calls hcalls o => ?_⟩
  obtain ⟨behavior, b, a, hrun, -, hrunning⟩ := (engage_eq_ok_iff.1 hengaged).engage p
  have hafter : (engage name target).after p = _ := congrArg Prod.snd hrun
  rw [hafter]
  obtain ⟨next, hnext⟩ := hrunning.calls hcalls
  obtain ⟨achieved, _, -, hcycle, -⟩ := hnext.run_cycle o
  exact ⟨achieved, congrArg Prod.fst hcycle⟩

omit [Trig] in
/-- A door with the largest finite radius, and a robot that has lost its position and then reports an
infinite one. -/
theorem engages_for_widest_door :
    let nan : Float32 := Float32.ofBits 0x7FC00000
    let infinite : Float32 := Float32.ofBits 0x7F800000
    let target : Target := .location ⟨1, 2, 0, Float32.ofBits 0x7F7FFFFF⟩
    let calls : List Call := [.setVerbosity Verbosity.statements, .cycle (.ofPose ⟨nan, 0, nan⟩)]
    let engaged := (@engage platformTrig "Cross" target).after initial
    (@engage platformTrig "Cross" target).outcome initial = .ok () ∧
      (∀ c ∈ calls, c.engages = false) ∧ ∃ achieved,
        (cycle (.ofPose ⟨infinite, infinite, 0⟩)).outcome (@afterCalls platformTrig calls engaged) =
          .ok achieved := by
  intro nan infinite target calls engaged
  obtain ⟨hiff, hruns⟩ := @engages_iff_engageable_and_keeps_running platformTrig initial "Cross" target
  have hengaged : (@engage platformTrig "Cross" target).outcome initial = .ok () :=
    hiff.2 (.cross (by decide +kernel))
  have hcalls : ∀ c ∈ calls, c.engages = false := by simp [calls, Call.engages]
  exact ⟨hengaged, hcalls, hruns hengaged calls hcalls _⟩

end Pilot

end FuzzyMotion
