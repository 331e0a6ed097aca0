import FuzzyMotion.Pilot
import FuzzyMotion.Proofs.Behavior.Calls

/-!
The states that a pilot can reach, by any sequence of calls that succeed or fail. What the pilot runs
is always an inference over the rule base that some behavior declared, in one of the states that this
inference can reach.
-/
namespace FuzzyMotion

open Operation

namespace Pilot

/-- A call of one operation. -/
inductive Call where
  | setVerbosity (v : Verbosity)
  | engage (name : String) (target : Target)
  | cycle (o : Observation)

/-- Whether a call replaces the behavior. -/
def Call.engages : Call → Bool
  | setVerbosity _ => false
  | engage .. => true
  | cycle _ => false

theorem run_reporting {α : Type} (text : String) (x : Operation Pilot α) (p : Pilot) :
    (reporting text x).run p = x.run p := by
  unfold reporting
  simp only [run, outcome, after]
  cases h : (x p).outcome <;> simp [h]

/-- A cycle without an active behavior changes nothing. -/
theorem run_cycle_of_idle {p : Pilot} (ha : p.active = none) (o : Observation) :
    (cycle o).run p = (.error .nothingActive, p) := by
  simp only [cycle, run_bind, run_state, andThen_ok, ha]
  rfl

section Active

variable {p : Pilot} {a next : Activity} {o : Observation}

/-- What a cycle does that fails, with an active behavior. -/
theorem run_cycle_of_error {f : Fault} (ha : p.active = some a)
    (h : (Activity.cycle o p.verbosity).run a = (.error f, next)) :
    (cycle o).run p = (.error f, { p with active := some next }) := by
  simp only [cycle, run_bind, run_state, andThen_ok, ha, run_on, h]
  rfl

/-- A cycle that succeeds is kept. -/
theorem run_cycle_of_ok {achieved : Float32} (ha : p.active = some a)
    (h : (Activity.cycle o p.verbosity).run a = (.ok achieved, next)) :
    (cycle o).run p = (.ok achieved, ⟨some next, p.verbosity, achieved, next.linear, next.angular⟩) := by
  simp only [cycle, run_bind, run_state, andThen_ok, ha, run_on, h]
  rfl

end Active

variable [Trig]

/-- The state after a call. -/
def Call.after : Call → Pilot → Pilot
  | setVerbosity v, p => (Pilot.setVerbosity v).after p
  | engage name target, p => (Pilot.engage name target).after p
  | cycle o, p => (Pilot.cycle o).after p

/-- The state after a sequence of calls, whether or not they succeed. -/
def afterCalls : List Call → Pilot → Pilot
  | [], p => p
  | c :: rest, p => afterCalls rest (c.after p)

@[simp] theorem afterCalls_nil (p : Pilot) : afterCalls [] p = p := rfl

@[simp] theorem afterCalls_cons (c : Call) (rest : List Call) (p : Pilot) :
    afterCalls (c :: rest) p = afterCalls rest (c.after p) := rfl

/-- The states after any sequence of calls. -/
inductive Reachable : Pilot → Prop
  | initial : Reachable initial
  | called {p : Pilot} (c : Call) (h : Reachable p) : Reachable (c.after p)

/-- The activity that engaging starts, without the log. -/
def prepared (name : String) (target : Target) : Except Fault Activity :=
  match Skill.named? name with
  | none => .error (.unknownBehavior (Text.snippet name))
  | some skill =>
    match skill.behavior target with
    | .error f => .error f
    | .ok behavior => behavior.prepare

/-- Engaging leaves an idle pilot, with the new activity if there is one. -/
theorem run_engage (name : String) (target : Target) (p : Pilot) :
    (engage name target).run p =
      ((prepared name target).map fun _ => (),
        { idle p.verbosity with active := (prepared name target).toOption }) := by
  simp only [engage, prepared, run_bind, run_modify, andThen_ok]
  cases hs : Skill.named? name with
  | none => rfl
  | some skill =>
    simp only [run_reporting, begin, run_bind, run_ofExcept]
    cases skill.behavior target with
    | error f => rfl
    | ok behavior =>
      simp only [andThen_ok, Behavior.run_start]
      cases behavior.prepare <;> rfl

theorem after_engage_of_error {name : String} {target : Target} {p : Pilot} {f : Fault}
    (h : (engage name target).outcome p = .error f) :
    (engage name target).after p = idle p.verbosity := by
  rw [← run_fst, run_engage] at h
  rw [← run_snd, run_engage]
  cases hprepared : prepared name target with
  | ok a =>
    rw [hprepared] at h
    cases h
  | error g => rfl

/-- A behavior is active after engaging unless this failed. -/
theorem active_after_engage_eq_none_iff (p : Pilot) (name : String) (target : Target) :
    ((engage name target).after p).active = none ↔ ∃ f, (engage name target).outcome p = .error f := by
  rw [← run_fst, ← run_snd, run_engage]
  cases prepared name target with
  | ok a => simp [Except.map, Except.toOption]
  | error f => simp [Except.map, Except.toOption]

theorem prepared_eq_ok_iff {name : String} {target : Target} {activity : Activity} :
    prepared name target = .ok activity ↔ ∃ skill behavior, Skill.named? name = some skill ∧
      skill.behavior target = .ok behavior ∧ behavior.prepare = .ok activity := by
  unfold prepared
  cases Skill.named? name with
  | none => simp
  | some skill =>
    cases hb : skill.behavior target with
    | error f => simp [hb]
    | ok behavior => simp [hb]

end Pilot

end FuzzyMotion
