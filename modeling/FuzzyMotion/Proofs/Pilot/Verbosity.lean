import FuzzyMotion.Proofs.Pilot.Calls

/-!
Verbosity decides what is written to the log and nothing else. At the highest level every statement
is read a second time for its trace, and this reading could fail; it never does, because it reads what
has just been evaluated.

The main statement compares two runs of a pilot that differ in their verbosity at every moment, and
finds no difference in anything that a pilot returns or keeps.
-/
namespace FuzzyMotion

open Operation

theorem Inference.run_cycle_eq (v w : Verbosity) (e : Inference) :
    (Inference.cycle v).run e = (Inference.cycle w).run e := by
  rw [run_cycle, run_cycle]

theorem Activity.run_cycle_eq (o : Observation) (v w : Verbosity) (a : Activity) :
    (Activity.cycle o v).run a = (Activity.cycle o w).run a := by
  simp only [Activity.run_cycle, ← run_fst, ← run_snd, Inference.run_cycle_eq v w]

namespace Pilot

/-- The pilot with everything that it keeps, apart from its verbosity. -/
def muted (p : Pilot) : Pilot := { p with verbosity := Verbosity.quiet }

@[simp] theorem muted_active (p : Pilot) : p.muted.active = p.active := rfl

@[simp] theorem muted_verbosity (p : Pilot) : p.muted.verbosity = Verbosity.quiet := rfl

@[simp] theorem muted_muted (p : Pilot) : p.muted.muted = p.muted := rfl

/-- A cycle of a muted pilot returns and leaves what a cycle of the pilot does. -/
theorem run_cycle_muted (o : Observation) (p : Pilot) :
    (cycle o).run p.muted = (((cycle o).run p).1, ((cycle o).run p).2.muted) := by
  cases ha : p.active with
  | none =>
    rw [run_cycle_of_idle ha, run_cycle_of_idle (p := p.muted) ha]
  | some a =>
    have hv := Activity.run_cycle_eq o p.muted.verbosity p.verbosity a
    cases hc : (Activity.cycle o p.verbosity).run a with
    | mk r next =>
      rw [hc] at hv
      cases r with
      | error f =>
        rw [run_cycle_of_error ha hc, run_cycle_of_error (p := p.muted) ha hv]
        rfl
      | ok achieved =>
        rw [run_cycle_of_ok ha hc, run_cycle_of_ok (p := p.muted) ha hv]
        rfl

section Calls

/-- Whether a call does more than set the verbosity. -/
def Call.drives : Call → Bool
  | setVerbosity _ => false
  | engage .. => true
  | cycle _ => true

variable [Trig]

/-- What a call returns: a cycle the degree of the goal, the other calls nothing. -/
def Call.result : Call → Pilot → Except Fault (Option Float32)
  | setVerbosity v, p => ((Pilot.setVerbosity v).outcome p).map fun _ => none
  | engage name target, p => ((Pilot.engage name target).outcome p).map fun _ => none
  | cycle o, p => ((Pilot.cycle o).outcome p).map some

/-- A call of a muted pilot returns and leaves what the call of the pilot does. -/
theorem Call.muted {c : Call} (hc : c.drives = true) (p : Pilot) :
    c.result p.muted = c.result p ∧ c.after p.muted = (c.after p).muted := by
  cases c with
  | setVerbosity v => cases hc
  | engage name target =>
    simp only [Call.result, Call.after, ← run_fst, ← run_snd, run_engage, true_and]
    rfl
  | cycle o =>
    simp only [Call.result, Call.after, ← run_fst, ← run_snd, run_cycle_muted, and_self]

/-- What can be seen after a call: its result, and everything that the pilot keeps. -/
structure Sight where
  result : Except Fault (Option Float32)
  achieved : Float32
  linear : Float32
  angular : Float32
  velocity : Velocity
  active : Option Activity

def sight (result : Except Fault (Option Float32)) (p : Pilot) : Sight :=
  ⟨result, p.achieved, p.linear, p.angular, p.velocity, p.active⟩

/-- What can be seen after each call that does more than set the verbosity. -/
def trail : List Call → Pilot → List Sight
  | [], _ => []
  | c :: rest, p =>
    if c.drives then sight (c.result p) (c.after p) :: trail rest (c.after p)
    else trail rest (c.after p)

/-- A run shows what the run of a muted pilot shows that is never told its verbosity. -/
theorem trail_eq_muted (calls : List Call) (p : Pilot) :
    trail calls p = trail (calls.filter Call.drives) p.muted := by
  induction calls generalizing p with
  | nil => rfl
  | cons c rest ih =>
    cases hc : c.drives with
    | false =>
      cases c with
      | setVerbosity v => exact ih _
      | _ => cases hc
    | true =>
      obtain ⟨hresult, hafter⟩ := Call.muted hc p
      rw [List.filter_cons_of_pos hc]
      simp only [trail, hc, if_true, hresult, hafter]
      rw [ih (c.after p)]
      rfl

/-- No step of inference depends on the verbosity; and two pilots that are driven by the same calls,
with any verbosities in between, show the same after every call. -/
theorem verbosity_never_interferes :
    (∀ (e : Inference) (v w : Verbosity),
      (Inference.applyRules v).run e = (Inference.applyRules w).run e ∧
        (Inference.defuzzify v).run e = (Inference.defuzzify w).run e ∧
        (Inference.achievement v).run e = (Inference.achievement w).run e ∧
        (Inference.cycle v).run e = (Inference.cycle w).run e) ∧
      ∀ calls others : List Call, calls.filter Call.drives = others.filter Call.drives →
        trail calls initial = trail others initial := by
  constructor
  · intro e v w
    simp only [Inference.run_applyRules, Inference.run_defuzzify, Inference.run_achievement,
      Inference.run_cycle, and_self]
  · intro calls others h
    rw [trail_eq_muted calls, trail_eq_muted others, h]

omit [Trig] in
/-- An approach at two levels of the log and one at none, with the functions of the platform. -/
theorem verbosity_never_interferes_with_approach :
    let engaged : Call := .engage "GoTo" (.location ⟨3, 0, 0, 0.5⟩)
    let moved : Call := .cycle (.ofPose ⟨1, 0, 0⟩)
    let calls := [.setVerbosity Verbosity.statements, engaged, .setVerbosity Verbosity.rules, moved]
    let others := [engaged, moved]
    calls.filter Call.drives = others.filter Call.drives ∧
      @trail platformTrig calls initial = @trail platformTrig others initial :=
  ⟨rfl, (@verbosity_never_interferes platformTrig).2 _ _ rfl⟩

end Calls

end Pilot

end FuzzyMotion
