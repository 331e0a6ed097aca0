import FuzzyMotion.Behavior.Basic
import FuzzyMotion.Proofs.Inference.Calls

/-!
The states that a behavior can reach. It is started from the tables that it declares, then cycled, and
its inference can be called in between; the inference never leaves the states over these tables.
-/
namespace FuzzyMotion

open Operation

namespace Behavior

/-- The activity of a behavior, without the log. -/
def prepare (behavior : Behavior) : Except Fault Activity :=
  match behavior.declare.run RuleBase.empty with
  | (.error f, _) => .error f
  | (.ok _, base) => do
    requireOutput base linearOutput
    requireOutput base angularOutput
    let inference ← Inference.ofRuleBase base
    return ⟨behavior, inference⟩

theorem run_start {σ : Type} (behavior : Behavior) (s : σ) :
    (behavior.start : Operation σ Activity).run s = (behavior.prepare, s) := by
  simp only [start, prepare, run_bind, run_apart]
  rcases behavior.declare.run RuleBase.empty with ⟨o, base⟩
  cases o with
  | error f => rfl
  | ok u =>
    simp only [Except.map, andThen_ok, run_ofExcept]
    cases requireOutput base linearOutput with
    | error f => rfl
    | ok u =>
      cases requireOutput base angularOutput with
      | error f => rfl
      | ok u => cases Inference.ofRuleBase base <;> rfl

theorem prepare_eq_ok {behavior : Behavior} {activity : Activity}
    (h : behavior.prepare = .ok activity) :
    ∃ base, behavior.declare.run RuleBase.empty = (.ok (), base) ∧
      Inference.ofRuleBase base = .ok activity.inference ∧ activity.behavior = behavior := by
  unfold prepare at h
  rcases hd : behavior.declare.run RuleBase.empty with ⟨o, base⟩
  rw [hd] at h
  cases o with
  | error f => cases h
  | ok u =>
    simp only [bind_eq_ok_iff] at h
    obtain ⟨-, -, -, -, inference, hi, hactivity⟩ := h
    cases hactivity
    exact ⟨base, rfl, hi, rfl⟩

end Behavior

namespace Activity

/-- A cycle of an activity feeds its inference and runs it, unless the inputs cannot be found. -/
theorem run_cycle (o : Observation) (v : Verbosity) (a : Activity) :
    (Activity.cycle o v).run a =
      match (a.behavior.sense o).run .empty with
      | (.error f, _) => (.error f, a)
      | (.ok _, inputs) =>
        (((Inference.cycle v).outcome { a.inference with inputs := inputs }),
          { a with inference := (Inference.cycle v).after { a.inference with inputs := inputs } }) := by
  simp only [Activity.cycle, run_bind, run_state, andThen_ok, run_apart]
  rcases hs : (a.behavior.sense o).run .empty with ⟨r, inputs⟩
  cases r with
  | error f => rfl
  | ok u => rfl

/-- The inference that a cycle leaves is fed and run, or left as it was. -/
theorem reachable_cycle {b : RuleBase} {a : Activity} (h : Inference.Reachable b a.inference)
    (o : Observation) (v : Verbosity) :
    Inference.Reachable b ((Activity.cycle o v).after a).inference := by
  rw [← run_snd, run_cycle]
  rcases (a.behavior.sense o).run .empty with ⟨r, inputs⟩
  cases r with
  | error f => exact h
  | ok u => exact .called (.cycle v) (.called (.feed inputs) h)

theorem behavior_after_cycle (o : Observation) (v : Verbosity) (a : Activity) :
    ((Activity.cycle o v).after a).behavior = a.behavior := by
  rw [← run_snd, run_cycle]
  rcases (a.behavior.sense o).run .empty with ⟨r, inputs⟩
  cases r <;> rfl

/-- The states after a behavior is started, by any sequence of cycles, and of calls of its inference. -/
inductive Reachable (behavior : Behavior) : Activity → Prop
  | started {a : Activity} (h : (behavior.start : Operation Unit Activity).outcome () = .ok a) :
    Reachable behavior a
  | cycled {a : Activity} (o : Observation) (v : Verbosity) (h : Reachable behavior a) :
    Reachable behavior ((Activity.cycle o v).after a)
  | called {a : Activity} (c : Inference.Call) (h : Reachable behavior a) :
    Reachable behavior { a with inference := c.after a.inference }

theorem prepare_of_start {behavior : Behavior} {a : Activity}
    (h : (behavior.start : Operation Unit Activity).outcome () = .ok a) :
    behavior.prepare = .ok a := by
  rw [← run_fst, Behavior.run_start] at h
  exact h

theorem Reachable.behavior_eq {behavior : Behavior} {a : Activity} (h : Reachable behavior a) :
    a.behavior = behavior := by
  induction h with
  | started h =>
    obtain ⟨-, -, -, hb⟩ := Behavior.prepare_eq_ok (prepare_of_start h)
    exact hb
  | cycled o v _ ih => rw [behavior_after_cycle, ih]
  | called c _ ih => exact ih

theorem Reachable.inference {behavior : Behavior} {a : Activity} (h : Reachable behavior a) :
    ∃ b, behavior.declare.run RuleBase.empty = (.ok (), b) ∧
      Inference.Reachable b a.inference := by
  induction h with
  | started h =>
    obtain ⟨b, hd, hi, -⟩ := Behavior.prepare_eq_ok (prepare_of_start h)
    exact ⟨b, hd, .made hi⟩
  | cycled o v _ ih =>
    obtain ⟨b, hd, hi⟩ := ih
    exact ⟨b, hd, reachable_cycle hi o v⟩
  | called c _ ih =>
    obtain ⟨b, hd, hi⟩ := ih
    exact ⟨b, hd, .called c hi⟩

end Activity

end FuzzyMotion
