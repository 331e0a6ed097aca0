import FuzzyMotion.Behavior.Basic
import FuzzyMotion.Proofs.Behavior.Calls
import FuzzyMotion.Proofs.Inference.Construction
import FuzzyMotion.Proofs.RuleBase.Declared

/-!
Starting a behavior. It succeeds exactly where the tables are declared, drive both outputs of motion and pass
the check, and otherwise the first of these that fails is reported. The outputs of the tables have values from
then on, whatever is called and whatever fails: so both velocities are always read and never made up.
-/
namespace FuzzyMotion

open Operation

namespace Behavior

variable {behavior : Behavior} {b : RuleBase} {a : Activity} {f : Fault}

/-- What the behavior declares, in whatever way, is a rule base that declarations can build. There is no
other access to a rule base, so this asks nothing of the tables. -/
def BuildsBase (behavior : Behavior) : Prop :=
  (behavior.declare.after RuleBase.empty).Built

theorem BuildsBase.built (hb : behavior.BuildsBase)
    (hd : behavior.declare.run RuleBase.empty = (.ok (), b)) : b.Built := by
  rwa [BuildsBase, ← run_snd, hd] at hb

theorem buildsBase_of_run (hd : behavior.declare.run RuleBase.empty = (.ok (), b)) (hw : b.WellFormed) :
    behavior.BuildsBase := by
  rw [BuildsBase, ← run_snd, hd]
  exact RuleBase.built_iff_wellFormed.2 hw

/-- The behavior declares these tables, and they can drive motion. -/
structure Startable (behavior : Behavior) (b : RuleBase) : Prop where
  declares : behavior.declare.run RuleBase.empty = (.ok (), b)
  linear : linearOutput ∈ b.outputs
  angular : angularOutput ∈ b.outputs
  check : b.check = .ok ()

/-- Why a behavior cannot be started. Each reason counts only where there is none before it. -/
inductive StartFault (behavior : Behavior) : Fault → Prop where
  | undeclared {f : Fault} (h : behavior.declare.outcome RuleBase.empty = .error f) :
    StartFault behavior f
  | noLinear {b : RuleBase} (hd : behavior.declare.run RuleBase.empty = (.ok (), b))
    (h : linearOutput ∉ b.outputs) : StartFault behavior (.missingOutput linearOutput)
  | noAngular {b : RuleBase} (hd : behavior.declare.run RuleBase.empty = (.ok (), b))
    (hl : linearOutput ∈ b.outputs) (h : angularOutput ∉ b.outputs) :
    StartFault behavior (.missingOutput angularOutput)
  | unsound {b : RuleBase} {f : Fault} (hd : behavior.declare.run RuleBase.empty = (.ok (), b))
    (hl : linearOutput ∈ b.outputs) (ha : angularOutput ∈ b.outputs) (h : b.check = .error f) :
    StartFault behavior f

theorem prepare_of_run (hd : behavior.declare.run RuleBase.empty = (.ok (), b)) :
    behavior.prepare = (do
      requireOutput b linearOutput
      requireOutput b angularOutput
      let inference ← Inference.ofRuleBase b
      return ⟨behavior, inference⟩) := by
  simp only [prepare, hd]

theorem Startable.prepare (hb : behavior.BuildsBase) (h : behavior.Startable b) :
    ∃ a, behavior.prepare = .ok a := by
  obtain ⟨e, he⟩ := Inference.ofRuleBase_of_check (hb.built h.declares).wellFormed h.check
  have hlinear : requireOutput b linearOutput = .ok () := if_pos h.linear
  have hangular : requireOutput b angularOutput = .ok () := if_pos h.angular
  refine ⟨⟨behavior, e⟩, ?_⟩
  rw [prepare_of_run h.declares, hlinear, hangular, he]
  rfl

theorem StartFault.prepare (hb : behavior.BuildsBase) (h : behavior.StartFault f) :
    behavior.prepare = .error f := by
  cases h with
  | undeclared h =>
    rcases hd : behavior.declare.run RuleBase.empty with ⟨o, b⟩
    obtain rfl : o = .error f := by rw [← h, ← run_fst, hd]
    simp only [Behavior.prepare, hd]
  | noLinear hd h =>
    have hlinear : requireOutput _ linearOutput = .error _ := if_neg h
    rw [prepare_of_run hd, hlinear]
    rfl
  | noAngular hd hl h =>
    have hlinear : requireOutput _ linearOutput = .ok () := if_pos hl
    have hangular : requireOutput _ angularOutput = .error _ := if_neg h
    rw [prepare_of_run hd, hlinear, hangular]
    rfl
  | unsound hd hl ha h =>
    have hlinear : requireOutput _ linearOutput = .ok () := if_pos hl
    have hangular : requireOutput _ angularOutput = .ok () := if_pos ha
    have hfails := (Inference.ofRuleBase_eq_error_iff (hb.built hd).wellFormed).2 h
    rw [prepare_of_run hd, hlinear, hangular, hfails]
    rfl

/-- There is either nothing in the way or a first reason. -/
theorem startable_or_startFault (behavior : Behavior) :
    (∃ b, behavior.Startable b) ∨ ∃ f, behavior.StartFault f := by
  rcases hd : behavior.declare.run RuleBase.empty with ⟨_ | _, b⟩
  case error f => exact Or.inr ⟨f, .undeclared (by rw [← run_fst, hd])⟩
  case ok u =>
    by_cases hl : linearOutput ∈ b.outputs
    · by_cases ha : angularOutput ∈ b.outputs
      · cases hc : b.check with
        | ok u => exact Or.inl ⟨b, hd, hl, ha, hc⟩
        | error f => exact Or.inr ⟨f, .unsound hd hl ha hc⟩
      · exact Or.inr ⟨_, .noAngular hd hl ha⟩
    · exact Or.inr ⟨_, .noLinear hd hl⟩

theorem exists_prepare_iff (hb : behavior.BuildsBase) :
    (∃ a, behavior.prepare = .ok a) ↔ ∃ b, behavior.Startable b := by
  refine ⟨?_, fun ⟨b, h⟩ => h.prepare hb⟩
  rintro ⟨a, ha⟩
  refine (startable_or_startFault behavior).resolve_right ?_
  rintro ⟨f, hf⟩
  rw [hf.prepare hb] at ha
  cases ha

theorem prepare_eq_error_iff (hb : behavior.BuildsBase) :
    behavior.prepare = .error f ↔ behavior.StartFault f := by
  refine ⟨fun h => ?_, StartFault.prepare hb⟩
  obtain ⟨b, hb'⟩ | ⟨g, hg⟩ := startable_or_startFault behavior
  · obtain ⟨a, ha⟩ := hb'.prepare hb
    rw [ha] at h
    cases h
  · rw [hg.prepare hb, Except.error.injEq] at h
    rwa [← h]

end Behavior

namespace Activity

variable {behavior : Behavior} {b : RuleBase} {a : Activity}

/-- All its states are states of an inference over its tables. -/
theorem Reachable.inference_of_run (h : a.Reachable behavior)
    (hd : behavior.declare.run RuleBase.empty = (.ok (), b)) : Inference.Reachable b a.inference := by
  obtain ⟨c, hc, hreachable⟩ := h.inference
  rw [hd] at hc
  obtain rfl : b = c := congrArg Prod.snd hc
  exact hreachable

/-- Exactly the outputs of its tables have values, in every state. -/
theorem Reachable.exists_output?_iff (h : a.Reachable behavior) (hb : b.WellFormed)
    (hd : behavior.declare.run RuleBase.empty = (.ok (), b)) {name : String} :
    (∃ x, a.output? name = some x) ↔ name ∈ b.outputs := by
  rw [← (Inference.coherent_of_reachable hb (h.inference_of_run hd)).outputs,
    ← Option.ne_none_iff_exists', output?, Inference.output?, Ne, Table.get?_eq_none_iff, Classical.not_not]

theorem Reachable.startable (h : a.Reachable behavior) (hb : behavior.BuildsBase) :
    ∃ b, behavior.Startable b := by
  induction h with
  | started h => exact (Behavior.exists_prepare_iff hb).1 ⟨_, prepare_of_start h⟩
  | cycled o v _ ih => exact ih
  | called c _ ih => exact ih

/-- A velocity is the value of its output, wherever there is one. -/
theorem output?_eq_some_linear (h : ∃ x, a.output? linearOutput = some x) :
    a.output? linearOutput = some a.linear := by
  obtain ⟨x, hx⟩ := h
  rw [linear, hx, Option.getD_some]

theorem map_output?_eq_some_angular (h : ∃ x, a.output? angularOutput = some x) :
    (a.output? angularOutput).map Angle.toRadians = some a.angular := by
  obtain ⟨x, hx⟩ := h
  rw [angular, hx, Option.map_some, Option.getD_some]

/-- A behavior is started exactly where its tables are declared, name both outputs of motion and pass the
check, and the first reason why it is not started is the fault. In every state that it reaches then, by
cycles that return and cycles that fail, the outputs of its tables and no others have values, and both
velocities are such values. -/
theorem started_exactly_and_outputs_stay {σ : Type} (hb : behavior.BuildsBase) (s : σ) :
    ((∃ a, (behavior.start : Operation σ Activity).outcome s = .ok a) ↔ ∃ b, behavior.Startable b) ∧
      (∀ f, (behavior.start : Operation σ Activity).outcome s = .error f ↔ behavior.StartFault f) ∧
      ∀ a : Activity, a.Reachable behavior → ∃ b, behavior.Startable b ∧
        (∀ name, (∃ x, a.output? name = some x) ↔ name ∈ b.outputs) ∧
        a.output? linearOutput = some a.linear ∧
        (a.output? angularOutput).map Angle.toRadians = some a.angular := by
  have hstart : (behavior.start : Operation σ Activity).outcome s = behavior.prepare := by
    rw [← run_fst, Behavior.run_start]
  rw [hstart]
  refine ⟨Behavior.exists_prepare_iff hb, fun f => Behavior.prepare_eq_error_iff hb, fun a ha => ?_⟩
  obtain ⟨b, h⟩ := ha.startable hb
  have houtput : ∀ name, (∃ x, a.output? name = some x) ↔ name ∈ b.outputs := fun name =>
    ha.exists_output?_iff (hb.built h.declares).wellFormed h.declares
  exact ⟨b, h, houtput, output?_eq_some_linear ((houtput _).2 h.linear),
    map_output?_eq_some_angular ((houtput _).2 h.angular)⟩

/-- Turning until the time is over, without a clock: all cycles fail, and yet both velocities are read. -/
theorem started_exactly_and_outputs_stay_without_inputs :
    let tables : RuleBase :=
      ⟨[⟨"Done", .rampUp 0 1, "t"⟩], Motion.actions,
        [⟨"Turning", "NOT(Done)", "Turn", "Left"⟩, ⟨"Still", "Done", "Move", "None"⟩], some "Done"⟩
    let behavior : Behavior := ⟨"Spin", RuleBase.enter tables, fun _ => pure ()⟩
    behavior.BuildsBase ∧ (∃ a, (behavior.start : Operation Unit Activity).outcome () = .ok a) ∧
      ∀ a : Activity, a.Reachable behavior → a.output? linearOutput = some a.linear ∧
        (a.output? angularOutput).map Angle.toRadians = some a.angular := by
  intro tables behavior
  have hw : tables.WellFormed := by constructor <;> decide
  have hdeclare : behavior.declare.run RuleBase.empty = (.ok (), tables) :=
    RuleBase.run_enter hw (by decide +kernel)
  have hb : behavior.BuildsBase := Behavior.buildsBase_of_run hdeclare hw
  obtain ⟨hstarts, -, hstays⟩ := started_exactly_and_outputs_stay hb ()
  have hstartable : behavior.Startable tables := ⟨hdeclare, by decide, by decide, rfl⟩
  refine ⟨hb, hstarts.2 ⟨tables, hstartable⟩, fun a ha => ?_⟩
  obtain ⟨_, -, -, hlinear, hangular⟩ := hstays a ha
  exact ⟨hlinear, hangular⟩

end Activity

end FuzzyMotion
