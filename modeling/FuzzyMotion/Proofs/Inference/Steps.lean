import FuzzyMotion.Inference
import FuzzyMotion.Proofs.Operation
import FuzzyMotion.Statement.ReadBack

/-!
What the steps of a cycle compute, said without the log and without the verbosity: each step is a
function of the state, and a cycle is the four functions one after the other.
-/
namespace FuzzyMotion

namespace Statement

/-- A trace can be written wherever a degree can be computed. -/
theorem trace_of_evaluate {text : String} {i : Interpretation} {x : Float32}
    (h : evaluate text i = .ok x) : ∃ t, trace text i = .ok t := by
  rw [trace]
  cases hs : interpret .symbolic i text with
  | ok t => exact ⟨_, rfl⟩
  | error f =>
    rw [evaluate, (interpret_fails_alike .symbolic .numeric i text f).1 hs] at h
    cases h

end Statement

namespace Inference

open Operation

/-- The degrees of predicates, recorded until an input is missing or the table is full. -/
def recordAll (inputs : Inputs) : List Predicate → Truths → Except Fault Unit × Truths
  | [], t => (.ok (), t)
  | p :: ps, t =>
    match inputs.get? p.input with
    | none => (.error (.unknownInput p.input), t)
    | some x =>
      match t.insert p.name (Binary32.toDegree (p.membership.degree x)) with
      | .ok u => recordAll inputs ps u
      | .error e => (.error e, t)

/-- The degrees of rules, credited until the antecedent of one has no degree. -/
def creditAll (i : Interpretation) :
    List (Rule × Consequent) → List FuzzySet → Except Fault Unit × List FuzzySet
  | [], sets => (.ok (), sets)
  | (rule, c) :: rest, sets =>
    match Statement.evaluate rule.antecedent i with
    | .ok degree => creditAll i rest (sets.modify c.action fun set => set.raise c.label degree)
    | .error e => (.error e, sets)

/-- The outputs of actions, each from its set or held. -/
def refresh (t : Table String .outputs Float32) :
    List (Action × FuzzySet) → Table String .outputs Float32
  | [] => t
  | (action, set) :: rest =>
    match set.crisp? (action.labels.map Prod.snd) with
    | none => refresh t rest
    | some x => refresh (t.replace action.output x) rest

def withTruths (t : Truths) (e : Inference) : Inference := { e with truths := t }

def withSets (sets : List FuzzySet) (e : Inference) : Inference := { e with sets := sets }

/-- The rules with what they credit. -/
def creditors (e : Inference) : List (Rule × Consequent) :=
  e.base.rules.zip e.consequents

/-- The state after the outputs are computed from the sets. -/
def refreshed (e : Inference) : Inference :=
  { e with outputs := refresh e.outputs (e.base.actions.zip e.sets) }

def goalDegree (e : Inference) : Except Fault Float32 :=
  match e.base.goal with
  | none => .error .noGoal
  | some goal => Statement.evaluate goal e.truths.interpretation

theorem goalDegree_eq {e : Inference} {goal : String} (h : e.base.goal = some goal) :
    e.goalDegree = Statement.evaluate goal e.truths.interpretation := by
  rw [goalDegree, h]

theorem goalDegree_eq_ok_iff {e : Inference} {achieved : Float32} :
    e.goalDegree = .ok achieved ↔ ∃ goal, e.base.goal = some goal ∧
      Statement.evaluate goal e.truths.interpretation = .ok achieved := by
  rw [goalDegree]
  cases e.base.goal with
  | none => simp
  | some goal => simp

theorem run_each_fuzzifyOne (ps : List Predicate) (e : Inference) :
    (each ps fuzzifyOne).run e =
      ((recordAll e.inputs ps e.truths).1, e.withTruths (recordAll e.inputs ps e.truths).2) := by
  induction ps generalizing e with
  | nil => rfl
  | cons p ps ih =>
    simp only [run_each_cons, fuzzifyOne, run_bind, run_state, andThen_ok, recordAll]
    cases e.inputs.get? p.input with
    | none => rfl
    | some x =>
      simp only [onTruths, run_on, Truths.record, Table.put, run_update]
      cases e.truths.insert p.name (Binary32.toDegree (p.membership.degree x)) with
      | ok u => exact ih (e.withTruths u)
      | error f => rfl

theorem run_fuzzify (e : Inference) :
    fuzzify.run e =
      ((recordAll e.inputs e.base.predicates .empty).1,
        e.withTruths (recordAll e.inputs e.base.predicates .empty).2) := by
  simp only [fuzzify, run_bind, run_modify, run_state, andThen_ok]
  exact run_each_fuzzifyOne e.base.predicates (e.withTruths .empty)

/-- To write about a trace does nothing else where the degree can be computed. -/
theorem silent_of_evaluate {text : String} {i : Interpretation} {x : Float32}
    (h : Statement.evaluate text i = .ok x) (record : String → Operation Inference Unit)
    (hrecord : ∀ trace, (record trace).Silent) :
    (ofExcept (Statement.trace text i) >>= record).Silent := by
  obtain ⟨t, ht⟩ := Statement.trace_of_evaluate h
  intro s
  rw [ht]
  exact hrecord t s

theorem run_applyRule (v : Verbosity) (rule : Rule) (c : Consequent) (e : Inference) :
    (applyRule v rule c).run e =
      match Statement.evaluate rule.antecedent e.truths.interpretation with
      | .ok degree => (.ok (), credit c degree e)
      | .error f => (.error f, e) := by
  simp only [applyRule, run_bind, run_state, andThen_ok, run_ofExcept]
  cases h : Statement.evaluate rule.antecedent e.truths.interpretation with
  | error f => rfl
  | ok degree =>
    simp only [andThen_ok, run_modify]
    rw [(silent_note _ _).whenever, andThen_ok]
    exact (silent_of_evaluate h _ fun _ => silent_note _ _).whenever _ _

theorem run_each_applyRule (v : Verbosity) (pairs : List (Rule × Consequent)) (e : Inference) :
    (each pairs fun pair => applyRule v pair.1 pair.2).run e =
      ((creditAll e.truths.interpretation pairs e.sets).1,
        e.withSets (creditAll e.truths.interpretation pairs e.sets).2) := by
  induction pairs generalizing e with
  | nil => rfl
  | cons pair rest ih =>
    obtain ⟨rule, c⟩ := pair
    rw [run_each_cons, run_applyRule, creditAll]
    cases Statement.evaluate rule.antecedent e.truths.interpretation with
    | error f => rfl
    | ok degree => exact ih (credit c degree e)

theorem run_applyRules (v : Verbosity) (e : Inference) :
    (applyRules v).run e =
      ((creditAll e.truths.interpretation e.creditors (e.sets.map FuzzySet.reset)).1,
        e.withSets
          (creditAll e.truths.interpretation e.creditors (e.sets.map FuzzySet.reset)).2) := by
  simp only [applyRules, run_bind, run_modify, run_state, andThen_ok]
  exact run_each_applyRule v e.creditors (e.withSets (e.sets.map FuzzySet.reset))

theorem run_defuzzifyOne (v : Verbosity) (action : Action) (set : FuzzySet) (e : Inference) :
    (defuzzifyOne v action set).run e =
      (.ok (), { e with outputs := refresh e.outputs [(action, set)] }) := by
  simp only [defuzzifyOne, run_bind]
  rw [(Silent.each (fun _ => silent_note _ _) _).whenever, andThen_ok]
  cases h : set.crisp? (action.labels.map Prod.snd) with
  | none =>
    simp only [refresh, h]
    exact (silent_note _ _).whenever _ e
  | some x =>
    simp only [refresh, h, run_modify]
    rfl

theorem run_each_defuzzifyOne (v : Verbosity) (pairs : List (Action × FuzzySet)) (e : Inference) :
    (each pairs fun pair => defuzzifyOne v pair.1 pair.2).run e =
      (.ok (), { e with outputs := refresh e.outputs pairs }) := by
  induction pairs generalizing e with
  | nil => rfl
  | cons pair rest ih =>
    obtain ⟨action, set⟩ := pair
    rw [run_each_cons, run_defuzzifyOne, andThen_ok, ih]
    simp only [refresh]
    cases set.crisp? (action.labels.map Prod.snd) <;> rfl

theorem run_defuzzify (v : Verbosity) (e : Inference) :
    (defuzzify v).run e = (.ok (), e.refreshed) := by
  simp only [defuzzify, run_bind, run_state, andThen_ok]
  exact run_each_defuzzifyOne v _ e

theorem run_achievement (v : Verbosity) (e : Inference) :
    (achievement v).run e = (e.goalDegree, e) := by
  simp only [achievement, run_bind, run_state, andThen_ok, goalDegree]
  cases e.base.goal with
  | none => rfl
  | some goal =>
    simp only [run_bind, run_ofExcept]
    cases h : Statement.evaluate goal e.truths.interpretation with
    | error f => rfl
    | ok degree =>
      simp only [andThen_ok]
      rw [(silent_of_evaluate h _ fun _ => silent_note _ _).whenever, andThen_ok, run_pure]

theorem silent_noteTable {c : Capacity} (title : String) (t : Table String c Float32) :
    (noteTable title t).Silent :=
  Silent.each (fun _ => silent_note _ _) t.entries

/-- The four steps of a cycle, whatever is written to the log. -/
theorem run_cycle (v : Verbosity) (e : Inference) :
    (cycle v).run e =
      andThen (fuzzify.run e) fun _ e =>
        andThen ((applyRules Verbosity.quiet).run e) fun _ e =>
          (e.refreshed.goalDegree, e.refreshed) := by
  simp only [cycle, run_bind, run_state, andThen_ok, (silent_noteTable _ _).whenever _ _]
  congr 1
  funext _ e
  simp only [run_applyRules, run_defuzzify, run_achievement, andThen_ok]
  congr 1
  funext _ e
  cases e.refreshed.goalDegree with
  | error f => rfl
  | ok degree =>
    rw [andThen_ok, (Silent.bind (silent_note _ _) (silent_noteTable _ _)).whenever, andThen_ok,
      run_pure]

end Inference

end FuzzyMotion
