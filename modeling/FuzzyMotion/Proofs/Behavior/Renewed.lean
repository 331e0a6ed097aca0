import FuzzyMotion.Proofs.Behavior.Reliable
import FuzzyMotion.Proofs.Inference.Held

/-!
What a cycle of a behavior that cannot fail leaves. The inputs are those of the observation, the truths and
the sets are what the rule base says of these inputs, and only an output can come from an earlier cycle.
It does not where some label of its action is active: then it is the same in all states that the behavior
can reach.
-/
namespace FuzzyMotion

open Binary32 Inference Operation

/-- The value that the last inputs have under a name. -/
def Activity.input? (a : Activity) (name : String) : Option Float32 :=
  a.inference.inputs.get? name

def Activity.truth? (a : Activity) (name : String) : Option Float32 :=
  a.inference.truth? name

namespace Behavior

/-- In all states that a behavior can reach, a cycle on an observation computes the output of an action
anew, whatever it was before: it returns, it leaves a set in which some label of the action is active, and
`y`, the output, is the quotient of the sums of this very set. -/
structure Renews (behavior : Behavior) (o : Observation) (action : Action) (y : Float32) : Prop where
  returns : ∀ {a : Activity} (v : Verbosity), a.Reachable behavior →
    ∃ achieved, (Activity.cycle o v).outcome a = .ok achieved
  computed : ∀ {a : Activity} (v : Verbosity), a.Reachable behavior →
    let next := ((Activity.cycle o v).after a).inference
    ∃ set, (action, set) ∈ next.base.actions.zip next.sets ∧ 0 < set.foldl (· + ·) 0 ∧
      y = (List.zipWith (· * ·) set (action.labels.map Prod.snd)).foldl (· + ·) 0 /
        set.foldl (· + ·) 0
  output : ∀ {a : Activity} (v : Verbosity), a.Reachable behavior →
    ((Activity.cycle o v).after a).output? action.output = some y

variable {behavior : Behavior} {b : RuleBase} {a : Activity} {o : Observation} {inputs : Inputs}
variable {action : Action} {y : Float32}

theorem Renews.linear_eq (h : behavior.Renews o Motion.move y) (ha : a.Reachable behavior) (v : Verbosity) :
    ((Activity.cycle o v).after a).linear = y := by
  have houtput : ((Activity.cycle o v).after a).output? linearOutput = some y := h.output v ha
  rw [Activity.linear, houtput, Option.getD_some]

theorem Renews.angular_eq (h : behavior.Renews o Motion.turn y) (ha : a.Reachable behavior) (v : Verbosity) :
    ((Activity.cycle o v).after a).angular = Angle.toRadians y := by
  have houtput : ((Activity.cycle o v).after a).output? angularOutput = some y := h.output v ha
  rw [Activity.angular, houtput, Option.getD_some]

theorem Reliable.missing?_eq_none (h : behavior.Reliable b)
    (hs : (behavior.sense o).run .empty = (.ok (), inputs)) : b.missing? inputs = none := by
  obtain ⟨others, hothers, hm⟩ := h.senses o
  obtain rfl : inputs = others := congrArg Prod.snd (hs.symm.trans hothers)
  exact hm

theorem Reliable.coherent (h : behavior.Reliable b) (ha : a.Reachable behavior) (inputs : Inputs) :
    Coherent b { a.inference with inputs := inputs } :=
  coherent_of_reachable h.wellFormed (.called (.feed inputs) (h.inference ha))

/-- The state that a cycle leaves. -/
theorem Reliable.after_cycle (h : behavior.Reliable b)
    (hs : (behavior.sense o).run .empty = (.ok (), inputs)) (ha : a.Reachable behavior) (v : Verbosity) :
    ((Activity.cycle o v).after a).inference =
      computed b { a.inference with inputs := inputs } := by
  obtain ⟨_, _, -, -, hrun⟩ := (h.coherent ha inputs).run_cycle h.wellFormed h.check
    (h.missing?_eq_none hs) v
  rw [← run_snd, Activity.run_cycle, ha.behavior_eq, hs]
  exact congrArg Prod.snd hrun

/-- Where the goal is a single predicate, a cycle returns how true the inputs make it. -/
theorem Reliable.cycle_outcome (h : behavior.Reliable b)
    (hs : (behavior.sense o).run .empty = (.ok (), inputs)) (ha : a.Reachable behavior) (v : Verbosity)
    (name : String) {goal : String} (hgoal : b.goal = some goal)
    (htokens : Token.ofText goal = (Phrase.single (.atom name) : Statement).tokens) :
    (Activity.cycle o v).outcome a = .ok ((b.meaning inputs).value name) := by
  obtain ⟨goal', achieved, hgoal', hx, hrun⟩ := (h.coherent ha inputs).run_cycle h.wellFormed h.check
    (h.missing?_eq_none hs) v
  obtain rfl := Option.some.inj (hgoal.symm.trans hgoal')
  rw [← run_fst, Activity.run_cycle, ha.behavior_eq, hs]
  refine (congrArg Prod.fst hrun).trans ?_
  rw [Statement.evaluate_of_tokens htokens hx]
  rfl

theorem Reliable.input?_after_cycle (h : behavior.Reliable b)
    (hs : (behavior.sense o).run .empty = (.ok (), inputs)) (ha : a.Reachable behavior) (v : Verbosity)
    (name : String) : ((Activity.cycle o v).after a).input? name = inputs.get? name := by
  rw [Activity.input?, h.after_cycle hs ha v]
  rfl

theorem Reliable.truth?_after_cycle (h : behavior.Reliable b)
    (hs : (behavior.sense o).run .empty = (.ok (), inputs)) (ha : a.Reachable behavior) (v : Verbosity)
    (name : String) : ((Activity.cycle o v).after a).truth? name = b.meaning inputs name := by
  rw [Activity.truth?, h.after_cycle hs ha v, ← interpretation_truths (h.missing?_eq_none hs)]
  rfl

theorem Reliable.output?_after_cycle (h : behavior.Reliable b)
    (hs : (behavior.sense o).run .empty = (.ok (), inputs)) (ha : a.Reachable behavior) (v : Verbosity)
    (haction : action ∈ b.actions) :
    ((Activity.cycle o v).after a).output? action.output =
      ((b.activations inputs action).crisp? (action.labels.map Prod.snd)).or
        (a.output? action.output) := by
  rw [Activity.output?, h.after_cycle hs ha v]
  exact (h.coherent ha inputs).output?_computed h.wellFormed haction

/-- The sets that a cycle leaves are those of the rule base. -/
theorem Reliable.set_after_cycle (h : behavior.Reliable b)
    (hs : (behavior.sense o).run .empty = (.ok (), inputs)) (ha : a.Reachable behavior) (v : Verbosity)
    (haction : action ∈ b.actions) :
    let next := ((Activity.cycle o v).after a).inference
    (action, b.activations inputs action) ∈ next.base.actions.zip next.sets := by
  intro next
  have hnext : next = computed b { a.inference with inputs := inputs } := h.after_cycle hs ha v
  have hbase : next.base = b := by
    rw [hnext]
    exact (h.coherent ha inputs).base
  have hsets : next.sets = b.actions.map (b.activations inputs) := by
    rw [hnext]
    rfl
  rw [hbase, hsets, ← List.map_prod_left_eq_zip]
  exact List.mem_map_of_mem haction

/-- Where the activations have a mean, the output of the action is set to it. -/
theorem Reliable.renews (h : behavior.Reliable b)
    (hs : (behavior.sense o).run .empty = (.ok (), inputs)) (haction : action ∈ b.actions)
    (hy : (b.activations inputs action).crisp? (action.labels.map Prod.snd) = some y) :
    behavior.Renews o action y where
  returns v ha := h.cycle ha o v
  computed v ha := ⟨_, h.set_after_cycle hs ha v haction,
    FuzzySet.mean_of_crisp? (RuleBase.length_activations_le h.wellFormed haction)
      (RuleBase.isDegree_activations action) _ hy⟩
  output v ha := by
    rw [h.output?_after_cycle hs ha v haction, hy]
    rfl

theorem Reliable.exists_renews (h : behavior.Reliable b)
    (hs : (behavior.sense o).run .empty = (.ok (), inputs)) (haction : action ∈ b.actions)
    (hpos : ∃ m ∈ b.activations inputs action, 0 < m) : ∃ y, behavior.Renews o action y := by
  obtain ⟨m, hm, hm0⟩ := hpos
  exact ⟨_, h.renews hs haction (FuzzySet.crisp?_of_positive
    (RuleBase.length_activations_le h.wellFormed haction) (RuleBase.isDegree_activations action) _ hm hm0)⟩

end Behavior

end FuzzyMotion
