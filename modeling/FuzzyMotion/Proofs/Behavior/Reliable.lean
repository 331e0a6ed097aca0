import FuzzyMotion.Behavior.Approach
import FuzzyMotion.Behavior.Crossing
import FuzzyMotion.Behavior.Waiting
import FuzzyMotion.Proofs.Behavior.Starting
import FuzzyMotion.Proofs.Binary32.Degree
import FuzzyMotion.Proofs.Inference.Feasible

/-!
Behaviors that cannot fail. Where a behavior declares well-formed tables that pass the check, and always
senses every input that they name, it can be started, and then each of its cycles returns. All four
behaviors are of this kind, for every target and every observation, except that a door can be crossed
only if its radius is finite.
-/
namespace FuzzyMotion

open Binary32 Operation

/-- A behavior over sound tables, which finds all their inputs in every observation. -/
structure Behavior.Reliable (behavior : Behavior) (b : RuleBase) : Prop where
  declares : behavior.declare.run RuleBase.empty = (.ok (), b)
  wellFormed : b.WellFormed
  check : b.check = .ok ()
  linear : linearOutput ∈ b.outputs
  angular : angularOutput ∈ b.outputs
  senses : ∀ o, ∃ inputs, (behavior.sense o).run .empty = (.ok (), inputs) ∧
    b.missing? inputs = none

namespace Behavior

variable {behavior : Behavior} {b : RuleBase} {a : Activity}

theorem Reliable.startable (h : behavior.Reliable b) : behavior.Startable b :=
  ⟨h.declares, h.linear, h.angular, h.check⟩

theorem Reliable.prepare (h : behavior.Reliable b) : ∃ a, behavior.prepare = .ok a :=
  h.startable.prepare (buildsBase_of_run h.declares h.wellFormed)

theorem reachable_of_prepare (h : behavior.prepare = .ok a) : a.Reachable behavior :=
  .started (by rw [← run_fst, run_start, h])

theorem Reliable.exists_reachable (h : behavior.Reliable b) : ∃ a : Activity, a.Reachable behavior := by
  obtain ⟨a, ha⟩ := h.prepare
  exact ⟨a, reachable_of_prepare ha⟩

theorem Reliable.inference (h : behavior.Reliable b) (ha : a.Reachable behavior) :
    Inference.Reachable b a.inference :=
  ha.inference_of_run h.declares

/-- Every output of its tables has a value in every state. -/
theorem Reliable.exists_output? (h : behavior.Reliable b) (ha : a.Reachable behavior) {name : String}
    (hn : name ∈ b.outputs) : ∃ x, a.output? name = some x :=
  (ha.exists_output?_iff h.wellFormed h.declares).2 hn

/-- In every state, every cycle returns. -/
theorem Reliable.cycle (h : behavior.Reliable b) (ha : a.Reachable behavior) (o : Observation)
    (v : Verbosity) : ∃ achieved, (Activity.cycle o v).outcome a = .ok achieved := by
  obtain ⟨inputs, hsense, hm⟩ := h.senses o
  have hcycle :=
    (h.inference ha).cycle_outcome (RuleBase.built_iff_wellFormed.2 h.wellFormed) inputs v
  rw [hm] at hcycle
  obtain ⟨achieved, hout⟩ := hcycle
  refine ⟨achieved, ?_⟩
  rw [← run_fst, Activity.run_cycle, ha.behavior_eq, hsense]
  exact hout

/-- Tables for motion that are entered as a whole. -/
theorem reliable_of_enter {name : String} {sense : Observation → Operation Inputs Unit}
    (hw : b.WellFormed) (ho : ∀ p ∈ b.predicates, Membership.ordered p.membership.points = true)
    (hc : b.check = .ok ()) (ha : b.actions = Motion.actions)
    (hs : ∀ o, ∃ inputs, (sense o).run .empty = (.ok (), inputs) ∧ b.missing? inputs = none) :
    Reliable ⟨name, RuleBase.enter b, sense⟩ b where
  declares := RuleBase.run_enter hw ho
  wellFormed := hw
  check := hc
  linear := by
    rw [RuleBase.outputs, ha]
    decide
  angular := by
    rw [RuleBase.outputs, ha]
    decide
  senses := hs

end Behavior

namespace Approach

theorem wellFormed_tables : tables.WellFormed := by
  constructor <;> decide

theorem check_tables : tables.check = .ok () := by
  set_option maxRecDepth 2000 in decide

variable [Trig]

/-- The inputs that an observation gives. -/
def inputs (target : Location) (o : Observation) : Inputs :=
  ⟨[("phi", (o.pose.polar target.center).1),
    ("rho", gapTo target o.pose),
    ("front", (Clearance.ofSonars o.sonars).front),
    ("left", (Clearance.ofSonars o.sonars).left),
    ("right", (Clearance.ofSonars o.sonars).right)]⟩

theorem run_sense (target : Location) (o : Observation) :
    (sense target o).run .empty = (.ok (), inputs target o) := by
  have hlimit : Capacity.inputs.limit = 8 := rfl
  simp only [sense, run_bind]
  rw [Table.run_put_of_fresh _ (by simp) (by simp [hlimit]), andThen_ok,
    Table.run_put_of_fresh _ (by simp) (by simp [hlimit]), andThen_ok,
    Table.run_put_of_fresh _ (by simp) (by simp [hlimit]), andThen_ok,
    Table.run_put_of_fresh _ (by simp) (by simp [hlimit]), andThen_ok,
    Table.run_put_of_fresh _ (by simp) (by simp [hlimit])]
  rfl

theorem missing?_inputs (target : Location) (o : Observation) :
    tables.missing? (inputs target o) = none := rfl

theorem reliable (target : Location) : (behavior target).Reliable tables :=
  Behavior.reliable_of_enter wellFormed_tables (by decide) check_tables rfl fun o =>
    ⟨inputs target o, run_sense target o, missing?_inputs target o⟩

end Approach

namespace Crossing

/-- One metre can be added to every finite radius, and then the ramp from the one to the other is in
order: it is a step where the sum is rounded back. -/
theorem ordered_radius_iff {r : Float32} :
    Membership.ordered [r, r + 1] = true ↔ r.isFinite = true := by
  rw [Membership.ordered_cons_cons, Membership.ordered_singleton]
  refine ⟨fun h => h.1, fun h => ?_⟩
  obtain ⟨hfinite, hle⟩ := (is_of_isFinite h).add_small is_one zero_le_one (by norm_num)
  exact ⟨h, hle, hfinite⟩

theorem ordered_tables_iff {door : Location} :
    (∀ p ∈ (tables door).predicates, Membership.ordered p.membership.points = true) ↔
      door.radius.isFinite = true := by
  have hothers : ∀ p ∈ Motion.headings ++ [⟨"Crossed", .rampUp 0 0.5, "xd"⟩],
      Membership.ordered p.membership.points = true := by decide
  have hsplit : (tables door).predicates =
      (Motion.headings ++ [⟨"Crossed", .rampUp 0 0.5, "xd"⟩]) ++
        [⟨"NearDoor", .rampDown door.radius (door.radius + 1), "gap"⟩] := rfl
  rw [hsplit, List.forall_mem_append, List.forall_mem_singleton, and_iff_right hothers]
  exact ordered_radius_iff

/-- The names in the tables are the same for every door. -/
theorem wellFormed_tables (door : Location) : (tables door).WellFormed := by
  have h : (tables ⟨0, 0, 0, 0⟩).WellFormed := by constructor <;> decide
  exact { h with }

theorem check_tables (door : Location) : (tables door).check = .ok () := by
  have h : (tables ⟨0, 0, 0, 0⟩).check = .ok () := by
    set_option maxRecDepth 2000 in decide
  exact RuleBase.check_of_predicateNames (b := tables ⟨0, 0, 0, 0⟩) rfl rfl rfl rfl h

theorem reliable [Trig] {door : Location} (h : door.radius.isFinite = true) :
    (behavior door).Reliable (tables door) :=
  Behavior.reliable_of_enter (wellFormed_tables door) (ordered_tables_iff.2 h) (check_tables door)
    rfl fun _ => ⟨_, rfl, rfl⟩

end Crossing

/-- Both behaviors that wait have the same tables but for the goal. -/
theorem Waiting.reliable (name : String) {goal : String} (door : DoorId)
    (hg : goal ∈ predicates.map Predicate.name) :
    Behavior.Reliable ⟨name, RuleBase.enter (tables goal), sense door⟩ (tables goal) := by
  have hw : (tables "DoorOpen").WellFormed := by constructor <;> decide
  have hordered : ∀ p ∈ predicates, Membership.ordered p.membership.points = true := by
    decide
  have hc : ∀ goal ∈ predicates.map Predicate.name, (tables goal).check = .ok () := by
    decide
  exact Behavior.reliable_of_enter { hw with } hordered (hc goal hg) rfl fun _ => ⟨_, rfl, rfl⟩

end FuzzyMotion
