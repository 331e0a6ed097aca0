import FuzzyMotion.Proofs.Inference.Activation
import FuzzyMotion.Proofs.Inference.Calls
import FuzzyMotion.Proofs.RuleBase.Built
import FuzzyMotion.Proofs.Statement.Range

/-!
Bounds that hold in every state of an inference. The degree of a predicate need not be a number: between
edges that are too far apart, the width is infinite. Activations do not take this over, since the larger
one of a number and of anything is a number. They are between zero and one, also after calls that fail
halfway, and so is the degree of the goal as long as all truths are numbers.
-/
namespace FuzzyMotion.Inference

open Binary32 Operation

/-- Truths are degrees or no numbers, and activations are degrees. -/
structure Bounded (e : Inference) : Prop where
  truths : ∀ name x, e.truth? name = some x → IsGrade x
  activations : Activated (fun _ => IsDegree) e.sets

variable {b : RuleBase} {e : Inference}

/-- What all activations have, place by place, all members of the sets have. -/
theorem activated_iff_forall_mem {P : Float32 → Prop} {sets : List FuzzySet} :
    Activated (fun _ => P) sets ↔ ∀ set ∈ sets, ∀ m ∈ set, P m := by
  constructor
  · intro h set hset m hm
    obtain ⟨k, hk⟩ := List.mem_iff_getElem?.1 hset
    obtain ⟨j, hj⟩ := List.mem_iff_getElem?.1 hm
    exact h ⟨k, j⟩ m (by rw [activation?, hk, Option.bind_some, hj])
  · intro h c m hm
    obtain ⟨set, hset, hj⟩ := Option.bind_eq_some_iff.1 hm
    exact h set (List.mem_of_getElem? hset) m (List.mem_of_getElem? hj)

/-- The sets that an inference is made with are the zero sets of the actions. -/
theorem sets_of_zeroTables {sets final : List FuzzySet} {t u : Table String .outputs Float32}
    {actions : List Action} (h : zeroTables sets t actions = .ok (final, u)) :
    final = sets ++ actions.map FuzzySet.zero := by
  induction actions generalizing sets t with
  | nil =>
    cases h
    exact (List.append_nil _).symm
  | cons a rest ih =>
    obtain ⟨longer, hset, h⟩ := bind_eq_ok_iff.1 h
    obtain ⟨outputs, -, h⟩ := bind_eq_ok_iff.1 h
    rw [ih h, (extend_eq_ok_iff.1 hset).2, List.append_assoc]
    rfl

theorem bounded_of_made (h : ofRuleBase b = .ok e) : Bounded e := by
  obtain ⟨-, consequents, sets, outputs, -, hz, rfl⟩ := ofRuleBase_eq_ok h
  refine ⟨fun name x hx => ?_, activated_iff_forall_mem.2 fun set hset m hm => ?_⟩
  · cases hx
  · rw [sets_of_zeroTables hz, List.nil_append] at hset
    obtain ⟨a, -, rfl⟩ := List.mem_map.1 hset
    obtain ⟨label, -, rfl⟩ := List.mem_map.1 hm
    exact isDegree_zero

/-- Truths are clamped when they are recorded. -/
theorem Bounded.fuzzify (h : Bounded e) : Bounded (Inference.fuzzify.after e) := by
  rw [← run_snd, run_fuzzify]
  refine { h with truths := fun name x hx => ?_ }
  rcases get?_recordAll hx with hx | ⟨p, -, -, y, rfl⟩
  · cases hx
  · exact isGrade_toDegree _

/-- What is not a number raises no activation. -/
theorem Bounded.applyRules (h : Bounded e) (v : Verbosity) :
    Bounded ((Inference.applyRules v).after e) := by
  rw [← run_snd, run_applyRules]
  have hreset : Activated (fun _ => IsDegree) (e.sets.map FuzzySet.reset) :=
    activated_reset (fun _ => isDegree_zero) e.sets
  refine { h with activations := hreset.creditAll (Q := fun _ => IsGrade) ?_ ?_ }
  · exact fun _ _ _ => IsDegree.max_of_isGrade
  · exact fun _ _ _ hdegree => Statement.isGrade_evaluate h.truths hdegree

/-- Every state of an inference is bounded, over whatever rule base. -/
theorem bounded_of_reachable (h : Reachable b e) : Bounded e := by
  induction h with
  | made h => exact bounded_of_made h
  | called c _ ih =>
    exact preserved_by_call (fun _ _ h => { h with }) (fun _ h => h.fuzzify)
      (fun _ h => h.applyRules _) (fun _ h => { h with }) c ih

/-- The degree of the goal is bounded by the truths. -/
theorem Bounded.isDegree_achievement (h : Bounded e)
    (hn : ∀ name x, e.truth? name = some x → x.isNaN = false) {v : Verbosity} {achieved : Float32}
    (ha : (achievement v).outcome e = .ok achieved) : IsDegree achieved := by
  have hgraded : e.truths.interpretation.Graded := fun name x hx => h.truths name x hx (hn name x hx)
  rw [← run_fst, run_achievement] at ha
  obtain ⟨goal, -, hgoal⟩ := goalDegree_eq_ok_iff.1 ha
  exact Statement.isDegree_evaluate hgraded hgoal

/-- In every state that calls can lead to, in any order and whether or not they succeed, all activations
are numbers between zero and one, whatever the truths are; and where no truth fails to be a number, so is
the degree of the goal. -/
theorem activations_and_goal_bounded (h : Reachable b e) :
    (∀ set ∈ e.sets, ∀ m ∈ set, m.isNaN = false ∧ 0 ≤ m ∧ m ≤ 1) ∧
      ((∀ name x, e.truth? name = some x → x.isNaN = false) →
        ∀ v achieved, (achievement v).outcome e = .ok achieved →
          achieved.isNaN = false ∧ 0 ≤ achieved ∧ achieved ≤ 1) := by
  have hb := bounded_of_reachable h
  refine ⟨fun set hset m hm => ?_, fun hn v achieved ha => ?_⟩
  · exact (activated_iff_forall_mem.1 hb.activations set hset m hm).bounds
  · exact (hb.isDegree_achievement hn ha).bounds

/-- An edge of infinite width: its degree is no number on one side of zero, and a number on the other. -/
theorem activations_and_goal_bounded_beyond_width :
    let wide : Predicate := ⟨"Wide", .rampUp (-3.4e38) 3.4e38, "x"⟩
    let move : Action := ⟨"Move", [("Slow", 0.1)], "Vlin"⟩
    let creep : Rule := ⟨"Creep", "Wide", "Move", "Slow"⟩
    let b : RuleBase := ⟨[wide], [move], [creep], some "NOT(Wide)"⟩
    let made : Inference := ⟨b, [⟨0, 0⟩], .empty, .empty, [[0]], ⟨[("Vlin", 0)]⟩⟩
    let seen (x : Float32) := Inference.fuzzify.after ((feed ⟨[("x", x)]⟩).after made)
    let far := (Inference.applyRules Verbosity.quiet).after (seen 3e38)
    let near := seen (-1)
    (Reachable b far ∧ (∃ x, far.truth? "Wide" = some x ∧ x.isNaN = true) ∧
        ∀ set ∈ far.sets, ∀ m ∈ set, m.isNaN = false ∧ 0 ≤ m ∧ m ≤ 1) ∧
      Reachable b near ∧ (∀ name x, near.truth? name = some x → x.isNaN = false) ∧
        ∃ achieved, (achievement Verbosity.quiet).outcome near = .ok achieved ∧
          achieved.isNaN = false ∧ 0 ≤ achieved ∧ achieved ≤ 1 := by
  intro wide move creep b made seen far near
  have hmade : Reachable b made := by
    refine .made ?_
    simp only [b, made, wide, move, creep]
    rfl
  have hseen (x : Float32) : Reachable b (seen x) :=
    .called .fuzzify (.called (.feed ⟨[("x", x)]⟩) hmade)
  have hfar : Reachable b far := .called (.applyRules Verbosity.quiet) (hseen 3e38)
  have htruths (x : Float32) :
      (seen x).truths = ⟨[("Wide", toDegree (wide.membership.degree x))]⟩ := rfl
  have htruth : far.truth? "Wide" = some (toDegree (wide.membership.degree 3e38)) := by
    simp only [far]
    rw [← run_snd, run_applyRules]
    rfl
  have hnumber : ∀ name x, near.truth? name = some x → x.isNaN = false := by
    intro name x hx
    obtain ⟨rfl, rfl⟩ : name = "Wide" ∧ toDegree (wide.membership.degree (-1)) = x := by
      rw [truth?, htruths, Table.get?, Table.lookup_cons_eq_ite] at hx
      split at hx
      · exact ⟨‹_›, Option.some.inj hx⟩
      · cases hx
    decide +kernel
  obtain ⟨hsets, -⟩ := activations_and_goal_bounded hfar
  obtain ⟨-, hbound⟩ := activations_and_goal_bounded (hseen (-1))
  have hachieved : (achievement Verbosity.quiet).outcome near =
      .ok (1 - toDegree (wide.membership.degree (-1))) := by
    have hgoal : near.base.goal = some "NOT(Wide)" := rfl
    rw [← run_fst, run_achievement, goalDegree_eq hgoal, htruths]
    rfl
  refine ⟨⟨hfar, ⟨_, htruth, by decide +kernel⟩, hsets⟩, hseen _, hnumber, _, hachieved, ?_⟩
  exact hbound hnumber Verbosity.quiet _ hachieved

end FuzzyMotion.Inference
