import FuzzyMotion.Proofs.Behavior.Motion
import FuzzyMotion.Proofs.Inference.Activation
import FuzzyMotion.Proofs.Inference.Calls
import FuzzyMotion.Proofs.Membership.Range
import FuzzyMotion.Proofs.Statement.Range

/-!
Inference over tables for motion. If the tables are cautious, then in every state that can be reached
the truths and the activations are degrees, and both speeds are within their limits.
-/
namespace FuzzyMotion.Motion

open Binary32 Inference

/-- The label `Fast` of the linear speed. -/
def fast : Consequent := ⟨0, 0⟩

/-- The label `Back` of the linear speed. -/
def back : Consequent := ⟨0, 3⟩

/-- What the labels of motion ask of their activations. -/
def Admits (c : Consequent) (a : Float32) : Prop :=
  IsDegree a ∧ (c = fast → IsCoarse a) ∧ (c = back → Is a 0)

/-- The predicate `TargetAhead` is zero or not too small. -/
def SeesAhead (i : Interpretation) : Prop :=
  ∀ x, i "TargetAhead" = some x → IsCoarse x

/-- Tables over the two actions of motion that never drive backwards, and that drive fast only to a
degree that is zero or not too small. -/
structure Cautious (b : RuleBase) : Prop where
  actions : b.actions = Motion.actions
  edges : ∀ p ∈ b.predicates, p.membership.HasEdges
  ahead : ∀ p ∈ b.predicates, p.name = "TargetAhead" → ∀ x, IsCoarse (p.membership.degree x)
  rules : ∀ consequents, b.rules.mapM b.consequentOf = .ok consequents →
    ∀ pair ∈ b.rules.zip consequents, pair.2 ≠ back ∧ (pair.2 = fast → ∀ i : Interpretation,
      i.Graded → SeesAhead i → ∀ x, Statement.evaluate pair.1.antecedent i = .ok x → IsCoarse x)

/-- A linear speed within its limits. -/
def IsLinear (x : Float32) : Prop :=
  ∃ q, Is x q ∧ 0 ≤ q ∧ q ≤ 1 / 2

/-- An angular speed in degrees, within its limits. -/
def IsAngular (x : Float32) : Prop :=
  ∃ q, Is x q ∧ |q| ≤ 641 / 16

structure Steady (b : RuleBase) (e : Inference) : Prop where
  base : e.base = b
  consequents : b.rules.mapM b.consequentOf = .ok e.consequents
  graded : e.truths.interpretation.Graded
  ahead : SeesAhead e.truths.interpretation
  sizes : e.sets.map List.length = [4, 5]
  activated : Activated Admits e.sets
  linear : ∀ x, e.outputs.get? linearOutput = some x → IsLinear x
  angular : ∀ x, e.outputs.get? angularOutput = some x → IsAngular x

theorem admits_zero (c : Consequent) : Admits c 0 :=
  ⟨isDegree_zero, fun _ => isCoarse_zero, fun _ => is_zero⟩

theorem Admits.max {c : Consequent} {a d : Float32} (ha : Admits c a) (hd : Admits c d) :
    Admits c (Binary32.max a d) := by
  refine ⟨ha.1.max hd.1, fun h => (ha.2.1 h).max (hd.2.1 h), fun h => ?_⟩
  simpa using (ha.2.2 h).max (hd.2.2 h)

section Steps

variable {b : RuleBase} {e : Inference}

/-- Truths are degrees of the declared predicates. -/
theorem truth_recordAll (hb : Cautious b) {inputs : Inputs} {name : String} {x : Float32}
    (h : (recordAll inputs b.predicates .empty).2.get? name = some x) :
    IsDegree x ∧ (name = "TargetAhead" → IsCoarse x) := by
  rcases get?_recordAll h with h | ⟨p, hm, hp, y, rfl⟩
  · cases h
  · have hd := Membership.isDegree_degree (hb.edges p hm) y
    rw [hd.toDegree_eq]
    exact ⟨hd, fun hn => hb.ahead p hm (hp.trans hn) y⟩

theorem Steady.fuzzify (hb : Cautious b) (h : Steady b e) : Steady b (Inference.fuzzify.after e) := by
  have htruth : ∀ name x, (recordAll e.inputs b.predicates .empty).2.get? name = some x →
      IsDegree x ∧ (name = "TargetAhead" → IsCoarse x) := fun name x hx => truth_recordAll hb hx
  rw [← Operation.run_snd, run_fuzzify, h.base]
  exact { h with
    graded := fun name x hx => (htruth name x hx).1
    ahead := fun x hx => (htruth "TargetAhead" x hx).2 rfl }

/-- What a rule credits is admitted. -/
theorem Steady.admits (hb : Cautious b) (h : Steady b e) :
    ∀ pair ∈ e.creditors, ∀ degree,
      Statement.evaluate pair.1.antecedent e.truths.interpretation = .ok degree →
      Admits pair.2 degree := by
  intro pair hp degree hx
  have hpair : pair ∈ b.rules.zip e.consequents := by
    rw [← h.base]
    exact hp
  obtain ⟨hback, hfast⟩ := hb.rules e.consequents h.consequents pair hpair
  have hcoarse : pair.2 = fast → IsCoarse degree :=
    fun hc => hfast hc e.truths.interpretation h.graded h.ahead degree hx
  exact ⟨Statement.isDegree_evaluate h.graded hx, hcoarse, fun hc => absurd hc hback⟩

theorem Steady.withSets (h : Steady b e) {sets : List FuzzySet}
    (hs : sets.map List.length = e.sets.map List.length) (ha : Activated Admits sets) :
    Steady b (e.withSets sets) :=
  { h with
    sizes := hs.trans h.sizes
    activated := ha }

theorem Steady.applyRules (hb : Cautious b) (h : Steady b e) (v : Verbosity) :
    Steady b ((Inference.applyRules v).after e) := by
  have hmax : ∀ c a d, Admits c a → Admits c d → Admits c (Binary32.max a d) :=
    fun _ _ _ => Admits.max
  have hreset : Activated Admits (e.sets.map FuzzySet.reset) := activated_reset admits_zero e.sets
  have hcredit := hreset.creditAll hmax (h.admits hb)
  rw [← Operation.run_snd, run_applyRules]
  refine h.withSets ?_ hcredit
  rw [length_creditAll, length_reset]

/-- The two sets, label by label. -/
theorem Steady.sets_eq (h : Steady b e) : ∃ f s n k turning, e.sets = [[f, s, n, k], turning] ∧
    turning.length = 5 := by
  obtain ⟨moving, turning, hsets, hmove, hturn⟩ :
      ∃ moving turning, e.sets = [moving, turning] ∧ moving.length = 4 ∧ turning.length = 5 := by
    have := h.sizes
    match hs : e.sets with
    | [moving, turning] =>
      rw [hs] at this
      simpa using this
    | [] => simp [hs] at this
    | [_] => simp [hs] at this
    | _ :: _ :: _ :: _ => simp [hs] at this
  match moving, hmove with
  | [f, s, n, k], _ => exact ⟨f, s, n, k, turning, hsets, hturn⟩

theorem Steady.refreshed (hb : Cautious b) (h : Steady b e) : Steady b e.refreshed := by
  obtain ⟨f, s, n, k, turning, hsets, hturn⟩ := h.sets_eq
  have hact := h.activated
  have hpairs : e.base.actions.zip e.sets = [(move, [f, s, n, k]), (turn, turning)] := by
    rw [h.base, hb.actions, hsets]
    rfl
  refine { h with
    linear := ?_
    angular := ?_ }
  · intro x hx
    rcases get?_refresh hx with hx | ⟨pair, hm, ho, hc⟩
    · exact h.linear x hx
    · rw [hpairs] at hm
      simp only [List.mem_cons, List.not_mem_nil, or_false] at hm
      rcases hm with rfl | rfl
      · refine crisp?_move ?_ ?_ ?_ ?_ hc
        · exact (hact fast f (by rw [hsets]; rfl)).2.1 rfl
        · exact (hact ⟨0, 1⟩ s (by rw [hsets]; rfl)).1
        · exact (hact ⟨0, 2⟩ n (by rw [hsets]; rfl)).1
        · exact (hact back k (by rw [hsets]; rfl)).2.2 rfl
      · exact absurd (show angularOutput = linearOutput from ho) (by decide)
  · intro x hx
    rcases get?_refresh hx with hx | ⟨pair, hm, ho, hc⟩
    · exact h.angular x hx
    · rw [hpairs] at hm
      simp only [List.mem_cons, List.not_mem_nil, or_false] at hm
      rcases hm with rfl | rfl
      · exact absurd (show linearOutput = angularOutput from ho) (by decide)
      · refine crisp?_turn hturn ?_ hc
        intro m hm
        obtain ⟨j, hj, rfl⟩ := List.mem_iff_getElem.1 hm
        refine (hact ⟨1, j⟩ turning[j] ?_).1
        rw [hsets]
        exact List.getElem?_eq_getElem hj

theorem steady_ofRuleBase (hb : Cautious b) (h : ofRuleBase b = .ok e) : Steady b e := by
  obtain ⟨-, consequents, sets, outputs, hcs, hz, rfl⟩ := ofRuleBase_eq_ok h
  obtain ⟨rfl, rfl⟩ : [[0, 0, 0, 0], [0, 0, 0, 0, 0]] = sets ∧
      ⟨[(linearOutput, 0), (angularOutput, 0)]⟩ = outputs := by
    rw [hb.actions] at hz
    exact Prod.mk.inj (Except.ok.inj hz)
  refine ⟨rfl, hcs, ?_, ?_, ?_, ?_, ?_, ?_⟩
  · intro name x hx
    cases hx
  · intro x hx
    cases hx
  · rfl
  · change Activated Admits [[0, 0, 0, 0], [0, 0, 0, 0, 0]]
    rw [show ([[0, 0, 0, 0], [0, 0, 0, 0, 0]] : List FuzzySet) =
      [[0, 0, 0, 0], [0, 0, 0, 0, 0]].map FuzzySet.reset from rfl]
    exact activated_reset admits_zero _
  · intro x hx
    cases hx
    exact ⟨0, is_zero, le_refl 0, by norm_num⟩
  · intro x hx
    cases hx
    exact ⟨0, is_zero, by norm_num⟩

/-- Every state of an inference over cautious tables is steady. -/
theorem steady_of_reachable (hb : Cautious b) (h : Reachable b e) : Steady b e := by
  induction h with
  | made h => exact steady_ofRuleBase hb h
  | called c _ ih =>
    refine preserved_by_call ?_ (fun _ h => h.fuzzify hb) (fun _ h => h.applyRules hb _)
      (fun _ h => h.refreshed hb) c ih
    exact fun inputs e h => { h with }

/-- What a cycle returns is a degree. -/
theorem Steady.achieved (hb : Cautious b) (h : Steady b e) {v : Verbosity} {achieved : Float32}
    (ha : (cycle v).outcome e = .ok achieved) : IsDegree achieved := by
  have hafter : Steady b ((cycle v).after e) :=
    preserved_by_cycle (fun _ h => h.fuzzify hb) (fun _ h => h.applyRules hb _)
      (fun _ h => h.refreshed hb) v h
  obtain ⟨goal, -, hgoal⟩ := goalDegree_eq_ok_iff.1 (goalDegree_after_cycle ha)
  exact Statement.isDegree_evaluate hafter.graded hgoal

end Steps

end FuzzyMotion.Motion
