import FuzzyMotion.Proofs.Inference.Coherent
import FuzzyMotion.Proofs.RuleBase.Faults

/-!
Making an inference. After the check of the tables nothing can go wrong: there is room for what the rules
credit, for the sets and for the outputs. So an inference is made exactly of sound tables, and otherwise
the first fault of the tables is reported.
-/
namespace FuzzyMotion.Inference

/-- A computation for every element succeeds where each of them does. -/
theorem exists_mapM_eq_ok {ε α β : Type} {f : α → Except ε β} {xs : List α}
    (h : ∀ x ∈ xs, ∃ y, f x = .ok y) : ∃ ys, xs.mapM f = .ok ys ∧ ys.length = xs.length := by
  induction xs with
  | nil => exact ⟨[], rfl, rfl⟩
  | cons x xs ih =>
    obtain ⟨⟨y, hy⟩, hxs⟩ := List.forall_mem_cons.1 h
    obtain ⟨ys, hys, hlen⟩ := ih hxs
    refine ⟨y :: ys, ?_, by rw [List.length_cons, List.length_cons, hlen]⟩
    rw [List.mapM_cons, hy, hys]
    rfl

variable {b : RuleBase}

/-- There is room for everything that checked tables ask for. -/
theorem ofRuleBase_of_check (hb : b.WellFormed) (hc : b.check = .ok ()) :
    ∃ e, ofRuleBase b = .ok e := by
  obtain ⟨consequents, hmap, hlen⟩ := exists_mapM_eq_ok fun rule hr =>
    ((RuleBase.check_eq_ok_iff.1 hc).2 rule hr).1
  have hroom : consequents.length ≤ Capacity.rules.limit := by
    rw [hlen]
    exact hb.rules_le
  have hcollect : b.collectConsequents [] b.rules = .ok consequents :=
    (RuleBase.collectConsequents_eq_ok_iff (Nat.zero_le _)).2 ⟨consequents, hmap, rfl, hroom⟩
  exact ⟨_, ofRuleBase_eq_ok_iff.2 ⟨hc, _, _, _, hcollect, zeroTables_of_wellFormed hb, rfl⟩⟩

theorem exists_ofRuleBase_iff (hb : b.WellFormed) :
    (∃ e, ofRuleBase b = .ok e) ↔ b.check = .ok () :=
  ⟨fun ⟨_, he⟩ => (ofRuleBase_eq_ok he).1, ofRuleBase_of_check hb⟩

/-- Only the check of the tables can fail. -/
theorem ofRuleBase_eq_error_iff (hb : b.WellFormed) {f : Fault} :
    ofRuleBase b = .error f ↔ b.check = .error f := by
  cases hc : b.check with
  | ok u =>
    obtain ⟨e, he⟩ := ofRuleBase_of_check hb hc
    simp [he]
  | error g =>
    have hfail : ofRuleBase b = .error g := by
      rw [ofRuleBase, hc]
      rfl
    rw [hfail, Except.error.injEq, Except.error.injEq]

/-- An inference is made of a built rule base exactly where there is a goal, every rule names an action and
one of its labels, and all statements are sentences over the declared predicates. Otherwise the first
fault is reported, in the order goal, rules, statement of the goal, and it is never a want of room. -/
theorem ofRuleBase_reports_first_fault (hb : b.Built) :
    ((∃ e, ofRuleBase b = .ok e) ↔
        (∃ goal, b.goal = some goal ∧ b.Sentence goal) ∧ ∀ rule ∈ b.rules,
          (∃ a ∈ b.actions, a.name = rule.action ∧ rule.label ∈ a.labelNames) ∧
            b.Sentence rule.antecedent) ∧
      (∀ f, ofRuleBase b = .error f ↔ b.FirstFault f) ∧
      ∀ c, ofRuleBase b ≠ .error (.tableFull c) := by
  have hw := hb.wellFormed
  have hfault : ∀ f, ofRuleBase b = .error f ↔ b.FirstFault f := fun f => by
    rw [ofRuleBase_eq_error_iff hw, RuleBase.check_eq_error_iff hw]
  refine ⟨?_, hfault, fun c hfull => ?_⟩
  · rw [exists_ofRuleBase_iff hw, RuleBase.check_eq_ok_iff_sound hw]
    rfl
  · exact ((hfault _).1 hfull).ne_tableFull c rfl

/-- The antecedent of the second rule names a predicate that is not declared before it breaks off. -/
theorem ofRuleBase_reports_undeclared_before_end :
    let near : Predicate := ⟨"Near", .rampDown 0 1, "rho"⟩
    let move : Action := ⟨"Move", [("Slow", 0.1)], "Vlin"⟩
    let creep : Rule := ⟨"Creep", "NOT(Near)", "Move", "Slow"⟩
    let broken : Rule := ⟨"Broken", "Near AND (Far OR", "Move", "Slow"⟩
    let b : RuleBase := ⟨[near], [move], [creep, broken], some "Near AND"⟩
    b.Built ∧ (¬∃ e, ofRuleBase b = .ok e) ∧
      b.FirstFault (.undeclaredPredicate "Near AND (Far OR" "Far") := by
  intro near move creep broken b
  have hb : b.Built :=
    .declared (.goal "Near AND") (.declared (.rule broken) (.declared (.rule creep)
      (.declared (.action move) (.declared (.predicate near) .empty))))
  have hfault : ofRuleBase b = .error (.undeclaredPredicate "Near AND (Far OR" "Far") := by
    simp only [b, near, move, creep, broken]
    rfl
  obtain ⟨-, hiff, -⟩ := ofRuleBase_reports_first_fault hb
  refine ⟨hb, ?_, (hiff _).1 hfault⟩
  rintro ⟨e, he⟩
  rw [hfault] at he
  cases he

end FuzzyMotion.Inference
