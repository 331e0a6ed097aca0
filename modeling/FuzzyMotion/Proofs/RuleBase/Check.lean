import FuzzyMotion.Proofs.Statement.Derivation
import FuzzyMotion.RuleBase

/-!
What the check of finished tables means. A checked statement is a sentence whose atoms are all
declared, so it has a degree wherever the declared predicates have one.
-/
namespace FuzzyMotion.RuleBase

/-- The text is a sentence of the grammar over the declared predicates. -/
def Sentence (b : RuleBase) (text : String) : Prop :=
  ∃ s : Statement, Token.ofText text = s.tokens ∧ ∀ a ∈ s.atoms, a ∈ b.predicateNames

theorem checkStatement_eq_ok_iff {b : RuleBase} {text : String} :
    b.checkStatement text = .ok () ↔ b.Sentence text := by
  rw [checkStatement]
  constructor
  · intro h
    cases hx : Statement.evaluate text b.declared with
    | error e => simp [hx] at h
    | ok x =>
      obtain ⟨s, ht, ha, -⟩ := Statement.evaluate_eq_ok_iff.1 hx
      exact ⟨s, ht, fun a hm => by simpa [declares] using ha a hm⟩
  · rintro ⟨s, ht, ha⟩
    have hknown : ∀ a ∈ s.atoms, b.declared.knows a = true := fun a hm => by
      simpa [declares] using ha a hm
    rw [Statement.evaluate_eq_ok_iff.2 ⟨s, ht, hknown, rfl⟩]

/-- A statement fails the check for what reading it reports. -/
theorem checkStatement_fails_iff {b : RuleBase} {text : String} {f : Fault} :
    b.checkStatement text = .error f ↔
      ∃ e, Statement.ofText b.declared text = .error e ∧ blame text e = f := by
  simp only [← Statement.evaluate_eq_error_iff, checkStatement]
  cases Statement.evaluate text b.declared with
  | ok x => simp
  | error e => simp

/-- A sentence has a degree under every interpretation of the declared predicates. -/
theorem Sentence.evaluate {b : RuleBase} {text : String} {i : Interpretation}
    (h : b.Sentence text) (hi : ∀ a ∈ b.predicateNames, i.knows a = true) :
    ∃ x, Statement.evaluate text i = .ok x := by
  obtain ⟨s, ht, ha⟩ := h
  exact ⟨s.degree i, Statement.evaluate_eq_ok_iff.2 ⟨s, ht, fun a hm => hi a (ha a hm), rfl⟩⟩

theorem checkRule_eq_ok_iff {b : RuleBase} {rule : Rule} :
    b.checkRule rule = .ok () ↔
      (∃ c, b.consequentOf rule = .ok c) ∧ b.Sentence rule.antecedent := by
  rw [checkRule]
  cases h : b.consequentOf rule with
  | error e => simp [bind, Except.bind]
  | ok c => simp [bind, Except.bind, checkStatement_eq_ok_iff]

theorem checkRules_eq_ok_iff {b : RuleBase} {rules : List Rule} :
    b.checkRules rules = .ok () ↔
      ∀ rule ∈ rules, (∃ c, b.consequentOf rule = .ok c) ∧ b.Sentence rule.antecedent := by
  induction rules with
  | nil => simp [checkRules]
  | cons rule rest ih =>
    rw [List.forall_mem_cons, ← checkRule_eq_ok_iff, ← ih, checkRules]
    cases b.checkRule rule <;> simp [bind, Except.bind]

theorem check_eq_ok_iff {b : RuleBase} :
    b.check = .ok () ↔
      (∃ goal, b.goal = some goal ∧ b.Sentence goal) ∧
        ∀ rule ∈ b.rules, (∃ c, b.consequentOf rule = .ok c) ∧ b.Sentence rule.antecedent := by
  rw [← checkRules_eq_ok_iff, check]
  cases b.goal with
  | none => simp
  | some goal =>
    simp only [Option.some.injEq, exists_eq_left', ← checkStatement_eq_ok_iff]
    cases b.checkRules b.rules <;> simp [bind, Except.bind]

/-- The check looks at the predicates for their names only. -/
theorem check_of_predicateNames {b c : RuleBase} (hn : b.predicateNames = c.predicateNames)
    (ha : b.actions = c.actions) (hr : b.rules = c.rules) (hg : b.goal = c.goal)
    (h : b.check = .ok ()) : c.check = .ok () := by
  have hsentence : ∀ text, b.Sentence text ↔ c.Sentence text := fun text => by
    rw [Sentence, Sentence, hn]
  have hconsequent : ∀ rule, b.consequentOf rule = c.consequentOf rule := fun rule => by
    rw [consequentOf, consequentOf, actionNames, actionNames, ha]
  rw [check_eq_ok_iff] at h ⊢
  simpa only [← hg, ← hr, ← hsentence, ← hconsequent] using h

end FuzzyMotion.RuleBase
