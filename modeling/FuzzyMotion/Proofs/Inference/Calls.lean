import FuzzyMotion.Proofs.Inference.Steps
import FuzzyMotion.Proofs.RuleBase.Places

/-!
The states that an inference can reach. It is made from a rule base, and then its operations are
called in any order, whether or not they succeed.
-/
namespace FuzzyMotion.Inference

open Operation

/-- A call of one operation. -/
inductive Call where
  | feed (inputs : Inputs)
  | fuzzify
  | applyRules (v : Verbosity)
  | defuzzify (v : Verbosity)
  | achievement (v : Verbosity)
  | cycle (v : Verbosity)

/-- The state after a call. -/
def Call.after : Call → Inference → Inference
  | feed inputs, e => (Inference.feed inputs).after e
  | fuzzify, e => Inference.fuzzify.after e
  | applyRules v, e => (Inference.applyRules v).after e
  | defuzzify v, e => (Inference.defuzzify v).after e
  | achievement v, e => (Inference.achievement v).after e
  | cycle v, e => (Inference.cycle v).after e

/-- The states after any sequence of calls on the inference that a rule base makes. -/
inductive Reachable (b : RuleBase) : Inference → Prop
  | made {e : Inference} (h : ofRuleBase b = .ok e) : Reachable b e
  | called {e : Inference} (c : Call) (h : Reachable b e) : Reachable b (c.after e)

theorem ofRuleBase_eq_ok_iff {b : RuleBase} {e : Inference} :
    ofRuleBase b = .ok e ↔ b.check = .ok () ∧ ∃ consequents sets outputs,
      b.collectConsequents [] b.rules = .ok consequents ∧
      zeroTables [] .empty b.actions = .ok (sets, outputs) ∧
      e = ⟨b, consequents, .empty, .empty, sets, outputs⟩ := by
  simp only [ofRuleBase, bind_eq_ok_iff, pure, Except.pure, Except.ok.injEq]
  constructor
  · rintro ⟨⟨⟩, hc, consequents, hconsequents, ⟨sets, outputs⟩, hz, rfl⟩
    exact ⟨hc, consequents, sets, outputs, hconsequents, hz, rfl⟩
  · rintro ⟨hc, consequents, sets, outputs, hconsequents, hz, rfl⟩
    exact ⟨(), hc, consequents, hconsequents, (sets, outputs), hz, rfl⟩

/-- An inference that is made is made of checked tables, and it credits what these name. -/
theorem ofRuleBase_eq_ok {b : RuleBase} {e : Inference} (h : ofRuleBase b = .ok e) :
    b.check = .ok () ∧ ∃ consequents sets outputs, b.rules.mapM b.consequentOf = .ok consequents ∧
      zeroTables [] .empty b.actions = .ok (sets, outputs) ∧
      e = ⟨b, consequents, .empty, .empty, sets, outputs⟩ := by
  obtain ⟨hc, consequents, sets, outputs, hconsequents, hz, he⟩ := ofRuleBase_eq_ok_iff.1 h
  obtain ⟨_, hnames, rfl, -⟩ :=
    (RuleBase.collectConsequents_eq_ok_iff (Nat.zero_le _)).1 hconsequents
  exact ⟨hc, consequents, sets, outputs, hnames, hz, he⟩

/-- What the four steps preserve, a cycle preserves. -/
theorem preserved_by_cycle {I : Inference → Prop} (hf : ∀ e, I e → I (fuzzify.after e))
    (ha : ∀ e, I e → I ((applyRules Verbosity.quiet).after e)) (hr : ∀ e, I e → I e.refreshed)
    (v : Verbosity) {e : Inference} (h : I e) : I ((cycle v).after e) := by
  rw [← run_snd, run_cycle]
  have h₁ := hf e h
  rw [← run_snd] at h₁
  rcases hx : fuzzify.run e with ⟨o₁, e₁⟩
  rw [hx] at h₁
  cases o₁ with
  | error f => exact h₁
  | ok u =>
    rw [andThen_ok]
    have h₂ := ha e₁ h₁
    rw [← run_snd] at h₂
    rcases hy : (applyRules Verbosity.quiet).run e₁ with ⟨o₂, e₂⟩
    rw [hy] at h₂
    cases o₂ with
    | error f => exact h₂
    | ok u => exact hr e₂ h₂

/-- What every step preserves, every call preserves. -/
theorem preserved_by_call {I : Inference → Prop}
    (hi : ∀ inputs e, I e → I { e with inputs := inputs }) (hf : ∀ e, I e → I (fuzzify.after e))
    (ha : ∀ e, I e → I ((applyRules Verbosity.quiet).after e)) (hr : ∀ e, I e → I e.refreshed)
    (c : Call) {e : Inference} (h : I e) : I (c.after e) := by
  cases c with
  | feed inputs => exact hi inputs e h
  | fuzzify => exact hf e h
  | applyRules v =>
    have := ha e h
    rw [← run_snd, run_applyRules] at this
    rw [Call.after, ← run_snd, run_applyRules]
    exact this
  | defuzzify v =>
    rw [Call.after, ← run_snd, run_defuzzify]
    exact hr e h
  | achievement v =>
    rw [Call.after, ← run_snd, run_achievement]
    exact h
  | cycle v => exact preserved_by_cycle hf ha hr v h

/-- The rule base and the consequents never change. -/
theorem after_call_base (c : Call) (e : Inference) :
    (c.after e).base = e.base ∧ (c.after e).consequents = e.consequents := by
  refine preserved_by_call (I := fun d => d.base = e.base ∧ d.consequents = e.consequents)
    (fun _ _ h => h) ?_ ?_ (fun _ h => h) c ⟨rfl, rfl⟩
  · intro d h
    rw [← run_snd, run_fuzzify]
    exact h
  · intro d h
    rw [← run_snd, run_applyRules]
    exact h

theorem Reachable.base_eq {b : RuleBase} {e : Inference} (h : Reachable b e) : e.base = b := by
  induction h with
  | made h =>
    obtain ⟨-, _, _, _, -, -, rfl⟩ := ofRuleBase_eq_ok h
    rfl
  | called c _ ih => rw [(after_call_base c _).1, ih]

/-- The degree of the goal is computed in the state that a successful cycle leaves. -/
theorem goalDegree_after_cycle {v : Verbosity} {e : Inference} {achieved : Float32}
    (h : (cycle v).outcome e = .ok achieved) : ((cycle v).after e).goalDegree = .ok achieved := by
  rw [← run_fst, run_cycle] at h
  rw [← run_snd, run_cycle]
  rcases hx : fuzzify.run e with ⟨o₁, e₁⟩
  rw [hx] at h
  cases o₁ with
  | error f => cases h
  | ok u =>
    rw [andThen_ok] at h ⊢
    rcases hy : (applyRules Verbosity.quiet).run e₁ with ⟨o₂, e₂⟩
    rw [hy] at h
    cases o₂ with
    | error f => cases h
    | ok u => exact h

theorem Reachable.check_eq_ok {b : RuleBase} {e : Inference} (h : Reachable b e) :
    b.check = .ok () := by
  induction h with
  | made h => exact (ofRuleBase_eq_ok h).1
  | called _ _ ih => exact ih

end FuzzyMotion.Inference
