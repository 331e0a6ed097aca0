import FuzzyMotion.Proofs.Inference.Calls
import FuzzyMotion.Proofs.Inference.Truths
import FuzzyMotion.Proofs.RuleBase.Check

/-!
The outcome of a cycle. After the check of the rule base, the only fault left is an input that is not
there: the statements read the same way over the truths as they did over the declarations.
-/
namespace FuzzyMotion.Inference

open Operation

/-- Rules whose antecedents have degrees are all credited. -/
theorem creditAll_eq_ok {i : Interpretation} {pairs : List (Rule × Consequent)}
    (sets : List FuzzySet)
    (h : ∀ pair ∈ pairs, ∃ x, Statement.evaluate pair.1.antecedent i = .ok x) :
    (creditAll i pairs sets).1 = .ok () := by
  induction pairs generalizing sets with
  | nil => rfl
  | cons pair rest ih =>
    obtain ⟨rule, c⟩ := pair
    obtain ⟨x, hx⟩ := h (rule, c) (by simp)
    simp only [creditAll, hx]
    exact ih _ fun other hm => h other (List.mem_cons_of_mem _ hm)

/-- The truths of all declared predicates give a degree to everything that was checked. -/
theorem evaluate_of_check {b : RuleBase} {inputs : Inputs} (hc : b.check = .ok ())
    (hm : b.missing? inputs = none) :
    (∀ rule ∈ b.rules, ∃ x,
        Statement.evaluate rule.antecedent (b.truths inputs).interpretation = .ok x) ∧
      ∃ goal x, b.goal = some goal ∧
        Statement.evaluate goal (b.truths inputs).interpretation = .ok x := by
  obtain ⟨⟨goal, hg, hgoal⟩, hrules⟩ := RuleBase.check_eq_ok_iff.1 hc
  have hknows : ∀ a ∈ b.predicateNames, (b.truths inputs).interpretation.knows a = true :=
    fun a ha => knows_of_missing?_eq_none hm ha
  obtain ⟨x, hx⟩ := hgoal.evaluate hknows
  exact ⟨fun rule hr => (hrules rule hr).2.evaluate hknows, goal, x, hg, hx⟩

/-- Where an input is missing, a cycle ends before anything but the truths has changed. -/
theorem run_cycle_of_missing {e : Inference} (hw : e.base.WellFormed) {p : Predicate}
    (hm : e.base.missing? e.inputs = some p) (v : Verbosity) :
    (cycle v).run e = (.error (.unknownInput p.input), e.withTruths (e.base.truths e.inputs)) := by
  rw [run_cycle, run_fuzzify_of_wellFormed hw, hm]
  rfl

/-- Where an input is missing, the first predicate that needs it stops the cycle. -/
theorem cycle_outcome_of_missing {e : Inference} (hw : e.base.WellFormed) {p : Predicate}
    (hm : e.base.missing? e.inputs = some p) (v : Verbosity) :
    (cycle v).outcome e = .error (.unknownInput p.input) :=
  congrArg Prod.fst (run_cycle_of_missing hw hm v)

/-- Where no input is missing, a cycle goes through all its steps. -/
theorem run_cycle_of_supplied {e : Inference} (hw : e.base.WellFormed)
    (hc : e.base.check = .ok ()) (hm : e.base.missing? e.inputs = none) (v : Verbosity) :
    ∃ goal achieved, e.base.goal = some goal ∧
      Statement.evaluate goal (e.base.truths e.inputs).interpretation = .ok achieved ∧
      (cycle v).run e = (.ok achieved, ((e.withTruths (e.base.truths e.inputs)).withSets
        (creditAll (e.base.truths e.inputs).interpretation e.creditors
          (e.sets.map FuzzySet.reset)).2).refreshed) := by
  obtain ⟨hrules, goal, achieved, hg, hx⟩ := evaluate_of_check hc hm
  have hcredit : (creditAll (e.base.truths e.inputs).interpretation e.creditors
      (e.sets.map FuzzySet.reset)).1 = .ok () := by
    refine creditAll_eq_ok _ fun pair hpair => hrules pair.1 ?_
    exact (List.of_mem_zip hpair).1
  refine ⟨goal, achieved, hg, hx, ?_⟩
  rw [run_cycle, run_fuzzify_of_wellFormed hw, hm]
  simp only [andThen_ok, run_applyRules]
  change andThen ((creditAll (e.base.truths e.inputs).interpretation e.creditors
    (e.sets.map FuzzySet.reset)).1, _) _ = _
  rw [hcredit, andThen_ok, ← hx]
  exact congrArg (·, _) (goalDegree_eq hg)

/-- Where no input is missing, a cycle gives the degree of the goal under the truths of the inputs. -/
theorem cycle_outcome_of_supplied {e : Inference} (hw : e.base.WellFormed)
    (hc : e.base.check = .ok ()) (hm : e.base.missing? e.inputs = none) (v : Verbosity) :
    ∃ goal achieved, e.base.goal = some goal ∧
      Statement.evaluate goal (e.base.truths e.inputs).interpretation = .ok achieved ∧
      (cycle v).outcome e = .ok achieved := by
  obtain ⟨goal, achieved, hg, hx, hrun⟩ := run_cycle_of_supplied hw hc hm v
  exact ⟨goal, achieved, hg, hx, congrArg Prod.fst hrun⟩

/-- In every state that a built rule base can lead to, a cycle succeeds exactly where every declared
predicate has its input, and otherwise names the first input that is missing. -/
theorem cycle_succeeds_iff_supplied {b : RuleBase} {e : Inference} (hb : b.Built)
    (h : Reachable b e) (v : Verbosity) :
    ((∃ achieved, (cycle v).outcome e = .ok achieved) ↔
        ∀ p ∈ b.predicates, ∃ x, e.inputs.get? p.input = some x) ∧
      ∀ p, b.missing? e.inputs = some p → (cycle v).outcome e = .error (.unknownInput p.input) := by
  have hbase := h.base_eq
  have hw : e.base.WellFormed := by
    rw [hbase]
    exact hb.wellFormed
  have hc : e.base.check = .ok () := by
    rw [hbase]
    exact h.check_eq_ok
  have hsupplied : b.missing? e.inputs = none ↔
      ∀ p ∈ b.predicates, ∃ x, e.inputs.get? p.input = some x := by
    rw [RuleBase.missing?_eq_none_iff]
    simp only [Predicate.supplied, Option.isSome_iff_exists]
  have hmissing : ∀ p, b.missing? e.inputs = some p →
      (cycle v).outcome e = .error (.unknownInput p.input) := by
    intro p hm
    exact cycle_outcome_of_missing hw (by rw [hbase, hm]) v
  refine ⟨⟨?_, ?_⟩, hmissing⟩
  · rintro ⟨achieved, ha⟩
    rw [← hsupplied]
    cases hm : b.missing? e.inputs with
    | none => rfl
    | some p =>
      rw [hmissing p hm] at ha
      cases ha
  · intro h
    obtain ⟨_, achieved, -, -, ha⟩ :=
      cycle_outcome_of_supplied hw hc (by rw [hbase]; exact hsupplied.2 h) v
    exact ⟨achieved, ha⟩

/-- One rule over one predicate, made and then fed with the input of the predicate. -/
theorem cycle_succeeds_on_one_rule :
    let near : Predicate := ⟨"Near", .rampDown 0 1, "rho"⟩
    let move : Action := ⟨"Move", [("Slow", 0.1)], "Vlin"⟩
    let creep : Rule := ⟨"Creep", "NOT(Near)", "Move", "Slow"⟩
    let b : RuleBase := ⟨[near], [move], [creep], some "Near"⟩
    let e : Inference := ⟨b, [⟨0, 0⟩], ⟨[("rho", 0.5)]⟩, .empty, [[0]], ⟨[("Vlin", 0)]⟩⟩
    b.Built ∧ Reachable b e ∧
      ((∃ achieved, (cycle Verbosity.quiet).outcome e = .ok achieved) ↔
        ∀ p ∈ b.predicates, ∃ x, e.inputs.get? p.input = some x) ∧
      ∀ p, b.missing? e.inputs = some p →
        (cycle Verbosity.quiet).outcome e = .error (.unknownInput p.input) := by
  intro near move creep b e
  have hb : b.Built :=
    .declared (.goal "Near") (.declared (.rule creep) (.declared (.action move)
      (.declared (.predicate near) .empty)))
  have hmade : Reachable b { e with inputs := .empty } := by
    refine .made ?_
    simp only [b, e, near, move, creep]
    rfl
  have he : Reachable b e := .called (.feed ⟨[("rho", 0.5)]⟩) hmade
  exact ⟨hb, he, cycle_succeeds_iff_supplied hb he Verbosity.quiet⟩

end FuzzyMotion.Inference
