import FuzzyMotion.Proofs.Inference.Construction
import FuzzyMotion.Proofs.Inference.Held
import FuzzyMotion.Proofs.RuleBase.Declared

/-!
The order of declarations. An activation is the largest of its levels wherever their rules stand, and
a truth does not depend on the place of its predicate. So two inferences over the same predicates and
rules, declared in different orders, cannot be told apart by what their cycles compute; only which input
a failing cycle reports first depends on the order.
-/
namespace FuzzyMotion

open Binary32

namespace RuleBase

/-- The same declarations, with the predicates and the rules in another order. -/
structure Reordered (b c : RuleBase) : Prop where
  predicates : b.predicates.Perm c.predicates
  rules : b.rules.Perm c.rules
  actions : b.actions = c.actions
  goal : b.goal = c.goal

theorem meaning_of_notMem {b : RuleBase} {inputs : Inputs} {name : String}
    (h : name ∉ b.predicateNames) : b.meaning inputs name = none := by
  have hfind : b.predicates.find? (fun p => p.name = name) = none := by
    refine List.find?_eq_none.2 fun p hp hname => h ?_
    exact List.mem_map.2 ⟨p, hp, of_decide_eq_true hname⟩
  rw [meaning, hfind, Option.bind_none]

namespace Reordered

variable {b c : RuleBase} {inputs : Inputs}

theorem mem_predicateNames (h : b.Reordered c) {name : String} :
    name ∈ b.predicateNames ↔ name ∈ c.predicateNames :=
  (h.predicates.map Predicate.name).mem_iff

/-- Names and sizes do not depend on the order. -/
theorem wellFormed (h : b.Reordered c) (hb : b.WellFormed) : c.WellFormed where
  predicates_le := h.predicates.length_eq ▸ hb.predicates_le
  predicateNames_nodup := (h.predicates.map Predicate.name).nodup_iff.1 hb.predicateNames_nodup
  actions_le := h.actions ▸ hb.actions_le
  actionNames_nodup := by
    rw [actionNames, ← h.actions]
    exact hb.actionNames_nodup
  outputs_nodup := by
    rw [outputs, ← h.actions]
    exact hb.outputs_nodup
  labels_le := h.actions ▸ hb.labels_le
  labelNames_nodup := h.actions ▸ hb.labelNames_nodup
  rules_le := h.rules.length_eq ▸ hb.rules_le
  ruleNames_nodup := (h.rules.map Rule.name).nodup_iff.1 hb.ruleNames_nodup

theorem built (h : b.Reordered c) (hb : b.Built) : c.Built :=
  built_iff_wellFormed.2 (h.wellFormed hb.wellFormed)

theorem sentence (h : b.Reordered c) {text : String} (ht : b.Sentence text) : c.Sentence text := by
  obtain ⟨s, htokens, hatoms⟩ := ht
  exact ⟨s, htokens, fun a ha => h.mem_predicateNames.1 (hatoms a ha)⟩

theorem consequentOf_eq (h : b.Reordered c) (rule : Rule) :
    b.consequentOf rule = c.consequentOf rule := by
  rw [consequentOf, consequentOf, actionNames, actionNames, h.actions]

theorem check (h : b.Reordered c) (hc : b.check = .ok ()) : c.check = .ok () := by
  obtain ⟨⟨goal, hg, hgoal⟩, hrules⟩ := check_eq_ok_iff.1 hc
  refine check_eq_ok_iff.2 ⟨⟨goal, h.goal ▸ hg, h.sentence hgoal⟩, fun rule hr => ?_⟩
  obtain ⟨hconsequent, hsentence⟩ := hrules rule (h.rules.mem_iff.2 hr)
  rw [h.consequentOf_eq] at hconsequent
  exact ⟨hconsequent, h.sentence hsentence⟩

theorem missing?_eq_none_iff (h : b.Reordered c) :
    b.missing? inputs = none ↔ c.missing? inputs = none := by
  simp only [RuleBase.missing?_eq_none_iff, h.predicates.mem_iff]

/-- Both miss an input or none does, but the first one that is missing need not be the same. -/
theorem exists_missing (h : b.Reordered c) {p : Predicate} (hm : b.missing? inputs = some p) :
    ∃ q, c.missing? inputs = some q := by
  refine Option.ne_none_iff_exists'.1 fun hnone => ?_
  rw [h.missing?_eq_none_iff.2 hnone] at hm
  cases hm

/-- Every name means the same. -/
theorem meaning_eq (h : b.Reordered c) (hb : b.WellFormed) :
    b.meaning inputs = c.meaning inputs := by
  funext name
  by_cases hn : name ∈ b.predicateNames
  · obtain ⟨p, hp, rfl⟩ := List.mem_map.1 hn
    rw [meaning_of_mem hb hp, meaning_of_mem (h.wellFormed hb) (h.predicates.mem_iff.1 hp)]
  · rw [meaning_of_notMem hn, meaning_of_notMem (mt h.mem_predicateNames.2 hn)]

/-- Every label has the same levels, in some order, and so the same largest one. -/
theorem activations_eq (h : b.Reordered c) (hb : b.WellFormed) (a : Action) :
    b.activations inputs a = c.activations inputs a := by
  refine List.map_congr_left fun label _ => largest_congr fun level => ?_
  rw [mem_levels_iff, mem_levels_iff, h.meaning_eq hb]
  simp only [h.rules.mem_iff]

end Reordered

end RuleBase

namespace Inference

open Operation

variable {b c : RuleBase} {e d : Inference}

/-- Inferences over the same declarations in two orders, with the same outputs. -/
structure Alike (b c : RuleBase) (e d : Inference) : Prop where
  left : Reachable b e
  right : Reachable c d
  outputs : e.outputs = d.outputs

theorem alike_of_made (h : b.Reordered c) (he : ofRuleBase b = .ok e) (hd : ofRuleBase c = .ok d) :
    Alike b c e d := by
  obtain ⟨-, _, sets, outputs, -, hz, he'⟩ := ofRuleBase_eq_ok he
  obtain ⟨-, _, sets', outputs', -, hz', hd'⟩ := ofRuleBase_eq_ok hd
  rw [← h.actions, hz] at hz'
  obtain ⟨rfl, rfl⟩ := Prod.mk.inj (Except.ok.inj hz')
  exact ⟨.made he, .made hd, by rw [he', hd']⟩

section Rounds

variable {r : Round}

/-- Where no input is missing, both compute the same. -/
theorem Alike.round_of_supplied (h : Alike b c e d) (hbc : b.Reordered c) (hb : b.Built)
    (hm : b.missing? r.inputs = none) :
    (∃ achieved, r.outcome e = .ok achieved ∧ r.outcome d = .ok achieved) ∧
      (∀ name, (r.after e).truth? name = (r.after d).truth? name) ∧
      (r.after e).sets = (r.after d).sets ∧ (r.after e).outputs = (r.after d).outputs := by
  have hm' : c.missing? r.inputs = none := hbc.missing?_eq_none_iff.1 hm
  have hmeaning : b.meaning r.inputs = c.meaning r.inputs := hbc.meaning_eq hb.wellFormed
  have hactivations : b.activations r.inputs = c.activations r.inputs :=
    funext fun a => hbc.activations_eq hb.wellFormed a
  obtain ⟨goal, achieved, hg, hx, hrun⟩ := h.left.run_cycle hb hm r.verbosity
  obtain ⟨goal', achieved', hg', hx', hrun'⟩ := h.right.run_cycle (hbc.built hb) hm' r.verbosity
  have hgoal : goal = goal' := by
    rw [hbc.goal, hg'] at hg
    exact (Option.some.inj hg).symm
  have hachieved : achieved = achieved' := by
    rw [hgoal, hmeaning, hx'] at hx
    exact (Except.ok.inj hx).symm
  have hafter : r.after e = computed b ((feed r.inputs).after e) := congrArg Prod.snd hrun
  have hafter' : r.after d = computed c ((feed r.inputs).after d) := congrArg Prod.snd hrun'
  rw [hafter, hafter']
  refine ⟨⟨achieved, congrArg Prod.fst hrun, ?_⟩, fun name => ?_, ?_, ?_⟩
  · rw [hachieved]
    exact congrArg Prod.fst hrun'
  · change (b.truths r.inputs).interpretation name = (c.truths r.inputs).interpretation name
    rw [interpretation_truths hm, interpretation_truths hm', hmeaning]
  · change b.actions.map (b.activations r.inputs) = c.actions.map (c.activations r.inputs)
    rw [hbc.actions, hactivations]
  · change refresh e.outputs (b.actions.zip (b.actions.map (b.activations r.inputs))) =
      refresh d.outputs (c.actions.zip (c.actions.map (c.activations r.inputs)))
    rw [h.outputs, hbc.actions, hactivations]

/-- A round leaves them alike, whether or not it succeeds. -/
theorem Alike.after_round (h : Alike b c e d) (hbc : b.Reordered c) (hb : b.Built) (r : Round) :
    Alike b c (r.after e) (r.after d) := by
  refine ⟨h.left.after_round r, h.right.after_round r, ?_⟩
  cases hm : b.missing? r.inputs with
  | none =>
    obtain ⟨-, -, -, houtputs⟩ := h.round_of_supplied hbc hb hm
    exact houtputs
  | some p =>
    obtain ⟨q, hm'⟩ := hbc.exists_missing hm
    rw [(round_of_missing hb h.left hm).2, (round_of_missing (hbc.built hb) h.right hm').2,
      h.outputs]

theorem Alike.after_rounds (h : Alike b c e d) (hbc : b.Reordered c) (hb : b.Built)
    (rounds : List Round) : Alike b c (afterRounds e rounds) (afterRounds d rounds) := by
  induction rounds generalizing e d with
  | nil => exact h
  | cons r rest ih => exact ih (h.after_round hbc hb r)

theorem Alike.succeeds_iff (h : Alike b c e d) (hbc : b.Reordered c) (hb : b.Built) (r : Round) :
    (∃ achieved, r.outcome e = .ok achieved) ↔ ∃ achieved, r.outcome d = .ok achieved := by
  cases hm : b.missing? r.inputs with
  | none =>
    obtain ⟨⟨achieved, hleft, hright⟩, -⟩ := h.round_of_supplied hbc hb hm
    simp [hleft, hright]
  | some p =>
    obtain ⟨q, hm'⟩ := hbc.exists_missing hm
    simp [(round_of_missing hb h.left hm).1, (round_of_missing (hbc.built hb) h.right hm').1]

/-- A round that succeeds gives and leaves the same in both. -/
theorem Alike.round_of_ok (h : Alike b c e d) (hbc : b.Reordered c) (hb : b.Built)
    {achieved : Float32} (hok : r.outcome e = .ok achieved) :
    r.outcome d = .ok achieved ∧ (∀ name, (r.after e).truth? name = (r.after d).truth? name) ∧
      (r.after e).sets = (r.after d).sets ∧ (r.after e).outputs = (r.after d).outputs := by
  cases hm : b.missing? r.inputs with
  | none =>
    obtain ⟨⟨x, hleft, hright⟩, hrest⟩ := h.round_of_supplied hbc hb hm
    obtain rfl : x = achieved := Except.ok.inj (hleft.symm.trans hok)
    exact ⟨hright, hrest⟩
  | some p =>
    rw [(round_of_missing hb h.left hm).1] at hok
    cases hok

end Rounds

/-- Rules and predicates can be declared in any order. Where an inference is made of a rule base, one is
made of the reordered one; and after any rounds, a round succeeds for both or for none, and if it does,
it gives the same degree of the goal and leaves the same truth under every name, the same activation of
every label and the same outputs. -/
theorem declaration_order_irrelevant (hb : b.Built) (he : ofRuleBase b = .ok e)
    (hbc : b.Reordered c) :
    c.Built ∧ ∃ d, ofRuleBase c = .ok d ∧ ∀ (rounds : List Round) (r : Round),
      let left := afterRounds e rounds
      let right := afterRounds d rounds
      ((∃ achieved, r.outcome left = .ok achieved) ↔ ∃ achieved, r.outcome right = .ok achieved) ∧
        ∀ achieved, r.outcome left = .ok achieved →
          r.outcome right = .ok achieved ∧
            (∀ name, (r.after left).truth? name = (r.after right).truth? name) ∧
            (r.after left).sets = (r.after right).sets ∧
            (r.after left).outputs = (r.after right).outputs := by
  have hc := hbc.check (ofRuleBase_eq_ok he).1
  obtain ⟨d, hd⟩ := ofRuleBase_of_check (hbc.wellFormed hb.wellFormed) hc
  refine ⟨hbc.built hb, d, hd, fun rounds r => ?_⟩
  have h := (alike_of_made hbc he hd).after_rounds hbc hb rounds
  exact ⟨h.succeeds_iff hbc hb r, fun achieved hok => h.round_of_ok hbc hb hok⟩

/-- Two rules for one label, before and after each other, and a round that has its inputs. -/
theorem declaration_order_irrelevant_on_three_rules :
    let near : Predicate := ⟨"Near", .rampDown 0 1, "rho"⟩
    let ahead : Predicate := ⟨"Ahead", .triangle (-60) 0 60, "phi"⟩
    let move : Action := ⟨"Move", [("Stop", 0), ("Slow", 0.1)], "Vlin"⟩
    let halt : Rule := ⟨"Halt", "Near", "Move", "Stop"⟩
    let creep : Rule := ⟨"Creep", "NOT(Near)", "Move", "Slow"⟩
    let advance : Rule := ⟨"Advance", "Ahead", "Move", "Slow"⟩
    let b : RuleBase := ⟨[near, ahead], [move], [halt, creep, advance], some "Near"⟩
    let c : RuleBase := ⟨[ahead, near], [move], [advance, creep, halt], some "Near"⟩
    let e : Inference :=
      ⟨b, [⟨0, 0⟩, ⟨0, 1⟩, ⟨0, 1⟩], .empty, .empty, [[0, 0]], ⟨[("Vlin", 0)]⟩⟩
    let r : Round := ⟨⟨[("rho", 0.5), ("phi", 30)]⟩, Verbosity.quiet⟩
    b.Built ∧ ofRuleBase b = .ok e ∧ b.Reordered c ∧ c.Built ∧ ∃ d, ofRuleBase c = .ok d ∧
      ∃ achieved, r.outcome e = .ok achieved ∧ r.outcome d = .ok achieved ∧
        (r.after e).sets = (r.after d).sets ∧ (r.after e).outputs = (r.after d).outputs := by
  intro near ahead move halt creep advance b c e r
  have hb : b.Built := RuleBase.built_iff_wellFormed.2 (by constructor <;> decide)
  have he : ofRuleBase b = .ok e := by
    simp only [b, e, near, ahead, move, halt, creep, advance]
    rfl
  have hbc : b.Reordered c := ⟨.swap ahead near [], (List.reverse_perm _).symm, rfl, rfl⟩
  obtain ⟨hc, d, hd, hrounds⟩ := declaration_order_irrelevant hb he hbc
  obtain ⟨⟨achieved, hok⟩, -⟩ := round_of_supplied (r := r) hb (.made he) rfl
  obtain ⟨hright, -, hsets, houtputs⟩ := (hrounds [] r).2 achieved hok
  exact ⟨hb, he, hbc, hc, d, hd, achieved, hok, hright, hsets, houtputs⟩

end Inference

end FuzzyMotion
