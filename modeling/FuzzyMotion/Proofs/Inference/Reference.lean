import FuzzyMotion.Proofs.Binary32.Largest
import FuzzyMotion.Proofs.Inference.Coherent
import FuzzyMotion.Proofs.Inference.Outcome
import FuzzyMotion.Proofs.RuleBase.Places

/-!
Inference by names. What a cycle computes is said here of the rule base and the inputs alone: without
the places that were found when the inference was made, without tables that are cleared and filled
again, and without anything that an earlier cycle left.

The main statement is that every cycle that succeeds, in whatever state, computes this.
-/
namespace FuzzyMotion

open Binary32

namespace RuleBase

variable (b : RuleBase) (inputs : Inputs)

/-- The degree of a declared predicate at the value of its input. -/
def meaning : Interpretation := fun name =>
  (b.predicates.find? fun p => p.name = name).bind fun p =>
    (inputs.get? p.input).map p.membership.degree

/-- The degree of the antecedent of a rule. -/
def level? (rule : Rule) : Option Float32 :=
  (Statement.evaluate rule.antecedent (b.meaning inputs)).toOption

/-- The levels of the rules that name an action and one of its labels. -/
def levels (action label : String) : List Float32 :=
  b.rules.filterMap fun rule =>
    if rule.action = action ∧ rule.label = label then b.level? inputs rule else none

/-- The activations of the labels of an action, in their order. -/
def activations (a : Action) : FuzzySet :=
  a.labelNames.map fun label => largest (b.levels inputs a.name label)

variable {b inputs}

/-- The name of a predicate means the degree of this predicate: no other one has the name. -/
theorem meaning_of_mem (hb : b.WellFormed) {p : Predicate} (hp : p ∈ b.predicates) :
    b.meaning inputs p.name = (inputs.get? p.input).map p.membership.degree := by
  have hfind : b.predicates.find? (fun q => q.name = p.name) = some p := by
    cases hq : b.predicates.find? fun q => q.name = p.name with
    | none => simpa using List.find?_eq_none.1 hq p hp
    | some q =>
      have hname : q.name = p.name := by simpa using List.find?_some hq
      rw [List.inj_on_of_nodup_map hb.predicateNames_nodup (List.mem_of_find?_eq_some hq) hp hname]
  rw [meaning, hfind, Option.bind_some]

end RuleBase

/-- To clamp the degree of a predicate again changes nothing. -/
theorem Membership.toDegree_degree (m : Membership) (x : Float32) :
    toDegree (m.degree x) = m.degree x := by
  rw [degree]
  split
  · exact isDegree_zero.toDegree_eq
  · exact toDegree_toDegree _

namespace Inference

open Operation

variable {b : RuleBase} {inputs : Inputs}

theorem lookup_map_name {α : Type} (ps : List Predicate) (f : Predicate → α) (name : String) :
    (ps.map fun p => (p.name, f p)).lookup name = (ps.find? fun p => p.name = name).map f := by
  induction ps with
  | nil => rfl
  | cons p ps ih =>
    rw [List.map_cons, Table.lookup_cons_eq_ite, List.find?_cons, ih]
    by_cases h : name = p.name
    · simp [h]
    · simp [h, Ne.symm h]

/-- The table of truths says of every name what the name means. -/
theorem interpretation_truths (hm : b.missing? inputs = none) :
    (b.truths inputs).interpretation = b.meaning inputs := by
  have hall := RuleBase.missing?_eq_none_iff.1 hm
  funext name
  rw [Truths.interpretation, Table.get?, RuleBase.entries_truths hm, lookup_map_name,
    RuleBase.meaning]
  cases hp : b.predicates.find? fun p => p.name = name with
  | none => rfl
  | some p =>
    obtain ⟨x, hx⟩ := Option.isSome_iff_exists.1 (hall p (List.mem_of_find?_eq_some hp))
    simp [Predicate.truth, hx, Membership.toDegree_degree]

/-- An activation after all rules is the one before them, raised by the levels of the rules that credit
it. -/
theorem activation?_creditAll {i : Interpretation} {pairs : List (Rule × Consequent)}
    (h : ∀ pair ∈ pairs, ∃ x, Statement.evaluate pair.1.antecedent i = .ok x)
    (sets : List FuzzySet) (c : Consequent) :
    activation? (creditAll i pairs sets).2 c = (activation? sets c).map fun a =>
      (pairs.filterMap fun pair =>
        if pair.2 = c then (Statement.evaluate pair.1.antecedent i).toOption else none).foldl
          Binary32.max a := by
  induction pairs generalizing sets with
  | nil => simp [creditAll]
  | cons pair rest ih =>
    obtain ⟨rule, d⟩ := pair
    obtain ⟨x, hx⟩ := h (rule, d) (by simp)
    have hrest := ih fun other hm => h other (List.mem_cons_of_mem _ hm)
    simp only [creditAll, hx, hrest, activation?_credit]
    by_cases hd : d = c
    · simp [hd, hx, Except.toOption, Option.map_map, Function.comp_def]
    · simp [hd]

/-- Sets of the same sizes with the same activations are the same. -/
theorem sets_ext {s t : List FuzzySet} (hsize : s.map List.length = t.map List.length)
    (h : ∀ c, activation? s c = activation? t c) : s = t := by
  refine List.ext_getElem? fun k => ?_
  have hk := congrArg (·[k]?) hsize
  simp only [List.getElem?_map] at hk
  cases hs : s[k]? with
  | none =>
    cases ht : t[k]? with
    | none => rfl
    | some set => simp [hs, ht] at hk
  | some set =>
    cases ht : t[k]? with
    | none => simp [hs, ht] at hk
    | some other =>
      have : set = other := by
        refine List.ext_getElem? fun j => ?_
        simpa [activation?, hs, ht] using h ⟨k, j⟩
      rw [this]

/-- One place of every label of every action, and no others. -/
theorem Coherent.activation?_map {e : Inference} (h : Coherent b e) (c : Consequent) (x : Float32) :
    (activation? e.sets c).map (fun _ => x) =
      b.actions[c.action]?.bind fun a => a.labelNames[c.label]?.map fun _ => x := by
  have hk := congrArg (·[c.action]?) h.sizes
  simp only [List.getElem?_map] at hk
  rw [activation?]
  cases ha : b.actions[c.action]? with
  | none =>
    rw [ha] at hk
    rw [Option.map_eq_none_iff.1 hk]
    rfl
  | some a =>
    rw [ha] at hk
    obtain ⟨set, hset, hlen⟩ := Option.map_eq_some_iff.1 hk
    rw [hset]
    simp only [Option.bind_some, Action.labelNames]
    by_cases hl : c.label < set.length
    · simp [hl, ← hlen]
    · simp [hl, ← hlen]

/-- What the rules leave, whatever the sets held before them. -/
theorem Coherent.sets_creditAll {e : Inference} (hb : b.WellFormed) (h : Coherent b e)
    (hrules : ∀ rule ∈ b.rules, ∃ x,
      Statement.evaluate rule.antecedent (b.meaning inputs) = .ok x) :
    (creditAll (b.meaning inputs) e.creditors (e.sets.map FuzzySet.reset)).2 =
      b.actions.map (b.activations inputs) := by
  refine sets_ext ?_ fun c => ?_
  · rw [length_creditAll, length_reset, h.sizes]
    simp [RuleBase.activations, Action.labelNames, Function.comp_def]
  · have hall : ∀ pair ∈ e.creditors, ∃ x,
        Statement.evaluate pair.1.antecedent (b.meaning inputs) = .ok x := by
      intro pair hpair
      rw [creditors, h.base] at hpair
      exact hrules _ (List.of_mem_zip hpair).1
    rw [activation?_creditAll hall, activation?_reset]
    simp only [h.activation?_map]
    simp only [activation?, List.getElem?_map]
    cases ha : b.actions[c.action]? with
    | none => rfl
    | some a =>
      cases hl : a.labelNames[c.label]? with
      | none => simp [hl, RuleBase.activations]
      | some label =>
        simp only [hl, RuleBase.activations, Option.bind_some, Option.map_some, List.getElem?_map,
          RuleBase.levels, creditors, h.base, largest]
        rw [← RuleBase.filterMap_zip_consequents (b.level? inputs) hb ha hl h.consequents]
        rfl

/-- The state that a cycle leaves where no input is missing. -/
def computed (b : RuleBase) (e : Inference) : Inference :=
  { e with
    truths := b.truths e.inputs
    sets := b.actions.map (b.activations e.inputs)
    outputs := refresh e.outputs (b.actions.zip (b.actions.map (b.activations e.inputs))) }

/-- Where no input is missing, all rules have a level. -/
theorem evaluate_meaning (hc : b.check = .ok ()) (hm : b.missing? inputs = none) :
    ∀ rule ∈ b.rules, ∃ x, Statement.evaluate rule.antecedent (b.meaning inputs) = .ok x := by
  rw [← interpretation_truths hm]
  exact (evaluate_of_check hc hm).1

theorem Coherent.run_cycle {e : Inference} (hb : b.WellFormed) (hc : b.check = .ok ())
    (h : Coherent b e) (hm : b.missing? e.inputs = none) (v : Verbosity) :
    ∃ goal achieved, b.goal = some goal ∧
      Statement.evaluate goal (b.meaning e.inputs) = .ok achieved ∧
      (cycle v).run e = (.ok achieved, computed b e) := by
  have hbase := h.base
  obtain ⟨goal, achieved, hg, hx, hrun⟩ :=
    run_cycle_of_supplied (by rwa [hbase]) (by rwa [hbase]) (by rwa [hbase]) v
  rw [hbase] at hg
  rw [hbase, interpretation_truths hm] at hx hrun
  refine ⟨goal, achieved, hg, hx, ?_⟩
  rw [hrun, h.sets_creditAll hb (evaluate_meaning hc hm)]
  simp only [computed, refreshed, withTruths, withSets, hbase]

/-- A cycle on new inputs, in whatever state. -/
theorem Reachable.run_cycle {e : Inference} (hb : b.Built) (h : Reachable b e)
    (hm : b.missing? inputs = none) (v : Verbosity) :
    ∃ goal achieved, b.goal = some goal ∧
      Statement.evaluate goal (b.meaning inputs) = .ok achieved ∧
      (cycle v).run ((feed inputs).after e) = (.ok achieved, computed b ((feed inputs).after e)) :=
  (coherent_of_reachable hb.wellFormed (.called (.feed inputs) h)).run_cycle hb.wellFormed
    h.check_eq_ok hm v

/-- A cycle that has all inputs computes what the rule base says of them by names: the degrees of the
predicates, the largest level of the rules for every label, and the degree of the goal. It computes the
same in every state that the rule base can lead to. -/
theorem cycle_eq_reference {e : Inference} (hb : b.Built) (h : Reachable b e)
    (hs : ∀ p ∈ b.predicates, ∃ x, inputs.get? p.input = some x) (v : Verbosity) :
    let fed := (feed inputs).after e
    let next := (cycle v).after fed
    (∃ goal achieved, b.goal = some goal ∧ (cycle v).outcome fed = .ok achieved ∧
        Statement.evaluate goal (b.meaning inputs) = .ok achieved) ∧
      (∀ p ∈ b.predicates, ∃ x, inputs.get? p.input = some x ∧
        next.truth? p.name = some (p.membership.degree x)) ∧
      next.truths.keys = b.predicateNames ∧ next.truths.interpretation = b.meaning inputs ∧
      (∀ rule ∈ b.rules, ∃ x, Statement.evaluate rule.antecedent (b.meaning inputs) = .ok x) ∧
      next.sets = b.actions.map (b.activations inputs) ∧
      (∀ k j a label, b.actions[k]? = some a → a.labelNames[j]? = some label →
        ∃ x, activation? next.sets ⟨k, j⟩ = some x ∧ IsLargest (b.levels inputs a.name label) x) ∧
      ∀ other w, Reachable b other →
        let next' := (cycle w).after ((feed inputs).after other)
        (cycle w).outcome ((feed inputs).after other) = (cycle v).outcome fed ∧
          next'.truths = next.truths ∧ next'.sets = next.sets := by
  have hm : b.missing? inputs = none := by
    rw [RuleBase.missing?_eq_none_iff]
    exact fun p hp => Option.isSome_iff_exists.2 (hs p hp)
  have hw := hb.wellFormed
  have hc := h.check_eq_ok
  obtain ⟨goal, achieved, hg, hx, he⟩ := h.run_cycle hb hm v
  have hout := congrArg Prod.fst he
  have hnext := congrArg Prod.snd he
  rw [run_fst] at hout
  rw [run_snd] at hnext
  simp only [hout, hnext]
  refine ⟨⟨goal, achieved, hg, rfl, hx⟩, ?_, RuleBase.keys_truths hm, interpretation_truths hm,
    evaluate_meaning hc hm, rfl, ?_, ?_⟩
  · intro p hp
    obtain ⟨x, hi⟩ := hs p hp
    refine ⟨x, hi, ?_⟩
    calc
      (computed b ((feed inputs).after e)).truth? p.name = (b.truths inputs).interpretation p.name :=
        rfl
      _ = some (p.membership.degree x) := by
        rw [interpretation_truths hm, RuleBase.meaning_of_mem hw hp, hi, Option.map_some]
  · intro k j a label ha hl
    refine ⟨_, ?_, isLargest_largest (b.levels inputs a.name label)⟩
    have hsets : (computed b ((feed inputs).after e)).sets = b.actions.map (b.activations inputs) :=
      rfl
    simp [activation?, hsets, ha, hl, RuleBase.activations]
  · intro d w hd
    obtain ⟨goal', achieved', hg', hx', hd⟩ := hd.run_cycle hb hm w
    obtain rfl : goal = goal' := Option.some.inj (hg.symm.trans hg')
    obtain rfl : achieved = achieved' := Except.ok.inj (hx.symm.trans hx')
    have hnext' := congrArg Prod.snd hd
    rw [run_snd] at hnext'
    refine ⟨congrArg Prod.fst hd, ?_, ?_⟩
    · rw [hnext']
      rfl
    · rw [hnext']
      rfl

/-- Two rules over one predicate, in the state that an earlier cycle on another input has left. -/
theorem cycle_eq_reference_on_two_rules :
    let near : Predicate := ⟨"Near", .rampDown 0 1, "rho"⟩
    let move : Action := ⟨"Move", [("Stop", 0), ("Slow", 0.1)], "Vlin"⟩
    let halt : Rule := ⟨"Halt", "Near", "Move", "Stop"⟩
    let creep : Rule := ⟨"Creep", "NOT(Near)", "Move", "Slow"⟩
    let b : RuleBase := ⟨[near], [move], [halt, creep], some "Near"⟩
    let made : Inference := ⟨b, [⟨0, 0⟩, ⟨0, 1⟩], .empty, .empty, [[0, 0]], ⟨[("Vlin", 0)]⟩⟩
    let e := (cycle Verbosity.quiet).after ((feed ⟨[("rho", 0.25)]⟩).after made)
    let inputs : Inputs := ⟨[("rho", 0.5)]⟩
    let next := (cycle Verbosity.rules).after ((feed inputs).after e)
    b.Built ∧ Reachable b e ∧ (∀ p ∈ b.predicates, ∃ x, inputs.get? p.input = some x) ∧
      (∀ p ∈ b.predicates, ∃ x, inputs.get? p.input = some x ∧
        next.truth? p.name = some (p.membership.degree x)) ∧
      next.sets = b.actions.map (b.activations inputs) := by
  intro near move halt creep b made e inputs next
  have hb : b.Built :=
    .declared (.goal "Near") (.declared (.rule creep) (.declared (.rule halt)
      (.declared (.action move) (.declared (.predicate near) .empty))))
  have hmade : Reachable b made := by
    refine .made ?_
    simp only [b, made, near, move, halt, creep]
    rfl
  have he : Reachable b e :=
    .called (.cycle Verbosity.quiet) (.called (.feed ⟨[("rho", 0.25)]⟩) hmade)
  have hs : ∀ p ∈ b.predicates, ∃ x, inputs.get? p.input = some x := by
    intro p hp
    obtain rfl := List.mem_singleton.1 hp
    exact ⟨0.5, rfl⟩
  obtain ⟨-, htruths, -, -, -, hsets, -⟩ := cycle_eq_reference hb he hs Verbosity.rules
  exact ⟨hb, he, hs, htruths, hsets⟩

end Inference

end FuzzyMotion
