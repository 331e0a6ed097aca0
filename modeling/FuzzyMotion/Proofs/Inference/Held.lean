import FuzzyMotion.Proofs.Inference.Crisp
import FuzzyMotion.Proofs.Inference.Reference
import FuzzyMotion.Proofs.Statement.Range

/-!
Outputs over whole runs. Each round of a run sets new inputs and goes through one cycle, whether or not
the cycle succeeds. An output is new only after a round that fires its action, one that succeeds with a
positive level for the action; all other rounds hold it.

The main statement is that an output is the weighted mean of the last round that fired its action, and
zero where there was no such round.
-/
namespace FuzzyMotion

open Binary32

theorem Membership.isGrade_degree (m : Membership) (x : Float32) : IsGrade (m.degree x) := by
  rw [degree]
  split
  · exact isDegree_zero.isGrade
  · exact isGrade_toDegree _

namespace RuleBase

variable {b : RuleBase} {inputs : Inputs}

theorem mem_levels_iff {action label : String} {x : Float32} :
    x ∈ b.levels inputs action label ↔ ∃ rule ∈ b.rules, rule.action = action ∧
      rule.label = label ∧ Statement.evaluate rule.antecedent (b.meaning inputs) = .ok x := by
  have hlevel : ∀ rule, b.level? inputs rule = some x ↔
      Statement.evaluate rule.antecedent (b.meaning inputs) = .ok x := by
    intro rule
    rw [level?]
    cases Statement.evaluate rule.antecedent (b.meaning inputs) <;> simp [Except.toOption]
  rw [levels, List.mem_filterMap]
  simp [hlevel, and_assoc]

/-- The levels of rules by the statements that their antecedents are. -/
theorem levels_of_statements {pairs : List (Rule × Statement)} (hc : b.check = .ok ())
    (hm : b.missing? inputs = none) (hrules : b.rules = pairs.map Prod.fst)
    (htokens : ∀ pair ∈ pairs, Token.ofText pair.1.antecedent = pair.2.tokens)
    (action label : String) :
    b.levels inputs action label = pairs.filterMap fun pair =>
      if pair.1.action = action ∧ pair.1.label = label then
        some (pair.2.degree (b.meaning inputs)) else none := by
  rw [levels, hrules, List.filterMap_map]
  refine List.filterMap_congr fun pair hpair => ?_
  have hmem : pair.1 ∈ b.rules := by
    rw [hrules]
    exact List.mem_map_of_mem hpair
  obtain ⟨x, hx⟩ := Inference.evaluate_meaning hc hm pair.1 hmem
  have hlevel : b.level? inputs pair.1 = some (pair.2.degree (b.meaning inputs)) := by
    rw [level?, hx, Statement.evaluate_of_tokens (htokens pair hpair) hx]
    rfl
  rw [Function.comp_apply, hlevel]

/-- Whatever the inputs are, and whether or not they are numbers. -/
theorem isDegree_activations (a : Action) : ∀ m ∈ b.activations inputs a, IsDegree m := by
  intro m hm
  obtain ⟨label, -, rfl⟩ := List.mem_map.1 hm
  refine isDegree_largest fun y hy => ?_
  obtain ⟨rule, -, -, -, hx⟩ := mem_levels_iff.1 hy
  refine Statement.isGrade_evaluate (fun name x hname => ?_) hx
  obtain ⟨p, -, hp⟩ := Option.bind_eq_some_iff.1 hname
  obtain ⟨z, -, rfl⟩ := Option.map_eq_some_iff.1 hp
  exact p.membership.isGrade_degree z

/-- An action has a positive activation where one of its rules has a positive level: the label of the
rule is one of its labels. -/
theorem exists_positive_iff (hb : b.WellFormed) (hc : b.check = .ok ()) {a : Action}
    (ha : a ∈ b.actions) :
    (∃ m ∈ b.activations inputs a, 0 < m) ↔ ∃ rule ∈ b.rules, rule.action = a.name ∧
      ∃ x, Statement.evaluate rule.antecedent (b.meaning inputs) = .ok x ∧ 0 < x := by
  simp only [activations, List.mem_map, exists_exists_and_eq_and, largest_pos_iff, mem_levels_iff]
  constructor
  · rintro ⟨label, -, x, ⟨rule, hr, hname, -, hx⟩, hpos⟩
    exact ⟨rule, hr, hname, x, hx, hpos⟩
  · rintro ⟨rule, hr, hname, x, hx, hpos⟩
    obtain ⟨⟨c, hcons⟩, -⟩ := (check_eq_ok_iff.1 hc).2 rule hr
    obtain ⟨a', ha', hl, hname'⟩ := places_of_consequentOf hb hcons
    obtain rfl : a' = a := List.inj_on_of_nodup_map hb.actionNames_nodup
      (List.mem_of_getElem? ha') ha (hname'.symm.trans hname)
    exact ⟨rule.label, List.mem_of_getElem? hl, x, ⟨rule, hr, hname, rfl, hx⟩, hpos⟩

theorem length_activations_le (hb : b.WellFormed) {a : Action} (ha : a ∈ b.actions) :
    (b.activations inputs a).length ≤ 8 := by
  rw [activations, List.length_map, Action.labelNames, List.length_map]
  exact hb.labels_le a ha

end RuleBase

namespace Inference

open Operation

section Outputs

variable {pairs : List (Action × FuzzySet)}

theorem get?_refresh_of_notMem {name : String} (h : ∀ pair ∈ pairs, pair.1.output ≠ name)
    (t : Table String .outputs Float32) : (refresh t pairs).get? name = t.get? name := by
  induction pairs generalizing t with
  | nil => rfl
  | cons pair rest ih =>
    obtain ⟨action, set⟩ := pair
    have hrest := ih fun other hm => h other (List.mem_cons_of_mem _ hm)
    have hne : action.output ≠ name := h (action, set) (by simp)
    rw [refresh]
    cases set.crisp? (action.labels.map Prod.snd) with
    | none => exact hrest t
    | some x => rw [hrest, Table.get?_replace_of_ne _ _ hne]

/-- The output of an action is the crisp value of its set, if there is one. -/
theorem get?_refresh_of_mem {a : Action} {set : FuzzySet} (hm : (a, set) ∈ pairs)
    (hn : (pairs.map fun pair => pair.1.output).Nodup) {t : Table String .outputs Float32}
    (hk : a.output ∈ t.keys) :
    (refresh t pairs).get? a.output =
      (set.crisp? (a.labels.map Prod.snd)).or (t.get? a.output) := by
  induction pairs generalizing t with
  | nil => cases hm
  | cons pair rest ih =>
    obtain ⟨action, first⟩ := pair
    obtain ⟨hfresh, hrest⟩ := List.nodup_cons.1 hn
    cases List.mem_cons.1 hm with
    | inl heq =>
      obtain ⟨rfl, rfl⟩ := Prod.mk.inj heq
      have hothers : ∀ pair ∈ rest, pair.1.output ≠ a.output :=
        fun pair hpair heq => hfresh (List.mem_map.2 ⟨pair, hpair, heq⟩)
      rw [refresh]
      cases set.crisp? (a.labels.map Prod.snd) with
      | none => exact get?_refresh_of_notMem hothers t
      | some x =>
        simp only
        rw [get?_refresh_of_notMem hothers, Table.get?_replace _ _ _ _ hk, if_pos rfl]
        rfl
    | inr hmem =>
      have hne : action.output ≠ a.output :=
        fun heq => hfresh (List.mem_map.2 ⟨(a, set), hmem, heq.symm⟩)
      rw [refresh]
      cases first.crisp? (action.labels.map Prod.snd) with
      | none => exact ih hmem hrest hk
      | some x =>
        simp only
        rw [ih hmem hrest (by rwa [Table.keys_replace]), Table.get?_replace_of_ne _ _ hne]

/-- After a cycle that has all inputs, an output is the mean of the new activations or held. -/
theorem Coherent.output?_computed {b : RuleBase} {e : Inference} (hb : b.WellFormed)
    (h : Coherent b e) {a : Action} (ha : a ∈ b.actions) :
    (computed b e).output? a.output =
      ((b.activations e.inputs a).crisp? (a.labels.map Prod.snd)).or (e.output? a.output) := by
  have hpairs : b.actions.zip (b.actions.map (b.activations e.inputs)) =
      b.actions.map fun a => (a, b.activations e.inputs a) :=
    List.map_prod_left_eq_zip.symm
  have hkeys : a.output ∈ e.outputs.keys := by
    rw [h.outputs]
    exact List.mem_map_of_mem ha
  refine get?_refresh_of_mem ?_ ?_ hkeys
  · rw [hpairs]
    exact List.mem_map_of_mem ha
  · rw [hpairs, List.map_map]
    exact hb.outputs_nodup

/-- Every output of an inference that has just been made is zero. -/
theorem output?_of_made {b : RuleBase} {e : Inference} (hb : b.WellFormed)
    (h : ofRuleBase b = .ok e) {name : String} (hn : name ∈ b.outputs) :
    e.output? name = some 0 := by
  rw [output?, Table.get?, outputs_of_made hb h]
  generalize b.outputs = names at hn ⊢
  induction names with
  | nil => cases hn
  | cons first rest ih =>
    rw [List.map_cons, Table.lookup_cons_eq_ite]
    by_cases hf : name = first
    · rw [if_pos hf]
    · rw [if_neg hf]
      exact ih ((List.mem_cons.1 hn).resolve_left hf)

end Outputs

/-- New inputs, and a cycle on them. -/
structure Round where
  inputs : Inputs
  verbosity : Verbosity

namespace Round

def outcome (r : Round) (e : Inference) : Except Fault Float32 :=
  (cycle r.verbosity).outcome ((feed r.inputs).after e)

def after (r : Round) (e : Inference) : Inference :=
  (cycle r.verbosity).after ((feed r.inputs).after e)

/-- The round succeeds, and some rule for the action has a positive level in it. -/
def Fires (r : Round) (e : Inference) (a : Action) : Prop :=
  (∃ achieved, r.outcome e = .ok achieved) ∧ ∃ rule ∈ e.base.rules, rule.action = a.name ∧
    ∃ level, Statement.evaluate rule.antecedent (r.after e).truths.interpretation = .ok level ∧
      0 < level

end Round

/-- The state after rounds, one after the other. -/
def afterRounds (e : Inference) (rounds : List Round) : Inference :=
  rounds.foldl (fun e r => r.after e) e

/-- None of the rounds fires the action. -/
def Idle (a : Action) (e : Inference) : List Round → Prop
  | [] => True
  | r :: rest => ¬r.Fires e a ∧ Idle a (r.after e) rest

section Rounds

variable {b : RuleBase} {e : Inference} {a : Action} {r : Round}

theorem Reachable.after_round (h : Reachable b e) (r : Round) : Reachable b (r.after e) :=
  .called (.cycle r.verbosity) (.called (.feed r.inputs) h)

theorem Reachable.after_rounds (h : Reachable b e) (rounds : List Round) :
    Reachable b (afterRounds e rounds) := by
  induction rounds generalizing e with
  | nil => exact h
  | cons r rest ih => exact ih (h.after_round r)

/-- Where an input is missing, a round changes no output. -/
theorem round_of_missing (hb : b.Built) (h : Reachable b e) {p : Predicate}
    (hm : b.missing? r.inputs = some p) :
    r.outcome e = .error (.unknownInput p.input) ∧ (r.after e).outputs = e.outputs := by
  have hbase : ((feed r.inputs).after e).base = b := h.base_eq
  have hrun := run_cycle_of_missing (e := (feed r.inputs).after e) (by rw [hbase]; exact hb.wellFormed)
    (by rw [hbase]; exact hm) r.verbosity
  refine ⟨congrArg Prod.fst hrun, ?_⟩
  rw [Round.after, ← run_snd, hrun]
  rfl

/-- Where no input is missing, a round computes everything anew but the outputs that it holds. -/
theorem round_of_supplied (hb : b.Built) (h : Reachable b e) (hm : b.missing? r.inputs = none) :
    (∃ achieved, r.outcome e = .ok achieved) ∧
      (r.after e).truths.interpretation = b.meaning r.inputs ∧
      (r.after e).sets = b.actions.map (b.activations r.inputs) ∧
      ∀ a ∈ b.actions, (r.after e).output? a.output =
        ((b.activations r.inputs a).crisp? (a.labels.map Prod.snd)).or (e.output? a.output) := by
  obtain ⟨goal, achieved, -, -, hrun⟩ := h.run_cycle hb hm r.verbosity
  have hafter : r.after e = computed b ((feed r.inputs).after e) := congrArg Prod.snd hrun
  have hfed : Coherent b ((feed r.inputs).after e) :=
    coherent_of_reachable hb.wellFormed (.called (.feed r.inputs) h)
  rw [hafter]
  exact ⟨⟨achieved, congrArg Prod.fst hrun⟩, interpretation_truths hm, rfl,
    fun a ha => hfed.output?_computed hb.wellFormed ha⟩

/-- A round that has all inputs fires an action where one of its labels is active afterwards. -/
theorem fires_iff (hb : b.Built) (h : Reachable b e) (ha : a ∈ b.actions) :
    r.Fires e a ↔ b.missing? r.inputs = none ∧ ∃ m ∈ b.activations r.inputs a, 0 < m := by
  rw [Round.Fires, h.base_eq]
  cases hm : b.missing? r.inputs with
  | none =>
    obtain ⟨hok, htruths, -⟩ := round_of_supplied hb h hm
    rw [htruths, RuleBase.exists_positive_iff hb.wellFormed h.check_eq_ok ha]
    simp [hok]
  | some p =>
    obtain ⟨hfail, -⟩ := round_of_missing hb h hm
    simp [hfail]

theorem output?_of_fires (hb : b.Built) (h : Reachable b e) (ha : a ∈ b.actions)
    (hf : r.Fires e a) :
    (r.after e).sets = b.actions.map (b.activations r.inputs) ∧
      (r.after e).output? a.output = some ((b.activations r.inputs a).weighted
        (a.labels.map Prod.snd) / (b.activations r.inputs a).total) := by
  obtain ⟨hm, m, hmem, hpos⟩ := (fires_iff hb h ha).1 hf
  obtain ⟨-, -, hsets, houtput⟩ := round_of_supplied hb h hm
  refine ⟨hsets, ?_⟩
  rw [houtput a ha, FuzzySet.crisp?_of_positive (RuleBase.length_activations_le hb.wellFormed ha)
    (RuleBase.isDegree_activations a) _ hmem hpos]
  rfl

/-- A round that does not fire an action holds its output. -/
theorem output?_of_not_fires (hb : b.Built) (h : Reachable b e) (ha : a ∈ b.actions)
    (hf : ¬r.Fires e a) : (r.after e).output? a.output = e.output? a.output := by
  rw [fires_iff hb h ha] at hf
  cases hm : b.missing? r.inputs with
  | some p => rw [output?, (round_of_missing hb h hm).2, output?]
  | none =>
    obtain ⟨-, -, -, houtput⟩ := round_of_supplied hb h hm
    have hzero : ∀ m ∈ b.activations r.inputs a, ¬0 < m :=
      fun m hmem hpos => hf ⟨hm, m, hmem, hpos⟩
    rw [houtput a ha, FuzzySet.crisp?_of_none_positive
      (RuleBase.length_activations_le hb.wellFormed ha) (RuleBase.isDegree_activations a) _ hzero]
    rfl

/-- From any state, an output is held, or it is the mean of the last round that fired its action. -/
theorem output?_afterRounds (hb : b.Built) (h : Reachable b e) {k : Nat}
    (ha : b.actions[k]? = some a) (rounds : List Round) :
    (Idle a e rounds ∧ (afterRounds e rounds).output? a.output = e.output? a.output) ∨
      ∃ before r rest, rounds = before ++ r :: rest ∧ r.Fires (afterRounds e before) a ∧
        Idle a (r.after (afterRounds e before)) rest ∧
        ∃ set, (r.after (afterRounds e before)).sets[k]? = some set ∧
          (afterRounds e rounds).output? a.output =
            some (set.weighted (a.labels.map Prod.snd) / set.total) := by
  have hmem := List.mem_of_getElem? ha
  induction rounds generalizing e with
  | nil => exact Or.inl ⟨trivial, rfl⟩
  | cons r rest ih =>
    cases ih (h.after_round r) with
    | inr hlast =>
      obtain ⟨before, last, others, hrounds, hlast⟩ := hlast
      exact Or.inr ⟨r :: before, last, others, by rw [hrounds, List.cons_append], hlast⟩
    | inl hidle =>
      obtain ⟨hidle, houtput⟩ := hidle
      by_cases hf : r.Fires e a
      · obtain ⟨hsets, hnew⟩ := output?_of_fires hb h hmem hf
        refine Or.inr ⟨[], r, rest, rfl, hf, hidle, b.activations r.inputs a, ?_, ?_⟩
        · rw [afterRounds, List.foldl_nil, hsets, List.getElem?_map, ha, Option.map_some]
        · exact houtput.trans hnew
      · exact Or.inl ⟨⟨hf, hidle⟩, houtput.trans (output?_of_not_fires hb h hmem hf)⟩

end Rounds

/-- After any rounds on an inference that has been made, an output is the quotient of two sums that the last
round which fired its action has left, both taken in the order of the labels: the sum of the label values,
each times its activation, by the sum of the activations. It is zero if there was no such round. A round
that does not fire an action holds its output, and a round that fails holds all outputs. -/
theorem output_held {b : RuleBase} {e : Inference} (hb : b.Built) (h : ofRuleBase b = .ok e)
    (rounds : List Round) {k : Nat} {a : Action} (ha : b.actions[k]? = some a) :
    let final := afterRounds e rounds
    ((Idle a e rounds ∧ final.output? a.output = some 0) ∨
      ∃ before r rest, rounds = before ++ r :: rest ∧ r.Fires (afterRounds e before) a ∧
        Idle a (r.after (afterRounds e before)) rest ∧
        ∃ set, (r.after (afterRounds e before)).sets[k]? = some set ∧
          final.output? a.output =
            some ((List.zipWith (· * ·) set (a.labels.map Prod.snd)).foldl (· + ·) 0 /
              set.foldl (· + ·) 0)) ∧
      (∀ r : Round, ¬r.Fires final a → (r.after final).output? a.output = final.output? a.output) ∧
      ∀ (r : Round) f, r.outcome final = .error f → (r.after final).outputs = final.outputs := by
  intro final
  have hmade : Reachable b e := .made h
  have hfinal : Reachable b final := hmade.after_rounds rounds
  have hmem := List.mem_of_getElem? ha
  have hzero : e.output? a.output = some 0 :=
    output?_of_made hb.wellFormed h (List.mem_map_of_mem hmem)
  refine ⟨?_, fun r hf => output?_of_not_fires hb hfinal hmem hf, ?_⟩
  · rw [← hzero]
    exact output?_afterRounds hb hmade ha rounds
  · intro r f hr
    cases hm : b.missing? r.inputs with
    | some p => exact (round_of_missing hb hfinal hm).2
    | none =>
      obtain ⟨⟨achieved, hok⟩, -⟩ := round_of_supplied hb hfinal hm
      rw [hok] at hr
      cases hr

/-- A round that has its input, and then one that lacks it. The first one makes both rules half true, and the
output is half of `Slow` after both. -/
theorem output_held_over_two_rounds :
    let near : Predicate := ⟨"Near", .rampDown 0 1, "rho"⟩
    let move : Action := ⟨"Move", [("Stop", 0), ("Slow", 0.1)], "Vlin"⟩
    let halt : Rule := ⟨"Halt", "Near", "Move", "Stop"⟩
    let creep : Rule := ⟨"Creep", "NOT(Near)", "Move", "Slow"⟩
    let b : RuleBase := ⟨[near], [move], [halt, creep], some "Near"⟩
    let e : Inference := ⟨b, [⟨0, 0⟩, ⟨0, 1⟩], .empty, .empty, [[0, 0]], ⟨[("Vlin", 0)]⟩⟩
    let first : Round := ⟨⟨[("rho", 0.5)]⟩, Verbosity.quiet⟩
    let second : Round := ⟨.empty, Verbosity.rules⟩
    let final := afterRounds e [first, second]
    let set : FuzzySet := [0.5, 0.5]
    b.Built ∧ ofRuleBase b = .ok e ∧ b.actions[0]? = some move ∧
      second.outcome (first.after e) = .error (.unknownInput "rho") ∧
      first.Fires e move ∧ Idle move (first.after e) [second] ∧
      (first.after e).sets[0]? = some set ∧
      final.output? "Vlin" =
        some ((List.zipWith (· * ·) set [0, 0.1]).foldl (· + ·) 0 / set.foldl (· + ·) 0) ∧
      final.output? "Vlin" = some 0.05 := by
  intro near move halt creep b e first second final set
  have hb : b.Built :=
    .declared (.goal "Near") (.declared (.rule creep) (.declared (.rule halt)
      (.declared (.action move) (.declared (.predicate near) .empty))))
  have hmade : ofRuleBase b = .ok e := by
    simp only [b, e, near, move, halt, creep]
    rfl
  have hreachable : Reachable b (first.after e) := (Reachable.made hmade).after_round first
  have hfails : second.outcome (first.after e) = .error (.unknownInput "rho") :=
    (round_of_missing hb hreachable (r := second) (p := near) rfl).1
  have hset : (first.after e).sets[0]? = some set := by decide +kernel
  have hvalue : final.output? "Vlin" = some 0.05 := by decide +kernel
  have hzero : final.output? "Vlin" ≠ some 0 := by
    rw [hvalue]
    decide
  obtain ⟨before, r, rest, hrounds, hfires, hidle, last, hlast, houtput⟩ :=
    (output_held hb hmade [first, second] (k := 0) (a := move) rfl).1.resolve_left fun h => hzero h.2
  rcases List.cons_eq_append_iff.1 hrounds with ⟨rfl, hsplit⟩ | ⟨others, rfl, hsplit⟩
  · obtain ⟨rfl, rfl⟩ := List.cons.inj hsplit
    obtain rfl : last = set := Option.some.inj (hlast.symm.trans hset)
    exact ⟨hb, hmade, rfl, hfails, hfires, hidle, hset, houtput, hvalue⟩
  · -- The second round fails, so it is not the last one that fired the action.
    rcases List.cons_eq_append_iff.1 hsplit with ⟨rfl, hsplit⟩ | ⟨_, -, hsplit⟩
    · obtain ⟨rfl, -⟩ := List.cons.inj hsplit
      obtain ⟨⟨_, hok⟩, -⟩ := hfires
      cases hfails.symm.trans hok
    · simp at hsplit

end Inference

end FuzzyMotion
