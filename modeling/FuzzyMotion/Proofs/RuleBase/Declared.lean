import FuzzyMotion.Proofs.RuleBase.Entered

/-!
Tables that can be declared. Where no name stands twice and no table outgrows its capacity, every
declaration succeeds, one after the other; so the rule bases that declarations can build are exactly the
well-formed ones.
-/
namespace FuzzyMotion

/-- In a list without duplicate names, no name stands among those before it. -/
theorem fresh_of_nodup {α : Type} {name : α → String} {before rest : List α} {x : α}
    (h : ((before ++ x :: rest).map name).Nodup) : name x ∉ before.map name := by
  rw [List.map_append, List.map_cons] at h
  exact fun hm => (List.nodup_append.1 h).2.2 _ hm _ List.mem_cons_self rfl

theorem length_lt_of_append {α : Type} {before rest : List α} {x : α} {n : Nat}
    (h : (before ++ x :: rest).length ≤ n) : before.length < n := by
  rw [List.length_append, List.length_cons] at h
  omega

/-- Labels that are all different, and for which there is room, are passed one after the other. -/
theorem collectLabels_append {done before rest : List (String × Float32)}
    (hn : ((done ++ before).map Prod.fst).Nodup)
    (hl : (done ++ before).length ≤ Capacity.labels.limit) :
    collectLabels done (before ++ rest) = collectLabels (done ++ before) rest := by
  induction before generalizing done with
  | nil => rw [List.nil_append, List.append_nil]
  | cons pair before ih =>
    obtain ⟨label, value⟩ := pair
    have hfresh : label ∉ done.map Prod.fst := fresh_of_nodup hn
    have hextend : extend .labels done (label, value) = .ok (done ++ [(label, value)]) :=
      extend_eq_ok_iff.2 ⟨length_lt_of_append hl, rfl⟩
    simp only [List.cons_append, collectLabels, if_neg hfresh, hextend, bind, Except.bind]
    rw [ih]
    · rw [List.append_assoc, List.singleton_append]
    · simpa using hn
    · simpa using hl

/-- Labels that are all different, and for which there is room, are collected as they are. -/
theorem collectLabels_of_nodup {done rest : List (String × Float32)}
    (hn : ((done ++ rest).map Prod.fst).Nodup) (hl : (done ++ rest).length ≤ Capacity.labels.limit) :
    collectLabels done rest = .ok (done ++ rest) := by
  rw [← List.append_nil rest, collectLabels_append hn hl, collectLabels, List.append_nil]

namespace RuleBase

open Operation

variable {b c : RuleBase}

section Single

theorem run_insertPredicate {p : Predicate} (hn : p.name ∉ b.predicateNames)
    (hl : b.predicates.length < Capacity.predicates.limit) :
    (insertPredicate p).run b = (.ok (), { b with predicates := b.predicates ++ [p] }) := by
  have hextend : extend .predicates b.predicates p = .ok (b.predicates ++ [p]) :=
    extend_eq_ok_iff.2 ⟨hl, rfl⟩
  rw [insertPredicate, run_update, withPredicate, if_neg hn, hextend]
  rfl

theorem run_insertRule {r : Rule} (hn : r.name ∉ b.ruleNames)
    (hl : b.rules.length < Capacity.rules.limit) :
    (insertRule r).run b = (.ok (), { b with rules := b.rules ++ [r] }) := by
  have hextend : extend .rules b.rules r = .ok (b.rules ++ [r]) := extend_eq_ok_iff.2 ⟨hl, rfl⟩
  rw [insertRule, run_update, withRule, if_neg hn, hextend]
  rfl

theorem run_insertAction {a : Action} (hn : a.name ∉ b.actionNames) (ho : a.output ∉ b.outputs)
    (hnames : a.labelNames.Nodup) (hlabels : a.labels.length ≤ Capacity.labels.limit)
    (hl : b.actions.length < Capacity.actions.limit) :
    (insertAction a).run b = (.ok (), { b with actions := b.actions ++ [a] }) := by
  have hcollect : collectLabels [] a.labels = .ok a.labels := collectLabels_of_nodup hnames hlabels
  have hextend : extend .actions b.actions a = .ok (b.actions ++ [a]) :=
    extend_eq_ok_iff.2 ⟨hl, rfl⟩
  rw [insertAction, run_update, withAction, if_neg hn, if_neg ho, hcollect]
  simp only [bind, Except.bind, hextend]
  rfl

/-- A predicate whose points are in order is declared as it is. -/
theorem run_declare {p : Predicate} (h : Membership.ordered p.membership.points = true) :
    (declare p).run b = (insertPredicate p).run b := by
  rw [declare, run_bind, run_ofExcept, Membership.checked_eq_ok.2 ⟨h, rfl⟩, andThen_ok]

end Single

section Tables

/-- Operations that each append one element to a table succeed together, if each of them finds what it
needs after the ones before it. -/
theorem run_each_of_append {α : Type} {f : α → Operation RuleBase Unit} (put : List α → RuleBase)
    {xs : List α} (h : ∀ before x rest, xs = before ++ x :: rest →
      (f x).run (put before) = (.ok (), put (before ++ [x]))) :
    (each xs f).run (put []) = (.ok (), put xs) := by
  suffices hrest : ∀ before rest, xs = before ++ rest →
      (each rest f).run (put before) = (.ok (), put xs) from hrest [] xs rfl
  intro before rest hxs
  induction rest generalizing before with
  | nil => rw [hxs, List.append_nil, run_each_nil]
  | cons x rest ih =>
    rw [run_each_cons, h before x rest hxs, andThen_ok]
    exact ih _ (by rw [hxs, List.append_assoc, List.singleton_append])

theorem run_each_insertPredicate (hb : b.WellFormed) :
    (each b.predicates insertPredicate).run empty = (.ok (), { empty with predicates := b.predicates }) := by
  refine run_each_of_append (fun ps => { empty with predicates := ps }) fun before p rest hps => ?_
  have hnodup := hb.predicateNames_nodup
  have hle := hb.predicates_le
  rw [predicateNames, hps] at hnodup
  rw [hps] at hle
  exact run_insertPredicate (fresh_of_nodup hnodup) (length_lt_of_append hle)

theorem run_each_insertAction (hb : b.WellFormed) (hc : c.actions = []) :
    (each b.actions insertAction).run c = (.ok (), { c with actions := b.actions }) := by
  have hstart : c = { c with actions := [] } := by rw [← hc]
  rw [hstart]
  refine run_each_of_append (fun as => { c with actions := as }) fun before a rest has => ?_
  have ha : a ∈ b.actions := has ▸ List.mem_append_right _ List.mem_cons_self
  have hnames := hb.actionNames_nodup
  have houtputs := hb.outputs_nodup
  have hle := hb.actions_le
  rw [actionNames, has] at hnames
  rw [outputs, has] at houtputs
  rw [has] at hle
  exact run_insertAction (fresh_of_nodup hnames) (fresh_of_nodup houtputs) (hb.labelNames_nodup a ha)
    (hb.labels_le a ha) (length_lt_of_append hle)

theorem run_each_insertRule (hb : b.WellFormed) (hc : c.rules = []) :
    (each b.rules insertRule).run c = (.ok (), { c with rules := b.rules }) := by
  have hstart : c = { c with rules := [] } := by rw [← hc]
  rw [hstart]
  refine run_each_of_append (fun rs => { c with rules := rs }) fun before r rest hrs => ?_
  have hnodup := hb.ruleNames_nodup
  have hle := hb.rules_le
  rw [ruleNames, hrs] at hnodup
  rw [hrs] at hle
  exact run_insertRule (fresh_of_nodup hnodup) (length_lt_of_append hle)

theorem run_each_aim {goal : Option String} (hc : c.goal = none) :
    (each goal.toList aim).run c = (.ok (), { c with goal := goal }) := by
  cases goal with
  | none =>
    have hsame : { c with goal := none } = c := by rw [← hc]
    rw [hsame]
    rfl
  | some goal => rfl

theorem run_each_declare {ps : List Predicate}
    (h : ∀ p ∈ ps, Membership.ordered p.membership.points = true) :
    (each ps declare).run b = (each ps insertPredicate).run b := by
  induction ps generalizing b with
  | nil => rfl
  | cons p ps ih =>
    obtain ⟨hp, hps⟩ := List.forall_mem_cons.1 h
    simp only [run_each_cons, run_declare hp, ih hps]

/-- Well-formed tables can be entered if the points of every membership function are in order. -/
theorem run_enter (hb : b.WellFormed)
    (ho : ∀ p ∈ b.predicates, Membership.ordered p.membership.points = true) :
    (enter b).run empty = (.ok (), b) := by
  rw [enter, run_bind, run_each_declare ho, run_each_insertPredicate hb, andThen_ok, run_bind,
    run_each_insertAction hb rfl, andThen_ok, run_bind, run_each_insertRule hb rfl, andThen_ok,
    run_each_aim rfl]

/-- Declarations that all succeed lead from a built rule base to a built one. -/
theorem Built.each {α : Type} {d : α → Declaration} {xs : List α} (h : b.Built)
    (hc : (Operation.each xs fun x => (d x).operation).run b = (.ok (), c)) : c.Built := by
  induction xs generalizing b with
  | nil =>
    obtain rfl : b = c := congrArg Prod.snd hc
    exact h
  | cons x xs ih =>
    obtain ⟨next, hx, hxs⟩ := run_each_cons_eq_ok hc
    have hnext : (d x).operation.after b = next := congrArg Prod.snd hx
    exact ih (hnext ▸ .declared (d x) h) hxs

/-- Declarations can build exactly the well-formed rule bases. -/
theorem built_iff_wellFormed : b.Built ↔ b.WellFormed := by
  refine ⟨Built.wellFormed, fun hb => ?_⟩
  have h₁ := Built.empty.each (d := .predicate) (run_each_insertPredicate hb)
  have h₂ := h₁.each (d := .action) (run_each_insertAction hb rfl)
  have h₃ := h₂.each (d := .rule) (run_each_insertRule hb rfl)
  exact h₃.each (d := .goal) (run_each_aim rfl)

end Tables

end RuleBase

end FuzzyMotion
