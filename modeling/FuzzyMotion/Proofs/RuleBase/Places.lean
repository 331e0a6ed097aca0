import FuzzyMotion.Proofs.RuleBase.Built

/-!
Names and places. A rule names an action and a label; what it credits is found by their places, once.
Where no name stands twice, the place that is found is the only one with these names.
-/
namespace FuzzyMotion

theorem idxOf?_eq_some_iff_getElem? {names : List String} (h : names.Nodup) {name : String} {k : Nat} :
    names.idxOf? name = some k ↔ names[k]? = some name := by
  rw [List.idxOf?_eq_some_iff]
  constructor
  · rintro ⟨hk, rfl, -⟩
    exact List.getElem?_eq_getElem hk
  · intro hk
    obtain ⟨hlt, rfl⟩ := List.getElem?_eq_some_iff.1 hk
    refine ⟨hlt, rfl, fun j hj heq => ?_⟩
    have hsame : names[k]? = names[j]? := by
      rw [hk, ← heq]
      exact (List.getElem?_eq_getElem _).symm
    have := (List.getElem?_inj hlt h).1 hsame
    omega

namespace RuleBase

variable {b : RuleBase}

section Place

variable {k j : Nat} {a : Action} {label : String}

/-- A rule credits the label of the action that it names, wherever they stand. -/
theorem consequentOf_eq_ok_iff (hb : b.WellFormed) (ha : b.actions[k]? = some a)
    (hl : a.labelNames[j]? = some label) (rule : Rule) :
    b.consequentOf rule = .ok ⟨k, j⟩ ↔ rule.action = a.name ∧ rule.label = label := by
  have haction : b.actionNames.idxOf? rule.action = some k ↔ rule.action = a.name := by
    rw [idxOf?_eq_some_iff_getElem? hb.actionNames_nodup]
    simp [actionNames, ha, eq_comm]
  have hlabel : a.labelIndex? rule.label = some j ↔ rule.label = label := by
    rw [Action.labelIndex?, idxOf?_eq_some_iff_getElem?
      (hb.labelNames_nodup a (List.mem_of_getElem? ha)), hl]
    simp [eq_comm]
  rw [← haction, ← hlabel, consequentOf]
  cases b.actionNames.idxOf? rule.action with
  | none => simp
  | some i =>
    by_cases hi : i = k
    · subst hi
      simp only [ha, Option.bind_some, true_and]
      cases a.labelIndex? rule.label <;> simp
    · simp only
      split <;> simp [hi]

/-- Whatever is collected along the rules that credit a place is collected along those that name what
stands there. -/
theorem filterMap_zip_consequents {α : Type} (f : Rule → Option α) (hb : b.WellFormed)
    (ha : b.actions[k]? = some a) (hl : a.labelNames[j]? = some label) {rules : List Rule}
    {cs : List Consequent} (h : rules.mapM b.consequentOf = .ok cs) :
    ((rules.zip cs).filterMap fun pair => if pair.2 = ⟨k, j⟩ then f pair.1 else none) =
      rules.filterMap fun rule =>
        if rule.action = a.name ∧ rule.label = label then f rule else none := by
  induction rules generalizing cs with
  | nil => rfl
  | cons rule rest ih =>
    rw [List.mapM_cons] at h
    cases hr : b.consequentOf rule with
    | error e => simp [hr, bind, Except.bind] at h
    | ok first =>
      cases hs : rest.mapM b.consequentOf with
      | error e => simp [hr, hs, bind, Except.bind] at h
      | ok others =>
        simp only [hr, hs, bind, Except.bind, pure, Except.pure, Except.ok.injEq] at h
        subst h
        have hnames := consequentOf_eq_ok_iff hb ha hl rule
        rw [hr, Except.ok.injEq] at hnames
        simp only [List.zip_cons_cons, List.filterMap_cons, hnames, ih hs]

end Place

/-- What a rule credits stands in the tables under the names that the rule gives. -/
theorem places_of_consequentOf {rule : Rule} {c : Consequent} (hb : b.WellFormed)
    (h : b.consequentOf rule = .ok c) :
    ∃ a, b.actions[c.action]? = some a ∧ a.labelNames[c.label]? = some rule.label ∧
      rule.action = a.name := by
  rw [consequentOf] at h
  cases hk : b.actionNames.idxOf? rule.action with
  | none => simp [hk] at h
  | some k =>
    rw [hk] at h
    have hname := (idxOf?_eq_some_iff_getElem? hb.actionNames_nodup).1 hk
    rw [actionNames, List.getElem?_map, Option.map_eq_some_iff] at hname
    obtain ⟨a, ha, hname⟩ := hname
    simp only [ha, Option.bind_some] at h
    cases hj : a.labelIndex? rule.label with
    | none => simp [hj] at h
    | some j =>
      simp only [hj, Except.ok.injEq] at h
      subst h
      exact ⟨a, ha, (idxOf?_eq_some_iff_getElem?
        (hb.labelNames_nodup a (List.mem_of_getElem? ha))).1 hj, hname.symm⟩

/-- What rules credit is collected where every rule credits something and there is room for all of
it. -/
theorem collectConsequents_eq_ok_iff {done cs : List Consequent} {rules : List Rule}
    (hd : done.length ≤ Capacity.rules.limit) :
    b.collectConsequents done rules = .ok cs ↔
      ∃ others, rules.mapM b.consequentOf = .ok others ∧ cs = done ++ others ∧
        cs.length ≤ Capacity.rules.limit := by
  induction rules generalizing done with
  | nil =>
    simp only [collectConsequents, List.mapM_nil, pure, Except.pure, Except.ok.injEq,
      exists_eq_left', List.append_nil]
    exact ⟨fun h => ⟨h.symm, h ▸ hd⟩, fun h => h.1.symm⟩
  | cons rule rest ih =>
    simp only [collectConsequents, List.mapM_cons, bind_eq_ok_iff, extend_eq_ok_iff, pure,
      Except.pure, Except.ok.injEq]
    constructor
    · rintro ⟨c, hc, longer, ⟨hroom, rfl⟩, h⟩
      obtain ⟨others, hothers, rfl, hle⟩ := (ih (by rw [List.length_append]; exact hroom)).1 h
      exact ⟨c :: others, ⟨c, hc, others, hothers, rfl⟩, by simp, hle⟩
    · rintro ⟨_, ⟨c, hc, others, hothers, rfl⟩, rfl, hle⟩
      have hroom : done.length < Capacity.rules.limit := by
        simp only [List.length_append, List.length_cons] at hle
        omega
      refine ⟨c, hc, _, ⟨hroom, rfl⟩, (ih (by rw [List.length_append]; exact hroom)).2 ?_⟩
      exact ⟨others, hothers, by simp, hle⟩

end RuleBase

end FuzzyMotion
