import FuzzyMotion.Proofs.Operation
import FuzzyMotion.RuleBase

/-!
The rule bases that declarations can build. Whatever is declared, in whatever order and with whatever
faults on the way, no name stands twice in a table and no table outgrows its capacity.
-/
namespace FuzzyMotion

/-- A list grows by one element exactly where there is room. -/
theorem extend_eq_ok_iff {α : Type} {c : Capacity} {xs ys : List α} {x : α} :
    extend c xs x = .ok ys ↔ xs.length < c.limit ∧ ys = xs ++ [x] := by
  rw [extend]
  by_cases h : xs.length < c.limit
  · simp [h, eq_comm]
  · simp [h]

theorem map_extend_eq_ok_iff {α β : Type} {c : Capacity} {xs : List α} {x : α} {f : List α → β}
    {b : β} : (extend c xs x).map f = .ok b ↔ xs.length < c.limit ∧ b = f (xs ++ [x]) := by
  rw [extend]
  by_cases h : xs.length < c.limit
  · simp [h, Except.map, eq_comm]
  · simp [h, Except.map]

theorem nodup_concat {names : List String} {name : String} (h : names.Nodup) (hn : name ∉ names) :
    (names ++ [name]).Nodup := by
  refine List.nodup_append.2 ⟨h, by simp, ?_⟩
  intro a ha b hb hab
  cases List.mem_singleton.1 hb
  exact hn (hab ▸ ha)

/-- Collected labels are all the labels, each once and all with room. -/
theorem collectLabels_eq_ok {done rest all : List (String × Float32)}
    (h : collectLabels done rest = .ok all) (hd : (done.map Prod.fst).Nodup)
    (hl : done.length ≤ Capacity.labels.limit) :
    all = done ++ rest ∧ (all.map Prod.fst).Nodup ∧ all.length ≤ Capacity.labels.limit := by
  induction rest generalizing done with
  | nil =>
    cases h
    exact ⟨by simp, hd, hl⟩
  | cons pair rest ih =>
    obtain ⟨label, value⟩ := pair
    unfold collectLabels at h
    split at h
    · cases h
    · rename_i hn
      cases he : extend .labels done (label, value) with
      | error e => simp [he, bind, Except.bind] at h
      | ok longer =>
        simp only [he, bind, Except.bind] at h
        obtain ⟨hroom, rfl⟩ := extend_eq_ok_iff.1 he
        have hnodup : ((done ++ [(label, value)]).map Prod.fst).Nodup := by
          simpa using nodup_concat hd hn
        have hlength : (done ++ [(label, value)]).length ≤ Capacity.labels.limit := by
          simp only [List.length_append, List.length_singleton]
          omega
        have := ih h hnodup hlength
        simpa using this

namespace RuleBase

open Operation

/-- Every name is unique in its table, and every table is within its capacity. -/
structure WellFormed (b : RuleBase) : Prop where
  predicates_le : b.predicates.length ≤ Capacity.predicates.limit
  predicateNames_nodup : b.predicateNames.Nodup
  actions_le : b.actions.length ≤ Capacity.actions.limit
  actionNames_nodup : b.actionNames.Nodup
  outputs_nodup : b.outputs.Nodup
  labels_le : ∀ a ∈ b.actions, a.labels.length ≤ Capacity.labels.limit
  labelNames_nodup : ∀ a ∈ b.actions, a.labelNames.Nodup
  rules_le : b.rules.length ≤ Capacity.rules.limit
  ruleNames_nodup : b.ruleNames.Nodup

/-- A single declaration. -/
inductive Declaration where
  | predicate (p : Predicate)
  | action (a : Action)
  | rule (r : Rule)
  | goal (statement : String)

def Declaration.operation : Declaration → Operation RuleBase Unit
  | predicate p => insertPredicate p
  | action a => insertAction a
  | rule r => insertRule r
  | goal statement => aim statement

/-- What any sequence of declarations leaves, whether or not they succeed. -/
inductive Built : RuleBase → Prop
  | empty : Built empty
  | declared {b : RuleBase} (d : Declaration) (h : Built b) : Built (d.operation.after b)

theorem wellFormed_empty : WellFormed empty := by
  constructor <;> simp [empty, predicateNames, actionNames, outputs, ruleNames]

theorem withPredicate_eq_ok {b c : RuleBase} {p : Predicate} (h : b.withPredicate p = .ok c) :
    p.name ∉ b.predicateNames ∧ b.predicates.length < Capacity.predicates.limit ∧
      c = { b with predicates := b.predicates ++ [p] } := by
  unfold withPredicate at h
  split at h
  · cases h
  · rename_i hn
    exact ⟨hn, map_extend_eq_ok_iff.1 h⟩

theorem withRule_eq_ok {b c : RuleBase} {r : Rule} (h : b.withRule r = .ok c) :
    r.name ∉ b.ruleNames ∧ b.rules.length < Capacity.rules.limit ∧
      c = { b with rules := b.rules ++ [r] } := by
  unfold withRule at h
  split at h
  · cases h
  · rename_i hn
    exact ⟨hn, map_extend_eq_ok_iff.1 h⟩

theorem withAction_eq_ok {b c : RuleBase} {a : Action} (h : b.withAction a = .ok c) :
    a.name ∉ b.actionNames ∧ a.output ∉ b.outputs ∧ a.labelNames.Nodup ∧
      a.labels.length ≤ Capacity.labels.limit ∧ b.actions.length < Capacity.actions.limit ∧
      c = { b with actions := b.actions ++ [a] } := by
  unfold withAction at h
  split at h
  · cases h
  · rename_i hn
    split at h
    · cases h
    · rename_i ho
      cases hl : collectLabels [] a.labels with
      | error e => simp [hl, bind, Except.bind] at h
      | ok labels =>
        obtain ⟨rfl, hnodup, hle⟩ := collectLabels_eq_ok hl (by simp) (by simp)
        have hmap : (extend .actions b.actions a).map (fun actions => { b with actions := actions })
            = .ok c := by
          rw [hl] at h
          exact h
        exact ⟨hn, ho, hnodup, hle, map_extend_eq_ok_iff.1 hmap⟩

theorem WellFormed.withPredicate {b c : RuleBase} {p : Predicate} (hb : b.WellFormed)
    (h : b.withPredicate p = .ok c) : c.WellFormed := by
  obtain ⟨hn, hroom, rfl⟩ := withPredicate_eq_ok h
  exact { hb with
    predicates_le := by
      simp only [List.length_append, List.length_singleton]
      omega
    predicateNames_nodup := by
      simpa [predicateNames] using nodup_concat hb.predicateNames_nodup hn }

theorem WellFormed.withRule {b c : RuleBase} {r : Rule} (hb : b.WellFormed)
    (h : b.withRule r = .ok c) : c.WellFormed := by
  obtain ⟨hn, hroom, rfl⟩ := withRule_eq_ok h
  exact { hb with
    rules_le := by
      simp only [List.length_append, List.length_singleton]
      omega
    ruleNames_nodup := by simpa [ruleNames] using nodup_concat hb.ruleNames_nodup hn }

theorem WellFormed.withAction {b c : RuleBase} {a : Action} (hb : b.WellFormed)
    (h : b.withAction a = .ok c) : c.WellFormed := by
  obtain ⟨hn, ho, hnodup, hle, hroom, rfl⟩ := withAction_eq_ok h
  exact { hb with
    actions_le := by
      simp only [List.length_append, List.length_singleton]
      omega
    actionNames_nodup := by simpa [actionNames] using nodup_concat hb.actionNames_nodup hn
    outputs_nodup := by simpa [outputs] using nodup_concat hb.outputs_nodup ho
    labels_le := by
      intro x hx
      cases List.mem_append.1 hx with
      | inl hx =>
        exact hb.labels_le x hx
      | inr hx =>
        cases List.mem_singleton.1 hx
        exact hle
    labelNames_nodup := by
      intro x hx
      cases List.mem_append.1 hx with
      | inl hx =>
        exact hb.labelNames_nodup x hx
      | inr hx =>
        cases List.mem_singleton.1 hx
        exact hnodup }

/-- A change made as a whole or not at all keeps what it keeps when it is made. -/
theorem wellFormed_update {b : RuleBase} (f : RuleBase → Except Fault RuleBase)
    (hb : b.WellFormed) (hf : ∀ c, f b = .ok c → c.WellFormed) :
    ((update f).after b).WellFormed := by
  rw [← run_snd, run_update]
  cases h : f b with
  | ok c => exact hf c h
  | error e => exact hb

theorem Built.wellFormed {b : RuleBase} (h : b.Built) : b.WellFormed := by
  induction h with
  | empty => exact wellFormed_empty
  | declared d _ ih =>
    cases d with
    | predicate p => exact wellFormed_update _ ih fun _ h => ih.withPredicate h
    | action a => exact wellFormed_update _ ih fun _ h => ih.withAction h
    | rule r => exact wellFormed_update _ ih fun _ h => ih.withRule h
    | goal statement => exact { ih with }

end RuleBase

end FuzzyMotion
