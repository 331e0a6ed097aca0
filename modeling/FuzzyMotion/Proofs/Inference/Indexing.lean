import FuzzyMotion.Proofs.Inference.Held
import Mathlib.Data.List.Forall2

/-!
Places in the tables of an inference. Rules, consequents, actions, sets and outputs stand in tables of
their own, which only places and names tie together. In every state that calls can reach these tables fit
each other: whatever is looked up by its place is there, and it is what its name says.
-/
namespace FuzzyMotion

/-- What is computed of each element stands at the place of the element. -/
theorem forall₂_of_mapM_eq_ok {ε α β : Type} {f : α → Except ε β} {xs : List α} {ys : List β}
    (h : xs.mapM f = .ok ys) : List.Forall₂ (fun x y => f x = .ok y) xs ys := by
  induction xs generalizing ys with
  | nil =>
    cases h
    exact .nil
  | cons x xs ih =>
    simp only [List.mapM_cons, bind_eq_ok_iff, pure, Except.pure, Except.ok.injEq] at h
    obtain ⟨y, hy, others, hothers, rfl⟩ := h
    exact .cons hy (ih hothers)

namespace Table

variable {κ α : Type} {c : Capacity} {t : Table κ c α} {k : κ} {a : α} {i : Nat}

theorem exists_entry_of_keys (h : t.keys[i]? = some k) : ∃ a, t.entries[i]? = some (k, a) := by
  rw [keys, List.getElem?_map, Option.map_eq_some_iff] at h
  obtain ⟨⟨k, a⟩, hentry, rfl⟩ := h
  exact ⟨a, hentry⟩

variable [DecidableEq κ]

theorem get?_of_mem_entries (hn : t.keys.Nodup) (h : (k, a) ∈ t.entries) : t.get? k = some a := by
  obtain ⟨entries⟩ := t
  simp only [keys, get?] at hn h ⊢
  induction entries with
  | nil => cases h
  | cons e rest ih =>
    rw [List.map_cons] at hn
    obtain ⟨hfresh, hrest⟩ := List.nodup_cons.1 hn
    rw [lookup_cons_eq_ite]
    cases List.mem_cons.1 h with
    | inl he => simp [← he]
    | inr hm =>
      have hne : k ≠ e.1 := fun heq => hfresh (heq ▸ List.mem_map_of_mem hm)
      rw [if_neg hne]
      exact ih hrest hm

/-- Where no key stands twice, the value that is found under a key stands at the place of the key. -/
theorem entries_getElem?_of_get? (hn : t.keys.Nodup) (hk : t.keys[i]? = some k)
    (h : t.get? k = some a) : t.entries[i]? = some (k, a) := by
  obtain ⟨b, hentry⟩ := exists_entry_of_keys hk
  rw [get?_of_mem_entries hn (List.mem_of_getElem? hentry)] at h
  rwa [← Option.some.inj h]

end Table

namespace RuleBase

/-- At the places of the consequent stand the action and the label that the rule names. -/
def Names (b : RuleBase) (rule : Rule) (c : Consequent) : Prop :=
  ∃ a, b.actions[c.action]? = some a ∧ a.name = rule.action ∧
    a.labelNames[c.label]? = some rule.label

theorem names_of_consequentOf {b : RuleBase} {rule : Rule} {c : Consequent} (hb : b.WellFormed)
    (h : b.consequentOf rule = .ok c) : b.Names rule c := by
  obtain ⟨a, ha, hlabel, hname⟩ := places_of_consequentOf hb h
  exact ⟨a, ha, hname.symm, hlabel⟩

/-- Where a name stands among the names of the actions, there is an action. -/
theorem exists_action_of_idxOf? {b : RuleBase} {name : String} {k : Nat}
    (h : b.actionNames.idxOf? name = some k) : ∃ a, b.actions[k]? = some a := by
  obtain ⟨hk, -⟩ := List.idxOf?_eq_some_iff.1 h
  rw [actionNames, List.length_map] at hk
  exact ⟨_, List.getElem?_eq_getElem hk⟩

end RuleBase

namespace Inference

open Operation

/-- The tables of an inference fit each other, place by place. -/
structure Aligned (b : RuleBase) (e : Inference) : Prop where
  base : e.base = b
  /-- One consequent per rule, at the places of what this rule names. -/
  consequents : List.Forall₂ b.Names b.rules e.consequents
  /-- One set per action, with one activation per label. -/
  sets : List.Forall₂ (fun (a : Action) set => set.length = a.labels.length) b.actions e.sets
  /-- One output per action, in their order. -/
  outputs : e.outputs.keys = b.outputs
  outputs_nodup : b.outputs.Nodup

/-- The state of the rule step when some rules are applied already. -/
def applied (v : Verbosity) (done : List (Rule × Consequent)) (e : Inference) : Inference :=
  (each done fun pair => applyRule v pair.1 pair.2).after (e.withSets (e.sets.map FuzzySet.reset))

/-- Whatever is looked up by its place is there. -/
structure Indexed (b : RuleBase) (e : Inference) : Prop where
  /-- The action of a rule, at the place of its name. -/
  action : ∀ (rule : Rule) (k : Nat), b.actionNames.idxOf? rule.action = some k →
    ∃ a, b.actions[k]? = some a
  /-- The activation that a rule is to raise, at the moment when it is raised. -/
  activation : ∀ v done pair rest, e.creditors = done ++ pair :: rest →
    ∃ x, activation? (applied v done e).sets pair.2 = some x
  /-- An output, before and after it is computed: it is the crisp value of the set of its action. -/
  output : ∀ (v : Verbosity) (k : Nat) (a : Action), b.actions[k]? = some a →
    ∃ (set : FuzzySet) (old : Float32), e.sets[k]? = some set ∧
      e.outputs.entries[k]? = some (a.output, old) ∧
        ((defuzzify v).after e).outputs.entries[k]? =
          some (a.output, (set.crisp? (a.labels.map Prod.snd)).getD old)

variable {b : RuleBase} {e : Inference}

theorem Coherent.aligned (hb : b.WellFormed) (h : Coherent b e) : Aligned b e where
  base := h.base
  consequents := (forall₂_of_mapM_eq_ok h.consequents).imp fun _ _ => RuleBase.names_of_consequentOf hb
  sets := by
    have hsizes : List.Forall₂ (· = ·) (b.actions.map fun a => a.labels.length)
        (e.sets.map List.length) := by
      rw [h.sizes]
      exact List.forall₂_refl _
    rw [List.forall₂_map_left_iff, List.forall₂_map_right_iff] at hsizes
    exact hsizes.imp fun _ _ => Eq.symm
  outputs := h.outputs
  outputs_nodup := hb.outputs_nodup

theorem exists_activation_iff {sets : List FuzzySet} {c : Consequent} :
    (∃ x, activation? sets c = some x) ↔
      ∃ n, (sets.map List.length)[c.action]? = some n ∧ c.label < n := by
  rw [activation?, List.getElem?_map]
  cases sets[c.action]? with
  | none => simp
  | some set => simp [← Option.isSome_iff_exists]

/-- The rules that are applied already change no set's size. -/
theorem length_applied (v : Verbosity) (done : List (Rule × Consequent)) (e : Inference) :
    (applied v done e).sets.map List.length = e.sets.map List.length := by
  rw [applied, ← run_snd, run_each_applyRule, ← length_reset e.sets]
  exact length_creditAll _ _ _

/-- What a rule names has an activation in sets of the right sizes. -/
theorem exists_activation_of_names {sets : List FuzzySet} {rule : Rule} {c : Consequent}
    (hs : sets.map List.length = b.actions.map fun a => a.labels.length) (h : b.Names rule c) :
    ∃ x, activation? sets c = some x := by
  obtain ⟨a, ha, -, hlabel⟩ := h
  rw [exists_activation_iff, hs, List.getElem?_map, ha]
  refine ⟨a.labels.length, rfl, ?_⟩
  obtain ⟨hlt, -⟩ := List.getElem?_eq_some_iff.1 hlabel
  rwa [Action.labelNames, List.length_map] at hlt

theorem Coherent.exists_activation (hb : b.WellFormed) (h : Coherent b e) (v : Verbosity)
    {done rest : List (Rule × Consequent)} {pair : Rule × Consequent}
    (hp : e.creditors = done ++ pair :: rest) :
    ∃ x, activation? (applied v done e).sets pair.2 = some x := by
  have hmem : pair ∈ b.rules.zip e.consequents := by
    rw [← h.base]
    exact (congrArg (pair ∈ ·) hp).mpr (List.mem_append_right done List.mem_cons_self)
  have hnames : b.Names pair.1 pair.2 := List.forall₂_zip (h.aligned hb).consequents hmem
  exact exists_activation_of_names ((length_applied v done e).trans h.sizes) hnames

theorem outputs_zip {actions : List Action} {sets : List FuzzySet}
    (h : actions.length = sets.length) :
    ((actions.zip sets).map fun pair => pair.1.output) = actions.map Action.output := by
  calc ((actions.zip sets).map fun pair => pair.1.output)
    _ = ((actions.zip sets).map Prod.fst).map Action.output := (List.map_map ..).symm
    _ = actions.map Action.output := by rw [List.map_fst_zip (Nat.le_of_eq h)]

/-- From any sets, an output is the mean of the set of its action, if there is one, and held otherwise. -/
theorem Coherent.output?_defuzzify (hb : b.WellFormed) (h : Coherent b e) (v : Verbosity) {k : Nat}
    {a : Action} {set : FuzzySet} (ha : b.actions[k]? = some a) (hset : e.sets[k]? = some set) :
    ((defuzzify v).after e).output? a.output =
      (set.crisp? (a.labels.map Prod.snd)).or (e.output? a.output) := by
  have hlength : b.actions.length = e.sets.length := (h.aligned hb).sets.length_eq
  have hpair : (a, set) ∈ b.actions.zip e.sets :=
    List.mem_of_getElem? (List.getElem?_zip_eq_some.2 ⟨ha, hset⟩)
  have hkey : a.output ∈ e.outputs.keys := by
    rw [h.outputs]
    exact List.mem_map_of_mem (List.mem_of_getElem? ha)
  rw [← run_snd, run_defuzzify, refreshed, h.base]
  exact get?_refresh_of_mem hpair (outputs_zip hlength ▸ hb.outputs_nodup) hkey

/-- The output of an action stands at the place of the action, before and after it is computed. -/
theorem Coherent.output_at (hb : b.WellFormed) (h : Coherent b e) (v : Verbosity) {k : Nat}
    {a : Action} (ha : b.actions[k]? = some a) :
    ∃ (set : FuzzySet) (old : Float32), e.sets[k]? = some set ∧
      e.outputs.entries[k]? = some (a.output, old) ∧
        ((defuzzify v).after e).outputs.entries[k]? =
          some (a.output, (set.crisp? (a.labels.map Prod.snd)).getD old) := by
  have hlength : b.actions.length = e.sets.length := (h.aligned hb).sets.length_eq
  have hnodup : e.outputs.keys.Nodup := h.outputs ▸ hb.outputs_nodup
  have hkey : e.outputs.keys[k]? = some a.output := by
    rw [h.outputs, RuleBase.outputs, List.getElem?_map, ha, Option.map_some]
  obtain ⟨hk, -⟩ := List.getElem?_eq_some_iff.1 ha
  obtain ⟨set, hset⟩ : ∃ set, e.sets[k]? = some set :=
    ⟨_, List.getElem?_eq_getElem (hlength ▸ hk)⟩
  obtain ⟨old, hold⟩ := Table.exists_entry_of_keys hkey
  have hbefore : e.output? a.output = some old :=
    Table.get?_of_mem_entries hnodup (List.mem_of_getElem? hold)
  have hvalue := h.output?_defuzzify hb v ha hset
  rw [hbefore, Option.or_some] at hvalue
  have hkeys : ((defuzzify v).after e).outputs.keys = e.outputs.keys := by
    rw [← run_snd, run_defuzzify]
    exact keys_refresh _ _
  refine ⟨set, old, hset, hold, Table.entries_getElem?_of_get? ?_ ?_ hvalue⟩
  · rwa [hkeys]
  · rwa [hkeys]

/-- In every state that calls on an inference over a built rule base can reach, whether or not they
succeed, the tables fit each other; so nothing is looked up at a place where nothing stands, and every
output that is computed stands at its own place. -/
theorem tables_aligned (hb : b.Built) (h : Reachable b e) : Aligned b e ∧ Indexed b e := by
  have hw : b.WellFormed := hb.wellFormed
  have hcoherent : Coherent b e := coherent_of_reachable hw h
  exact ⟨hcoherent.aligned hw,
    { action := fun _ _ => RuleBase.exists_action_of_idxOf?
      activation := fun v _ _ _ hp => hcoherent.exists_activation hw v hp
      output := fun v _ _ ha => hcoherent.output_at hw v ha }⟩

/-- An action without labels stands before the action of the only rule; the input is missing at first. -/
theorem tables_aligned_past_empty_action :
    let near : Predicate := ⟨"Near", .rampDown 0 1, "rho"⟩
    let wait : Action := ⟨"Wait", [], "Pause"⟩
    let move : Action := ⟨"Move", [("Slow", 0.1)], "Vlin"⟩
    let creep : Rule := ⟨"Creep", "NOT(Near)", "Move", "Slow"⟩
    let b : RuleBase := ⟨[near], [wait, move], [creep], some "Near"⟩
    let made : Inference :=
      ⟨b, [⟨1, 0⟩], .empty, .empty, [[], [0]], ⟨[("Pause", 0), ("Vlin", 0)]⟩⟩
    let failed := (cycle Verbosity.quiet).after made
    let e := (cycle Verbosity.rules).after ((feed ⟨[("rho", 0.5)]⟩).after failed)
    b.Built ∧ Reachable b e ∧ Aligned b e ∧ Indexed b e := by
  intro near wait move creep b made failed e
  have hb : b.Built :=
    .declared (.goal "Near") (.declared (.rule creep) (.declared (.action move)
      (.declared (.action wait) (.declared (.predicate near) .empty))))
  have hmade : ofRuleBase b = .ok made := by
    simp only [b, made, near, wait, move, creep]
    rfl
  have he : Reachable b e :=
    .called (.cycle Verbosity.rules) (.called (.feed ⟨[("rho", 0.5)]⟩)
      (.called (.cycle Verbosity.quiet) (.made hmade)))
  exact ⟨hb, he, tables_aligned hb he⟩

end Inference

end FuzzyMotion
