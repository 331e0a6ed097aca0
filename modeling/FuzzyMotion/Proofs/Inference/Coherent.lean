import FuzzyMotion.Proofs.Inference.Activation
import FuzzyMotion.Proofs.Inference.Calls
import FuzzyMotion.Proofs.RuleBase.Built

/-!
What holds in every state of an inference, whatever has been called on it: the places that rules credit
are those of its rule base, there is one set per action with one activation per label, and one output
per action.
-/
namespace FuzzyMotion.Inference

open Operation

structure Coherent (b : RuleBase) (e : Inference) : Prop where
  base : e.base = b
  consequents : b.rules.mapM b.consequentOf = .ok e.consequents
  sizes : e.sets.map List.length = b.actions.map fun a => a.labels.length
  outputs : e.outputs.keys = b.outputs

/-- The tables that are zero everywhere: every action has its set, and its output is a new one. -/
theorem zeroTables_eq {sets : List FuzzySet} {t : Table String .outputs Float32}
    {actions : List Action} (hs : sets.length + actions.length ≤ Capacity.actions.limit)
    (ht : t.size + actions.length ≤ Capacity.outputs.limit)
    (hn : (t.keys ++ actions.map Action.output).Nodup) :
    zeroTables sets t actions = .ok (sets ++ actions.map FuzzySet.zero,
      ⟨t.entries ++ actions.map fun a => (a.output, 0)⟩) := by
  induction actions generalizing sets t with
  | nil => simp [zeroTables]
  | cons a rest ih =>
    have hfresh : a.output ∉ t.keys := by
      intro hm
      exact (List.nodup_append.1 hn).2.2 _ hm _ (by simp) rfl
    rw [List.length_cons] at hs ht
    have hset : extend .actions sets (FuzzySet.zero a) = .ok (sets ++ [FuzzySet.zero a]) :=
      extend_eq_ok_iff.2 ⟨by omega, rfl⟩
    have houtput : t.insert a.output 0 = .ok (t.append a.output 0) := by
      rw [Table.insert, if_neg hfresh, if_pos (by omega)]
    simp only [zeroTables, hset, houtput, bind, Except.bind]
    rw [ih]
    · simp [Table.append]
    · rw [List.length_append, List.length_singleton]
      omega
    · rw [Table.size, Table.append, List.length_append, List.length_singleton]
      rw [Table.size] at ht
      omega
    · simpa using hn

theorem zeroTables_of_wellFormed {b : RuleBase} (hb : b.WellFormed) :
    zeroTables [] .empty b.actions = .ok (b.actions.map FuzzySet.zero,
      ⟨b.outputs.map fun name => (name, 0)⟩) := by
  have hle := hb.actions_le
  have hroom := Capacity.limit_actions_le_outputs
  rw [zeroTables_eq]
  · simp [RuleBase.outputs, Table.empty, Function.comp_def]
  · simpa using hle
  · simpa using Nat.le_trans hle hroom
  · simpa [RuleBase.outputs] using hb.outputs_nodup

/-- Every output of an inference that has just been made is zero. -/
theorem outputs_of_made {b : RuleBase} {e : Inference} (hb : b.WellFormed)
    (h : ofRuleBase b = .ok e) : e.outputs.entries = b.outputs.map fun name => (name, 0) := by
  obtain ⟨-, consequents, sets, outputs, -, hz, rfl⟩ := ofRuleBase_eq_ok h
  rw [zeroTables_of_wellFormed hb] at hz
  cases hz
  rfl

theorem coherent_of_made {b : RuleBase} {e : Inference} (hb : b.WellFormed)
    (h : ofRuleBase b = .ok e) : Coherent b e := by
  obtain ⟨-, consequents, sets, outputs, hc, hz, rfl⟩ := ofRuleBase_eq_ok h
  rw [zeroTables_of_wellFormed hb] at hz
  cases hz
  refine ⟨rfl, hc, ?_, ?_⟩
  · simp [FuzzySet.zero]
  · simp [Table.keys, Function.comp_def]

theorem keys_refresh (t : Table String .outputs Float32) (pairs : List (Action × FuzzySet)) :
    (refresh t pairs).keys = t.keys := by
  induction pairs generalizing t with
  | nil => rfl
  | cons pair rest ih =>
    obtain ⟨action, set⟩ := pair
    rw [refresh]
    cases set.crisp? (action.labels.map Prod.snd) with
    | none => exact ih t
    | some x => rw [ih, Table.keys_replace]

/-- Every state of an inference over a built rule base is coherent. -/
theorem coherent_of_reachable {b : RuleBase} {e : Inference} (hb : b.WellFormed)
    (h : Reachable b e) : Coherent b e := by
  induction h with
  | made h => exact coherent_of_made hb h
  | called c _ ih =>
    refine preserved_by_call (fun _ _ h => { h with }) ?_ ?_ ?_ c ih
    · intro e h
      rw [← run_snd, run_fuzzify]
      exact { h with }
    · intro e h
      rw [← run_snd, run_applyRules]
      refine { h with sizes := ?_ }
      rw [← h.sizes, ← length_reset e.sets]
      exact length_creditAll _ _ _
    · intro e h
      refine { h with outputs := ?_ }
      rw [← h.outputs]
      exact keys_refresh _ _

end FuzzyMotion.Inference
