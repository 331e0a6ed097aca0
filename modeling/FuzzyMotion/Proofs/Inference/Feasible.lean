import FuzzyMotion.Proofs.Inference.Outcome
import FuzzyMotion.Proofs.RuleBase.Declared
import FuzzyMotion.Proofs.Table.Filled
import Mathlib.Data.List.Dedup

/-!
Rule bases that can be run at all. A cycle needs a value for the input of every declared predicate, and
the table of inputs has less room than the table of predicates. The check of the tables does not count
the inputs, so it accepts rule bases whose cycles fail on whatever inputs they get.
-/
namespace FuzzyMotion

namespace RuleBase

open Operation

/-- The inputs that the predicates need, each once. -/
def inputs (b : RuleBase) : List String :=
  (b.predicates.map Predicate.input).dedup

/-- Any predicates can be declared that have names of their own and for which there is room. -/
theorem built_of_predicates {ps : List Predicate} (hn : (ps.map Predicate.name).Nodup)
    (hl : ps.length ≤ Capacity.predicates.limit) : Built ⟨ps, [], [], none⟩ :=
  built_iff_wellFormed.2 { wellFormed_empty with
    predicates_le := hl
    predicateNames_nodup := hn }

end RuleBase

namespace Inference

open Operation

variable {b : RuleBase} {e : Inference} {inputs : Inputs}

/-- The keys of the inputs are what the predicates find in them. -/
theorem missing?_eq_none_iff_inputs_subset : b.missing? inputs = none ↔ b.inputs ⊆ inputs.keys := by
  have hsupplied : ∀ p : Predicate, p.supplied inputs = true ↔ p.input ∈ inputs.keys := by
    intro p
    rw [Predicate.supplied, Option.isSome_iff_ne_none, ne_eq, Table.get?_eq_none_iff, not_not]
  rw [RuleBase.missing?_eq_none_iff]
  simp only [hsupplied, RuleBase.inputs, List.subset_def, List.mem_dedup, List.mem_map,
    forall_exists_index, and_imp, forall_apply_eq_imp_iff₂]

/-- Values for all inputs that are needed can be filled in exactly where the table has room for them. -/
theorem exists_supplied_iff_inputs_fit :
    (∃ inputs : Inputs, inputs.Filled ∧ b.missing? inputs = none) ↔
      b.inputs.length ≤ Capacity.inputs.limit := by
  simp only [missing?_eq_none_iff_inputs_subset]
  constructor
  · rintro ⟨inputs, hfilled, hsub⟩
    calc
      b.inputs.length ≤ inputs.keys.length := (List.nodup_dedup _).length_le_of_subset hsub
      _ = inputs.size := inputs.size_eq_length_keys.symm
      _ ≤ Capacity.inputs.limit := hfilled.size_le
  · intro hfit
    obtain ⟨inputs, hfilled, hkeys⟩ := Table.exists_filled (0 : Float32) (List.nodup_dedup _) hfit
    exact ⟨inputs, hfilled, fun name hname => hkeys ▸ hname⟩

/-- A cycle on new inputs succeeds where no input is missing, and fails at the first one that is. -/
theorem Reachable.cycle_outcome (hb : b.Built) (h : Reachable b e) (inputs : Inputs) (v : Verbosity) :
    match b.missing? inputs with
    | none => ∃ achieved, (cycle v).outcome ((feed inputs).after e) = .ok achieved
    | some p => (cycle v).outcome ((feed inputs).after e) = .error (.unknownInput p.input) := by
  have hbase : ((feed inputs).after e).base = b := h.base_eq
  have hw : ((feed inputs).after e).base.WellFormed := hbase.symm ▸ hb.wellFormed
  cases hm : b.missing? inputs with
  | none =>
    obtain ⟨-, achieved, -, -, hok⟩ :=
      cycle_outcome_of_supplied hw (hbase.symm ▸ h.check_eq_ok) (hbase.symm ▸ hm) v
    exact ⟨achieved, hok⟩
  | some p => exact cycle_outcome_of_missing hw (hbase.symm ▸ hm) v

/-- In every state that a built rule base can lead to, there are inputs on which a cycle succeeds exactly
where the table of inputs has room for all inputs that the predicates need. Where it has not, every
cycle fails for want of one of them, whatever has been filled in. -/
theorem runs_iff_inputs_fit (hb : b.Built) (h : Reachable b e) (v : Verbosity) :
    ((∃ inputs : Inputs, inputs.Filled ∧
        ∃ achieved, (cycle v).outcome ((feed inputs).after e) = .ok achieved) ↔
        b.inputs.length ≤ Capacity.inputs.limit) ∧
      (Capacity.inputs.limit < b.inputs.length → ∀ inputs : Inputs, inputs.Filled →
        ∃ name ∈ b.inputs, inputs.get? name = none ∧
          (cycle v).outcome ((feed inputs).after e) = .error (.unknownInput name)) := by
  have houtcome := fun inputs => h.cycle_outcome hb inputs v
  constructor
  · rw [← exists_supplied_iff_inputs_fit]
    refine exists_congr fun inputs => and_congr_right fun _ => ?_
    have hcycle := houtcome inputs
    cases hm : b.missing? inputs with
    | none => simpa [hm] using hcycle
    | some p =>
      rw [hm] at hcycle
      simp [hcycle]
  · intro hfull inputs hfilled
    have hcycle := houtcome inputs
    cases hm : b.missing? inputs with
    | none =>
      have hfit := exists_supplied_iff_inputs_fit.1 ⟨inputs, hfilled, hm⟩
      omega
    | some p =>
      rw [hm] at hcycle
      have hp : p ∈ b.predicates := List.mem_of_find?_eq_some hm
      refine ⟨p.input, List.mem_dedup.2 (List.mem_map_of_mem hp), ?_, hcycle⟩
      simpa [Predicate.supplied] using List.find?_some hm

/-- The check accepts nine predicates, each over an input of its own, and there is room for eight inputs. -/
theorem accepted_with_nine_inputs_never_runs :
    let p (name input : String) : Predicate := ⟨name, .rampUp 0 1, input⟩
    let b : RuleBase := ⟨[p "P1" "x1", p "P2" "x2", p "P3" "x3", p "P4" "x4", p "P5" "x5",
      p "P6" "x6", p "P7" "x7", p "P8" "x8", p "P9" "x9"], [], [], some "P1"⟩
    let e : Inference := ⟨b, [], .empty, .empty, [], .empty⟩
    b.Built ∧ ofRuleBase b = .ok e ∧ ¬∃ inputs : Inputs, inputs.Filled ∧
      ∃ achieved, (cycle Verbosity.quiet).outcome ((feed inputs).after e) = .ok achieved := by
  intro p b e
  have hb : b.Built :=
    .declared (.goal "P1") (RuleBase.built_of_predicates (by decide) (by decide))
  have hmade : ofRuleBase b = .ok e := by
    simp only [b, e, p]
    rfl
  have hnine : b.inputs.length = 9 := by
    simp only [b, p, RuleBase.inputs]
    decide
  obtain ⟨hiff, -⟩ := runs_iff_inputs_fit hb (.made hmade) Verbosity.quiet
  refine ⟨hb, hmade, fun hruns => ?_⟩
  have hfit := hiff.1 hruns
  rw [hnine] at hfit
  exact absurd hfit (by decide)

end Inference

end FuzzyMotion
