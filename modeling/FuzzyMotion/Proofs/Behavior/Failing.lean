import FuzzyMotion.Proofs.Behavior.Reliable

/-!
Cycles that fail. A cycle fails where the inputs cannot be sensed, or where an input is missing that a
predicate needs: once all predicates have their degrees, no rule and no goal of checked tables can fail.
So every failure comes before the sets and the outputs are touched, and no failing cycle gives a new
command.
-/
namespace FuzzyMotion

open Operation

namespace RuleBase

variable {b : RuleBase} {inputs : Inputs} {p : Predicate} {before rest : List Predicate}

theorem missing?_eq_some_iff : b.missing? inputs = some p ↔
    ∃ before rest, b.predicates = before ++ p :: rest ∧ p.supplied inputs = false ∧
      ∀ q ∈ before, q.supplied inputs = true := by
  rw [missing?, List.find?_eq_some_iff_append]
  constructor
  · rintro ⟨hp, before, rest, hsplit, hbefore⟩
    exact ⟨before, rest, hsplit, by simpa using hp, by simpa using hbefore⟩
  · rintro ⟨before, rest, hsplit, hp, hbefore⟩
    exact ⟨by simpa using hp, before, rest, hsplit, by simpa using hbefore⟩

/-- The truths are those of the predicates before the first one that lacks its input. -/
theorem truths_of_split (hsplit : b.predicates = before ++ p :: rest)
    (hp : p.supplied inputs = false) (hbefore : ∀ q ∈ before, q.supplied inputs = true) :
    b.truths inputs = ⟨before.map fun q => (q.name, q.truth inputs)⟩ := by
  have htake : (before ++ p :: rest).takeWhile (·.supplied inputs) = before := by
    rw [List.takeWhile_append_of_pos hbefore, List.takeWhile_cons_of_neg (by simp [hp]),
      List.append_nil]
  rw [truths, hsplit, htake]

end RuleBase

/-- A cycle over a built rule base fails only where an input is missing, and the truths are all that it
changes then. -/
theorem Inference.Reachable.cycle_eq_error {b : RuleBase} {e : Inference} {v : Verbosity} {f : Fault}
    (hb : b.Built) (h : Inference.Reachable b e) (hf : (Inference.cycle v).outcome e = .error f) :
    ∃ p before rest, b.predicates = before ++ p :: rest ∧ p.supplied e.inputs = false ∧
      (∀ q ∈ before, q.supplied e.inputs = true) ∧ f = .unknownInput p.input ∧
      (Inference.cycle v).after e = e.withTruths ⟨before.map fun q => (q.name, q.truth e.inputs)⟩ := by
  have hbase : e.base = b := h.base_eq
  have hw : e.base.WellFormed := hbase ▸ hb.wellFormed
  cases hm : e.base.missing? e.inputs with
  | none =>
    -- All predicates have degrees, so the rules and the goal have them too.
    have hc : e.base.check = .ok () := hbase ▸ h.check_eq_ok
    obtain ⟨_, achieved, -, -, hok⟩ := cycle_outcome_of_supplied hw hc hm v
    rw [hok] at hf
    cases hf
  | some p =>
    have hrun := run_cycle_of_missing hw hm v
    obtain ⟨before, rest, hsplit, hp, hbefore⟩ := RuleBase.missing?_eq_some_iff.1 hm
    refine ⟨p, before, rest, hbase ▸ hsplit, hp, hbefore, ?_, ?_⟩
    · rw [← run_fst, hrun] at hf
      exact (Except.error.inj hf).symm
    · rw [← run_snd, hrun, RuleBase.truths_of_split hsplit hp hbefore]

namespace Activity

/-- How a cycle fails on an observation, and what it leaves. -/
inductive Failure (a : Activity) (o : Observation) : Fault → Activity → Prop where
  /-- The inputs cannot be sensed: nothing is changed. -/
  | unsensed {f : Fault} (h : (a.behavior.sense o).outcome .empty = .error f) : Failure a o f a
  /-- An input is missing: the inputs are new, and the truths are those of the predicates before the
  first one that lacks its input. -/
  | unsupplied {inputs : Inputs} {p : Predicate} {before rest : List Predicate}
    (hsense : (a.behavior.sense o).run .empty = (.ok (), inputs))
    (hsplit : a.inference.base.predicates = before ++ p :: rest)
    (hp : p.supplied inputs = false) (hbefore : ∀ q ∈ before, q.supplied inputs = true) :
    Failure a o (.unknownInput p.input) { a with
      inference := { a.inference with
        inputs := inputs
        truths := ⟨before.map fun q => (q.name, q.truth inputs)⟩ } }

variable {behavior : Behavior} {a next : Activity} {o : Observation} {f : Fault}

/-- No failure gives a new command. -/
theorem Failure.outputs_eq (h : a.Failure o f next) :
    next.inference.outputs = a.inference.outputs := by
  cases h with
  | unsensed _ => rfl
  | unsupplied _ _ _ _ => rfl

theorem Failure.sets_eq (h : a.Failure o f next) : next.inference.sets = a.inference.sets := by
  cases h with
  | unsensed _ => rfl
  | unsupplied _ _ _ _ => rfl

/-- Whatever fails in a cycle fails in one of the two ways. -/
theorem failure_of_run_cycle (hb : behavior.BuildsBase) (ha : a.Reachable behavior) {v : Verbosity}
    (h : (Activity.cycle o v).run a = (.error f, next)) : a.Failure o f next := by
  rw [Activity.run_cycle] at h
  rcases hs : (a.behavior.sense o).run .empty with ⟨r, inputs⟩
  rw [hs] at h
  cases r with
  | error g =>
    cases h
    exact .unsensed (congrArg Prod.fst hs)
  | ok _ =>
    obtain ⟨b, hdeclare, hreachable⟩ := ha.inference
    have hbuilt : b.Built := hb.built hdeclare
    have hfed : Inference.Reachable b { a.inference with inputs := inputs } :=
      .called (.feed inputs) hreachable
    obtain ⟨hout, rfl⟩ := Prod.mk.inj h
    obtain ⟨p, before, rest, hsplit, hp, hbefore, rfl, hafter⟩ := hfed.cycle_eq_error hbuilt hout
    have hfailure := Failure.unsupplied hs (hreachable.base_eq.symm ▸ hsplit) hp hbefore
    exact (congrArg (fun e => a.Failure o (.unknownInput p.input) { a with inference := e })
      hafter).mpr hfailure

/-- In every state of a behavior, a cycle that fails leaves the sets and the outputs as they were, and so
both velocities. It changes nothing where the inputs could not be sensed; where one is missing, the
truths are those of the predicates that are declared before. -/
theorem failing_cycle_keeps_command (hb : behavior.BuildsBase) (ha : a.Reachable behavior)
    (v : Verbosity) (h : (Activity.cycle o v).outcome a = .error f) :
    let next := (Activity.cycle o v).after a
    a.Failure o f next ∧ next.inference.outputs = a.inference.outputs ∧
      next.inference.sets = a.inference.sets ∧ (∀ name, next.output? name = a.output? name) ∧
      next.linear = a.linear ∧ next.angular = a.angular := by
  intro next
  have hfailure : a.Failure o f next := failure_of_run_cycle hb ha (Prod.ext h rfl)
  have houtput : ∀ name, next.output? name = a.output? name := fun name =>
    congrArg (Table.get? · name) hfailure.outputs_eq
  refine ⟨hfailure, hfailure.outputs_eq, hfailure.sets_eq, houtput, ?_, ?_⟩
  · rw [linear, linear, houtput]
  · rw [angular, angular, houtput]

/-- Going to an object by its bearing alone: the distance is missing after the three headings. -/
theorem failing_cycle_keeps_command_without_distance :
    let behavior : Behavior :=
      ⟨Approach.name, RuleBase.enter Approach.tables, fun o => Table.put "phi" o.pose.angle⟩
    let o := Observation.ofPose ⟨0, 0, 0⟩
    behavior.BuildsBase ∧ ∃ a : Activity, a.Reachable behavior ∧
      (Activity.cycle o Verbosity.quiet).outcome a = .error (.unknownInput "rho") ∧
        let next := (Activity.cycle o Verbosity.quiet).after a
        a.Failure o (.unknownInput "rho") next ∧ next.inference.outputs = a.inference.outputs ∧
          next.inference.sets = a.inference.sets ∧ (∀ name, next.output? name = a.output? name) ∧
          next.linear = a.linear ∧ next.angular = a.angular := by
  intro behavior o
  have hw := Approach.wellFormed_tables
  have hdeclare : behavior.declare.run RuleBase.empty = (.ok (), Approach.tables) :=
    RuleBase.run_enter hw (by decide +kernel)
  have hbuilds : behavior.BuildsBase := by
    rw [Behavior.BuildsBase, ← run_snd, hdeclare]
    exact RuleBase.built_iff_wellFormed.2 hw
  obtain ⟨e, he⟩ := Inference.ofRuleBase_of_check hw Approach.check_tables
  have hprepare : behavior.prepare = .ok ⟨behavior, e⟩ := by
    simp only [Behavior.prepare, hdeclare, he]
    rfl
  have ha : Reachable behavior ⟨behavior, e⟩ := Behavior.reachable_of_prepare hprepare
  have hfails : (Activity.cycle o Verbosity.quiet).outcome ⟨behavior, e⟩ =
      .error (.unknownInput "rho") := by
    have hsense : (behavior.sense o).run .empty = (.ok (), ⟨[("phi", 0)]⟩) :=
      Table.run_put_of_fresh _ (by simp) (by decide)
    have hbase : e.base = Approach.tables := (Inference.Reachable.made he).base_eq
    have hmissing : e.base.missing? ⟨[("phi", 0)]⟩ =
        some ⟨"TargetHere", .rampDown 0.1 2, "rho"⟩ := hbase ▸ rfl
    rw [← run_fst, Activity.run_cycle, hsense]
    exact Inference.cycle_outcome_of_missing (e := { e with inputs := ⟨[("phi", 0)]⟩ })
      (by rw [hbase]; exact hw) hmissing Verbosity.quiet
  exact ⟨hbuilds, _, ha, hfails, failing_cycle_keeps_command hbuilds ha Verbosity.quiet hfails⟩

end Activity

end FuzzyMotion
