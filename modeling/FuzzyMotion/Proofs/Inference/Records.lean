import FuzzyMotion.Proofs.Inference.Steps

/-!
The records of a cycle at two levels of verbosity. The steps of a cycle run the same at both, so that each
record finds the same state at both, and the lower level leaves out whole records. At the lowest level there
is none.
-/
namespace FuzzyMotion.Inference

open Operation

variable {v w : Verbosity}

/-- What is written from one level on is written at all levels above. -/
theorem level_mono (h : v ≤ w) (level : Verbosity) :
    decide (level ≤ v) = true → decide (level ≤ w) = true :=
  fun hv => decide_eq_true (Nat.le_trans (of_decide_eq_true hv) h)

theorem applyRule_abridges (h : v ≤ w) (rule : Rule) (c : Consequent) :
    (applyRule v rule c).Abridges (applyRule w rule c) := by
  refine Abridges.bind_right fun _ e _ => ?_
  refine Abridges.bind_right fun _ degree hdegree => ?_
  refine Abridges.bind_right fun _ _ _ => ?_
  refine ((silent_note _ _).abridges (level_mono h _)).bind fun _ _ _ => ?_
  exact (silent_of_evaluate hdegree _ fun _ => silent_note _ _).abridges (level_mono h _)

theorem applyRules_abridges (h : v ≤ w) : (applyRules v).Abridges (applyRules w) := by
  unfold applyRules
  refine Abridges.bind_right fun _ _ _ => ?_
  refine Abridges.bind_right fun _ e _ => ?_
  refine Abridges.each (fun pair => ?_) _
  exact applyRule_abridges h pair.1 pair.2

theorem defuzzifyOne_abridges (h : v ≤ w) (action : Action) (set : FuzzySet) :
    (defuzzifyOne v action set).Abridges (defuzzifyOne w action set) := by
  unfold defuzzifyOne
  refine ((Silent.each (fun _ => silent_note _ _) _).abridges (level_mono h _)).bind fun _ _ _ => ?_
  cases set.crisp? (action.labels.map Prod.snd) with
  | none => exact (silent_note _ _).abridges (level_mono h _)
  | some value => exact .refl _

theorem defuzzify_abridges (h : v ≤ w) : (defuzzify v).Abridges (defuzzify w) := by
  unfold defuzzify
  refine Abridges.bind_right fun _ e _ => ?_
  refine Abridges.each (fun pair => ?_) _
  exact defuzzifyOne_abridges h pair.1 pair.2

theorem achievement_abridges (h : v ≤ w) : (achievement v).Abridges (achievement w) := by
  refine Abridges.bind_right fun _ e _ => ?_
  cases e.base.goal with
  | none => exact .refl _
  | some goal =>
    refine Abridges.bind_right fun _ achieved hachieved => ?_
    refine Abridges.bind ?_ fun _ _ _ => .refl _
    exact (silent_of_evaluate hachieved _ fun _ => silent_note _ _).abridges (level_mono h _)

theorem cycle_abridges (h : v ≤ w) : (cycle v).Abridges (cycle w) := by
  refine Abridges.bind_right fun _ e _ => ?_
  refine ((silent_noteTable _ _).abridges (level_mono h _)).bind fun _ _ _ => ?_
  refine Abridges.bind_right fun _ _ _ => ?_
  refine Abridges.bind_right fun _ e _ => ?_
  refine ((silent_noteTable _ _).abridges (level_mono h _)).bind fun _ _ _ => ?_
  refine (applyRules_abridges h).bind fun _ _ _ => ?_
  refine (defuzzify_abridges h).bind fun _ _ _ => ?_
  refine (achievement_abridges h).bind fun _ achieved _ => ?_
  refine Abridges.bind_right fun _ e _ => ?_
  have hgoal := silent_note (σ := Inference) .debug ("Достижение цели: " ++ Decimal.shortest achieved)
  refine ((hgoal.bind (silent_noteTable _ _)).abridges (level_mono h _)).bind fun _ _ _ => ?_
  exact .refl _

section Quiet

theorem mute_fuzzify : fuzzify.Mute := by
  refine Mute.bind (fun _ => rfl) fun _ => Mute.bind (fun _ => rfl) fun _ => mute_each (fun p => ?_) _
  refine Mute.bind (fun _ => rfl) fun e => ?_
  cases e.inputs.get? p.input with
  | none => exact fun _ => rfl
  | some x => exact (mute_update _).on

theorem mute_applyRules : (applyRules Verbosity.quiet).Mute := by
  refine Mute.bind (fun _ => rfl) fun _ => Mute.bind (fun _ => rfl) fun _ => mute_each (fun pair => ?_) _
  exact Mute.bind (fun _ => rfl) fun _ => Mute.bind (fun _ => rfl) fun _ => fun _ => rfl

theorem mute_defuzzify : (defuzzify Verbosity.quiet).Mute := by
  refine Mute.bind (fun _ => rfl) fun _ => mute_each (fun pair => ?_) _
  refine Mute.bind (fun _ => rfl) fun _ => ?_
  cases pair.2.crisp? (pair.1.labels.map Prod.snd) with
  | none => exact fun _ => rfl
  | some value => exact fun _ => rfl

theorem mute_achievement : (achievement Verbosity.quiet).Mute := by
  refine Mute.bind (fun _ => rfl) fun e => ?_
  cases e.base.goal with
  | none => exact fun _ => rfl
  | some goal => exact Mute.bind (fun _ => rfl) fun _ => fun _ => rfl

theorem mute_cycle : (cycle Verbosity.quiet).Mute := by
  refine Mute.bind (fun _ => rfl) fun _ => Mute.bind (fun _ => rfl) fun _ => mute_fuzzify.bind fun _ => ?_
  refine Mute.bind (fun _ => rfl) fun _ => Mute.bind (fun _ => rfl) fun _ => mute_applyRules.bind fun _ => ?_
  refine mute_defuzzify.bind fun _ => mute_achievement.bind fun _ => ?_
  exact fun _ => rfl

end Quiet

/-- A higher verbosity only adds records, whether or not an operation succeeds, and the lowest one writes
none. -/
theorem verbosity_only_adds_records (e : Inference) (h : v ≤ w) :
    (((cycle v).log e).Sublist ((cycle w).log e) ∧
      ((applyRules v).log e).Sublist ((applyRules w).log e) ∧
      ((defuzzify v).log e).Sublist ((defuzzify w).log e) ∧
      ((achievement v).log e).Sublist ((achievement w).log e)) ∧
    (cycle Verbosity.quiet).log e = [] ∧ (applyRules Verbosity.quiet).log e = [] ∧
      (defuzzify Verbosity.quiet).log e = [] ∧ (achievement Verbosity.quiet).log e = [] :=
  ⟨⟨(cycle_abridges h).sublist e, (applyRules_abridges h).sublist e, (defuzzify_abridges h).sublist e,
    (achievement_abridges h).sublist e⟩,
    mute_cycle e, mute_applyRules e, mute_defuzzify e, mute_achievement e⟩

/-- One rule and a goal, with the firing levels and then with their traces as well. -/
theorem verbosity_only_adds_traces :
    let near : Predicate := ⟨"Near", .rampDown 0 1, "rho"⟩
    let move : Action := ⟨"Move", [("Slow", 0.1)], "Vlin"⟩
    let creep : Rule := ⟨"Creep", "NOT(Near)", "Move", "Slow"⟩
    let b : RuleBase := ⟨[near], [move], [creep], some "Near"⟩
    let e : Inference := ⟨b, [⟨0, 0⟩], ⟨[("rho", 0.5)]⟩, .empty, [[0]], ⟨[("Vlin", 0)]⟩⟩
    let fewer := Verbosity.rules
    let more := Verbosity.statements
    fewer ≤ more ∧
      (((cycle fewer).log e).Sublist ((cycle more).log e) ∧
        ((applyRules fewer).log e).Sublist ((applyRules more).log e) ∧
        ((defuzzify fewer).log e).Sublist ((defuzzify more).log e) ∧
        ((achievement fewer).log e).Sublist ((achievement more).log e)) ∧
      (cycle Verbosity.quiet).log e = [] ∧ (applyRules Verbosity.quiet).log e = [] ∧
        (defuzzify Verbosity.quiet).log e = [] ∧ (achievement Verbosity.quiet).log e = [] := by
  intro near move creep b e fewer more
  have h : fewer ≤ more := by decide
  exact ⟨h, verbosity_only_adds_records e h⟩

end FuzzyMotion.Inference
