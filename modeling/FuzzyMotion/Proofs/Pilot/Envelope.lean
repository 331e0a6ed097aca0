import FuzzyMotion.Proofs.Behavior.Tables
import FuzzyMotion.Proofs.Pilot.Calls

/-!
The safety envelope of the pilot. Whatever is called on it, with whatever observations, what it keeps
is within the limits of the robot, so the velocity that it commands is what its behavior computed.
-/
namespace FuzzyMotion.Pilot

open Binary32 Motion Operation

/-- An angular speed in radians, within its limits. -/
def IsTurning (x : Float32) : Prop :=
  ∃ r, Is x r ∧ |r| ≤ 11744051 / 2 ^ 24

/-- What a pilot keeps is within the limits, and what it runs is an inference over cautious tables. -/
structure Safe (p : Pilot) : Prop where
  achieved : IsDegree p.achieved
  linear : IsLinear p.linear
  angular : IsTurning p.angular
  active : ∀ activity, p.active = some activity →
    ∃ b, Cautious b ∧ Inference.Reachable b activity.inference

theorem isLinear_zero : IsLinear 0 := ⟨0, is_zero, le_refl 0, by norm_num⟩

theorem safe_idle (v : Verbosity) : Safe (idle v) where
  achieved := isDegree_zero
  linear := isLinear_zero
  angular := ⟨0, is_zero, by norm_num⟩
  active := by
    intro activity h
    cases h

theorem achieved_cycle {b : RuleBase} (hb : Cautious b) {a : Activity}
    (h : Inference.Reachable b a.inference) {o : Observation} {v : Verbosity} {achieved : Float32}
    (ha : (Activity.cycle o v).outcome a = .ok achieved) : IsDegree achieved := by
  rw [← run_fst, Activity.run_cycle] at ha
  rcases hs : (a.behavior.sense o).run .empty with ⟨r, inputs⟩
  rw [hs] at ha
  cases r with
  | error f => cases ha
  | ok u =>
    have hfed : Inference.Reachable b { a.inference with inputs := inputs } :=
      .called (.feed inputs) h
    exact (steady_of_reachable hb hfed).achieved hb ha

/-- The speeds of an activity over cautious tables. -/
theorem speeds_of_reachable {b : RuleBase} (hb : Cautious b) {a : Activity}
    (h : Inference.Reachable b a.inference) : IsLinear a.linear ∧ IsTurning a.angular := by
  have hsteady := steady_of_reachable hb h
  constructor
  · change IsLinear ((a.inference.outputs.get? linearOutput).getD 0)
    cases hx : a.inference.outputs.get? linearOutput with
    | none => exact isLinear_zero
    | some x => exact hsteady.linear x hx
  · change IsTurning (Angle.toRadians ((a.inference.outputs.get? angularOutput).getD 0))
    cases hx : a.inference.outputs.get? angularOutput with
    | none => exact toRadians_bound is_zero (by norm_num)
    | some x =>
      obtain ⟨q, hq, hle⟩ := hsteady.angular x hx
      exact toRadians_bound hq hle

section Command

variable {x low high : Float32}

/-- Between its bounds a number is left as it is. -/
theorem clamp_eq_self (hlow : low ≤ x) (hhigh : x ≤ high) : clamp low high x = x := by
  obtain ⟨-, -, hl⟩ := le_iff_value.1 hlow
  obtain ⟨-, -, hh⟩ := le_iff_value.1 hhigh
  rw [clamp]
  rw [if_neg, if_neg]
  · exact fun h => absurd (lt_iff_value.1 h).2.2 (not_lt.2 hh)
  · exact fun h => absurd (lt_iff_value.1 h).2.2 (not_lt.2 hl)

theorem IsLinear.bounds (h : IsLinear x) : 0 ≤ x ∧ x ≤ 0.5 := by
  obtain ⟨q, hq, h0, hhalf⟩ := h
  exact ⟨(is_zero.le_iff hq).2 h0, (hq.le_iff is_half).2 hhalf⟩

theorem IsTurning.bounds (h : IsTurning x) : -0.7 ≤ x ∧ x ≤ 0.7 := by
  obtain ⟨q, hq, hle⟩ := h
  obtain ⟨hlow, hhigh⟩ := abs_le.1 hle
  exact ⟨(is_seven_tenths.neg.le_iff hq).2 hlow, (hq.le_iff is_seven_tenths).2 hhigh⟩

theorem Safe.velocity_eq {p : Pilot} (h : Safe p) : p.velocity = ⟨p.linear, p.angular⟩ := by
  obtain ⟨q, hq, h0, hhalf⟩ := h.linear
  obtain ⟨r, hr, hle⟩ := h.angular
  obtain ⟨hlow, hhigh⟩ := abs_le.1 hle
  have hlinear : clamp (-maxLinearSpeed) maxLinearSpeed p.linear = p.linear := by
    refine clamp_eq_self ((is_half.neg.le_iff hq).2 ?_) ((hq.le_iff is_half).2 hhalf)
    linarith
  have hangular : clamp (-maxAngularSpeed) maxAngularSpeed p.angular = p.angular := by
    refine clamp_eq_self ((is_one.neg.le_iff hr).2 ?_) ((hr.le_iff is_one).2 ?_)
    · linarith
    · linarith
  rw [velocity, hlinear, hangular]

end Command

/-- A cycle keeps a pilot within the limits, whether or not it succeeds. -/
theorem Safe.cycle {p : Pilot} (h : Safe p) (o : Observation) : Safe ((Pilot.cycle o).after p) := by
  rw [← run_snd]
  cases ha : p.active with
  | none =>
    rw [run_cycle_of_idle ha]
    exact h
  | some activity =>
    obtain ⟨b, hb, hr⟩ := h.active activity ha
    have hnext := Activity.reachable_cycle hr o p.verbosity
    have hdegree : ∀ achieved, (Activity.cycle o p.verbosity).outcome activity = .ok achieved →
        IsDegree achieved := fun _ => achieved_cycle hb hr
    rw [← run_snd] at hnext
    rw [← run_fst] at hdegree
    cases hc : (Activity.cycle o p.verbosity).run activity with
    | mk r next =>
      rw [hc] at hnext hdegree
      have hkept : ∀ other, some next = some other →
          ∃ b, Cautious b ∧ Inference.Reachable b other.inference := by
        intro other ho
        cases ho
        exact ⟨b, hb, hnext⟩
      cases r with
      | error f =>
        rw [run_cycle_of_error ha hc]
        exact { h with active := hkept }
      | ok achieved =>
        rw [run_cycle_of_ok ha hc]
        obtain ⟨hlinear, hangular⟩ := speeds_of_reachable hb hnext
        exact ⟨hdegree achieved rfl, hlinear, hangular, hkept⟩

variable [Trig]

/-- The tables that a behavior declares are cautious. -/
theorem cautious_of_declare {skill : Skill} {target : Target} {behavior : Behavior} {b : RuleBase}
    (hs : skill.behavior target = .ok behavior)
    (hd : behavior.declare.run RuleBase.empty = (.ok (), b)) : Cautious b := by
  cases target with
  | location l =>
    cases skill with
    | approach =>
      cases hs
      rw [(RuleBase.run_enter_eq_ok hd).1]
      exact Approach.cautious
    | cross =>
      cases hs
      obtain ⟨rfl, ho⟩ := RuleBase.run_enter_eq_ok hd
      exact Crossing.cautious ho
    | waitOpen => cases hs
    | waitClosed => cases hs
  | door d =>
    cases skill with
    | approach => cases hs
    | cross => cases hs
    | waitOpen =>
      cases hs
      rw [(RuleBase.run_enter_eq_ok hd).1]
      exact Waiting.cautious "DoorOpen"
    | waitClosed =>
      cases hs
      rw [(RuleBase.run_enter_eq_ok hd).1]
      exact Waiting.cautious "DoorClosed"

theorem Safe.engage {p : Pilot} (name : String) (target : Target) :
    Safe ((Pilot.engage name target).after p) := by
  rw [← run_snd, run_engage]
  refine { safe_idle p.verbosity with active := ?_ }
  intro activity ha
  cases hp : prepared name target with
  | error f => simp [hp, Except.toOption] at ha
  | ok other =>
    simp only [hp, Except.toOption, Option.some.injEq] at ha
    subst ha
    obtain ⟨skill, behavior, -, hs, hprepare⟩ := prepared_eq_ok_iff.1 hp
    obtain ⟨b, hd, hi, -⟩ := Behavior.prepare_eq_ok hprepare
    exact ⟨b, cautious_of_declare hs hd, .made hi⟩

/-- Every call keeps a pilot within the limits. -/
theorem safe_of_reachable {p : Pilot} (h : Reachable p) : Safe p := by
  induction h with
  | initial => exact safe_idle Verbosity.quiet
  | called c _ ih =>
    cases c with
    | setVerbosity v => exact { ih with }
    | engage name target => exact Safe.engage name target
    | cycle o => exact ih.cycle o

/-- In every state of a pilot the goal is achieved to a degree, and both speeds are numbers within the
limits, which are commanded as they are. -/
theorem within_envelope {p : Pilot} (h : Reachable p) :
    (p.achieved.isNaN = false ∧ 0 ≤ p.achieved ∧ p.achieved ≤ 1) ∧
      (p.linear.isNaN = false ∧ 0 ≤ p.linear ∧ p.linear ≤ 0.5) ∧
      (p.angular.isNaN = false ∧ -0.7 ≤ p.angular ∧ p.angular ≤ 0.7) ∧
      p.velocity = ⟨p.linear, p.angular⟩ := by
  have hs := safe_of_reachable h
  obtain ⟨a, ha, h0, h1⟩ := hs.achieved
  obtain ⟨l, hl, -, -⟩ := hs.linear
  obtain ⟨r, hr, -⟩ := hs.angular
  exact ⟨⟨ha.isNaN, (is_zero.le_iff ha).2 h0, (ha.le_iff is_one).2 h1⟩,
    ⟨hl.isNaN, IsLinear.bounds hs.linear⟩, ⟨hr.isNaN, IsTurning.bounds hs.angular⟩, hs.velocity_eq⟩

omit [Trig] in
/-- A pilot that has lost its position on the way to an object, with the functions of the platform. -/
theorem within_envelope_without_position :
    let nan : Float32 := Float32.ofBits 0x7FC00000
    let engaged := @Call.after platformTrig (.engage "GoTo" (.location ⟨3, 0, 0, 0.5⟩)) initial
    let p := @Call.after platformTrig (.cycle (.ofPose ⟨nan, nan, nan⟩)) engaged
    @Reachable platformTrig p ∧
      (p.achieved.isNaN = false ∧ 0 ≤ p.achieved ∧ p.achieved ≤ 1) ∧
      (p.linear.isNaN = false ∧ 0 ≤ p.linear ∧ p.linear ≤ 0.5) ∧
      (p.angular.isNaN = false ∧ -0.7 ≤ p.angular ∧ p.angular ≤ 0.7) ∧
      p.velocity = ⟨p.linear, p.angular⟩ := by
  intro nan engaged p
  have hp : @Reachable platformTrig p :=
    @Reachable.called platformTrig _ _
      (@Reachable.called platformTrig _ _ (@Reachable.initial platformTrig))
  exact ⟨hp, @within_envelope platformTrig p hp⟩

end FuzzyMotion.Pilot
