import FuzzyMotion.Proofs.Angle.Wrapping
import FuzzyMotion.Proofs.Pilot.Envelope

/-!
A robot that follows its pilot. From one cycle to the next it drives at most five centimetres and turns by at
most seven hundredths of a radian, and its heading is a wrapped angle again. So its heading stays in the
interval of wrapped angles over any number of cycles, whatever is observed in them.
-/
namespace FuzzyMotion.Pilot

open Angle Binary32 Motion

theorem period_eq : period = 0.1 := by decide

theorem is_five_hundredths : Is 0.05 (13421773 / 2 ^ 28) :=
  is_of_unpack (s := .positive) (m := 13421773) (e := -28) (by decide) rfl (by norm_num [signFactor])

theorem is_seven_hundredths : Is 0.07 (9395241 / 2 ^ 27) :=
  is_of_unpack (s := .positive) (m := 9395241) (e := -27) (by decide) rfl (by norm_num [signFactor])

variable {p : Pilot}

theorem Safe.is_driven (h : Safe p) :
    ∃ q, Is (p.velocity.linear * period) q ∧ 0 ≤ q ∧ q ≤ 13421773 / 2 ^ 28 := by
  obtain ⟨q, hq, h0, hhalf⟩ := h.linear
  have hlow : 0 ≤ rounded (q * (13421773 / 2 ^ 27)) := rounded_nonneg (by positivity)
  have hhigh : rounded (q * (13421773 / 2 ^ 27)) ≤ 13421773 / 2 ^ 28 :=
    rounded_le is_five_hundredths.representable (by linarith)
  rw [h.velocity_eq, period_eq]
  refine ⟨_, hq.mul is_tenth ?_, hlow, hhigh⟩
  rw [abs_of_nonneg hlow]
  exact hhigh.trans_lt (by norm_num)

theorem Safe.is_turned (h : Safe p) :
    ∃ r, Is (p.velocity.angular * period) r ∧ |r| ≤ 9395241 / 2 ^ 27 := by
  obtain ⟨r, hr, hle⟩ := h.angular
  have hround : |rounded (r * (13421773 / 2 ^ 27))| ≤ 9395241 / 2 ^ 27 := by
    refine abs_rounded_le is_seven_hundredths.representable ?_
    rw [abs_mul]
    norm_num at hle ⊢
    linarith
  rw [h.velocity_eq, period_eq]
  exact ⟨_, hr.mul is_tenth (hround.trans_lt (by norm_num)), hround⟩

variable [Trig]

/-- From one cycle to the next a robot drives and turns by little, whatever its pilot has gone through. -/
theorem drives_and_turns_by_little (h : Reachable p) :
    (0 ≤ p.velocity.linear * period ∧ p.velocity.linear * period ≤ 0.05) ∧
      -0.07 ≤ p.velocity.angular * period ∧ p.velocity.angular * period ≤ 0.07 := by
  obtain ⟨q, hq, h0, hq'⟩ := (safe_of_reachable h).is_driven
  obtain ⟨r, hr, hr'⟩ := (safe_of_reachable h).is_turned
  obtain ⟨hlow, hhigh⟩ := abs_le.1 hr'
  exact ⟨⟨(is_zero.le_iff hq).2 h0, (hq.le_iff is_five_hundredths).2 hq'⟩,
    (is_seven_hundredths.neg.le_iff hr).2 hlow, (hr.le_iff is_seven_hundredths).2 hhigh⟩

/-- A wrapped heading is wrapped again after a period. -/
theorem heading_advance (h : Reachable p) {pose : Pose} (hlow : -pi < pose.angle) (hhigh : pose.angle ≤ pi) :
    -pi < (p.advance pose).angle ∧ (p.advance pose).angle ≤ pi := by
  obtain ⟨a, ha, ha1, ha2⟩ := is_of_lt_of_le is_pi.neg is_pi hlow hhigh
  obtain ⟨r, hr, hr'⟩ := (safe_of_reachable h).is_turned
  have hsum : |a + r| ≤ 4 := by
    obtain ⟨hr1, hr2⟩ := abs_le.1 hr'
    rw [halfTurn] at ha1 ha2
    rw [abs_le]
    constructor <;> linarith
  have hround : |rounded (a + r)| ≤ 4 := abs_rounded_le (representable_intCast (n := 4) (by norm_num)) hsum
  obtain ⟨b, hb, hrep⟩ := is_wrap (ha.add hr (hround.trans_lt (by norm_num)))
  exact ⟨(is_pi.neg.lt_iff hb).2 hrep.above, (hb.le_iff is_pi).2 hrep.le⟩

/-- Cycles of a pilot, and after each of them a period in which the robot follows the velocity. -/
def follow (p : Pilot) (pose : Pose) : List Observation → Pilot × Pose
  | [] => (p, pose)
  | o :: rest =>
    let next := (cycle o).after p
    next.follow (next.advance pose) rest

/-- Over any number of cycles, whether or not they succeed, the heading stays a wrapped angle. -/
theorem heading_follow (h : Reachable p) {pose : Pose} (hlow : -pi < pose.angle) (hhigh : pose.angle ≤ pi)
    (observations : List Observation) :
    let final := p.follow pose observations
    Reachable final.1 ∧ -pi < final.2.angle ∧ final.2.angle ≤ pi := by
  induction observations generalizing p pose with
  | nil => exact ⟨h, hlow, hhigh⟩
  | cons o rest ih =>
    have hnext : Reachable ((cycle o).after p) := .called (.cycle o) h
    obtain ⟨hlow', hhigh'⟩ := heading_advance hnext hlow hhigh
    exact ih hnext hlow' hhigh'

end FuzzyMotion.Pilot
