import FuzzyMotion.Plane
import FuzzyMotion.Proofs.Binary32.Exact

/-!
Angles wrapped into one turn. A whole turn is twice a half-turn exactly, so what is taken from an angle is
a whole number of turns, and nothing is rounded on the way: neither where the remainder is taken nor where
it is brought into the interval.

The main statement is that a wrapped angle is the one representative of the angle in the half-open interval.
-/
namespace FuzzyMotion.Angle

open Binary32

variable {x : Float32} {p q r : ℚ}

/-- The half-turn that the format has; it is a little larger than the true one. -/
def halfTurn : ℚ := 13176795 / 2 ^ 22

theorem is_pi : Is pi halfTurn :=
  is_of_unpack (s := .positive) (m := 13176795) (e := -22) (by decide) rfl
    (by norm_num [signFactor, halfTurn])

theorem is_tau : Is tau (2 * halfTurn) :=
  is_of_unpack (s := .positive) (m := 13176795) (e := -21) (by decide) rfl
    (by norm_num [signFactor, halfTurn])

theorem halfTurn_pos : 0 < halfTurn := by norm_num [halfTurn]

theorem halfTurn_lt : halfTurn < 2 ^ (128 : ℤ) := by norm_num [halfTurn]

/-- The same direction as `p`, between minus a half-turn, excluded, and a half-turn, included. -/
structure Represents (p r : ℚ) : Prop where
  above : -halfTurn < r
  le : r ≤ halfTurn
  congruent : ∃ turns : ℤ, p - r = turns * (2 * halfTurn)

/-- The interval is one turn long and half-open, so a direction has no two representatives in it. -/
theorem Represents.unique (h : Represents p q) (h' : Represents p r) : q = r := by
  obtain ⟨j, hj⟩ := h.congruent
  obtain ⟨k, hk⟩ := h'.congruent
  have hdiff : q - r = ((k - j : ℤ) : ℚ) * (2 * halfTurn) := by
    push_cast
    linarith
  apply eq_of_sub_eq_mul hdiff
  have h1 := h.above
  have h2 := h.le
  have h3 := h'.above
  have h4 := h'.le
  rw [abs_of_pos (show 0 < 2 * halfTurn by linarith [halfTurn_pos]), abs_lt]
  constructor <;> linarith

/-- Between a half-turn and a whole one, the difference to the whole one is not rounded. -/
theorem representable_turn_sub (hr : Representable r) (hlow : halfTurn ≤ r) (hhigh : r ≤ 2 * halfTurn) :
    Representable (2 * halfTurn - r) :=
  hr.sub_of_le is_tau.representable (halfTurn_pos.trans_le hlow) hhigh (by linarith)

/-- A remainder beyond the interval is brought into it by one turn. -/
theorem is_wrap (hx : Is x p) : ∃ r, Is (wrap x) r ∧ Represents p r := by
  have hturn : 0 < 2 * halfTurn := by linarith [halfTurn_pos]
  obtain ⟨r, hr, ⟨k, hk⟩, hlt, -⟩ := hx.remainder is_tau hturn.ne'
  rw [abs_of_pos hturn, abs_lt] at hlt
  obtain ⟨hlow, hhigh⟩ := hlt
  have hsmall := halfTurn_lt
  have hpos := halfTurn_pos
  simp only [wrap]
  by_cases hover : pi < remainder x tau
  · rw [if_pos hover]
    have hge : halfTurn < r := (is_pi.lt_iff hr).1 hover
    have hexact : Representable (r - 2 * halfTurn) := by
      rw [← neg_sub]
      exact (representable_turn_sub hr.representable hge.le hhigh.le).neg
    refine ⟨r - 2 * halfTurn, hr.sub_exact is_tau hexact ?_, by linarith, by linarith, k + 1, ?_⟩
    · rw [abs_lt]
      constructor <;> linarith
    · push_cast
      linarith
  · rw [if_neg hover]
    have hle : r ≤ halfTurn := not_lt.1 fun h => hover ((is_pi.lt_iff hr).2 h)
    by_cases hunder : remainder x tau ≤ -pi
    · rw [if_pos hunder]
      have hge : r ≤ -halfTurn := (hr.le_iff is_pi.neg).1 hunder
      have hexact : Representable (r + 2 * halfTurn) := by
        rw [add_comm, ← sub_neg_eq_add]
        exact representable_turn_sub hr.representable.neg (by linarith) (by linarith)
      refine ⟨r + 2 * halfTurn, hr.add_exact is_tau hexact ?_, by linarith, by linarith, k - 1, ?_⟩
      · rw [abs_lt]
        constructor <;> linarith
      · push_cast
        linarith
    · rw [if_neg hunder]
      have hgt : -halfTurn < r := not_le.1 fun h => hunder ((hr.le_iff is_pi.neg).2 h)
      exact ⟨r, hr, hgt, hle, k, hk⟩

/-- An angle in the interval is wrapped already, also where it is the negative zero. -/
theorem wrap_eq_self (hlow : -pi < x) (hhigh : x ≤ pi) : wrap x = x := by
  obtain ⟨p, hx, hp1, hp2⟩ := is_of_lt_of_le is_pi.neg is_pi hlow hhigh
  have hrest : remainder x tau = x := by
    refine hx.remainder_eq_self is_tau ?_
    rw [abs_of_pos (show 0 < 2 * halfTurn by linarith [halfTurn_pos]), abs_lt]
    constructor <;> linarith
  simp only [wrap, hrest]
  rw [if_neg (not_lt_of_le_number hhigh), if_neg (not_le_of_lt_number hlow)]

/-- A finite angle, however large, is wrapped to its one representative in the interval: whole turns are
taken from it exactly, and to wrap it again changes nothing. -/
theorem wraps_to_unique_representative (angle : Float32) (h : angle.isFinite = true) :
    -pi < wrap angle ∧ wrap angle ≤ pi ∧
      (∃ turns : ℤ, value angle - value (wrap angle) = turns * value tau) ∧
      wrap (wrap angle) = wrap angle ∧
      ∀ q : ℚ, -value pi < q → q ≤ value pi →
        (∃ turns : ℤ, value angle - q = turns * value tau) → q = value (wrap angle) := by
  obtain ⟨r, hr, hrep⟩ := is_wrap (is_of_isFinite h)
  have hlow : -pi < wrap angle := (is_pi.neg.lt_iff hr).2 hrep.above
  have hhigh : wrap angle ≤ pi := (hr.le_iff is_pi).2 hrep.le
  rw [hr.value_eq, is_pi.value_eq, is_tau.value_eq]
  refine ⟨hlow, hhigh, hrep.congruent, wrap_eq_self hlow hhigh, ?_⟩
  intro q hq1 hq2 hq
  exact Represents.unique ⟨hq1, hq2, hq⟩ hrep

/-- The largest angle that the format has. -/
theorem wraps_largest_angle :
    let angle := Float32.ofBits 0x7F7FFFFF
    angle.isFinite = true ∧ -pi < wrap angle ∧ wrap angle ≤ pi ∧
      (∃ turns : ℤ, value angle - value (wrap angle) = turns * value tau) ∧
      wrap (wrap angle) = wrap angle ∧
      ∀ q : ℚ, -value pi < q → q ≤ value pi →
        (∃ turns : ℤ, value angle - q = turns * value tau) → q = value (wrap angle) := by
  intro angle
  have h : angle.isFinite = true := by decide
  exact ⟨h, wraps_to_unique_representative angle h⟩

end FuzzyMotion.Angle
