import FuzzyMotion.Binary32
import FuzzyMotion.Fault

/-!
Membership functions: how true a predicate is of a number. Each function is linear between its
points and constant elsewhere. Points are checked once, so a degree can always be computed; two
points that coincide make a step.
-/
namespace FuzzyMotion

inductive Membership where
  /-- Zero up to `a`, rising to one at `b`. -/
  | rampUp (a b : Float32)
  /-- One up to `a`, falling to zero at `b`. -/
  | rampDown (a b : Float32)
  /-- Zero outside `a` and `c`, one at `b`. -/
  | triangle (a b c : Float32)
  /-- Zero outside `a` and `d`, one between `b` and `c`. -/
  | trapezoid (a b c d : Float32)
  deriving Repr

namespace Membership

def shape : Membership → Shape
  | rampUp .. => .rampUp
  | rampDown .. => .rampDown
  | triangle .. => .triangle
  | trapezoid .. => .trapezoid

def points : Membership → List Float32
  | rampUp a b => [a, b]
  | rampDown a b => [a, b]
  | triangle a b c => [a, b, c]
  | trapezoid a b c d => [a, b, c, d]

/-- All points are finite, and none is smaller than the one before it. -/
def ordered : List Float32 → Bool
  | [] => true
  | a :: rest => a.isFinite && rest.head?.all (fun b => decide (a ≤ b)) && ordered rest

@[simp] theorem ordered_singleton {a : Float32} : ordered [a] = true ↔ a.isFinite = true := by
  simp [ordered]

@[simp] theorem ordered_cons_cons {a b : Float32} {rest : List Float32} :
    ordered (a :: b :: rest) = true ↔ a.isFinite = true ∧ a ≤ b ∧ ordered (b :: rest) = true := by
  simp [ordered, and_assoc]

def checked (m : Membership) : Except Fault Membership :=
  if ordered m.points then .ok m else .error (.badMembership m.shape)

theorem checked_eq_ok {m n : Membership} : m.checked = .ok n ↔ ordered m.points = true ∧ m = n := by
  unfold checked
  split <;> simp_all

/-- The straight line through zero at `a` and one at `b`. -/
def rise (a b x : Float32) : Float32 :=
  (x - a) / (b - a)

/-- The straight line through one at `a` and zero at `b`. -/
def fall (a b x : Float32) : Float32 :=
  (b - x) / (b - a)

/-- The value before it is clamped. An edge is entered only where its two ends differ. -/
def height (m : Membership) (x : Float32) : Float32 :=
  match m with
  | rampUp a b => if x ≤ a then 0 else if b < x then 1 else rise a b x
  | rampDown a b => if x ≤ a then 1 else if b < x then 0 else fall a b x
  | triangle a b c =>
    if x ≤ a ∨ c < x then 0 else if x ≤ b then rise a b x else fall b c x
  | trapezoid a b c d =>
    if x ≤ a ∨ d < x then 0
    else if x ≤ b then rise a b x
    else if x ≤ c then 1
    else fall c d x

/-- What is not a number belongs to nothing. -/
def degree (m : Membership) (x : Float32) : Float32 :=
  if x.isNaN then 0 else Binary32.toDegree (m.height x)

end Membership

end FuzzyMotion
