/-!
The sizes of the tables. Every table of a motion controller is bounded, and its bound is known by
the table's name, so an overflow can say which table was full.
-/
namespace FuzzyMotion

inductive Capacity where
  | predicates | actions | labels | rules | inputs | outputs | truths | sonars | doors
  deriving DecidableEq, Repr

namespace Capacity

def limit : Capacity → Nat
  | predicates => 16
  | actions => 4
  | labels => 8
  | rules => 24
  | inputs => 8
  | outputs => 4
  | truths => 16
  | sonars => 16
  | doors => 8

def text : Capacity → String
  | predicates => "predicates"
  | actions => "variables"
  | labels => "labels"
  | rules => "rules"
  | inputs => "inputs"
  | outputs => "outputs"
  | truths => "truth values"
  | sonars => "sonars"
  | doors => "doors"

/-- There is room for the truth of every predicate. -/
theorem limit_predicates_le_truths : limit predicates ≤ limit truths := Nat.le_refl _

/-- Every action drives an output of its own, and there is room for all of them. -/
theorem limit_actions_le_outputs : limit actions ≤ limit outputs := Nat.le_refl _

end Capacity

end FuzzyMotion
