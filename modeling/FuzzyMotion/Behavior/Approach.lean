import FuzzyMotion.Behavior.Basic
import FuzzyMotion.Clearance

/-!
Going to an object on the map. The inputs are the bearing `phi` of its center in degrees, the
distance `rho` to its edge, and the clearance `front`, `left` and `right` in metres.
-/
namespace FuzzyMotion.Approach

open Motion

def name : String := "GoTo"

def predicates : List Predicate :=
  headings ++
    [⟨"TargetHere", .rampDown 0.1 2, "rho"⟩,
      ⟨"ObstacleFront", .rampDown 0.4 1, "front"⟩,
      ⟨"ObstacleLeft", .rampDown 0.3 0.8, "left"⟩,
      ⟨"ObstacleRight", .rampDown 0.3 0.8, "right"⟩]

def rules : List Rule :=
  [⟨"ToLeft", "TargetLeft AND NOT(TargetHere)", turn.name, "Left"⟩,
    ⟨"ToRight", "TargetRight AND NOT(TargetHere)", turn.name, "Right"⟩,
    ⟨"Straight", "TargetAhead AND NOT(TargetHere)", turn.name, "None"⟩,
    ⟨"Far", "(TargetAhead AND NOT(TargetHere)) AND NOT(ObstacleFront)", move.name, "Fast"⟩,
    ⟨"Careful", "ObstacleFront AND NOT(TargetHere)", move.name, "Slow"⟩,
    ⟨"AvoidLeft", "ObstacleLeft", turn.name, "MRight"⟩,
    ⟨"AvoidRight", "ObstacleRight", turn.name, "MLeft"⟩,
    ⟨"Stop", "TargetHere", move.name, "None"⟩,
    ⟨"Settle", "TargetHere", turn.name, "None"⟩]

def tables : RuleBase :=
  ⟨predicates, Motion.actions, rules, some "TargetHere"⟩

/-- The distance to the edge of the target; zero inside it. -/
def gapTo [Trig] (target : Location) (pose : Pose) : Float32 :=
  Binary32.max ((pose.polar target.center).2 - target.radius) 0

def sense [Trig] (target : Location) (o : Observation) : Operation Inputs Unit := do
  let clearance := Clearance.ofSonars o.sonars
  Table.put "phi" (o.pose.polar target.center).1
  Table.put "rho" (gapTo target o.pose)
  Table.put "front" clearance.front
  Table.put "left" clearance.left
  Table.put "right" clearance.right

def behavior [Trig] (target : Location) : Behavior :=
  ⟨name, RuleBase.enter tables, sense target⟩

end FuzzyMotion.Approach
