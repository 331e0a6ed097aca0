import FuzzyMotion.Behavior.Basic

/-!
Going through a door in its direction. The robot heads for a point behind the door, slows down near
the opening, and stops behind it. The inputs are the bearing `phi` of that point in degrees, the
distance `xd` that the robot has gone through the door, and its distance `gap` to the center of the
door in metres.
-/
namespace FuzzyMotion.Crossing

open Motion

def name : String := "Cross"

/-- How far behind the door the point lies for which the robot heads. -/
def exitDistance : Float32 := 1

def predicates (door : Location) : List Predicate :=
  headings ++
    [⟨"Crossed", .rampUp 0 0.5, "xd"⟩,
      ⟨"NearDoor", .rampDown door.radius (door.radius + 1), "gap"⟩]

def rules : List Rule :=
  [⟨"ToLeft", "TargetLeft AND NOT(Crossed)", turn.name, "Left"⟩,
    ⟨"ToRight", "TargetRight AND NOT(Crossed)", turn.name, "Right"⟩,
    ⟨"Straight", "TargetAhead AND NOT(Crossed)", turn.name, "None"⟩,
    ⟨"Far", "(TargetAhead AND NOT(NearDoor)) AND NOT(Crossed)", move.name, "Fast"⟩,
    ⟨"Pass", "NearDoor AND NOT(Crossed)", move.name, "Slow"⟩,
    ⟨"Stop", "Crossed", move.name, "None"⟩,
    ⟨"Settle", "Crossed", turn.name, "None"⟩]

def tables (door : Location) : RuleBase :=
  ⟨predicates door, Motion.actions, rules, some "Crossed"⟩

def exit [Trig] (door : Location) : Point :=
  door.pose.outward ⟨exitDistance, 0⟩

/-- How far through the door a pose lies; negative before the door. -/
def progress [Trig] (door : Location) (pose : Pose) : Float32 :=
  (door.pose.inward pose.position).x

def sense [Trig] (door : Location) (o : Observation) : Operation Inputs Unit := do
  Table.put "phi" (o.pose.polar (exit door)).1
  Table.put "xd" (progress door o.pose)
  Table.put "gap" (o.pose.polar door.center).2

def behavior [Trig] (door : Location) : Behavior :=
  ⟨name, RuleBase.enter (tables door), sense door⟩

end FuzzyMotion.Crossing
