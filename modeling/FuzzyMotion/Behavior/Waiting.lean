import FuzzyMotion.Behavior.Basic

/-!
Standing still until a door is open, or until it is closed. The door itself is moved by others; the
only input, `door`, tells what is known about it.
-/
namespace FuzzyMotion.Waiting

open Motion

def openName : String := "Open"

def closedName : String := "Close"

/-- What the input says of a door about which nothing is known. -/
def unknownDoor : Float32 := 0.5

def predicates : List Predicate :=
  [⟨"DoorOpen", .rampUp 0 1, "door"⟩, ⟨"DoorClosed", .rampDown 0 1, "door"⟩]

/-- One of the two predicates always holds to at least a half, so both speeds are always set. -/
def rules : List Rule :=
  [⟨"Wait", "DoorOpen OR DoorClosed", move.name, "None"⟩,
    ⟨"Hold", "DoorOpen OR DoorClosed", turn.name, "None"⟩]

def tables (goal : String) : RuleBase :=
  ⟨predicates, Motion.actions, rules, some goal⟩

def doorValue : Option Bool → Float32
  | some true => 1
  | some false => 0
  | none => unknownDoor

def sense (door : DoorId) (o : Observation) : Operation Inputs Unit :=
  Table.put "door" (doorValue (o.door? door))

def untilOpen (door : DoorId) : Behavior :=
  ⟨openName, RuleBase.enter (tables "DoorOpen"), sense door⟩

def untilClosed (door : DoorId) : Behavior :=
  ⟨closedName, RuleBase.enter (tables "DoorClosed"), sense door⟩

end FuzzyMotion.Waiting
