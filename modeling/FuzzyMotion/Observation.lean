import FuzzyMotion.Plane
import FuzzyMotion.Table

/-!
What the robot is told in one control cycle: where it is, what its sonars measured, and which doors
are open.
-/
namespace FuzzyMotion

structure Sonar where
  /-- The pose of the sensor on the robot. -/
  mount : Pose
  /-- The measured distance; not positive where there is no echo. -/
  range : Float32
  deriving Repr

abbrev DoorId : Type := UInt8

structure Observation where
  pose : Pose
  sonars : List Sonar
  doors : Table DoorId .doors Bool
  deriving Repr

namespace Observation

def ofPose (pose : Pose) : Observation := ⟨pose, [], .empty⟩

def insertSonar (sonar : Sonar) : Operation Observation Unit :=
  Operation.update fun o =>
    if o.sonars.length < Capacity.sonars.limit then .ok { o with sonars := o.sonars ++ [sonar] }
    else .error (.tableFull .sonars)

/-- A report about a door replaces the one before it. -/
def insertDoor (door : DoorId) (isOpen : Bool) : Operation Observation Unit :=
  Operation.update fun o =>
    (o.doors.insert door isOpen).map fun doors => { o with doors := doors }

/-- Whether a door is open, where it is known. -/
def door? (o : Observation) (door : DoorId) : Option Bool :=
  o.doors.get? door

end Observation

end FuzzyMotion
