import FuzzyMotion.Observation

/-!
The free distance ahead and to both sides of the robot, from its sonar readings.
-/
namespace FuzzyMotion

inductive Side where
  | front | left | right
  deriving DecidableEq, Repr

/-- The distance in metres to the nearest obstacle on each side. -/
structure Clearance where
  front : Float32
  left : Float32
  right : Float32
  deriving Repr

/-- Farther echoes count as none. -/
def sonarReach : Float32 := 5

/-- Half the width of what lies ahead, in degrees. -/
def frontHalfWidth : Float32 := 30

/-- How far back the sides extend, in degrees. -/
def sideLimit : Float32 := 110

def Sonar.hasEcho (sonar : Sonar) : Bool :=
  0 < sonar.range && sonar.range ≤ sonarReach

/-- The point that reflected the sound, in the frame of the robot. -/
def Sonar.echo [Trig] (sonar : Sonar) : Point :=
  sonar.mount.outward ⟨sonar.range, 0⟩

/-- The side on which a bearing lies; a bearing behind the robot has none. -/
def Side.ofBearing (bearing : Float32) : Option Side :=
  if bearing.abs ≤ frontHalfWidth then some .front
  else if 0 < bearing ∧ bearing ≤ sideLimit then some .left
  else if bearing < 0 ∧ -sideLimit ≤ bearing then some .right
  else none

namespace Clearance

/-- Nothing within reach of the sonars. -/
def clear : Clearance := ⟨sonarReach, sonarReach, sonarReach⟩

def get (c : Clearance) : Side → Float32
  | .front => c.front
  | .left => c.left
  | .right => c.right

/-- An obstacle on a side can only reduce the distance there. -/
def limit (c : Clearance) (side : Side) (distance : Float32) : Clearance :=
  match side with
  | .front => { c with front := Binary32.min c.front distance }
  | .left => { c with left := Binary32.min c.left distance }
  | .right => { c with right := Binary32.min c.right distance }

def observe [Trig] (c : Clearance) (sonar : Sonar) : Clearance :=
  if sonar.hasEcho then
    match Side.ofBearing sonar.echo.bearing with
    | some side => c.limit side sonar.echo.norm
    | none => c
  else c

def ofSonars [Trig] (sonars : List Sonar) : Clearance :=
  sonars.foldl observe clear

@[simp] theorem ofSonars_nil [Trig] : ofSonars [] = clear := rfl

theorem get_limit (c : Clearance) (s t : Side) (d : Float32) :
    (c.limit s d).get t = if s = t then Binary32.min (c.get t) d else c.get t := by
  cases s <;> cases t <;> rfl

end Clearance

end FuzzyMotion
