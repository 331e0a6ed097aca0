import FuzzyMotion.Behavior.Approach
import FuzzyMotion.Behavior.Crossing
import FuzzyMotion.Behavior.Waiting

/-!
The pilot runs at most one behavior, chosen by name, and keeps what its last successful cycle gave.
-/
namespace FuzzyMotion

/-- What a behavior is about. -/
inductive Target where
  | location (location : Location)
  | door (door : DoorId)
  deriving Repr

/-- The behaviors that a pilot knows. -/
inductive Skill where
  | approach | cross | waitOpen | waitClosed
  deriving DecidableEq, Repr

namespace Skill

def all : List Skill := [approach, cross, waitOpen, waitClosed]

def name : Skill → String
  | approach => Approach.name
  | cross => Crossing.name
  | waitOpen => Waiting.openName
  | waitClosed => Waiting.closedName

def named? (name : String) : Option Skill :=
  all.find? fun skill => skill.name = name

def behavior [Trig] : Skill → Target → Except Fault Behavior
  | approach, .location l => .ok (Approach.behavior l)
  | cross, .location l => .ok (Crossing.behavior l)
  | waitOpen, .door d => .ok (Waiting.untilOpen d)
  | waitClosed, .door d => .ok (Waiting.untilClosed d)
  | skill, _ => .error (.wrongTarget skill.name)

end Skill

structure Velocity where
  linear : Float32
  angular : Float32
  deriving Repr

/-- A goal that is reached this far counts as reached. -/
def achievementThreshold : Float32 := 0.9

/-- Metres per second. -/
def maxLinearSpeed : Float32 := 0.5

/-- Radians per second. -/
def maxAngularSpeed : Float32 := 1

/-- How often a cycle is to be run, in hertz. -/
def controlRate : Nat := 10

structure Pilot where
  active : Option Activity
  verbosity : Verbosity
  achieved : Float32
  linear : Float32
  angular : Float32

namespace Pilot

open Operation

def idle (verbosity : Verbosity) : Pilot := ⟨none, verbosity, 0, 0, 0⟩

def initial : Pilot := idle Verbosity.quiet

def setVerbosity (verbosity : Verbosity) : Operation Pilot Unit :=
  modify fun p => { p with verbosity := verbosity }

def activate (activity : Activity) : Operation Pilot Unit :=
  modify fun p => { p with active := some activity }

/-- A fault on the way is written to the log and passed on. -/
def reporting {α : Type} (text : String) (x : Operation Pilot α) : Operation Pilot α := fun p =>
  let result := x p
  match result.outcome with
  | .ok _ => result
  | .error _ => { result with log := result.log ++ [⟨.error, text⟩] }

def begin [Trig] (skill : Skill) (target : Target) : Operation Pilot Unit := do
  let behavior ← ofExcept (skill.behavior target)
  let activity ← behavior.start
  note .info ("Активное поведение: " ++ behavior.name)
  activate activity

/-- The behavior before is gone, with all it left, whether or not the new one can start. -/
def engage [Trig] (name : String) (target : Target) : Operation Pilot Unit := do
  modify fun p => idle p.verbosity
  match Skill.named? name with
  | none => fail (.unknownBehavior (Text.snippet name))
  | some skill => reporting ("Поведение " ++ name ++ " не создано") (begin skill target)

/-- Keep what a successful cycle gave. -/
def keep (achieved : Float32) (p : Pilot) : Pilot :=
  match p.active with
  | none => p
  | some a => { p with achieved := achieved, linear := a.linear, angular := a.angular }

/-- One cycle of the active behavior. -/
def cycle (o : Observation) : Operation Pilot Float32 := do
  let p ← state
  match p.active with
  | none => fail .nothingActive
  | some activity => do
    let achieved ← on (fun _ => activity) (fun a p => { p with active := some a })
      (Activity.cycle o p.verbosity)
    modify (keep achieved)
    return achieved

def activeName? (p : Pilot) : Option String :=
  p.active.map fun a => a.behavior.name

def goalReached (p : Pilot) : Bool :=
  achievementThreshold ≤ p.achieved

/-- The speeds within the limits of the robot. -/
def velocity (p : Pilot) : Velocity :=
  ⟨Binary32.clamp (-maxLinearSpeed) maxLinearSpeed p.linear,
    Binary32.clamp (-maxAngularSpeed) maxAngularSpeed p.angular⟩

/-- Seconds from one cycle to the next. -/
def period : Float32 :=
  1 / Float32.ofNat controlRate

/-- Where the robot is when the next cycle is due, if it follows the velocity: it turns first, and then
drives straight on. -/
def advance [Trig] (p : Pilot) (pose : Pose) : Pose :=
  let angle := Angle.wrap (pose.angle + p.velocity.angular * period)
  ⟨pose.x + p.velocity.linear * Trig.cos angle * period,
    pose.y + p.velocity.linear * Trig.sin angle * period, angle⟩

end Pilot

end FuzzyMotion
