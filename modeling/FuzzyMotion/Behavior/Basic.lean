import FuzzyMotion.Inference
import FuzzyMotion.Observation

/-!
Behaviors. A behavior declares its tables once and computes its inputs from the observation of each
cycle; in between, its inference keeps the outputs. Every behavior drives at least the two outputs
of motion, by the two fuzzy actions that stand here together with the predicates of heading that
approaching and crossing share.
-/
namespace FuzzyMotion

/-- The outputs of motion: metres per second, and degrees per second in the rules. -/
def linearOutput : String := "Vlin"

def angularOutput : String := "Vrot"

structure Behavior where
  name : String
  /-- Declares predicates, actions, rules and goal. -/
  declare : Operation RuleBase Unit
  /-- Fills the inputs of one cycle. -/
  sense : Observation → Operation Inputs Unit

/-- A behavior with its inference. -/
structure Activity where
  behavior : Behavior
  inference : Inference

namespace Behavior

open Operation

def requireOutput (b : RuleBase) (output : String) : Except Fault Unit :=
  if output ∈ b.outputs then .ok () else .error (.missingOutput output)

def startedText (name : String) (b : RuleBase) : String :=
  "Поведение " ++ name ++ ": " ++ toString b.predicates.length ++ " предикатов, "
    ++ toString b.rules.length ++ " правил"

/-- The activity of a behavior before its first cycle. -/
def start {σ : Type} (behavior : Behavior) : Operation σ Activity := do
  let (_, base) ← apart RuleBase.empty behavior.declare
  ofExcept (requireOutput base linearOutput)
  ofExcept (requireOutput base angularOutput)
  let inference ← ofExcept (Inference.ofRuleBase base)
  note .info (startedText behavior.name base)
  return ⟨behavior, inference⟩

end Behavior

namespace Activity

open Operation

def onInference {α : Type} (x : Operation Inference α) : Operation Activity α :=
  on inference (fun e a => { a with inference := e }) x

/-- One cycle: the inputs from the observation, then inference. Inputs that could not all be found
do not reach the inference. -/
def cycle (o : Observation) (v : Verbosity) : Operation Activity Float32 := do
  let a ← state
  let (_, inputs) ← apart Table.empty (a.behavior.sense o)
  onInference (Inference.feed inputs)
  onInference (Inference.cycle v)

def output? (a : Activity) (name : String) : Option Float32 :=
  a.inference.output? name

/-- Metres per second. -/
def linear (a : Activity) : Float32 :=
  (a.output? linearOutput).getD 0

/-- Radians per second. -/
def angular (a : Activity) : Float32 :=
  Angle.toRadians ((a.output? angularOutput).getD 0)

end Activity

namespace Motion

/-- Metres per second. -/
def move : Action :=
  ⟨"Move", [("Fast", 0.5), ("Slow", 0.1), ("None", 0), ("Back", -0.1)], linearOutput⟩

/-- Degrees per second, counter-clockwise. -/
def turn : Action :=
  ⟨"Turn", [("Left", 40), ("MLeft", 10), ("None", 0), ("MRight", -10), ("Right", -40)],
    angularOutput⟩

def actions : List Action := [move, turn]

/-- Where the target lies, by its bearing `phi` in degrees. -/
def headings : List Predicate :=
  [⟨"TargetLeft", .rampUp 5 60, "phi"⟩,
    ⟨"TargetRight", .rampDown (-60) (-5), "phi"⟩,
    ⟨"TargetAhead", .triangle (-60) 0 60, "phi"⟩]

end Motion

end FuzzyMotion
