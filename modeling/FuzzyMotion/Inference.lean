import FuzzyMotion.RuleBase
import FuzzyMotion.Table

/-!
Fuzzy inference over a checked rule base. A cycle has four steps: degrees of the predicates from
the inputs; degrees of the rules, gathered as the largest per label; the outputs, each the mean of
its label values weighted by these activations, or its last value where no label is active; and the
degree of the goal.
-/
namespace FuzzyMotion

abbrev Inputs : Type := Table String .inputs Float32

abbrev Truths : Type := Table String .truths Float32

/-- Record the degree of a predicate. -/
def Truths.record (name : String) (degree : Float32) : Operation Truths Unit :=
  Table.put name (Binary32.toDegree degree)

def Truths.interpretation (t : Truths) : Interpretation :=
  t.get?

/-- How much is written to the log: each level adds to the ones below it. -/
abbrev Verbosity : Type := Nat

namespace Verbosity

def quiet : Verbosity := 0

/-- Inputs, degrees of the predicates, and rules. -/
def rules : Verbosity := 1

/-- The degree of the goal, and the outputs. -/
def outputs : Verbosity := 2

/-- The activation of every label. -/
def activations : Verbosity := 3

/-- How the degree of every statement came about. -/
def statements : Verbosity := 4

end Verbosity

/-- The activations of the labels of one action, in their order. -/
abbrev FuzzySet : Type := List Float32

namespace FuzzySet

def zero (a : Action) : FuzzySet :=
  a.labels.map fun _ => 0

def reset (set : FuzzySet) : FuzzySet :=
  set.map fun _ => 0

/-- An activation is the largest degree of the rules for its label. -/
def raise (set : FuzzySet) (label : Nat) (degree : Float32) : FuzzySet :=
  set.modify label fun activation => Binary32.max activation degree

def total (set : FuzzySet) : Float32 :=
  Binary32.sum set

/-- The sum of the label values, each times its activation. -/
def weighted (set : FuzzySet) (values : List Float32) : Float32 :=
  Binary32.sum (List.zipWith (· * ·) set values)

/-- The crisp value for which the set stands, unless no label is active. -/
def crisp? (set : FuzzySet) (values : List Float32) : Option Float32 :=
  if Binary32.isZero set.total then none else some (set.weighted values / set.total)

end FuzzySet

structure Inference where
  base : RuleBase
  /-- What each rule credits, in the order of the rules. -/
  consequents : List Consequent
  inputs : Inputs
  truths : Truths
  /-- One set per action, in the order of the actions. -/
  sets : List FuzzySet
  outputs : Table String .outputs Float32
  deriving Repr

namespace Inference

open Operation

/-- The sets and the outputs of actions, all of them zero, after those that are there already. -/
def zeroTables (sets : List FuzzySet) (outputs : Table String .outputs Float32) :
    List Action → Except Fault (List FuzzySet × Table String .outputs Float32)
  | [] => .ok (sets, outputs)
  | a :: rest => do
    let longer ← extend .actions sets (FuzzySet.zero a)
    zeroTables longer (← outputs.insert a.output 0) rest

def ofRuleBase (b : RuleBase) : Except Fault Inference := do
  b.check
  let consequents ← b.collectConsequents [] b.rules
  let (sets, outputs) ← zeroTables [] .empty b.actions
  return ⟨b, consequents, .empty, .empty, sets, outputs⟩

def output? (e : Inference) (name : String) : Option Float32 :=
  e.outputs.get? name

def truth? (e : Inference) (name : String) : Option Float32 :=
  e.truths.get? name

def feed (inputs : Inputs) : Operation Inference Unit :=
  modify fun e => { e with inputs := inputs }

/-- Run on the truth table alone. -/
def onTruths (x : Operation Truths Unit) : Operation Inference Unit :=
  on truths (fun t e => { e with truths := t }) x

def fuzzifyOne (p : Predicate) : Operation Inference Unit := do
  let e ← state
  match e.inputs.get? p.input with
  | none => fail (.unknownInput p.input)
  | some x => onTruths (Truths.record p.name (p.membership.degree x))

/-- The degrees of all predicates, in the order of their declaration. -/
def fuzzify : Operation Inference Unit := do
  modify fun e => { e with truths := .empty }
  let e ← state
  each e.base.predicates fuzzifyOne

def credit (c : Consequent) (degree : Float32) (e : Inference) : Inference :=
  { e with sets := e.sets.modify c.action fun set => set.raise c.label degree }

def ruleText (rule : Rule) (degree : Float32) : String :=
  "  " ++ rule.name ++ " [" ++ Decimal.shortest degree ++ "] -> "
    ++ rule.action ++ "(" ++ rule.label ++ ")"

def applyRule (v : Verbosity) (rule : Rule) (c : Consequent) : Operation Inference Unit := do
  let e ← state
  let degree ← ofExcept (Statement.evaluate rule.antecedent e.truths.interpretation)
  modify (credit c degree)
  whenever (Verbosity.rules ≤ v) do
    note .debug (ruleText rule degree)
  whenever (Verbosity.statements ≤ v) do
    let trace ← ofExcept (Statement.trace rule.antecedent e.truths.interpretation)
    note .trace ("    " ++ rule.name ++ " = " ++ trace)

/-- The activations of all labels, from nothing. -/
def applyRules (v : Verbosity) : Operation Inference Unit := do
  modify fun e => { e with sets := e.sets.map FuzzySet.reset }
  let e ← state
  each (e.base.rules.zip e.consequents) fun pair => applyRule v pair.1 pair.2

def setOutput (name : String) (value : Float32) (e : Inference) : Inference :=
  { e with outputs := e.outputs.replace name value }

def labelText (a : Action) (label : String) (activation : Float32) : String :=
  "  " ++ a.name ++ "." ++ label ++ ": " ++ Decimal.shortest activation

def heldText (a : Action) : String :=
  "  " ++ a.output ++ ": нет активных правил, выход сохранен"

def defuzzifyOne (v : Verbosity) (action : Action) (set : FuzzySet) :
    Operation Inference Unit := do
  whenever (Verbosity.activations ≤ v) do
    each (action.labelNames.zip set) fun pair =>
      note .debug (labelText action pair.1 pair.2)
  match set.crisp? (action.labels.map Prod.snd) with
  | none => whenever (Verbosity.activations ≤ v) (note .debug (heldText action))
  | some value => modify (setOutput action.output value)

/-- The outputs of all actions; one without an active label is held. -/
def defuzzify (v : Verbosity) : Operation Inference Unit := do
  let e ← state
  each (e.base.actions.zip e.sets) fun pair => defuzzifyOne v pair.1 pair.2

/-- How far the goal is reached. -/
def achievement (v : Verbosity) : Operation Inference Float32 := do
  let e ← state
  match e.base.goal with
  | none => fail .noGoal
  | some goal => do
    let achieved ← ofExcept (Statement.evaluate goal e.truths.interpretation)
    whenever (Verbosity.statements ≤ v) do
      let trace ← ofExcept (Statement.trace goal e.truths.interpretation)
      note .trace ("  goal = " ++ trace)
    return achieved

/-- One line per entry of a table. -/
def noteTable {c : Capacity} (title : String) (t : Table String c Float32) :
    Operation Inference Unit :=
  each t.entries fun entry =>
    note .debug ("  " ++ title ++ " " ++ entry.1 ++ ": " ++ Decimal.shortest entry.2)

/-- One cycle on the inputs that are set. -/
def cycle (v : Verbosity) : Operation Inference Float32 := do
  let e ← state
  whenever (Verbosity.rules ≤ v) (noteTable "вход" e.inputs)
  fuzzify
  let e ← state
  whenever (Verbosity.rules ≤ v) (noteTable "предикат" e.truths)
  applyRules v
  defuzzify v
  let achieved ← achievement v
  let e ← state
  whenever (Verbosity.outputs ≤ v) do
    note .debug ("Достижение цели: " ++ Decimal.shortest achieved)
    noteTable "выход" e.outputs
  return achieved

end Inference

end FuzzyMotion
