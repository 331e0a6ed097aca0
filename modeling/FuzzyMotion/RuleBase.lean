import FuzzyMotion.Membership
import FuzzyMotion.Operation
import FuzzyMotion.Statement.Evaluation

/-!
The tables of a fuzzy controller: predicates over the inputs, actions with their labels,
rules, and the goal. Declarations are checked one by one for names and room; `check`
checks that the finished tables refer to each other.
-/
namespace FuzzyMotion

/-- A membership function applied to one input. -/
structure Predicate where
  name : String
  membership : Membership
  input : String
  deriving Repr

/-- A linguistic variable: every label stands for one crisp value of the output. -/
structure Action where
  name : String
  labels : List (String × Float32)
  output : String
  deriving Repr

namespace Action

def labelNames (a : Action) : List String :=
  a.labels.map Prod.fst

def labelIndex? (a : Action) (label : String) : Option Nat :=
  a.labelNames.idxOf? label

/-- The crisp value of a label. -/
def value? (a : Action) (label : String) : Option Float32 :=
  a.labels.lookup label

end Action

/-- If the antecedent holds, then the action is as the label says. -/
structure Rule where
  name : String
  antecedent : String
  action : String
  label : String
  deriving DecidableEq, Repr

/-- What a rule credits with its degree: an action and one of its labels, by their places. -/
structure Consequent where
  action : Nat
  label : Nat
  deriving DecidableEq, Repr

structure RuleBase where
  predicates : List Predicate
  actions : List Action
  rules : List Rule
  goal : Option String
  deriving Repr

/-- One more element at the end of a bounded list. -/
def extend {α : Type} (c : Capacity) (xs : List α) (x : α) : Except Fault (List α) :=
  if xs.length < c.limit then .ok (xs ++ [x]) else .error (.tableFull c)

/-- Labels after those already collected, from left to right. -/
def collectLabels (done : List (String × Float32)) :
    List (String × Float32) → Except Fault (List (String × Float32))
  | [] => .ok done
  | (label, value) :: rest =>
    if label ∈ done.map Prod.fst then .error (.nameTaken label)
    else do collectLabels (← extend .labels done (label, value)) rest

namespace RuleBase

def empty : RuleBase := ⟨[], [], [], none⟩

def predicateNames (b : RuleBase) : List String := b.predicates.map Predicate.name

def actionNames (b : RuleBase) : List String := b.actions.map Action.name

def outputs (b : RuleBase) : List String := b.actions.map Action.output

def ruleNames (b : RuleBase) : List String := b.rules.map Rule.name

def withPredicate (b : RuleBase) (p : Predicate) : Except Fault RuleBase :=
  if p.name ∈ b.predicateNames then .error (.nameTaken p.name)
  else (extend .predicates b.predicates p).map fun ps => { b with predicates := ps }

def withAction (b : RuleBase) (a : Action) : Except Fault RuleBase :=
  if a.name ∈ b.actionNames then .error (.nameTaken a.name)
  else if a.output ∈ b.outputs then .error (.nameTaken a.output)
  else do
    let labels ← collectLabels [] a.labels
    let actions ← extend .actions b.actions { a with labels := labels }
    return { b with actions := actions }

def withRule (b : RuleBase) (rule : Rule) : Except Fault RuleBase :=
  if rule.name ∈ b.ruleNames then .error (.nameTaken rule.name)
  else (extend .rules b.rules rule).map fun rs => { b with rules := rs }

def insertPredicate (p : Predicate) : Operation RuleBase Unit :=
  Operation.update fun b => b.withPredicate p

/-- Insert a predicate whose membership function is still to be checked. -/
def declare (p : Predicate) : Operation RuleBase Unit := do
  let membership ← Operation.ofExcept p.membership.checked
  insertPredicate { p with membership := membership }

def insertAction (a : Action) : Operation RuleBase Unit :=
  Operation.update fun b => b.withAction a

def insertRule (rule : Rule) : Operation RuleBase Unit :=
  Operation.update fun b => b.withRule rule

/-- The statement whose degree tells how far the goal is reached. -/
def aim (statement : String) : Operation RuleBase Unit :=
  Operation.modify fun b => { b with goal := some statement }

/-- Insert everything that some tables hold, in their order. -/
def enter (tables : RuleBase) : Operation RuleBase Unit := do
  Operation.each tables.predicates declare
  Operation.each tables.actions insertAction
  Operation.each tables.rules insertRule
  Operation.each tables.goal.toList aim

def findAction? (b : RuleBase) (name : String) : Option Action :=
  b.actions.find? fun a => a.name = name

def declares (b : RuleBase) (predicate : String) : Bool :=
  predicate ∈ b.predicateNames

/-- Every declared predicate is given the degree zero. -/
def declared (b : RuleBase) : Interpretation := fun predicate =>
  if b.declares predicate then some 0 else none

@[simp] theorem knows_declared (b : RuleBase) : b.declared.knows = b.declares := by
  funext predicate
  cases h : b.declares predicate <;> simp [declared, Interpretation.knows, h]

/-- What a statement lacks is a declaration. -/
def blame (statement : String) : Fault → Fault
  | .unknownPredicate name => .undeclaredPredicate statement name
  | e => e

def checkStatement (b : RuleBase) (statement : String) : Except Fault Unit :=
  match Statement.evaluate statement b.declared with
  | .ok _ => .ok ()
  | .error e => .error (blame statement e)

def consequentOf (b : RuleBase) (rule : Rule) : Except Fault Consequent :=
  match b.actionNames.idxOf? rule.action with
  | none => .error (.unknownAction rule.name rule.action)
  | some action =>
    match b.actions[action]?.bind (·.labelIndex? rule.label) with
    | none => .error (.unknownLabel rule.name rule.label)
    | some label => .ok ⟨action, label⟩

/-- What rules credit, one after the other and after what is credited already. -/
def collectConsequents (b : RuleBase) (done : List Consequent) :
    List Rule → Except Fault (List Consequent)
  | [] => .ok done
  | rule :: rest => do
    let c ← b.consequentOf rule
    b.collectConsequents (← extend .rules done c) rest

def checkRule (b : RuleBase) (rule : Rule) : Except Fault Unit := do
  let _ ← b.consequentOf rule
  b.checkStatement rule.antecedent

def checkRules (b : RuleBase) : List Rule → Except Fault Unit
  | [] => .ok ()
  | rule :: rest => do
    b.checkRule rule
    b.checkRules rest

/-- The goal must be there; then the rules are checked in their order, and the goal last. -/
def check (b : RuleBase) : Except Fault Unit :=
  match b.goal with
  | none => .error .noGoal
  | some goal => do
    b.checkRules b.rules
    b.checkStatement goal

end RuleBase

end FuzzyMotion
