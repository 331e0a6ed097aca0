import FuzzyMotion.Capacity

/-!
What can go wrong, each cause with what it names, its wording and its category. Nothing is mended
inside the control cycle; every fault goes to the caller.
-/
namespace FuzzyMotion

/-- The shapes of membership functions. -/
inductive Shape where
  | rampUp | rampDown | triangle | trapezoid
  deriving DecidableEq, Repr

def Shape.text : Shape → String
  | rampUp => "ramp_up"
  | rampDown => "ramp_down"
  | triangle => "triangle"
  | trapezoid => "trapezoid"

/-- How a statement departs from the grammar. -/
inductive Defect where
  /-- The statement ends where a term is expected. -/
  | unexpectedEnd
  /-- An operator or a closing parenthesis stands where a term is expected. -/
  | misplacedOperator
  /-- What follows `NOT` is not an opening parenthesis. -/
  | bareNegation
  /-- A group is not closed after its statement. -/
  | unclosedGroup
  /-- A complete statement is followed by more. -/
  | trailingTokens
  deriving DecidableEq, Repr

def Defect.message : Defect → String
  | unexpectedEnd => "unexpected end of statement"
  | misplacedOperator => "operator where a term is expected"
  | bareNegation => "NOT must be followed by a parenthesized statement"
  | unclosedGroup => "unbalanced parentheses"
  | trailingTokens => "trailing tokens after statement"

inductive Fault where
  | badMembership (shape : Shape)
  | nameTaken (name : String)
  | tableFull (table : Capacity)
  | undeclaredPredicate (statement predicate : String)
  | unknownAction (rule action : String)
  | unknownLabel (rule label : String)
  | noGoal
  | missingOutput (output : String)
  | wrongTarget (behavior : String)
  | unknownBehavior (name : String)
  | malformed (defect : Defect) (statement : String)
  | unknownPredicate (name : String)
  | unknownInput (name : String)
  | nothingActive
  deriving DecidableEq, Repr

inductive Category where
  /-- Wrong tables, or a behavior that cannot be made. -/
  | definition
  /-- A statement outside the grammar. -/
  | grammar
  /-- A value that the cycle needs is not there. -/
  | lookup
  /-- A call out of order. -/
  | precondition
  deriving DecidableEq, Repr

namespace Fault

def category : Fault → Category
  | malformed .. => .grammar
  | unknownPredicate _ | unknownInput _ => .lookup
  | nothingActive => .precondition
  | _ => .definition

def message : Fault → String
  | badMembership shape => "invalid parameters for " ++ shape.text ++ " membership function"
  | nameTaken name => "name declared twice: " ++ name
  | tableFull table => "table is full: " ++ table.text
  | undeclaredPredicate statement predicate =>
    "undeclared predicate " ++ predicate ++ " in \"" ++ statement ++ "\""
  | unknownAction rule action => "rule " ++ rule ++ " uses unknown linguistic variable " ++ action
  | unknownLabel rule label => "rule " ++ rule ++ " uses unknown label " ++ label
  | noGoal => "goal statement is not set"
  | missingOutput output => "output variable " ++ output ++ " is not declared"
  | wrongTarget behavior => "wrong parameter kind for behavior " ++ behavior
  | unknownBehavior name => "unknown behavior: " ++ name
  | malformed defect statement =>
    "invalid syntax in fuzzy statement \"" ++ statement ++ "\": " ++ defect.message
  | unknownPredicate name => "no truth value provided for fuzzy predicate: " ++ name
  | unknownInput name => "no value for input variable: " ++ name
  | nothingActive => "no active behavior"

end Fault

end FuzzyMotion
