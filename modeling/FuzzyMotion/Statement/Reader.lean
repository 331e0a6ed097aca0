import FuzzyMotion.Fault
import FuzzyMotion.Statement.Phrase

/-!
Reading a statement from its tokens, one token at a time, under any semantics and any interpretation. A
reader holds the groups that are still open, what has come of the innermost statement so far, and what
may come next. The first token that no statement can have at its place stops the reader, and so does a
predicate without a degree.
-/
namespace FuzzyMotion

/-- A term and the connective after it. -/
structure Half (α : Rank → Type) where
  left : α .term
  connective : Connective

/-- A group still open: what stands before it in the statement around it. -/
structure Frame (α : Rank → Type) where
  half : Option (Half α)
  negated : Bool

inductive Focus (α : Rank → Type) where
  /-- A term is expected. -/
  | awaitTerm
  /-- After `NOT`: the group that it negates is expected. -/
  | awaitGroup
  /-- A term has been read that may end the statement. -/
  | complete (term : α .term)

structure Reader (α : Rank → Type) where
  outer : List (Frame α)
  half : Option (Half α)
  focus : Focus α

/-- What stops a reader. -/
inductive Obstacle where
  | defect (defect : Defect)
  | unknown (atom : String)
  deriving DecidableEq, Repr

variable {α : Rank → Type}

namespace Semantics

/-- A statement that ends with a term. -/
def join (S : Semantics α) : Option (Half α) → α .term → α .statement
  | none, term => S.single term
  | some half, term => S.both half.connective half.left term

/-- The term that a group is, once it is closed. -/
def close (S : Semantics α) (frame : Frame α) (inner : α .statement) : α .term :=
  if frame.negated then S.negation inner else S.group inner

end Semantics

namespace Reader

def start : Reader α := ⟨[], none, .awaitTerm⟩

/-- The reader at the beginning of a group. -/
def descend (r : Reader α) (negated : Bool) : Reader α :=
  ⟨⟨r.half, negated⟩ :: r.outer, none, .awaitTerm⟩

/-- What is wrong with a token that cannot follow a complete statement. -/
def surplus (r : Reader α) : Defect :=
  match r.outer with
  | [] => .trailingTokens
  | _ :: _ => .unclosedGroup

def step (S : Semantics α) (i : Interpretation) (r : Reader α) (token : Token) :
    Except Obstacle (Reader α) :=
  match r.focus, token with
  | .awaitTerm, .atom name =>
    match i name with
    | some degree => .ok { r with focus := .complete (S.atom name degree) }
    | none => .error (.unknown name)
  | .awaitTerm, .opening => .ok (r.descend false)
  | .awaitTerm, .not => .ok { r with focus := .awaitGroup }
  | .awaitTerm, _ => .error (.defect .misplacedOperator)
  | .awaitGroup, .opening => .ok (r.descend true)
  | .awaitGroup, _ => .error (.defect .bareNegation)
  | .complete term, .closing =>
    match r.outer with
    | [] => .error (.defect .trailingTokens)
    | frame :: outer => .ok ⟨outer, frame.half, .complete (S.close frame (S.join r.half term))⟩
  | .complete term, .and =>
    match r.half with
    | none => .ok { r with half := some ⟨term, .and⟩, focus := .awaitTerm }
    | some _ => .error (.defect r.surplus)
  | .complete term, .or =>
    match r.half with
    | none => .ok { r with half := some ⟨term, .or⟩, focus := .awaitTerm }
    | some _ => .error (.defect r.surplus)
  | .complete _, _ => .error (.defect r.surplus)

/-- What has come of the statement when the tokens end. -/
def finish (S : Semantics α) (r : Reader α) : Except Obstacle (α .statement) :=
  match r.focus with
  | .awaitTerm => .error (.defect .unexpectedEnd)
  | .awaitGroup => .error (.defect .bareNegation)
  | .complete term =>
    match r.outer with
    | [] => .ok (S.join r.half term)
    | _ :: _ => .error (.defect .unclosedGroup)

/-- The reader after some tokens. -/
def advance (S : Semantics α) (i : Interpretation) (r : Reader α) :
    List Token → Except Obstacle (Reader α)
  | [] => .ok r
  | token :: rest =>
    match r.step S i token with
    | .ok next => next.advance S i rest
    | .error e => .error e

def read (S : Semantics α) (i : Interpretation) (r : Reader α) (tokens : List Token) :
    Except Obstacle (α .statement) :=
  match r.advance S i tokens with
  | .ok last => last.finish S
  | .error e => .error e

variable {S : Semantics α} {i : Interpretation}

@[simp] theorem advance_nil (r : Reader α) : r.advance S i [] = .ok r := rfl

theorem advance_append (r : Reader α) (a b : List Token) :
    r.advance S i (a ++ b) =
      match r.advance S i a with
      | .ok next => next.advance S i b
      | .error e => .error e := by
  induction a generalizing r with
  | nil => rfl
  | cons token rest ih =>
    simp only [List.cons_append, advance]
    cases r.step S i token with
    | ok next => exact ih next
    | error e => rfl

end Reader

namespace Statement

/-- A fault keeps the beginning of the statement or of the name that is at fault. -/
def fault (text : String) : Obstacle → Fault
  | .defect d => .malformed d (Text.snippet text)
  | .unknown atom => .unknownPredicate (Text.snippet atom)

/-- What comes of a text. -/
def interpret (S : Semantics α) (i : Interpretation) (text : String) :
    Except Fault (α .statement) :=
  (Reader.start.read S i (Token.ofText text)).mapError (fault text)

end Statement

end FuzzyMotion
