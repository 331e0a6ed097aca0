import FuzzyMotion.Binary32
import FuzzyMotion.Decimal
import FuzzyMotion.Statement.Reader

/-!
The two semantics of statements. One computes the degree of truth: the smaller degree for `AND`, the
larger one for `OR`, and the difference to one for `NOT`; parentheses leave a degree as it is. The other
writes down how the degree comes about: `min(TargetLeft[0.45], 1 - (TargetHere[0.00]))`.

Every part of a trace is written into a buffer of its own and then copied as one piece into the
buffer of the part around it, so a long trace is cut at every level.
-/
namespace FuzzyMotion

namespace Connective

def apply : Connective → Float32 → Float32 → Float32
  | and => Binary32.min
  | or => Binary32.max

def symbol : Connective → String
  | and => "min("
  | or => "max("

end Connective

/-- Bytes in the buffer of a trace. -/
def traceLimit : Nat := 256

/-- The pieces written into one buffer, up to the first that does not fit. -/
def buffer (pieces : List (List Char)) : List Char :=
  Text.fill traceLimit pieces

namespace Semantics

def numeric : Semantics fun _ => Float32 where
  atom _ degree := degree
  group inner := inner
  negation inner := 1 - inner
  single term := term
  both c := c.apply

def symbolic : Semantics fun _ => List Char where
  atom name degree :=
    buffer (name.toList :: ['['] :: ((Decimal.fixedParts degree).map String.toList ++ [[']']]))
  group inner := buffer [['('], inner, [')']]
  negation inner := buffer ["1 - ".toList, buffer [['('], inner, [')']]]
  single term := term
  both c left right := buffer [c.symbol.toList, left, [',', ' '], right, [')']]

end Semantics

namespace Phrase

variable (i : Interpretation)

def degree {r : Rank} (p : Phrase r) : Float32 :=
  Semantics.numeric.meaning i p

def trace {r : Rank} (p : Phrase r) : List Char :=
  Semantics.symbolic.meaning i p

theorem degree_negation (inner : Statement) : (negation inner).degree i = 1 - inner.degree i := rfl

theorem degree_both (c : Connective) (left right : Term) :
    (both c left right).degree i = c.apply (left.degree i) (right.degree i) := rfl

theorem trace_atom (name : String) : (atom name).trace i =
    buffer (name.toList :: ['['] :: ((Decimal.fixedParts (i.value name)).map String.toList ++ [[']']])) :=
  rfl

/-- The buffer may end inside the number. -/
example : buffer (List.replicate 252 'A' :: ['['] ::
    ((Decimal.fixedParts 0.5).map String.toList ++ [[']']])) = List.replicate 252 'A' ++ "[0.".toList := by
  decide +kernel

theorem trace_group (inner : Statement) : (group inner).trace i = buffer [['('], inner.trace i, [')']] :=
  rfl

theorem trace_negation (inner : Statement) :
    (negation inner).trace i = buffer ["1 - ".toList, (group inner).trace i] := rfl

theorem trace_both (c : Connective) (left right : Term) : (both c left right).trace i =
    buffer [c.symbol.toList, left.trace i, [',', ' '], right.trace i, [')']] := rfl

end Phrase

namespace Statement

def evaluate (text : String) (i : Interpretation) : Except Fault Float32 :=
  interpret .numeric i text

def trace (text : String) (i : Interpretation) : Except Fault String :=
  (interpret .symbolic i text).map String.ofList

end Statement

end FuzzyMotion
