import FuzzyMotion.Statement.Token

/-!
The grammar of fuzzy statements. A statement is one term, or two terms joined by `AND` or `OR`; a
term is the name of a predicate, or a statement in parentheses, with or without `NOT` before it.
There is no precedence: longer combinations are written with parentheses.

`Phrase` is both ranks in one family; `tokens` writes a phrase down. A semantics says what comes of each
production, and phrases themselves are the semantics that keeps everything.
-/
namespace FuzzyMotion

inductive Connective where
  | and | or
  deriving DecidableEq, Repr

def Connective.token : Connective → Token
  | and => .and
  | or => .or

inductive Rank where
  | term | statement
  deriving DecidableEq, Repr

inductive Phrase : Rank → Type where
  | atom (name : String) : Phrase .term
  | group (inner : Phrase .statement) : Phrase .term
  | negation (inner : Phrase .statement) : Phrase .term
  | single (term : Phrase .term) : Phrase .statement
  | both (connective : Connective) (left right : Phrase .term) : Phrase .statement
  deriving DecidableEq, Repr

abbrev Term : Type := Phrase .term

abbrev Statement : Type := Phrase .statement

/-- The degree of each predicate that has one. -/
abbrev Interpretation : Type := String → Option Float32

namespace Interpretation

def knows (i : Interpretation) (name : String) : Bool :=
  (i name).isSome

/-- The degree of a predicate that is known. -/
def value (i : Interpretation) (name : String) : Float32 :=
  (i name).getD 0

end Interpretation

/-- What comes of each production, in values of its rank. An atom comes with its degree. -/
structure Semantics (α : Rank → Type) where
  atom : String → Float32 → α .term
  group : α .statement → α .term
  negation : α .statement → α .term
  single : α .term → α .statement
  both : Connective → α .term → α .term → α .statement

/-- What comes of a phrase as a whole. -/
def Semantics.meaning {α : Rank → Type} (S : Semantics α) (i : Interpretation) :
    {r : Rank} → Phrase r → α r
  | _, .atom name => S.atom name (i.value name)
  | _, .group inner => S.group (S.meaning i inner)
  | _, .negation inner => S.negation (S.meaning i inner)
  | _, .single term => S.single (S.meaning i term)
  | _, .both c left right => S.both c (S.meaning i left) (S.meaning i right)

namespace Phrase

def semantics : Semantics Phrase where
  atom name _ := .atom name
  group := .group
  negation := .negation
  single := .single
  both := .both

def tokens : {r : Rank} → Phrase r → List Token
  | _, atom name => [.atom name]
  | _, group inner => .opening :: (inner.tokens ++ [.closing])
  | _, negation inner => .not :: .opening :: (inner.tokens ++ [.closing])
  | _, single term => term.tokens
  | _, both c left right => left.tokens ++ c.token :: right.tokens

/-- The names that occur, from left to right. -/
def atoms : {r : Rank} → Phrase r → List String
  | _, atom name => [name]
  | _, group inner => inner.atoms
  | _, negation inner => inner.atoms
  | _, single term => term.atoms
  | _, both _ left right => left.atoms ++ right.atoms

end Phrase

end FuzzyMotion
