import FuzzyMotion.Text

/-!
The words of a fuzzy statement. Blanks separate words, a parenthesis is a word of its own also
where no blank stands beside it, and `AND`, `OR` and `NOT` are reserved.
-/
namespace FuzzyMotion

inductive Token where
  | opening | closing | and | or | not
  | atom (name : String)
  deriving DecidableEq, Repr

namespace Token

open Text (isBlank)

def ofWord (word : String) : Token :=
  if word = "AND" then and
  else if word = "OR" then or
  else if word = "NOT" then not
  else atom word

def text : Token → String
  | opening => "("
  | closing => ")"
  | and => "AND"
  | or => "OR"
  | not => "NOT"
  | atom name => name

/-- The token of a word that has been read up to its end, last character first. -/
def ended : List Char → List Token
  | [] => []
  | c :: cs => [ofWord (String.ofList (c :: cs).reverse)]

/-- The tokens of the rest of a text, in whose middle the word `word` has been begun. -/
def scan (word : List Char) : List Char → List Token
  | [] => ended word
  | c :: cs =>
    if isBlank c then ended word ++ scan [] cs
    else if c = '(' then ended word ++ opening :: scan [] cs
    else if c = ')' then ended word ++ closing :: scan [] cs
    else scan (c :: word) cs

def ofText (text : String) : List Token :=
  scan [] text.toList

@[simp] theorem ended_nil : ended [] = [] := rfl

@[simp] theorem scan_nil (word : List Char) : scan word [] = ended word := rfl

theorem scan_blank (word cs : List Char) {c : Char} (h : isBlank c = true) :
    scan word (c :: cs) = ended word ++ scan [] cs := by
  simp [scan, h]

@[simp] theorem scan_opening (word cs : List Char) :
    scan word ('(' :: cs) = ended word ++ opening :: scan [] cs := by
  simp [scan, show isBlank '(' = false by decide]

@[simp] theorem scan_closing (word cs : List Char) :
    scan word (')' :: cs) = ended word ++ closing :: scan [] cs := by
  simp [scan, show isBlank ')' = false by decide]

/-- Blanks before a text do not matter. -/
theorem scan_blanks (blanks cs : List Char) (h : ∀ c ∈ blanks, isBlank c = true) :
    scan [] (blanks ++ cs) = scan [] cs := by
  induction blanks with
  | nil => rfl
  | cons b bs ih =>
    rw [List.cons_append, scan_blank _ _ (h b (by simp))]
    exact ih fun c hc => h c (by simp [hc])

end Token

end FuzzyMotion
