/-!
Texts: the blanks that separate words, which are the characters with the Unicode property White_Space,
and texts with a limit on their size, counted in bytes of UTF-8. `leading` cuts a text character by
character; `fill` writes whole pieces until one does not fit.
-/
namespace FuzzyMotion.Text

/-- First and last code point of each run of blanks. -/
def blankRuns : List (Nat × Nat) :=
  [(0x09, 0x0D), (0x20, 0x20), (0x85, 0x85), (0xA0, 0xA0), (0x1680, 0x1680), (0x2000, 0x200A),
    (0x2028, 0x2029), (0x202F, 0x202F), (0x205F, 0x205F), (0x3000, 0x3000)]

def isBlank (c : Char) : Bool :=
  blankRuns.any fun run => run.1 ≤ c.toNat && c.toNat ≤ run.2

/-- Size in UTF-8. -/
def bytes : List Char → Nat
  | [] => 0
  | c :: cs => c.utf8Size + bytes cs

@[simp] theorem bytes_nil : bytes [] = 0 := rfl

@[simp] theorem bytes_cons (c : Char) (cs : List Char) : bytes (c :: cs) = c.utf8Size + bytes cs :=
  rfl

@[simp] theorem bytes_append (a b : List Char) : bytes (a ++ b) = bytes a + bytes b := by
  induction a with
  | nil => simp
  | cons c cs ih => simp [ih, Nat.add_assoc]

/-- The characters before the first one that does not fit. -/
def leading (limit : Nat) : List Char → List Char
  | [] => []
  | c :: cs => if c.utf8Size ≤ limit then c :: leading (limit - c.utf8Size) cs else []

theorem bytes_leading_le (limit : Nat) (cs : List Char) : bytes (leading limit cs) ≤ limit := by
  induction cs generalizing limit with
  | nil => simp [leading]
  | cons c cs ih =>
    unfold leading
    split
    · have := ih (limit - c.utf8Size)
      simp only [bytes_cons]
      omega
    · simp

/-- The pieces before the first one that does not fit, one after the other. -/
def fill (limit : Nat) : List (List Char) → List Char
  | [] => []
  | piece :: rest =>
    if bytes piece ≤ limit then piece ++ fill (limit - bytes piece) rest else []

theorem bytes_fill_le (limit : Nat) (pieces : List (List Char)) :
    bytes (fill limit pieces) ≤ limit := by
  induction pieces generalizing limit with
  | nil => simp [fill]
  | cons piece rest ih =>
    unfold fill
    split
    · have := ih (limit - bytes piece)
      simp only [bytes_append]
      omega
    · simp

/-- How much of a quoted statement or name an error keeps. -/
def snippetLimit : Nat := 64

def snippet (text : String) : String :=
  String.ofList (leading snippetLimit text.toList)

end FuzzyMotion.Text
