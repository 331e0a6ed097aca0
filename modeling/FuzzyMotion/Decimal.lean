/-!
Decimal texts of binary32 numbers, without an exponent. One has two decimal places and is rounded once
from the exact value, a half to the even neighbour. The other is the shortest: the fewest significant
digits that read back as the same number, and of those the nearest to it.

For the shortest text a magnitude `m * 2 ^ e` is compared with decimal grids in exact whole numbers. The
numbers that round to it form an interval around it; a grid serves if one of the two grid points next to
the magnitude lies in that interval, and the coarsest grid that serves gives the digits.
-/
namespace FuzzyMotion.Decimal

open Float.Model (UnpackedFloat)

def leftPad (width : Nat) (digits : List Char) : List Char :=
  List.replicate (width - digits.length) '0' ++ digits

/-- How many units of the last place make one, with `places` places. -/
def powerOfTen (places : Nat) : Nat :=
  Nat.pow 10 places

/-- The last `places` digits of a whole number. -/
def fraction (units places : Nat) : String :=
  String.ofList (leftPad places (Nat.toDigits 10 (units % powerOfTen places)))

/-- The digits of `units` with the point before the last `places` of them. -/
def positional (units places : Nat) : String :=
  if places = 0 then toString units
  else toString (units / powerOfTen places) ++ "." ++ fraction units places

/-- A minus sign is written wherever there is one, also before zero. -/
def signed (negative : Bool) (parts : List String) : List String :=
  if negative then "-" :: parts else parts

/-- The whole number nearest to a quotient; halfway, the even one. -/
def nearestEven (num den : Nat) : Nat :=
  let q := num / den
  let twice := 2 * (num % den)
  if twice < den then q
  else if den < twice then q + 1
  else if q % 2 = 0 then q else q + 1

/-- The magnitude `m * 2 ^ e` in hundredths. -/
def hundredths (m : Nat) (e : Int) : Nat :=
  nearestEven ((100 * m) <<< e.toNat) (1 <<< (-e).toNat)

/-- A number of hundredths in the parts in which it is written. The point stands in one part with a
zero before it, and otherwise in a part of its own; the zeros after it are a part, too, and so are the
digits that are left. -/
def hundredthParts (n : Nat) : List String :=
  if n = 0 then ["0.", "00"]
  else if n < 10 then ["0.", "0", toString n]
  else if n < 100 then ["0.", toString n]
  else [toString (n / 100), ".", fraction n 2]

def unpackedFixedParts : UnpackedFloat → List String
  | .notANumber => ["NaN"]
  | .infinity s => signed (s == .negative) ["inf"]
  | .zero s => signed (s == .negative) (hundredthParts 0)
  | .finite s m e _ => signed (s == .negative) (hundredthParts (hundredths m e))

/-- The parts of a number with two decimal places, each written as a whole or not at all. -/
def fixedParts (value : Float32) : List String :=
  unpackedFixedParts value.toModel.unpack

def fixed (value : Float32) : String :=
  String.join (fixedParts value)

/-- The numbers that round to a binary32 magnitude, all three in units of `2 ^ (e - 2)`. -/
structure Neighbourhood where
  low : Nat
  value : Nat
  high : Nat
  /-- Whether the two ends themselves round to the magnitude. -/
  closed : Bool
  deriving DecidableEq, Repr

/-- Below a power of two the neighbours are half as far apart as above it; an end, being halfway
between two numbers, rounds to the one with the even significand. -/
def neighbourhood (m : Nat) (e : Int) : Neighbourhood :=
  let below := if m = 0x800000 ∧ -149 < e then 1 else 2
  ⟨4 * m - below, 4 * m, 4 * m + 2, m % 2 = 0⟩

def Neighbourhood.reachesDown (n : Neighbourhood) (scale point : Nat) : Bool :=
  if n.closed then n.low * scale ≤ point else n.low * scale < point

def Neighbourhood.reachesUp (n : Neighbourhood) (scale point : Nat) : Bool :=
  if n.closed then point ≤ n.high * scale else point < n.high * scale

/-- The two units in which a magnitude and a grid are compared, `2 ^ (e - 2)` and `10 ^ k`, multiplied
by the least power of two and the least power of ten that make whole numbers of them. -/
def binaryUnit (e k : Int) : Nat :=
  powerOfTen (-k).toNat <<< (e - 2).toNat

def gridUnit (e k : Int) : Nat :=
  powerOfTen k.toNat <<< (2 - e).toNat

/-- The point of the grid of multiples of `10 ^ k` that stands for the magnitude, counted in grid
steps: the nearer of its two neighbours on the grid that lie in the neighbourhood, halfway the
upper one. -/
def gridPoint? (n : Neighbourhood) (e k : Int) : Option Nat :=
  let scale := binaryUnit e k
  let step := gridUnit e k
  let under := n.value * scale / step
  let rest := n.value * scale % step
  let down := n.reachesDown scale (under * step)
  let up := n.reachesUp scale ((under + 1) * step)
  if up && (!down || step ≤ 2 * rest) then some (under + 1)
  else if down then some under
  else none

/-- The coarsest grid that serves, at most `fuel` steps finer than `10 ^ k`. -/
def coarsest (n : Neighbourhood) (e : Int) : Int → Nat → Nat × Int
  | k, 0 => ((gridPoint? n e k).getD 0, k)
  | k, fuel + 1 =>
    match gridPoint? n e k with
    | some digits => (digits, k)
    | none => coarsest n e (k - 1) fuel

/-- No binary32 number needs a grid coarser than `10 ^ 38` or finer than `10 ^ -45`: the largest
is below `10 ^ 39`, and the smallest distance between two of them is above `10 ^ -45`. -/
def shortestDigits (m : Nat) (e : Int) : Nat × Int :=
  coarsest (neighbourhood m e) e 38 83

def unpackedShortest : UnpackedFloat → List String
  | .notANumber => ["NaN"]
  | .infinity s => signed (s == .negative) ["inf"]
  | .zero s => signed (s == .negative) ["0"]
  | .finite s m e _ =>
    let (digits, k) := shortestDigits m e
    signed (s == .negative) [positional (digits * powerOfTen k.toNat) (-k).toNat]

def shortest (value : Float32) : String :=
  String.join (unpackedShortest value.toModel.unpack)

end FuzzyMotion.Decimal
