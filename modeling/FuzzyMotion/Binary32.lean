/-!
Comparison, clamping and remainders of binary32 numbers. Arithmetic itself is the built-in `Float32`,
each operation rounded once; here are the operations whose answer on a value that is not a number
matters to fuzzy logic, and the remainder of a truncating division. The remainder is computed on
significands as whole numbers, so it is exact: the dividend minus a whole multiple of the divisor.
-/
namespace FuzzyMotion.Binary32

open Float.Model (UnpackedFloat Format)
open Float.Model.UnpackedFloat (Sign normalize)

/-- The smaller of two numbers; beside a value that is not a number, the other one. -/
def min (a b : Float32) : Float32 :=
  if a.isNaN then b else if b < a then b else a

/-- The larger of two numbers; beside a value that is not a number, the other one. -/
def max (a b : Float32) : Float32 :=
  if a.isNaN then b else if a < b then b else a

/-- The nearest point of the interval; a value that is not a number stays as it is. -/
def clamp (low high value : Float32) : Float32 :=
  if value < low then low else if high < value then high else value

/-- A degree of truth is a number between zero and one. -/
def toDegree (value : Float32) : Float32 :=
  clamp 0 1 value

def isZero (value : Float32) : Bool :=
  value == 0

/-- Sum from the left, rounded after every addition. -/
def sum (values : List Float32) : Float32 :=
  values.foldl (· + ·) 0

@[simp] theorem sum_nil : sum [] = 0 := rfl

/-- The half-turn, in radians. -/
def pi : Float32 := Float32.ofBits 0x40490FDB

/-- The full turn, in radians. -/
def tau : Float32 := Float32.ofBits 0x40C90FDB

/-- Zero for everything that is not positive; a value that is not a number stays one. -/
def sqrt (value : Float32) : Float32 :=
  if value ≤ 0 then 0 else value.sqrt

/-- Both magnitudes in units of the finer of their two scales, divided as whole numbers. The result
takes the sign of the dividend, also where it is zero. -/
def unpackedRemainder : UnpackedFloat → UnpackedFloat → UnpackedFloat
  | .notANumber, _ => .notANumber
  | _, .notANumber => .notANumber
  | .infinity _, _ => .notANumber
  | _, .zero _ => .notANumber
  | .zero s, _ => .zero s
  | x, .infinity _ => x
  | .finite s m e _, .finite _ n f _ =>
    let unit := if e ≤ f then e else f
    let rest := (m <<< (e - unit).toNat) % (n <<< (f - unit).toNat)
    normalize Format.binary32 (s.apply rest) unit s

def remainder (x y : Float32) : Float32 :=
  Float32.ofModel (Float32.Model.pack (unpackedRemainder x.toModel.unpack y.toModel.unpack))

end FuzzyMotion.Binary32
