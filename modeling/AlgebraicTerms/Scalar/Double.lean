import AlgebraicTerms.Decimal.Layout
import AlgebraicTerms.Decimal.Reading
import AlgebraicTerms.Scalar

/-!
# Doubles as scalars

IEEE double arithmetic.  Angles are in degrees.
-/

namespace AlgebraicTerms

namespace Double

/-- The number without its fraction. -/
def truncate (x : Float) : Float := if x < 0 then x.ceil else x.floor

def isInteger (x : Float) : Bool :=
  match Decimal.Binary.ofFloat x with
  | .finite _ m q => m % (1 <<< (-q).toNat) = 0
  | _ => false

/-- The double nearest to `π / 180`. -/
def radiansPerDegree : Float := 0.017453292519943295

def radians (degrees : Float) : Float := degrees * radiansPerDegree

/-- The largest whole number whose factorial is finite. -/
def largestFactorial : Float := 170

/-- The factorial of a whole number. -/
def factorial (x : Float) : Float :=
  if largestFactorial < x then 1 / 0
  else (List.range x.toUInt64.toNat).foldl (fun acc k => acc * Float.ofNat (k + 1)) 1

def call : Keyword → Float → Float
  | .fac, x => factorial x
  | .log, x => x.log
  | .abs, x => x.abs
  | .sin, x => (radians x).sin
  | .cos, x => (radians x).cos
  | .tan, x => (radians x).tan
  | .hypot, x => x.abs
  | .round, x => x.round
  | .trunc, x => truncate x
  | .int, x => truncate x
  | .float, x => x

def constant : Constant → Float
  | .pi => 3.141592653589793
  | .e => 2.718281828459045
  | .gold => (1 + Float.sqrt 5) / 2

/-- The lesser of two doubles, where no number counts as missing. -/
def lesser (x y : Float) : Float := if x.isNaN then y else if y < x then y else x

/-- The greater of two doubles, where no number counts as missing. -/
def greater (x y : Float) : Float := if x.isNaN then y else if x < y then y else x

/-- After the first division all signs agree, and from then on every second remainder is at most half
as large.  There are fewer than 2100 powers of two between the largest double and the smallest. -/
def euclidSteps : Nat := 8192

end Double

/-- A sum of no doubles is `-0`, which leaves every other double as it is.  A literal is always a
decimal, so that reading one does not fail. -/
instance : Scalar Float where
  ofNat := Float.ofNat
  emptySum := -0.0
  lt x y := x < y
  isFinite := Float.isFinite
  isInteger := Double.isInteger
  abs := Float.abs
  rem := Decimal.exactRem
  power := Float.pow
  sqrt := Float.sqrt
  round := Float.round
  lesser := Double.lesser
  greater := Double.greater
  constant := Double.constant
  call := Double.call
  symbolicDegree := 9223372036854775808
  euclidSteps _ _ := Double.euclidSteps
  text := Decimal.plain
  recordText := Decimal.exact
  literal s := (Decimal.read? s).getD 0

end AlgebraicTerms
