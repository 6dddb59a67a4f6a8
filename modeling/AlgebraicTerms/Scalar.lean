import AlgebraicTerms.Constant
import AlgebraicTerms.Keyword

/-!
# Scalars

The numbers of an expression.  Terms, their normal forms and the search for a simplest one are
written over any type with these operations; they run on doubles, and theorems about exact
arithmetic take an exact type instead.
-/

namespace AlgebraicTerms

class Scalar (α : Type) extends Add α, Sub α, Mul α, Div α, Neg α, BEq α where
  ofNat : Nat → α
  /-- The sum of no numbers. -/
  emptySum : α
  lt : α → α → Bool
  isFinite : α → Bool
  /-- Whether the number is finite and has no fraction. -/
  isInteger : α → Bool
  abs : α → α
  /-- The remainder of a division, with the sign of the dividend. -/
  rem : α → α → α
  power : α → α → α
  sqrt : α → α
  /-- The nearest integer, and of two the one farther from zero. -/
  round : α → α
  /-- The lesser of two numbers, or the one that is a number. -/
  lesser : α → α → α
  /-- The greater of two numbers, or the one that is a number. -/
  greater : α → α → α
  constant : Constant → α
  /-- A keyword's value, on arguments at which it is not refused. -/
  call : Keyword → α → α
  /-- The degree of a power whose exponent is no number, above that of every common power. -/
  symbolicDegree : α
  /-- A bound on the number of divisions that Euclid's algorithm takes on two numbers. -/
  euclidSteps : α → α → Nat
  /-- The number as it is written. -/
  text : α → String
  /-- The number as it is written in a record of an error. -/
  recordText : α → String
  /-- The value of an unsigned literal, digits with an optional point. -/
  literal : String → α

namespace Scalar

variable {α : Type} [Scalar α]

def zero : α := ofNat 0

def one : α := ofNat 1

def negOne : α := -(ofNat 1)

def two : α := ofNat 2

def isZero (n : α) : Bool := n == ofNat 0

def isOne (n : α) : Bool := n == ofNat 1

def isNegative (n : α) : Bool := lt n (ofNat 0)

/-- The remainder of a division, with the sign of the divisor. -/
def floorRem (a b : α) : α :=
  let r := rem a b
  if !isZero r && isNegative r != isNegative b then r + b else r

/-- Euclid's algorithm, for at most `steps` divisions. -/
def gcdWithin : Nat → α → α → α
  | 0, a, _ => a
  | steps + 1, a, b =>
    if !isZero b && isFinite b then gcdWithin steps b (floorRem a b) else a

/-- The greatest common divisor of two numbers, by remainders that have the sign of the divisor. -/
def gcd (a b : α) : α := gcdWithin (euclidSteps a b) a b

/-- The number to three decimal places. -/
def roundThousandth (n : α) : α := round (n * ofNat 1000) / ofNat 1000

def sum (ns : List α) : α := ns.foldl (· + ·) emptySum

def product (ns : List α) : α := ns.foldl (· * ·) (ofNat 1)

end Scalar

end AlgebraicTerms
