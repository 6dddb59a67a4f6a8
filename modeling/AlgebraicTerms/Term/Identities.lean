import AlgebraicTerms.Term.Forms

/-!
# Trigonometric identities

`sin(x)^2 + cos(x)^2 = 1` and `sin(x)^n * cos(x)^(-n) = tan(x)^n`, with the operands in either order.
-/

namespace AlgebraicTerms

namespace Term

variable {α : Type} [Scalar α]

/-- The argument and exponent of a power of a call of the keyword. -/
def poweredCall? (k : Keyword) (t : Term α) : Option (Term α × Term α) := do
  let (base, exponent) ← t.power?
  let (called, argument) ← base.call?
  if called = k then some (argument, exponent) else none

/-- What `sin(x)^2` and `cos(x)^2`, in this order, add up to. -/
def squaresSum? (a b : Term α) : Option (Term α) := do
  let (x, m) ← a.poweredCall? .sin
  let (y, n) ← b.poweredCall? .cos
  if m.reads "2" && n.reads "2" && x == y then some (num Scalar.one) else none

/-- What `sin(x)^n` and `cos(x)^(-n)`, in this order, multiply to. -/
def sineOverCosine? (a b : Term α) : Option (Term α) := do
  let (x, m) ← a.poweredCall? .sin
  let (y, n) ← b.poweredCall? .cos
  if x == y && m == n.negated then some (bin .pow (call .tan x) m) else none

/-- The sum of two summands by the identities. -/
def trigonometricSum? (a b : Term α) : Option (Term α) := squaresSum? a b <|> squaresSum? b a

/-- The product of two factors by the identities. -/
def trigonometricProduct? (a b : Term α) : Option (Term α) :=
  sineOverCosine? a b <|> sineOverCosine? b a

/-- Whether the term is an operation on a call that obeys the identities. -/
def leadsTrigonometric (t : Term α) : Bool := t.leftKeyword?.any Keyword.isTrigonometric

/-- The sum of two summands by an identity, if one of them leads with a keyword that has one. -/
def identitySum? (a b : Term α) : Option (Term α) :=
  if a.leadsTrigonometric then trigonometricSum? a b
  else if b.leadsTrigonometric then trigonometricSum? b a
  else none

/-- The product of two factors by an identity, if one of them leads with a keyword that has one. -/
def identityProduct? (a b : Term α) : Option (Term α) :=
  if a.leadsTrigonometric then trigonometricProduct? a b
  else if b.leadsTrigonometric then trigonometricProduct? b a
  else none

end Term

end AlgebraicTerms
