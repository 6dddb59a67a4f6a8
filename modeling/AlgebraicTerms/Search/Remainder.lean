import AlgebraicTerms.Search
import AlgebraicTerms.Term.Forms

/-!
# Remainders

Of a remainder only the first candidates of its operands are looked at.  Equal operands leave zero,
integers are evaluated, with the sign of the divisor, and no other number has a remainder.
-/

namespace AlgebraicTerms.Search

variable {α : Type} [Scalar α]

/-- The value of an operand, which must be an integer if it is a number at all. -/
def integer? (whole : Term α) (operand : Term α) : Except (DomainError α) (Option α) :=
  match operand.number? with
  | some n =>
    if Scalar.isInteger n then .ok (some n)
    else .error (.nonIntegerRemainder whole.withoutTrivialPowers.text)
  | none => .ok none

/-- The remainder of two operands that are as simple as they get. -/
def remainderOf (whole l r : Term α) : Except (DomainError α) (Term α) := do
  if l == r then return .num Scalar.zero
  else
    let a ← integer? whole l
    let b ← integer? whole r
    match a, b with
    | some a, some b =>
      if Scalar.isZero b then .error (.remainderByZero whole.withoutTrivialPowers.text)
      else return .num (Scalar.floorRem a b)
    | _, _ => return .bin .mod l r

/-- The candidate of a remainder. -/
def remainder (find : Finder α) (whole l r : Term α) : Search α (List (Term α)) := do
  let l ← first find l
  let r ← first find r
  return [← ofExcept (remainderOf whole l r)]

end AlgebraicTerms.Search
