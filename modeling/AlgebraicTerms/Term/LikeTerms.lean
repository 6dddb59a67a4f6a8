import AlgebraicTerms.Term.Identities

/-!
# Like terms

Two summands are alike if their factors other than numbers read the same.  Like summands are added
by adding their coefficients, and those whose coefficients cancel are left out.
-/

namespace AlgebraicTerms

namespace Term

variable {α : Type} [Scalar α]

/-- The coefficient of a summand and its other factors: `3*a*b` is `3` and `a`, `b`. -/
structure Monomial (α : Type) where
  coefficient : α
  factors : List (Term α)

namespace Monomial

def of (t : Term α) : Monomial α := ⟨productOfNumbers t.factors, others t.factors⟩

/-- The factors without the coefficient. -/
def product (m : Monomial α) : Term α := Chain.product.join m.factors

end Monomial

/-- A summand that others are being added to.  The sum is absent once its coefficients cancelled. -/
structure Pile (α : Type) where
  sum : Option (Term α)
  monomial : Monomial α

namespace Pile

def of (t : Term α) : Pile α := ⟨some t, Monomial.of t⟩

/-- The pile with one more summand, if that is alike or an identity joins the two.  Summands without
factors are all alike. -/
def add? (p : Pile α) (t : Term α) : Option (Pile α) :=
  match p.sum.bind (identitySum? · t) with
  | some sum => some (of sum)
  | none =>
    let own := p.monomial
    let other := Monomial.of t
    let total := own.coefficient + other.coefficient
    match own.factors.isEmpty, other.factors.isEmpty with
    | true, true => some ⟨some (num total), ⟨total, own.factors⟩⟩
    | false, false =>
      if own.product == other.product then
        some ⟨if Scalar.isZero total then none else some (bin .mul (num total) own.product),
          ⟨total, own.factors⟩⟩
      else none
    | _, _ => none

/-- Adds all summands to the pile that can be, and returns the sum with the summands left over. -/
def addAll (p : Pile α) : List (Term α) → Option (Term α) × List (Term α)
  | [] => (p.sum, [])
  | t :: ts =>
    match p.add? t with
    | some p => p.addAll ts
    | none =>
      let (sum, left) := p.addAll ts
      (sum, t :: left)

end Pile

/-- Adds up like summands, each time all that are like the first.  There are at most as many piles as
summands. -/
def collectWithin : Nat → List (Term α) → List (Term α)
  | 0, ts => ts
  | _ + 1, [] => []
  | piles + 1, t :: ts =>
    let (sum, left) := (Pile.of t).addAll ts
    sum.toList ++ collectWithin piles left

/-- The sums of like summands, in the order of their first summands. -/
def collect (ts : List (Term α)) : List (Term α) := collectWithin ts.length ts

/-- The sums of like summands, or zero if all of them cancelled. -/
def collectOrZero (ts : List (Term α)) : List (Term α) :=
  match collect ts with
  | [] => [num Scalar.zero]
  | sums => sums

end Term

end AlgebraicTerms
