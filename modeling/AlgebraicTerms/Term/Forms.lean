import AlgebraicTerms.DomainError
import AlgebraicTerms.Term.Operands

/-!
# Equivalent forms

Conversions between forms of the same value, in pairs.  Like factors are found by their bases, so the
search writes every variable and call as a power; inverses turn into powers and products with `-1`
while a rule is at work, and back afterwards.
-/

namespace AlgebraicTerms

namespace Term

variable {α : Type} [Scalar α]

/-- Writes every variable and call outside a power as a power with exponent `1`.  The arguments of
calls stay as they are, so that `sin(x)` and the base of `sin(x)^2` stay equal. -/
def withExponents : Term α → Term α
  | bin .pow base exponent => bin .pow base exponent
  | bin op l r => bin op l.withExponents r.withExponents
  | inv i t => inv i t.withExponents
  | call k t => bin .pow (call k t) (num Scalar.one)
  | var name index => bin .pow (var name index) (num Scalar.one)
  | t => t

/-- Removes trivial powers: `x^1` is `x` and `x^0` is `1`. -/
def withoutTrivialPowers : Term α → Term α
  | bin .pow base exponent =>
    if exponent.reads "1" then base.withoutTrivialPowers
    else if exponent.reads "0" then num Scalar.one
    else bin .pow base.withoutTrivialPowers exponent.withoutTrivialPowers
  | bin op l r => bin op l.withoutTrivialPowers r.withoutTrivialPowers
  | inv i t => inv i t.withoutTrivialPowers
  | call k t => call k t.withoutTrivialPowers
  | t => t

/-- The additive inverse.  Numbers and double negations are resolved. -/
def negated (t : Term α) : Term α :=
  match t with
  | inv .neg operand => operand
  | t =>
    match t.number? with
    | some n => num (-n)
    | none => inv .neg t

/-- The reciprocal.  Numbers and double reciprocals are resolved, and zero has none. -/
def reciprocal (t : Term α) : Except (DomainError α) (Term α) :=
  match t.number? with
  | some n => if Scalar.isZero n then .error .divisionByZero else .ok (num (Scalar.one / n))
  | none => .ok ((t.operandOf? .recip).getD (inv .recip t))

def inverted (i : Inverse) (t : Term α) : Except (DomainError α) (Term α) :=
  match i with
  | .neg => .ok t.negated
  | .recip => t.reciprocal

/-- Writes a reciprocal as a power: `1 / x` as `x^(-1)`, and `1 / x^n` as `x^(-n)`. -/
def reciprocalAsPower (t : Term α) : Except (DomainError α) (Term α) :=
  match t.operandOf? .recip with
  | none => .ok t
  | some operand =>
    match operand.operandOf? .recip, operand.power?, operand.number? with
    | some inner, _, _ => .ok inner
    | none, some (base, exponent), _ => .ok (bin .pow base exponent.negated)
    | none, none, some n =>
      if Scalar.isZero n then .error .divisionByZero else .ok (num (Scalar.one / n))
    | none, none, none => .ok (bin .pow operand (num Scalar.negOne))

/-- Writes a power with a negative exponent as a reciprocal. -/
def powerAsReciprocal (t : Term α) : Term α :=
  match t.power? with
  | none => t
  | some (base, exponent) =>
    match exponent.number? with
    | some n =>
      if n == Scalar.negOne then inv .recip base
      else if Scalar.isNegative n then inv .recip (bin .pow base (num (-n)))
      else t
    | none =>
      match exponent.operandOf? .neg with
      | some positive => inv .recip (bin .pow base positive)
      | none => t

/-- Writes every negation below binary operations as a product with `-1`. -/
def negationsAsProducts : Term α → Term α
  | inv .neg (inv .neg t) => t.negationsAsProducts
  | inv .neg t => bin .mul (num Scalar.negOne) t
  | bin op l r => bin op l.negationsAsProducts r.negationsAsProducts
  | t => t

/-- The coefficient of a product and its other factors, where a negated factor changes the sign. -/
structure Gathered (α : Type) where
  coefficient : α
  factors : List (Term α)

/-- Takes one more factor into account. -/
def Gathered.add (g : Gathered α) (t : Term α) : Gathered α :=
  match t.number?, t.operandOf? .neg with
  | some n, _ => { g with coefficient := g.coefficient * n }
  | none, some operand => ⟨-g.coefficient, g.factors ++ [operand]⟩
  | none, none => { g with factors := g.factors ++ [t] }

/-- The product with its coefficient in front, and with a negative coefficient as a negation. -/
def Gathered.toTerm (g : Gathered α) : Term α :=
  let c := g.coefficient
  if c == Scalar.negOne then inv .neg (Chain.product.join g.factors)
  else if Scalar.isOne c then Chain.product.join g.factors
  else if Scalar.isZero c then num Scalar.zero
  else if Scalar.isNegative c then inv .neg (Chain.product.join (num (-c) :: g.factors))
  else Chain.product.join (num c :: g.factors)

/-- Gathers the numbers of a product into one coefficient: `a*(-2)*b` becomes `-(2*a*b)`. -/
def withCoefficient (t : Term α) : Term α :=
  match t with
  | bin .mul _ _ => (t.operands.foldl Gathered.add ⟨Scalar.one, []⟩).toTerm
  | t => t

/-- The sum of the negated summands. -/
def withSummandsNegated (t : Term α) : Term α :=
  Chain.sum.join ((t.operandsIn .sum).map negated)

end Term

end AlgebraicTerms
