import AlgebraicTerms.Operator

/-!
# Chains

A chain is a run of operands joined by an operator and its inverse operator: `a-b+c` is a chain of
sums, `a/b*c` one of products.  An operand after the inverse operator stands for the inverse of
itself, so that a chain is determined by the list of its operands.
-/

namespace AlgebraicTerms

/-- The two inverses of an expression: `-x` and `1 / x`. -/
inductive Inverse where
  | neg
  | recip
  deriving DecidableEq

inductive Chain where
  | sum
  | product
  deriving DecidableEq

namespace Chain

/-- The operator that joins the operands. -/
def op : Chain → Operator
  | .sum => .add
  | .product => .mul

/-- The operator that joins the inverse of an operand. -/
def inverseOp : Chain → Operator
  | .sum => .sub
  | .product => .div

def inverse : Chain → Inverse
  | .sum => .neg
  | .product => .recip

/-- The identity of the chain's operator, as a count and as it is written. -/
def identity : Chain → Nat
  | .sum => 0
  | .product => 1

def identityText : Chain → String
  | .sum => "0"
  | .product => "1"

/-- The chain an operator belongs to.  Remainders and powers form none. -/
def of? : Operator → Option Chain
  | .add | .sub => some .sum
  | .mul | .div => some .product
  | .mod | .pow => none

end Chain

end AlgebraicTerms
