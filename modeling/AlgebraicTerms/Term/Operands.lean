import AlgebraicTerms.Term

/-!
# Operands of a chain

`a-b+c` has the operands `a`, `-b` and `c`, and `a/b*c` has `a`, `1 / b` and `c`.  A term is taken
apart into the operands of its chain by `operands`, and a chain is put together from operands by
`Chain.join`.
-/

namespace AlgebraicTerms

variable {α : Type}

/-- The operands of a chain whose two sides have the given operands, where the inverse operator
inverts those on its right. -/
def Chain.splice (c : Chain) (op : Operator) (ls rs : List (Term α)) : List (Term α) :=
  ls ++ if op = c.op then rs else rs.map (.inv c.inverse)

namespace Term

/-- The operands of the term in a chain.  Anything but an operation of the chain is its only
operand. -/
def operandsIn (c : Chain) : Term α → List (Term α)
  | bin op l r =>
    if Chain.of? op = some c then c.splice op (l.operandsIn c) (r.operandsIn c) else [bin op l r]
  | t => [t]

/-- The operands of the term under one operator, without inverses. -/
def operandsUnder (op : Operator) : Term α → List (Term α)
  | bin op' l r =>
    if op' = op then l.operandsUnder op ++ r.operandsUnder op else [bin op' l r]
  | t => [t]

/-- The operands of the term in the chain of its own operator.  An inverse of a chain is the chain of
the inverses. -/
def operands : Term α → List (Term α)
  | bin op l r =>
    match Chain.of? op with
    | some c => (bin op l r).operandsIn c
    | none => (bin op l r).operandsUnder op
  | inv i t => t.operands.map (inv i)
  | t => [t]

variable [Scalar α]

/-- The operands that are not numbers. -/
def others (ts : List (Term α)) : List (Term α) := ts.filter (!·.isNumber)

def numbers (ts : List (Term α)) : List α := ts.filterMap number?

/-- The sum of the numbers among the operands. -/
def sumOfNumbers (ts : List (Term α)) : α := Scalar.sum (numbers ts)

/-- The product of the numbers among the operands. -/
def productOfNumbers (ts : List (Term α)) : α := Scalar.product (numbers ts)

/-- The factors of `1*t`. -/
def factors (t : Term α) : List (Term α) := num Scalar.one :: t.operandsIn .product

/-- The summands of `0+t`. -/
def summands (t : Term α) : List (Term α) := num Scalar.zero :: t.operandsIn .sum

end Term

namespace Chain

variable [Scalar α]

/-- A chain with one more operand.  The identity adds nothing, an inverse is joined by the inverse
operator, and a negative number is subtracted. -/
def append (c : Chain) (chain t : Term α) : Term α :=
  if t.reads c.identityText then chain
  else if chain.reads c.identityText then t
  else
    match t with
    | .inv i operand => if i = c.inverse then .bin c.inverseOp chain operand else .bin c.op chain t
    | .num n =>
      if c = .sum ∧ Scalar.isNegative n then .bin .sub chain (.num (-n)) else .bin c.op chain t
    | _ => .bin c.op chain t

/-- The chain of the given operands.  Without any it is the identity. -/
def join (c : Chain) : List (Term α) → Term α
  | [] => .num (Scalar.ofNat c.identity)
  | t :: ts => ts.foldl c.append t

end Chain

end AlgebraicTerms
