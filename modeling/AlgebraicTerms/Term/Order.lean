import AlgebraicTerms.Term.Operands

/-!
# Canonical order

The operands of every chain are ordered by degree, then by the letters of their variables.  Operands
that agree in both keep their order.  Remainders and powers stay as they are, with all inside them.
-/

namespace AlgebraicTerms

variable {α : Type} [Scalar α]

namespace Term

def degree : Term α → α
  | var _ _ => Scalar.one
  | bin .pow _ exponent => exponent.number?.getD Scalar.symbolicDegree
  | bin _ l r => Scalar.greater l.degree r.degree
  | call _ t | inv _ t => t.degree
  | _ => Scalar.zero

/-- The sum of the code points in the names of the variables outside exponents. -/
def weight : Term α → Nat
  | var name _ => name.toList.foldl (fun n c => n + c.toNat) 0
  | bin .pow base _ => base.weight
  | bin _ l r => l.weight + r.weight
  | call _ t | inv _ t => t.weight
  | _ => 0

end Term

/-- What an operand is ordered by. -/
structure SortKey (α : Type) where
  degree : α
  weight : Nat

/-- Whether a key comes strictly before another.  Degrees that cannot be compared count as equal. -/
def SortKey.before (a b : SortKey α) : Bool :=
  if Scalar.lt a.degree b.degree then true
  else if Scalar.lt b.degree a.degree then false
  else a.weight < b.weight

/-- Adds a keyed term to a list that is ordered last first. -/
def insertKeyed (x : SortKey α × Term α) :
    List (SortKey α × Term α) → List (SortKey α × Term α)
  | [] => [x]
  | y :: ys => if x.1.before y.1 then y :: insertKeyed x ys else x :: y :: ys

/-- The terms in order of their keys, by stable insertion. -/
def sortByKey (ts : List (Term α)) : List (Term α) :=
  let keyed := ts.map fun t => (SortKey.mk t.degree t.weight, t)
  ((keyed.foldl (fun done x => insertKeyed x done) []).map (·.2)).reverse

namespace Term

mutual

/-- The term with every chain in order. -/
def sorted : Term α → Term α
  | bin op l r =>
    match Chain.of? op with
    | none => bin op l r
    | some c => c.join (sortByKey (c.splice op (sortedOperands c l) (sortedOperands c r)))
  | call k t => call k t.sorted
  | inv i t => inv i t.sorted
  | t => t

/-- The operands of the term in a chain, each with every chain in order. -/
def sortedOperands (c : Chain) : Term α → List (Term α)
  | bin op l r =>
    match Chain.of? op with
    | none => [bin op l r]
    | some c' =>
      let operands := c'.splice op (sortedOperands c' l) (sortedOperands c' r)
      if c' = c then operands else [c'.join (sortByKey operands)]
  | call k t => [call k t.sorted]
  | inv i t => [inv i t.sorted]
  | t => [t]

end

end Term

end AlgebraicTerms
