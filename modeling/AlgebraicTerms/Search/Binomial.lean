import AlgebraicTerms.Search.Product
import AlgebraicTerms.Term.LikeTerms

/-!
# Binomial squares

A sum with the squares of `a` and `b` and a summand that holds `2*a*b` is written with `(a+b)^2` or
`(a-b)^2`.  What is left of that summand must simplify to a single term: `a^2+3*a*b+b^2` becomes
`a*b+(a+b)^2`.
-/

namespace AlgebraicTerms.Search

variable {α : Type} [Scalar α]

/-- The factors of a square, its coefficient first.  The coefficient is positive and its root has at
most three decimal places. -/
def squareFactors? (factors : List (Term α)) : Option (List (Term α)) :=
  let n := Term.productOfNumbers factors
  let others := Term.others factors
  if Scalar.isNegative n || Scalar.isZero n then none
  else if !Scalar.isInteger (Scalar.sqrt n * Scalar.ofNat 1000) then none
  else if others.all fun t => t.power?.any fun (_, exponent) => exponent.reads "2" then
    some (.num n :: others)
  else none

/-- The square root of one of the factors of a square. -/
def squareRoot (t : Term α) : Term α :=
  match t.number?, t.power? with
  | some n, _ => .num (Scalar.sqrt n)
  | none, some (base, exponent) =>
    .bin .pow base (.num (exponent.number?.getD Scalar.two / Scalar.two))
  | none, none => t

/-- A square among the summands. -/
structure Square (α : Type) where
  index : Nat
  roots : List (Term α)

/-- The squares among the summands, each of which is given by its factors. -/
def squares (products : List (List (Term α))) : List (Square α) :=
  products.zipIdx.filterMap fun (factors, i) =>
    (squareFactors? factors).map fun square => ⟨i, square.map squareRoot⟩

/-- Every pair of an element and a later one. -/
def pairs {β : Type} : List β → List (β × β)
  | [] => []
  | x :: xs => xs.map (x, ·) ++ pairs xs

/-- Twice the product of the roots of two squares. -/
def doubleProduct (find : Finder α) (a b : Square α) : Search α (Term α) := do
  let merged ← mergeFactors find (.num Scalar.two :: a.roots ++ b.roots)
  match merged.settled with
  | some settled => return settled.head?.getD (.num merged.number)
  | none => return Chain.product.join (.num merged.number :: merged.rest)

/-- Writes a sum with a binomial square whose mixed term is in the summand with the given index. -/
def completeSquare (simplify : Term α → Search α (Term α)) (summands : List (Term α))
    (a b : Square α) (mixed : Term α) (summand : List (Term α) × Nat) :
    Search α (List (Term α)) := do
  let (factors, k) := summand
  if k = a.index ∨ k = b.index then return []
  else
    let t := Chain.product.join factors
    let negative := t.withCoefficient.isNegation
    let left ← simplify (.bin (if negative then .add else .sub) t mixed)
    if left.isSum then return []
    else
      let left := left.withExponents.negationsAsProducts
      let roots := Term.bin (if negative then .sub else .add)
        (Chain.product.join a.roots) (Chain.product.join b.roots)
      let unused := summands.zipIdx.filterMap fun (t, i) =>
        if i = a.index ∨ i = b.index ∨ i = k then none else some t
      let square := Term.bin .pow roots (.num Scalar.two)
      return [Chain.sum.join
        (unused ++ square :: if left.reads "0" then [] else [left])]

/-- The ways to write a sum with a binomial square. -/
def binomials (find : Finder α) (simplify : Term α → Search α (Term α))
    (summands : List (Term α)) (products : List (List (Term α))) : Search α (List (Term α)) :=
  gather (fun (a, b) => do
    let mixed ← doubleProduct find a b
    gather (completeSquare simplify summands a b mixed) products.zipIdx)
    (pairs (squares products))

end AlgebraicTerms.Search
