import AlgebraicTerms.Term.Forms

/-!
# Expansion

Products of sums are multiplied out: `(a+b)*(c-d)` becomes `c*a-d*a+c*b-d*b`.  Inside a product only
its factors are looked at, and below other operations every product.
-/

namespace AlgebraicTerms

namespace Term

variable {α : Type} [Scalar α]

/-- The products of every term of a sum with every product.  The terms of the sum vary fastest, and
each goes in front. -/
def distribute (products : List (List (Term α))) (sum : Term α) : List (List (Term α)) :=
  products.flatMap fun product => sum.operands.map (· :: product)

/-- The products that the factors of a product multiply out to. -/
def expandedProducts (factors : List (Term α)) : List (List (Term α)) :=
  let sums := factors.filter isSum
  let others := factors.filter (!·.isSum)
  if others.isEmpty then
    match sums with
    | [] => [[]]
    | first :: rest => rest.foldl distribute (first.operands.map ([·]))
  else sums.foldl distribute [others]

/-- The term with its products multiplied out. -/
def expanded : Term α → Term α
  | bin .mul l r =>
    let products := expandedProducts (bin .mul l r).operands
    (Chain.sum.join (products.map Chain.product.join)).negationsAsProducts
  | bin op l r => bin op l.expanded r.expanded
  | t => t

end Term

end AlgebraicTerms
