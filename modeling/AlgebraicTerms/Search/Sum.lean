import AlgebraicTerms.Search.Binomial
import AlgebraicTerms.Term.Factoring

/-!
# Sums and differences

The candidates of a sum come from adding like terms, which settles it if one term is left, then from
taking out common factors with either sign, from binomial squares, and last from the first candidates
of its summands.  The rule that finds the common factors is an argument, since sums can be factored
in many ways.
-/

namespace AlgebraicTerms.Search

variable {α : Type} [Scalar α]

/-- The candidates of a term plus a number. -/
def offset (find : Finder α) (n : α) (t : Term α) : Search α (List (Term α)) :=
  if Scalar.isZero n then find t
  else
    match t.number? with
    | some m => return [.num (n + m)]
    | none => do
      let found ← find t
      match found.findSome? Term.number? with
      | some m => return [.num (n + m)]
      | none => return found.map (.bin .add (.num n))

/-- Adds the numbers among the summands and collects like terms. -/
def mergeSummands (find : Finder α) (ts : List (Term α)) : Search α (Merged α) := do
  let n := Term.sumOfNumbers ts
  match Term.others ts with
  | [] => return ⟨n, [], some [.num n]⟩
  | others =>
    match Term.collectOrZero others with
    | [only] => return ⟨n, [only], some (← offset find n only)⟩
    | rest => return ⟨n, rest, none⟩

/-- The sum with the coefficients of its summands gathered. -/
def finishSum (t : Term α) : Term α := Chain.sum.join (t.summands.map Term.withCoefficient)

/-- The candidates of a factored sum, and of the same with both signs flipped. -/
def factored (find : Finder α) (f : Term.Factoring α) : Search α (List (Term α)) :=
  let included := Chain.sum.join f.included
  let signs := [(f.factor, included), (.inv .neg f.factor, included.withSummandsNegated)]
  gather (fun (factor, included) => do
    let found ← find included
    if f.unused.isEmpty then return found.map (.bin .mul factor)
    else
      let unused := Chain.sum.join f.unused
      gather (fun t => find (.bin .add (.bin .mul factor t) unused)) found) signs

/-- The candidates from the combinations of those of the summands, after those found before, unless
one combination settles the sum.  Common factors are only looked for until something is found. -/
def combineSummands (rule : Term.FactoringRule α) (find : Finder α)
    (simplify : Term α → Search α (Term α)) (n : α) (found : List (Term α)) :
    List (List (Term α)) → Search α (Combined α)
  | [] => return .collected found
  | combo :: combos => do
    let merged ← mergeSummands find (.num n :: combo)
    match merged.settled with
    | some settled => return .settled (settled.map finishSum)
    | none =>
      let summands :=
        if Scalar.isZero merged.number then merged.rest else .num merged.number :: merged.rest
      let products := summands.map Term.factors
      let byFactors ←
        if found.isEmpty then gather (factored find) (rule summands products)
        else pure []
      let bySquares ← binomials find simplify summands products
      combineSummands rule find simplify n (found ++ byFactors ++ bySquares) combos

/-- The candidates of a sum. -/
def sum (rule : Term.FactoringRule α) (find : Finder α) (simplify : Term α → Search α (Term α))
    (t : Term α) : Search α (List (Term α)) := do
  let merged ← mergeSummands find (t.withExponents.operands.map Term.negationsAsProducts)
  match merged.settled with
  | some settled => return settled.map finishSum
  | none =>
    let found ← merged.rest.mapM find
    match ← combineSummands rule find simplify merged.number [] (combinations found) with
    | .settled settled => return settled
    | .collected sums =>
      let firsts := found.filterMap List.head?
      let plain := Chain.sum.join (firsts.map Term.withCoefficient)
      let plain :=
        if Scalar.isZero merged.number then plain else .bin .add plain (.num merged.number)
      return sums ++ [plain]

/-- The candidates of a difference, as the sum with the negated subtrahend. -/
def difference (rule : Term.FactoringRule α) (find : Finder α)
    (simplify : Term α → Search α (Term α)) (l r : Term α) : Search α (List (Term α)) :=
  sum rule find simplify (.bin .add l (.inv .neg r))

end AlgebraicTerms.Search
