import AlgebraicTerms.Search
import AlgebraicTerms.Term.Identities

/-!
# Products and quotients

Factors that are powers are merged in pairs: `a^m*a^n` into `a^(m+n)`, `a^m*b^m` into `(a*b)^m`,
`a^m*b^(-m)` into `(a/b)^m`, and by the trigonometric identities.  Powers with the same base are
merged first, so that `cos(x)*sin(x)^(-1)*sin(x)` cancels instead of turning into a tangent.
-/

namespace AlgebraicTerms.Search

variable {α : Type} [Scalar α]

/-- What comes of two factors. -/
inductive PairOutcome (α : Type) where
  | apart
  | cancelled
  | merged (t : Term α)

/-- Whether a power is a plain factor or the reciprocal of one. -/
def isUnitExponent (t : Term α) : Bool := t.reads "1" || t.reads "-1"

/-- Merges two powers of different bases. -/
def mergeBases (find : Finder α) (a b : Term α) (base m base' n : Term α) :
    Search α (PairOutcome α) :=
  match Term.identityProduct? a b with
  | some t => return .merged t
  | none =>
    if isUnitExponent m && isUnitExponent n then return .apart
    else if m == n then do
      let product ← first find (.bin .mul base base')
      return .merged (.bin .pow product m)
    else if m == .inv .neg n then return .merged (.bin .pow (.bin .div base' base) n)
    else if n == .inv .neg m then return .merged (.bin .pow (.bin .div base base') m)
    else return .apart

/-- Merges two factors, and only powers of the same base if `sameBase` is set. -/
def mergePair (find : Finder α) (sameBase : Bool) (a b : Term α) : Search α (PairOutcome α) :=
  match a.power?, b.power? with
  | some (base, m), some (base', n) =>
    if base == base' then do
      let exponent ← first find (.bin .add m n)
      return if exponent.reads "0" then .cancelled else .merged (.bin .pow base exponent)
    else if sameBase then return .apart
    else mergeBases find a b base m base' n
  | _, _ => return .apart

/-- Merges a factor with those after it, and returns what became of it and the factors left over. -/
def absorb (find : Finder α) (sameBase : Bool) (a : Term α) :
    List (Term α) → Search α (Option (Term α) × List (Term α))
  | [] => return (some a, [])
  | b :: rest => do
    match ← mergePair find sameBase a b with
    | .apart =>
      let (power, left) ← absorb find sameBase a rest
      return (power, b :: left)
    | .cancelled => return (none, rest)
    | .merged t => if t.isPower then absorb find sameBase t rest else return (some t, rest)

/-- Merges every factor with those after it.  There are at most as many rounds as factors. -/
def mergePowersWithin (find : Finder α) (sameBase : Bool) :
    Nat → List (Term α) → Search α (List (Term α))
  | 0, ts => return ts
  | _ + 1, [] => return []
  | rounds + 1, t :: ts =>
    if t.isPower then do
      let (power, left) ← absorb find sameBase t ts
      return power.toList ++ (← mergePowersWithin find sameBase rounds left)
    else return t :: (← mergePowersWithin find sameBase rounds ts)

def mergePowers (find : Finder α) (sameBase : Bool) (ts : List (Term α)) :
    Search α (List (Term α)) :=
  mergePowersWithin find sameBase ts.length ts

/-- The candidates of a term times a number. -/
def scale (find : Finder α) (n : α) (t : Term α) : Search α (List (Term α)) :=
  if Scalar.isOne n then find t
  else
    match t.number? with
    | some m => return [.num (n * m)]
    | none => do
      let found ← find t
      match found.findSome? Term.number? with
      | some m => return [.num (n * m)]
      | none => return found.map (.bin .mul (.num n))

/-- Multiplies the numbers among the factors and merges the others. -/
def mergeFactors (find : Finder α) (ts : List (Term α)) : Search α (Merged α) := do
  let n := Term.productOfNumbers ts
  let others := Term.others ts
  if Scalar.isZero n then return ⟨n, others, some [.num Scalar.zero]⟩
  else if others.isEmpty then return ⟨n, others, some [.num n]⟩
  else
    let rest ← mergePowers find false (← mergePowers find true others)
    match rest with
    | [] => return ⟨n, [], some [.num n]⟩
    | [only] => return ⟨n, [only], some (← scale find n only)⟩
    | rest => return ⟨n, rest, none⟩

/-- The candidates from the combinations of those of the factors, unless one of them settles the
product. -/
def combineFactors (find : Finder α) (n : α) : List (List (Term α)) → Search α (Combined α)
  | [] => return .collected []
  | combo :: combos => do
    let merged ← mergeFactors find (.num n :: combo.map Term.powerAsReciprocal)
    match merged.settled with
    | some settled => return .settled settled
    | none =>
      match ← combineFactors find n combos with
      | .settled settled => return .settled settled
      | .collected found =>
        return .collected (Chain.product.join (.num merged.number :: merged.rest) :: found)

/-- The candidates of a product. -/
def product (find : Finder α) (t : Term α) : Search α (List (Term α)) := do
  let factors ← t.withExponents.operands.mapM fun f => ofExcept f.reciprocalAsPower
  let merged ← mergeFactors find factors
  match merged.settled with
  | some settled => return settled
  | none =>
    let found ← merged.rest.mapM find
    match ← combineFactors find merged.number (combinations found) with
    | .settled settled => return settled
    | .collected products =>
      let firsts := found.filterMap List.head?
      let plain :=
        Chain.product.join (.num merged.number :: firsts.map Term.powerAsReciprocal)
      return products ++ [plain]

/-- The candidates of a quotient, as the product with the reciprocals of the divisor's factors. -/
def quotient (find : Finder α) (l r : Term α) : Search α (List (Term α)) :=
  product find (.bin .mul l (Chain.product.join ((r.operandsIn .product).map (.inv .recip))))

end AlgebraicTerms.Search
