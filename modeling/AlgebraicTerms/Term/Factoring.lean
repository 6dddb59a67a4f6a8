import AlgebraicTerms.Term.Forms

/-!
# Common factors

The factors that two summands share, and the ways to take shared factors out of a sum.
-/

namespace AlgebraicTerms

namespace Term

variable {α : Type} [Scalar α]

/-- The factors that are not numbers, without their signs. -/
def unsignedOthers (ts : List (Term α)) : List (Term α) :=
  (others ts).map fun t => (t.operandOf? .neg).getD t

/-- The exponent that two powers of one base share: the smaller one of two numbers, and a difference
if one is not a number. -/
def sharedExponent (m n : Term α) : Term α :=
  match m.number?, n.number? with
  | some m, some n => num (Scalar.lesser m n)
  | some m, none => bin .add n (num (-m))
  | none, some n => bin .add m (num (-n))
  | none, none => bin .add m (inv .neg n)

/-- What two factors share: all if they read the same, and a power if they are powers of one base. -/
def sharedPower? (a b : Term α) : Option (Term α) :=
  if a == b then some a
  else
    match a.power?, b.power? with
    | some (base, m), some (base', n) =>
      if base == base' then some (bin .pow base (sharedExponent m n)) else none
    | _, _ => none

/-- The factors that two products share. -/
def sharedPowers (a b : List (Term α)) : List (Term α) :=
  (unsignedOthers a).flatMap fun x => (unsignedOthers b).filterMap (sharedPower? x)

/-- Factors that two summands share, and the common divisor of their coefficients. -/
structure Shared (α : Type) where
  factors : List (Term α)
  divisor : α

def sharedFactors (a b : List (Term α)) : Shared α :=
  ⟨sharedPowers a b,
    Scalar.roundThousandth (Scalar.gcd (productOfNumbers a) (productOfNumbers b))⟩

/-- The difference of two exponents. -/
def exponentDifference (own shared : Term α) : Term α :=
  if own == shared then num Scalar.zero
  else
    match shared.number?, own.number? with
    | some m, some n => num (n - m)
    | _, _ => bin .add own (inv .neg shared)

/-- The quotient of a factor by a shared factor, if both are operations on the same left side. -/
def dividedBy? (factor shared : Term α) : Option (Term α) :=
  if factor.isNumber then none
  else
    match factor.sides?, shared.sides? with
    | some (base, own), some (base', exponent) =>
      if base == base' then
        let left := exponentDifference own exponent
        some <|
          if left.reads "0" then num Scalar.one
          else if left.reads "1" then base'
          else bin .pow base' left
      else none
    | _, _ => none

/-- Divides the first factor that can be. -/
def divideFirst? (shared : Term α) : List (Term α) → Option (List (Term α))
  | [] => none
  | t :: ts =>
    match t.dividedBy? shared with
    | some quotient => some (quotient :: ts)
    | none => (divideFirst? shared ts).map (t :: ·)

/-- Divides a summand by those of the shared factors that it has, if it has any. -/
def divideOut? (summand : Term α) (shared : List (Term α)) : Option (Term α) :=
  let step (state : List (Term α) × Bool) (s : Term α) : List (Term α) × Bool :=
    match divideFirst? s state.1 with
    | some divided => (divided, true)
    | none => state
  let (factors, divided) := shared.foldl step (summand.operandsIn .product, false)
  if divided then some (Chain.product.join (num (productOfNumbers factors) :: others factors))
  else none

/-- A sum as a factor times some terms, plus the terms left over. -/
structure Factoring (α : Type) where
  factor : Term α
  included : List (Term α)
  unused : List (Term α)

/-- A term with its coefficient divided by a number. -/
def scaledDown (divisor : α) (t : Term α) : Term α :=
  let n := productOfNumbers t.operands / divisor
  let factors := others t.operands
  if Scalar.isZero n then num n
  else if Scalar.isOne n then Chain.product.join factors
  else Chain.product.join (num n :: factors)

/-- Takes shared factors out of all summands that have them: as they are and, unless the divisor of
the coefficients is trivial, together with it. -/
def factorOut (summands : List (Term α)) (shared : Shared α) : List (Factoring α) :=
  let factor := Chain.product.join shared.factors
  let included := summands.filterMap fun t =>
    (t.divideOut? shared.factors).map withCoefficient
  let unused := summands.filter fun t => (t.divideOut? shared.factors).isNone
  let plain : Factoring α := ⟨factor, included, unused⟩
  if Scalar.isOne (Scalar.abs shared.divisor) || Scalar.isZero shared.divisor then [plain]
  else
    [plain,
      ⟨bin .mul (num shared.divisor) factor, included.map (scaledDown shared.divisor), unused⟩]

/-- What the first two summands that share a factor have in common. -/
def firstShared? (products : List (List (Term α))) : Option (Shared α) :=
  let indexed := products.zipIdx
  indexed.findSome? fun (a, i) => indexed.findSome? fun (b, j) =>
    if i = j || (sharedPowers a b).isEmpty then none else some (sharedFactors a b)

/-- A rule that gives ways to factor a sum, which is given with the factors of each summand. -/
abbrev FactoringRule (α : Type) := List (Term α) → List (List (Term α)) → List (Factoring α)

/-- The ways to take out what the first two summands that share a factor have in common. -/
def factorings : FactoringRule α := fun summands products =>
  match firstShared? products with
  | some shared => factorOut summands shared
  | none => []

end Term

end AlgebraicTerms
