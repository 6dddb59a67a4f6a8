import AlgebraicTerms.Decimal.Binary

/-!
# Shortest decimals

The fewest decimal digits that tell a binary fraction `m · 2 ^ q` apart from its neighbours, and of
those the nearest to it.  A number is told apart if it lies in the interval of reals that round to
`m · 2 ^ q`.  If a point of a decimal grid lies in that interval, then so does one of the two grid
points next to the fraction itself, so it suffices to try those two on ever finer grids.
-/

namespace AlgebraicTerms.Decimal

/-- The decimal `0.d₁d₂… · 10 ^ point`. -/
structure Digits where
  digits : List Char
  point : Int

/-- The fraction `2 ^ (q - 2) / 10 ^ p`.  The two spare bits make the ends of the rounding interval
whole multiples of it. -/
def gridRatio (q p : Int) : Nat × Nat :=
  (Nat.pow 10 (-p).toNat <<< (q - 2).toNat, Nat.pow 10 p.toNat <<< (2 - q).toNat)

/-- Whether `10 ^ e ≤ m · 2 ^ q`. -/
def reaches (m : Nat) (q e : Int) : Bool :=
  let (num, den) := gridRatio q e
  den ≤ 4 * m * num

/-- The exponent of the leading decimal digit of `m · 2 ^ q`.  The logarithm gives it up to one. -/
def leadingExponent (m : Nat) (q : Int) : Int :=
  let guess := (m.log2 + q) * 30103 / 100000
  if reaches m q (guess + 1) then guess + 1 else if reaches m q guess then guess else guess - 1

/-- The multiple of `10 ^ p` that stands for `m · 2 ^ q`: the nearest that rounds to it, the larger
one of two at the same distance.  The interval holds its ends iff `m` is even, and below a power of
two it is half as wide. -/
def gridPoint? (m : Nat) (q p : Int) : Option Nat :=
  let (num, den) := gridRatio q p
  let below := if m = Binary.leadingBit ∧ q ≠ Binary.leastExponent then 1 else 2
  let low := (4 * m - below) * num
  let high := (4 * m + 2) * num
  let value := 4 * m * num
  let inside (c : Nat) : Bool :=
    if m % 2 = 0 then low ≤ c * den && c * den ≤ high else low < c * den && c * den < high
  let c := value / den
  match inside c, inside (c + 1) with
  | true, true => some (if value - c * den < (c + 1) * den - value then c else c + 1)
  | true, false => some c
  | false, true => some (c + 1)
  | false, false => none

/-- The decimal `c · 10 ^ p` without trailing zeros. -/
def Digits.ofGrid (c : Nat) (p : Int) : Digits :=
  let all := Nat.toDigits 10 c
  ⟨(all.reverse.dropWhile (· == '0')).reverse, all.length + p⟩

/-- Seventeen digits tell every double apart. -/
def mostDigits : Nat := 17

/-- The shortest decimal of `m · 2 ^ q`, for a positive `m`. -/
def shortest (m : Nat) (q : Int) : Digits :=
  let top := leadingExponent m q
  let found := (List.range mostDigits).findSome? fun (extra : Nat) =>
    (gridPoint? m q (top - extra)).map fun c => Digits.ofGrid c (top - extra)
  found.getD ⟨[], 0⟩

end AlgebraicTerms.Decimal
