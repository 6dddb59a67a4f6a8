/-!
# Doubles as binary fractions

A finite double is `± m · 2 ^ q` for a natural number `m` below `2 ^ 53`.  Printing and exact
remainders work on that form in natural numbers.
-/

namespace AlgebraicTerms.Decimal

inductive Binary where
  | nan
  | infinite (negative : Bool)
  | finite (negative : Bool) (m : Nat) (q : Int)

namespace Binary

/-- The least exponent, that of zero and of the subnormal numbers. -/
def leastExponent : Int := -1074

/-- The least significand of a normal number, `2 ^ 52`. -/
def leadingBit : Nat := 1 <<< 52

def ofFloat (x : Float) : Binary :=
  let bits := x.toBits.toNat
  let negative := bits >>> 63 == 1
  let biased := (bits >>> 52) % 2048
  let fraction := bits % leadingBit
  if biased = 2047 then
    if fraction = 0 then .infinite negative else .nan
  else if biased = 0 then .finite negative fraction leastExponent
  else .finite negative (leadingBit + fraction) (leastExponent + (biased - 1 : Nat))

/-- The double `± m · 2 ^ q`, for an `m` below `2 ^ 53` and a `q` that came from a double.  The
significand is moved up to the leading bit of a normal number, or as far as the exponent goes down.
What it has above its fraction then adds to the exponent of the encoding, which is zero for subnormal
numbers. -/
def build (negative : Bool) (m : Nat) (q : Int) : Float :=
  let above := (q - leastExponent).toNat
  let shift := min (52 - m.log2) above
  let bits := if m = 0 then 0 else ((above - shift) <<< 52) + (m <<< shift)
  let magnitude := Float.ofBits (UInt64.ofNat bits)
  if negative then -magnitude else magnitude

end Binary

/-- The remainder of `a / b` with the sign of `a`.  It is exact: over the smaller of the two
exponents both significands are whole numbers, and their remainder is no larger than either. -/
def exactRem (a b : Float) : Float :=
  match Binary.ofFloat a, Binary.ofFloat b with
  | .finite negative m q, .finite _ n r =>
    if n = 0 then 0 / 0
    else
      let low := min q r
      let whole := m <<< (q - low).toNat
      let step := n <<< (r - low).toNat
      Binary.build negative (whole % step) low
  | .finite .., .infinite _ => a
  | _, _ => 0 / 0

end AlgebraicTerms.Decimal
