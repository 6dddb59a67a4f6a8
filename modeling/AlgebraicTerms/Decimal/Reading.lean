/-!
# Reading numbers

The texts that stand for a double: an optional sign, then digits with an optional point and
exponent, or a name for infinity or for no number.  A decimal rounds to the nearest double.
-/

namespace AlgebraicTerms.Decimal

/-- The number that a run of digits stands for after the digits of `n`. -/
def digitsValue (n : Nat) (digits : List Char) : Nat :=
  digits.foldl (fun n c => 10 * n + (c.toNat - '0'.toNat)) n

/-- No double is below `10 ^ -400` or above `10 ^ 400`, so farther exponents need no arithmetic. -/
def farthestExponent : Int := 400

/-- The double nearest to `m · 10 ^ e`. -/
def nearest (m : Nat) (e : Int) : Float :=
  if m = 0 then 0
  else
    let top := (Nat.toDigits 10 m).length + e
    if top > farthestExponent then 1 / 0
    else if top < -farthestExponent then 0
    else if e < 0 then Float.ofScientific m true (-e).toNat
    else Float.ofScientific m false e.toNat

/-- The exponent after a mantissa, where nothing stands for zero. -/
def readExponent? : List Char → Option Int
  | [] => some 0
  | mark :: cs =>
    if mark = 'e' ∨ mark = 'E' then
      let (negative, digits) := match cs with
        | '-' :: ds => (true, ds)
        | '+' :: ds => (false, ds)
        | ds => (false, ds)
      if digits.isEmpty || !digits.all Char.isDigit then none
      else
        let e : Int := digitsValue 0 digits
        some (if negative then -e else e)
    else none

/-- A decimal without a sign. -/
def readMagnitude? (cs : List Char) : Option Float :=
  let whole := cs.takeWhile Char.isDigit
  let (fraction, rest) := match cs.dropWhile Char.isDigit with
    | '.' :: ds => (ds.takeWhile Char.isDigit, ds.dropWhile Char.isDigit)
    | ds => ([], ds)
  if whole.isEmpty && fraction.isEmpty then none
  else
    (readExponent? rest).map fun e =>
      nearest (digitsValue (digitsValue 0 whole) fraction) (e - fraction.length)

/-- A number without a sign, where letters count in either case. -/
def readUnsigned? (cs : List Char) : Option Float :=
  let name := String.ofList (cs.map Char.toLower)
  if name = "inf" ∨ name = "infinity" then some (1 / 0)
  else if name = "nan" then some (0 / 0)
  else readMagnitude? cs

/-- The number that a text stands for. -/
def read? (text : String) : Option Float :=
  match text.toList with
  | '-' :: cs => (readUnsigned? cs).map (- ·)
  | '+' :: cs => readUnsigned? cs
  | cs => readUnsigned? cs

end AlgebraicTerms.Decimal
