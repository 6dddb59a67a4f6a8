import AlgebraicTerms.Decimal.Shortest

/-!
# Layouts of numbers

Two ways to write a double.  The plain one is positional for every magnitude and writes whole
numbers without a point.  The exact one, used inside records, always shows that a number is no
integer: it keeps `.0`, and leaves positional notation outside `10 ^ -4 ≤ |x| < 10 ^ 16`.
-/

namespace AlgebraicTerms.Decimal

/-- The decimal `0.d₁d₂… · 10 ^ point` in positional notation. -/
def positional (d : Digits) : List Char :=
  let len : Int := d.digits.length
  if d.point ≤ 0 then '0' :: '.' :: List.replicate (-d.point).toNat '0' ++ d.digits
  else if len ≤ d.point then d.digits ++ List.replicate (d.point - len).toNat '0'
  else d.digits.take d.point.toNat ++ '.' :: d.digits.drop d.point.toNat

/-- The decimal as `d₁.d₂…e` and an exponent, which has no sign if it is positive. -/
def scientific (d : Digits) : List Char :=
  let head := d.digits.take 1
  let tail := d.digits.drop 1
  let mantissa := if tail.isEmpty then head else head ++ '.' :: tail
  mantissa ++ 'e' :: (toString (d.point - 1)).toList

/-- Positional notation with `.0` after a whole number. -/
def positionalWithPoint (d : Digits) : List Char :=
  let text := positional d
  if (d.digits.length : Int) ≤ d.point then text ++ ['.', '0'] else text

/-- The text of a magnitude with the sign in front.  Zero keeps its sign. -/
def signed (negative : Bool) (text : List Char) : String :=
  String.ofList (if negative then '-' :: text else text)

/-- A whole number below `2 ^ 53` is its own shortest decimal: the interval of reals that round to it
is no wider than one, so it holds no other whole number, and a shorter decimal would be one. -/
def smallWhole? (m : Nat) (q : Int) : Option Nat :=
  if q = 0 then some m
  else if q < 0 ∧ (m >>> (-q).toNat) <<< (-q).toNat = m then some (m >>> (-q).toNat)
  else none

/-- The plain text of a double. -/
def plain (x : Float) : String :=
  match Binary.ofFloat x with
  | .nan => "NaN"
  | .infinite negative => signed negative ['i', 'n', 'f']
  | .finite negative m q =>
    match smallWhole? m q with
    | some n => signed negative (Nat.toDigits 10 n)
    | none => signed negative (positional (shortest m q))

/-- The text of a double inside a record. -/
def exact (x : Float) : String :=
  match Binary.ofFloat x with
  | .nan => "NaN"
  | .infinite negative => signed negative ['i', 'n', 'f']
  | .finite negative m q =>
    if m = 0 then signed negative ['0', '.', '0']
    else
      let d := shortest m q
      if -3 ≤ d.point ∧ d.point ≤ 16 then signed negative (positionalWithPoint d)
      else signed negative (scientific d)

end AlgebraicTerms.Decimal
