import AlgebraicTerms.Proofs.Scalar.Legible
import Mathlib.Data.Rat.Floor
import Mathlib.Algebra.Order.Field.Rat
import Mathlib.Tactic.Linarith
import Mathlib.Tactic.NormNum

/-!
# Rationals as scalars

Exact arithmetic, in which every number is finite.  A fraction is written as its numerator, a point
and its denominator, so that every rational has a numeral of its own.  The square root of a number
without a rational one is `1/3`, which no rule takes for a root, and the constants and keywords
without rational values are zero.
-/

namespace AlgebraicTerms

namespace Rational

def isInteger (q : ℚ) : Bool := q.den = 1

/-- The number without its fraction. -/
def truncate (q : ℚ) : ℚ := if q < 0 then ⌈q⌉ else ⌊q⌋

def round (q : ℚ) : ℚ := if q < 0 then ⌈q - 1 / 2⌉ else ⌊q + 1 / 2⌋

def power (b e : ℚ) : ℚ := if isInteger e then b ^ e.num else 0

/-- Whether the number is the square of a rational. -/
def isSquare (q : ℚ) : Bool :=
  0 ≤ q ∧ q.num.toNat.sqrt ^ 2 = q.num.toNat ∧ q.den.sqrt ^ 2 = q.den

def sqrt (q : ℚ) : ℚ := if isSquare q then q.num.toNat.sqrt / q.den.sqrt else 1 / 3

/-- The numeral of a number that is not negative. -/
def numeral (q : ℚ) : List Char :=
  if q.den = 1 then Nat.toDigits 10 q.num.toNat
  else Nat.toDigits 10 q.num.toNat ++ '.' :: Nat.toDigits 10 q.den

def text (q : ℚ) : String := String.ofList (if q < 0 then '-' :: numeral (-q) else numeral q)

def natural (s : List Char) : Nat := Nat.ofDigitChars 10 s 0

def literal (s : String) : ℚ :=
  let whole := s.toList.takeWhile Char.isDigit
  match s.toList.dropWhile Char.isDigit with
  | [] => natural whole
  | _ :: rest => natural whole / natural rest

def call : Keyword → ℚ → ℚ
  | .abs, q | .hypot, q => |q|
  | .round, q => round q
  | .trunc, q | .int, q => truncate q
  | .float, q => q
  | _, _ => 0

/-- The remainders of Euclid's algorithm get smaller over a common denominator. -/
def euclidSteps (a b : ℚ) : Nat := (b.num * a.den).natAbs + 2

end Rational

instance : Scalar ℚ where
  ofNat n := n
  emptySum := 0
  lt a b := a < b
  isFinite _ := true
  isInteger := Rational.isInteger
  abs q := |q|
  rem a b := a - b * Rational.truncate (a / b)
  power := Rational.power
  sqrt := Rational.sqrt
  round := Rational.round
  lesser := min
  greater := max
  constant _ := 0
  call := Rational.call
  symbolicDegree := 9223372036854775808
  euclidSteps := Rational.euclidSteps
  text := Rational.text
  recordText := Rational.text
  literal := Rational.literal

namespace Rational

theorem isDigits_toDigits (n : Nat) : Token.IsDigits (Nat.toDigits 10 n) :=
  ⟨Nat.toDigits_ne_nil, fun _ hc => Nat.isDigit_of_mem_toDigits (by decide) (by decide) hc⟩

theorem isNumeral_numeral (q : ℚ) : Token.IsNumeral (numeral q) := by
  unfold numeral
  split
  · exact .inl (isDigits_toDigits _)
  · exact .inr ⟨_, _, isDigits_toDigits _, isDigits_toDigits _, rfl⟩

theorem natural_toDigits (n : Nat) : natural (Nat.toDigits 10 n) = n :=
  Nat.ofDigitChars_ten_toDigits

theorem literal_numeral {q : ℚ} (h : 0 ≤ q) : literal (String.ofList (numeral q)) = q := by
  have digits := isDigits_toDigits
  have whole : ((q.num.toNat : ℤ) : ℚ) = q.num := by
    rw [Int.toNat_of_nonneg (Rat.num_nonneg.2 h)]
  rw [literal, String.toList_ofList, numeral]
  by_cases hden : q.den = 1
  · have all := (digits q.num.toNat).2
    rw [if_pos hden, ← List.append_nil (Nat.toDigits 10 q.num.toNat),
      List.takeWhile_append_of_pos all, List.dropWhile_append_of_pos all]
    simp only [List.takeWhile_nil, List.dropWhile_nil, List.append_nil, natural_toDigits]
    rw [← Int.cast_natCast, whole]
    exact Rat.coe_int_num_of_den_eq_one hden
  · have all := (digits q.num.toNat).2
    rw [if_neg hden, List.takeWhile_append_of_pos all, List.dropWhile_append_of_pos all,
      List.takeWhile_cons_of_neg (by decide), List.dropWhile_cons_of_neg (by decide),
      List.append_nil]
    simp only [natural_toDigits]
    rw [← Int.cast_natCast, whole]
    exact Rat.num_div_den q

end Rational

namespace Rational

theorem isNegative_iff {q : ℚ} : Scalar.isNegative q = true ↔ q < 0 := by
  show decide (q < ((0 : ℕ) : ℚ)) = true ↔ q < 0
  rw [decide_eq_true_eq, Nat.cast_zero]

theorem isZero_iff {q : ℚ} : Scalar.isZero q = true ↔ q = 0 := by
  show (q == ((0 : ℕ) : ℚ)) = true ↔ q = 0
  rw [beq_iff_eq, Nat.cast_zero]

theorem text_of_nonneg {q : ℚ} (h : 0 ≤ q) : text q = String.ofList (numeral q) := by
  rw [text, if_neg (not_lt.2 h)]

theorem text_of_neg {q : ℚ} (h : q < 0) : text q = "-" ++ text (-q) := by
  have positive : 0 ≤ -q := by linarith
  rw [text_of_nonneg positive, text, if_pos h, ← String.toList_inj]
  simp only [String.toList_append, String.toList_ofList]
  rfl

end Rational

instance : Scalar.Legible ℚ where
  isNumeral_text {n} _ _ hneg := by
    have h : 0 ≤ n := not_lt.1 fun h => by rw [Rational.isNegative_iff.2 h] at hneg; cases hneg
    show Token.IsNumeral (Rational.text n).toList
    rw [Rational.text_of_nonneg h, String.toList_ofList]
    exact Rational.isNumeral_numeral n
  literal_text {n} _ _ hneg := by
    have h : 0 ≤ n := not_lt.1 fun h => by rw [Rational.isNegative_iff.2 h] at hneg; cases hneg
    show Rational.literal (Rational.text n) = n
    rw [Rational.text_of_nonneg h]
    exact Rational.literal_numeral h
  text_negative {n} _ hneg := Rational.text_of_neg (Rational.isNegative_iff.1 hneg)
  isFinite_neg _ := rfl
  not_isNegative_neg {n} h := by
    have := Rational.isNegative_iff.1 h
    exact Bool.eq_false_iff.2 fun h' => absurd (Rational.isNegative_iff.1 h') (by linarith)
  not_isZero_neg {n} h := by
    have := Rational.isNegative_iff.1 h
    exact Bool.eq_false_iff.2 fun h' => absurd (Rational.isZero_iff.1 h') (by linarith)
  not_isZero_of_isNegative {n} h := by
    have := Rational.isNegative_iff.1 h
    exact Bool.eq_false_iff.2 fun h' => absurd (Rational.isZero_iff.1 h') (by linarith)
  isZero_zero := Rational.isZero_iff.2 Nat.cast_zero
  text_zero := by
    show Rational.text ((0 : ℕ) : ℚ) = "0"
    rw [Nat.cast_zero, Rational.text_of_nonneg (le_refl 0)]
    rfl
  literal_zero := by
    have h := Rational.literal_numeral (le_refl (0 : ℚ))
    exact h.trans Nat.cast_zero.symm
  isFinite_one := rfl
  not_isZero_one := Bool.eq_false_iff.2 fun h => absurd (Rational.isZero_iff.1 h) (by
    show ((1 : ℕ) : ℚ) ≠ 0
    norm_num)
  not_isNegative_one := Bool.eq_false_iff.2 fun h => absurd (Rational.isNegative_iff.1 h) (by
    show ¬((1 : ℕ) : ℚ) < 0
    norm_num)
  text_one := by
    show Rational.text ((1 : ℕ) : ℚ) = "1"
    rw [Nat.cast_one, Rational.text_of_nonneg (by norm_num)]
    rfl
  text_two := by
    show Rational.text ((2 : ℕ) : ℚ) = "2"
    rw [Nat.cast_ofNat, Rational.text_of_nonneg (by norm_num)]
    rfl

theorem Rational.literal_nonneg (s : String) : 0 ≤ Rational.literal s := by
  simp only [Rational.literal]
  split <;> positivity

instance : Scalar.UnsignedLiterals ℚ where
  not_isNegative_literal {s} _ := Bool.eq_false_iff.2 fun h =>
    absurd (Rational.isNegative_iff.1 h) (not_lt.2 (Rational.literal_nonneg s))
  literal_of_isZero _ h := (Rational.isZero_iff.1 h).trans Nat.cast_zero.symm

end AlgebraicTerms
