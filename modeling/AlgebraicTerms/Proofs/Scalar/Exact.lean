import AlgebraicTerms.Proofs.Scalar.Rational
import Mathlib.Algebra.BigOperators.Group.List.Basic

/-!
# Exact scalars

Scalars that stand for rationals and compute with them exactly, so that rounding plays no part in what
is proved about terms.  A square root need only be exact where the search for squares accepts it.
-/

namespace AlgebraicTerms

open Scalar in
class Scalar.Exact (α : Type) [Scalar α] where
  value : α → ℚ
  finite (n : α) : isFinite n = true
  value_ofNat (n : ℕ) : value (ofNat n : α) = n
  value_emptySum : value (emptySum : α) = 0
  value_add (a b : α) : value (a + b) = value a + value b
  value_mul (a b : α) : value (a * b) = value a * value b
  value_div (a b : α) : value b ≠ 0 → value (a / b) = value a / value b
  value_neg (a : α) : value (-a) = -value a
  beq_iff {a b : α} : (a == b) = true ↔ value a = value b
  lt_iff {a b : α} : lt a b = true ↔ value a < value b
  value_power {b e : α} {n : ℤ} : value e = n → value b ≠ 0 ∨ 0 < n →
    value (power b e) = value b ^ n
  value_sqrt {n : α} : isNegative n = false → isInteger (sqrt n * ofNat 1000) = true →
    value (sqrt n) ^ 2 = value n

namespace Scalar

variable {α : Type} [Scalar α] [Exact α]

open Exact

instance plainOne_of_exact [Legible α] : PlainOne α :=
  .of_sign fun n negative => ⟨_, Legible.text_negative (finite n) negative⟩

theorem value_zero : value (zero : α) = 0 := (value_ofNat 0).trans Nat.cast_zero

theorem value_one : value (one : α) = 1 := (value_ofNat 1).trans Nat.cast_one

theorem value_two : value (two : α) = 2 := value_ofNat 2

theorem value_negOne : value (negOne : α) = -1 := by
  rw [negOne, value_neg, value_ofNat, Nat.cast_one]

theorem isZero_iff {n : α} : isZero n = true ↔ value n = 0 := by
  rw [isZero, beq_iff, value_ofNat, Nat.cast_zero]

theorem isOne_iff {n : α} : isOne n = true ↔ value n = 1 := by
  rw [isOne, beq_iff, value_ofNat, Nat.cast_one]

theorem isNegative_iff {n : α} : isNegative n = true ↔ value n < 0 := by
  rw [isNegative, lt_iff, value_ofNat, Nat.cast_zero]

theorem value_sum (ns : List α) : value (sum ns) = (ns.map value).sum := by
  have step (n : α) : value (ns.foldl (· + ·) n) = value n + (ns.map value).sum := by
    induction ns generalizing n with
    | nil => rw [List.foldl_nil, List.map_nil, List.sum_nil, add_zero]
    | cons m ns ih => rw [List.foldl_cons, ih, value_add, List.map_cons, List.sum_cons, add_assoc]
  rw [sum, step, value_emptySum, zero_add]

theorem value_product (ns : List α) : value (product ns) = (ns.map value).prod := by
  have step (n : α) : value (ns.foldl (· * ·) n) = value n * (ns.map value).prod := by
    induction ns generalizing n with
    | nil => rw [List.foldl_nil, List.map_nil, List.prod_nil, mul_one]
    | cons m ns ih => rw [List.foldl_cons, ih, value_mul, List.map_cons, List.prod_cons, mul_assoc]
  rw [product, step, value_ofNat, Nat.cast_one, one_mul]

end Scalar

namespace Rational

theorem power_of_isInteger {b e : ℚ} {n : ℤ} (h : e = n) : power b e = b ^ n := by
  subst h
  have whole : isInteger (n : ℚ) = true := decide_eq_true (Rat.den_intCast n)
  rw [power, if_pos whole, Rat.num_intCast]

/-- The square of an accepted root is the number. -/
theorem sqrt_sq {q : ℚ} (hq : 0 ≤ q) (h : isInteger (sqrt q * 1000) = true) : sqrt q ^ 2 = q := by
  rw [sqrt] at h ⊢
  by_cases square : isSquare q = true
  · obtain ⟨_, hnum, hden⟩ := of_decide_eq_true square
    have den : ((q.den.sqrt : ℚ)) ^ 2 = q.den := by exact_mod_cast hden
    have num : ((q.num.toNat.sqrt : ℚ)) ^ 2 = q.num := by
      have whole : ((q.num.toNat : ℤ) : ℚ) = q.num := by
        rw [Int.toNat_of_nonneg (Rat.num_nonneg.2 hq)]
      rw [← whole]
      exact_mod_cast hnum
    rw [if_pos square, div_pow, num, den, Rat.num_div_den]
  · rw [if_neg square] at h
    have third : ¬isInteger (1 / 3 * 1000) = true := by decide +kernel
    exact absurd h third

end Rational

instance : Scalar.Exact ℚ where
  value := id
  finite _ := rfl
  value_ofNat _ := rfl
  value_emptySum := rfl
  value_add _ _ := rfl
  value_mul _ _ := rfl
  value_div _ _ _ := rfl
  value_neg _ := rfl
  beq_iff := beq_iff_eq
  lt_iff := decide_eq_true_iff
  value_power h _ := Rational.power_of_isInteger h
  value_sqrt {n} hn h := by
    refine Rational.sqrt_sq (not_lt.1 fun negative => ?_) h
    rw [Rational.isNegative_iff.2 negative] at hn
    cases hn

end AlgebraicTerms
