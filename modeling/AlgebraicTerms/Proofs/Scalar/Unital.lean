import AlgebraicTerms.Proofs.Scalar.Legible
import AlgebraicTerms.Proofs.Scalar.Ordered

/-!
# Unital scalars

Scalars that nothing is rounded with when they are multiplied by one or minus one, or added to no
numbers.  Finite doubles are multiplied and added so as well: the sum of no numbers is the zero with a
sign, which is neutral for all of them.
-/

namespace AlgebraicTerms

open Scalar in
class Scalar.Unital (α : Type) [Scalar α] : Prop extends Scalar.Ranked α where
  one_mul (n : α) : ofNat 1 * n = n
  negOne_mul (n : α) : negOne * n = -n
  emptySum_add (n : α) : emptySum + n = n
  isZero_emptySum : isZero (emptySum : α) = true
  zero_lt_one : lt (zero : α) one = true
  greater_zero_one : greater (zero : α) one = one
  neg_beq_neg {a b : α} : (-a == -b) = (a == b)
  isNegative_neg {n : α} : isFinite n = true → isZero n = false → isNegative n = false →
    isNegative (-n) = true

instance : Scalar.Unital ℚ where
  one_mul n := by
    show ((1 : ℕ) : ℚ) * n = n
    rw [Nat.cast_one, one_mul]
  negOne_mul n := by
    show -((1 : ℕ) : ℚ) * n = -n
    rw [Nat.cast_one, neg_one_mul]
  emptySum_add n := zero_add n
  isZero_emptySum := by decide +kernel
  zero_lt_one := by decide +kernel
  greater_zero_one := by decide +kernel
  neg_beq_neg {a b} := by
    rw [Bool.eq_iff_iff, beq_iff_eq, beq_iff_eq, neg_inj]
  isNegative_neg {n} _ hzero hneg := by
    have nonneg : 0 ≤ n := Rational.not_lt_iff.1 hneg
    have nonzero : n ≠ 0 := fun h => by
      rw [h] at hzero
      exact absurd hzero (by decide +kernel)
    exact Rational.isNegative_iff.2 (neg_neg_iff_pos.2 (lt_of_le_of_ne nonneg nonzero.symm))

/-! ## Positive numbers -/

namespace Scalar

variable {α : Type} [Scalar α]

/-- Whether the number is finite and positive. -/
structure IsPositive (n : α) : Prop where
  finite : isFinite n = true
  nonzero : isZero n = false
  unsigned : isNegative n = false

variable [Unital α] {n : α}

theorem isOne_one : isOne (one : α) = true := Ranked.one_self

theorem not_lt_one_zero : lt (one : α) zero = false := Ordered.lt_asymm Unital.zero_lt_one

omit [Unital α] in
theorem isPositive_one [Legible α] : IsPositive (one : α) :=
  ⟨Legible.isFinite_one, Legible.not_isZero_one, Legible.not_isNegative_one⟩

/-- A negative number is not one. -/
theorem not_isOne_of_isNegative (h : isNegative n = true) : isOne n = false :=
  Bool.eq_false_iff.2 fun one => by
    have less : lt n (ofNat 0) = lt (ofNat 1 : α) (ofNat 0) := Ordered.lt_congr_left _ one
    have none : lt (ofNat 1 : α) (ofNat 0) = false := not_lt_one_zero
    rw [isNegative, less, none] at h
    cases h

theorem IsPositive.isNegative_neg (h : IsPositive n) : isNegative (-n) = true :=
  Unital.isNegative_neg h.finite h.nonzero h.unsigned

theorem IsPositive.not_isZero_neg [Legible α] (h : IsPositive n) : isZero (-n) = false :=
  Legible.not_isZero_of_isNegative h.isNegative_neg

theorem IsPositive.not_isOne_neg (h : IsPositive n) : isOne (-n) = false :=
  not_isOne_of_isNegative h.isNegative_neg

end Scalar

end AlgebraicTerms
