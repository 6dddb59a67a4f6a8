import AlgebraicTerms.Proofs.Scalar.PartialRational
import Mathlib.Algebra.Order.Ring.Abs
import Mathlib.Data.Int.ModEq

/-!
# Rounded scalars

Scalars that stand for rationals where they are finite, and do not stand for all of them.  Doubles have
these properties: the remainder of two finite numbers is one of them, and so is the number nearest to
their sum if their signs differ.  So the remainder with the sign of the divisor is exact but for one
rounding (`floorRem_isNearest`).
-/

namespace AlgebraicTerms

/-- The number is finite, and no other one is closer to the rational. -/
def IsNearest {α : Type} (value : α → Option ℚ) (x : α) (q : ℚ) : Prop :=
  ∃ p, value x = some p ∧ ∀ y r, value y = some r → |p - q| ≤ |r - q|

theorem isNearest_of_value {α : Type} {value : α → Option ℚ} {x : α} {q : ℚ}
    (h : value x = some q) : IsNearest value x q := by
  refine ⟨q, h, fun y r _ => ?_⟩
  rw [sub_self, abs_zero]
  exact abs_nonneg _

/-- Where some number is exact, the nearest one is exact too. -/
theorem IsNearest.value_eq {α : Type} {value : α → Option ℚ} {x y : α} {q : ℚ}
    (h : IsNearest value x q) (hy : value y = some q) : value x = some q := by
  obtain ⟨p, hx, nearest⟩ := h
  have exact := nearest y q hy
  rw [sub_self, abs_zero, abs_nonpos_iff, sub_eq_zero] at exact
  rw [hx, exact]

open Scalar in
class Scalar.Rounded (α : Type) [Scalar α] where
  /-- What a finite number stands for. -/
  value : α → Option ℚ
  isFinite_of_value {x : α} {q : ℚ} : value x = some q → isFinite x = true
  isInteger_iff {x : α} : isInteger x = true ↔ ∃ n : ℤ, value x = some (n : ℚ)
  isZero_iff {x : α} : isZero x = true ↔ value x = some 0
  isNegative_iff {x : α} {q : ℚ} : value x = some q → (isNegative x = true ↔ q < 0)
  value_one : value (ofNat 1) = some 1
  value_neg (x : α) : value (-x) = (value x).map (-·)
  value_rem {x y : α} {m n : ℤ} : value x = some (m : ℚ) → value y = some (n : ℚ) → n ≠ 0 →
    value (rem x y) = some (m.tmod n : ℚ)
  isNearest_add {x y : α} {p q : ℚ} : value x = some p → value y = some q → p * q ≤ 0 →
    IsNearest value (x + y) (p + q)

/-! ## Remainders of integers -/

/-- The remainder is congruent to `m` modulo `n`, and is zero or has the sign of `n` and is smaller. -/
def IsRemainder (m n r : ℤ) : Prop :=
  r ≡ m [ZMOD n] ∧ (r = 0 ∨ (r < 0 ↔ n < 0) ∧ r.natAbs < n.natAbs)

section Integers

variable {m n r r' : ℤ}

theorem IsRemainder.unique (h : IsRemainder m n r) (h' : IsRemainder m n r') : r' = r := by
  obtain ⟨congruent, bounds⟩ := h
  obtain ⟨congruent', bounds'⟩ := h'
  have divides : n ∣ r' - r := (congruent.trans congruent'.symm).dvd
  by_cases hn : n = 0
  · omega
  · have small : (r' - r).natAbs < n.natAbs := by omega
    have same := Int.eq_zero_of_dvd_of_natAbs_lt_natAbs divides small
    omega

theorem IsRemainder.iff_eq (h : IsRemainder m n r) : IsRemainder m n r' ↔ r' = r :=
  ⟨h.unique, fun same => same ▸ h⟩

theorem natAbs_tmod_lt (m : ℤ) (hn : n ≠ 0) : (m.tmod n).natAbs < n.natAbs := by
  rw [Int.natAbs_tmod]
  exact Nat.mod_lt _ (Int.natAbs_pos.2 hn)

/-- What is left of `m` with the sign of `m` becomes the remainder by adding `n`, if the signs of both
differ. -/
theorem isRemainder_tmod (m : ℤ) (hn : n ≠ 0) :
    IsRemainder m n (if m.tmod n ≠ 0 ∧ ¬(m.tmod n < 0 ↔ n < 0) then m.tmod n + n else m.tmod n) := by
  have congruent : m.tmod n ≡ m [ZMOD n] := Int.modEq_iff_dvd.2 Int.dvd_self_sub_tmod
  have small := natAbs_tmod_lt m hn
  split
  · exact ⟨Int.add_modEq_right.trans congruent, by omega⟩
  · exact ⟨congruent, by omega⟩

end Integers

namespace Scalar

variable {α : Type} [Scalar α] {x y : α} {m n : ℤ}

/-- The divisor is added to a remainder if their signs are those of integers that differ. -/
theorem floorRem_eq (zero : isZero (rem x y) = true ↔ m.tmod n = 0)
    (negative : isNegative (rem x y) = true ↔ m.tmod n < 0) (negative' : isNegative y = true ↔ n < 0) :
    floorRem x y =
      if m.tmod n ≠ 0 ∧ ¬(m.tmod n < 0 ↔ n < 0) then rem x y + y else rem x y := by
  have signs : (!isZero (rem x y) && isNegative (rem x y) != isNegative y) = true ↔
      m.tmod n ≠ 0 ∧ ¬(m.tmod n < 0 ↔ n < 0) := by
    rw [Bool.and_eq_true, Bool.not_eq_true', ← Bool.not_eq_true, zero, bne_iff_ne, ne_eq,
      Bool.eq_iff_iff, negative, negative']
  exact if_congr signs rfl rfl

variable [Rounded α]

open Rounded (value)

/-- The remainder with the sign of the divisor is rounded once at most. -/
theorem floorRem_isNearest (hx : value x = some (m : ℚ)) (hy : value y = some (n : ℚ))
    (hn : n ≠ 0) : ∃ r, IsRemainder m n r ∧ IsNearest value (floorRem x y) r := by
  have hrem := Rounded.value_rem hx hy hn
  have zero : isZero (rem x y) = true ↔ m.tmod n = 0 := by
    rw [Rounded.isZero_iff, hrem, Option.some.injEq, Int.cast_eq_zero]
  have negative : isNegative (rem x y) = true ↔ m.tmod n < 0 := by
    rw [Rounded.isNegative_iff hrem, Int.cast_lt_zero]
  have negative' : isNegative y = true ↔ n < 0 := by
    rw [Rounded.isNegative_iff hy, Int.cast_lt_zero]
  refine ⟨_, isRemainder_tmod m hn, ?_⟩
  rw [floorRem_eq zero negative negative']
  by_cases differ : m.tmod n ≠ 0 ∧ ¬(m.tmod n < 0 ↔ n < 0)
  · have opposite : m.tmod n * n ≤ 0 := by
      apply mul_nonpos_iff.2
      omega
    rw [if_pos differ, if_pos differ, Int.cast_add]
    exact Rounded.isNearest_add hrem hy (by exact_mod_cast opposite)
  · rw [if_neg differ, if_neg differ]
    exact isNearest_of_value hrem

end Scalar

/-! ## Rationals -/

theorem tmod_mul_nonneg (m n : ℤ) : 0 ≤ m.tmod n * m := by
  rcases le_total 0 m with h | h
  · exact mul_nonneg (Int.tmod_nonneg n h) h
  · have opposite := Int.tmod_nonneg n (neg_nonneg.2 h)
    rw [Int.neg_tmod] at opposite
    exact mul_nonneg_of_nonpos_of_nonpos (neg_nonneg.1 opposite) h

/-- What is cut off from a quotient has its sign. -/
theorem Rational.truncate_div (m : ℤ) {n : ℤ} (hn : n ≠ 0) :
    truncate ((m : ℚ) / n) = m.tdiv n := by
  have nonzero : (n : ℚ) ≠ 0 := Int.cast_ne_zero.2 hn
  have split : (m : ℚ) / n = m.tdiv n + (m.tmod n : ℚ) / n := by
    have whole : (n : ℚ) * m.tdiv n + m.tmod n = m := by
      exact_mod_cast Int.mul_tdiv_add_tmod m n
    field_simp
    linarith
  have small : |(m.tmod n : ℚ) / n| < 1 := by
    have magnitudes : |m.tmod n| < |n| := by
      rw [Int.abs_eq_natAbs, Int.abs_eq_natAbs]
      exact_mod_cast natAbs_tmod_lt m hn
    rw [abs_div, div_lt_one (abs_pos.2 nonzero)]
    exact_mod_cast magnitudes
  have sign : 0 ≤ (m.tmod n : ℚ) / n * (m / n) := by
    have product : (0 : ℚ) ≤ m.tmod n * m := by exact_mod_cast tmod_mul_nonneg m n
    rw [div_mul_div_comm]
    exact div_nonneg product (mul_self_nonneg _)
  rw [abs_lt] at small
  unfold truncate
  split_ifs with h
  · have below : (m.tmod n : ℚ) / n ≤ 0 := by
      by_contra above
      have := mul_neg_of_pos_of_neg (not_le.1 above) h
      linarith
    have ceil : ⌈(m : ℚ) / n⌉ = m.tdiv n := Int.ceil_eq_iff.2 ⟨by linarith, by linarith⟩
    rw [ceil]
  · have above : 0 ≤ (m.tmod n : ℚ) / n := by
      rcases (not_lt.1 h).eq_or_lt with zero | positive
      · obtain rfl : m = 0 := by
          exact_mod_cast (div_eq_zero_iff.1 zero.symm).resolve_right nonzero
        simp
      · by_contra below
        have := mul_neg_of_neg_of_pos (not_le.1 below) positive
        linarith
    have floor : ⌊(m : ℚ) / n⌋ = m.tdiv n := Int.floor_eq_iff.2 ⟨by linarith, by linarith⟩
    rw [floor]

theorem Rational.rem_intCast (m : ℤ) {n : ℤ} (hn : n ≠ 0) :
    Scalar.rem (m : ℚ) (n : ℚ) = (m.tmod n : ℚ) := by
  show (m : ℚ) - n * truncate (m / n) = _
  rw [truncate_div m hn, Int.tmod_def]
  push_cast
  rfl

instance : Scalar.Rounded ℚ where
  value := some
  isFinite_of_value _ := rfl
  isInteger_iff {x} := by
    constructor
    · intro h
      obtain ⟨n, rfl⟩ := Rational.exists_of_isInteger h
      exact ⟨n, rfl⟩
    · rintro ⟨n, h⟩
      obtain rfl := Option.some.inj h
      exact Rational.isInteger_intCast n
  isZero_iff := Rational.isZero_iff.trans (Option.some_inj).symm
  isNegative_iff h := by
    obtain rfl := Option.some.inj h
    exact Rational.isNegative_iff
  value_one := congrArg some Nat.cast_one
  value_neg _ := rfl
  value_rem {x y m n} hx hy hn := by
    obtain rfl := Option.some.inj hx
    obtain rfl := Option.some.inj hy
    exact congrArg some (Rational.rem_intCast m hn)
  isNearest_add hx hy _ := by
    obtain rfl := Option.some.inj hx
    obtain rfl := Option.some.inj hy
    exact isNearest_of_value rfl

end AlgebraicTerms
