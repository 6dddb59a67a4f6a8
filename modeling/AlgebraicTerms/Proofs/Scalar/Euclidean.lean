import AlgebraicTerms.Proofs.Scalar.Exact
import AlgebraicTerms.Proofs.Scalar.Rounded

/-!
# Euclid's algorithm

Remainders have the sign of the divisor, so from the first division on all numbers have the sign of
the second one.  Their magnitudes decrease, and so the algorithm ends on integers, with their greatest
common divisor (`exists_euclidRun`).
-/

namespace AlgebraicTerms

open Scalar Exact in
/-- Exact scalars that divide, compare and round integers as integers, and whose bound on the
divisions is not too small. -/
class Scalar.Euclidean (α : Type) [Scalar α] [Scalar.Exact α] : Prop where
  value_rem {x y : α} {m n : ℤ} : value x = m → value y = n → n ≠ 0 → value (rem x y) = m.tmod n
  value_round {x : α} {n : ℤ} : value x = n → value (round x) = n
  value_lesser (x y : α) : value (lesser x y) = min (value x) (value y)
  natAbs_le_euclidSteps {x y : α} {n : ℤ} : value y = n → n.natAbs ≤ euclidSteps x y

/-! ## Remainders -/

section Integers

variable {m n r : ℤ}

theorem IsRemainder.gcd_eq (h : IsRemainder m n r) : Int.gcd n r = Int.gcd m n := by
  obtain ⟨c, hc⟩ := Int.ModEq.dvd h.1
  have same : m = r + n * c := by rw [← hc, add_sub_cancel]
  rw [same, Int.gcd_add_mul_left_left, Int.gcd_comm]

theorem IsRemainder.sign_eq (h : IsRemainder m n r) (hn : n ≠ 0) (hr : r ≠ 0) :
    r.sign = n.sign := by
  obtain ⟨signs, -⟩ := h.2.resolve_left hr
  rcases lt_or_gt_of_ne hn with negative | positive
  · rw [Int.sign_eq_neg_one_of_neg negative, Int.sign_eq_neg_one_of_neg (signs.2 negative)]
  · have above : 0 < r := by omega
    rw [Int.sign_eq_one_of_pos positive, Int.sign_eq_one_of_pos above]

end Integers

namespace Scalar

variable {α : Type} [Scalar α]

/-- Euclid's algorithm on `x` and `y` ends after `k` divisions with `g`. -/
inductive EuclidRun : (x y : α) → (k : ℕ) → (g : α) → Prop
  | done {x y : α} (stop : (!isZero y && isFinite y) = false) : EuclidRun x y 0 x
  | divide {x y g : α} {k : ℕ} (go : (!isZero y && isFinite y) = true)
      (rest : EuclidRun y (floorRem x y) k g) : EuclidRun x y (k + 1) g

/-- A bound on the divisions that is not too small plays no part. -/
theorem EuclidRun.gcdWithin_eq {x y g : α} {k steps : ℕ} (h : EuclidRun x y k g)
    (enough : k ≤ steps) : gcdWithin steps x y = g := by
  induction h generalizing steps with
  | done stop =>
      cases steps with
      | zero => rfl
      | succ steps => rw [gcdWithin, stop, if_neg Bool.false_ne_true]
  | divide go rest ih =>
      obtain ⟨steps, rfl⟩ := Nat.exists_eq_add_of_le' (Nat.one_le_of_lt enough)
      rw [gcdWithin, go, if_pos rfl, ih (Nat.le_of_succ_le_succ enough)]

variable [Exact α] [Euclidean α] {x y : α} {m n : ℤ}

open Exact (value)

theorem value_floorRem (hx : value x = m) (hy : value y = n) (hn : n ≠ 0) :
    ∃ r : ℤ, IsRemainder m n r ∧ value (floorRem x y) = r := by
  have hrem := Euclidean.value_rem hx hy hn
  have zero : isZero (rem x y) = true ↔ m.tmod n = 0 := by
    rw [isZero_iff, hrem, Int.cast_eq_zero]
  have negative : isNegative (rem x y) = true ↔ m.tmod n < 0 := by
    rw [isNegative_iff, hrem, Int.cast_lt_zero]
  have negative' : isNegative y = true ↔ n < 0 := by
    rw [isNegative_iff, hy, Int.cast_lt_zero]
  refine ⟨_, isRemainder_tmod m hn, ?_⟩
  rw [floorRem_eq zero negative negative']
  split
  · rw [Exact.value_add, hrem, hy, Int.cast_add]
  · exact hrem

/-- Euclid's algorithm ends on integers with their greatest common divisor, which has the sign of
the second one. -/
theorem exists_euclidRun (hx : value x = m) (hy : value y = n) (hn : n ≠ 0) :
    ∃ k g, EuclidRun x y k g ∧ k ≤ n.natAbs ∧ value g = (n.sign * Int.gcd m n : ℤ) := by
  have goes {y : α} {n : ℤ} (hy : value y = n) (hn : n ≠ 0) : (!isZero y && isFinite y) = true := by
    have nonzero : isZero y = false :=
      Bool.eq_false_iff.2 fun h => hn (by exact_mod_cast hy.symm.trans (isZero_iff.1 h))
    rw [nonzero, Exact.finite]
    rfl
  induction hsize : n.natAbs using Nat.strong_induction_on generalizing x y m n with
  | h size ih =>
      obtain ⟨r, remainder, value⟩ := value_floorRem hx hy hn
      by_cases hr : r = 0
      · have zero : isZero (floorRem x y) = true := by
          rw [isZero_iff, value, hr, Int.cast_zero]
        refine ⟨1, y, .divide (goes hy hn) (.done (by rw [zero]; rfl)), ?_, ?_⟩
        · omega
        · rw [hy, ← remainder.gcd_eq, hr, Int.gcd_zero_right, Int.sign_mul_natAbs]
      · have smaller := (remainder.2.resolve_left hr).2
        obtain ⟨k, g, run, few, divisor⟩ := ih r.natAbs (hsize ▸ smaller) hy value hr rfl
        refine ⟨k + 1, g, .divide (goes hy hn) run, by omega, ?_⟩
        rw [divisor, remainder.sign_eq hn hr, remainder.gcd_eq]

/-- The bound on the divisions is no bound for integers. -/
theorem gcd_of_integers (hx : value x = m) (hy : value y = n) (hn : n ≠ 0) :
    (∃ k, EuclidRun x y k (gcd x y)) ∧ value (gcd x y) = (n.sign * Int.gcd m n : ℤ) := by
  obtain ⟨k, g, run, few, divisor⟩ := exists_euclidRun hx hy hn
  have same : gcd x y = g := run.gcdWithin_eq (few.trans (Euclidean.natAbs_le_euclidSteps hy))
  rw [same]
  exact ⟨⟨k, run⟩, divisor⟩

/-- Integers have no more than three decimal places. -/
theorem value_roundThousandth (hx : value x = n) : value (roundThousandth x) = n := by
  have thousand : value (ofNat 1000 : α) = (1000 : ℤ) := Exact.value_ofNat 1000
  have scaled : value (x * ofNat 1000) = ((n * 1000 : ℤ) : ℚ) := by
    rw [Exact.value_mul, hx, thousand, Int.cast_mul]
  have nonzero : ((1000 : ℤ) : ℚ) ≠ 0 := by norm_num
  rw [roundThousandth, Exact.value_div _ _ (thousand ▸ nonzero), Euclidean.value_round scaled,
    thousand, Int.cast_mul, mul_div_cancel_right₀ _ nonzero]

end Scalar

theorem Rational.round_intCast (n : ℤ) : round (n : ℚ) = n := by
  unfold round
  split
  · have up : ⌈(n : ℚ) - 1 / 2⌉ = n := Int.ceil_eq_iff.2 ⟨by linarith, by linarith⟩
    rw [up]
  · have down : ⌊(n : ℚ) + 1 / 2⌋ = n := Int.floor_eq_iff.2 ⟨by linarith, by linarith⟩
    rw [down]

instance : Scalar.Euclidean ℚ where
  value_rem {x y m n} hx hy hn := by
    obtain rfl : x = m := hx
    obtain rfl : y = n := hy
    exact Rational.rem_intCast m hn
  value_round {x n} hx := by
    obtain rfl : x = n := hx
    exact Rational.round_intCast n
  value_lesser _ _ := rfl
  natAbs_le_euclidSteps {x y n} hy := by
    obtain rfl : y = n := hy
    show n.natAbs ≤ ((n : ℚ).num * x.den).natAbs + 2
    rw [Rat.num_intCast, Int.natAbs_mul, Int.natAbs_natCast]
    exact (Nat.le_mul_of_pos_right _ x.den_pos).trans (Nat.le_add_right _ _)

end AlgebraicTerms
