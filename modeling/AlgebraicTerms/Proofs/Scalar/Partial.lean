import AlgebraicTerms.Evaluation
import AlgebraicTerms.Proofs.Token.Written
import Mathlib.Algebra.Field.Basic
import Mathlib.Data.Option.NAry

/-!
# Partial scalars

Scalars that stand for the elements of a field, or for none, and compute exactly.  A number is finite
if it stands for something.  Powers, remainders and keywords are functions of the field that need not
have a value everywhere.  Of powers and of the trigonometric keywords, those laws are given that the
merging of factors and of summands rests on.
-/

namespace AlgebraicTerms

/-- Powers, remainders and keywords in a field, where they have values. -/
class PartialFunctions (K : Type) [Field K] where
  keyword : Keyword → K → Option K
  power : K → K → Option K
  remainder : K → K → Option K
  power_zero (x : K) : power x 0 = some 1
  power_one (x : K) : power x 1 = some x
  zero_power_neg_one : power 0 (-1) = none
  power_neg {x y z : K} : power x y = some z → z ≠ 0 → power x (-y) = some z⁻¹
  inv_power {x : K} (y : K) : x ≠ 0 → power x⁻¹ y = power x (-y)
  power_add {x y z p q : K} : x ≠ 0 → power x y = some p → power x z = some q →
    power x (y + z) = some (p * q)
  mul_power {x y z p q : K} : x ≠ 0 → y ≠ 0 → power x z = some p → power y z = some q →
    power (x * y) z = some (p * q)
  tangent {x s c : K} : keyword .sin x = some s → keyword .cos x = some c → c ≠ 0 →
    keyword .tan x = some (s / c)
  squares {x s c p q : K} : keyword .sin x = some s → keyword .cos x = some c →
    power s 2 = some p → power c 2 = some q → p + q = 1
  remainder_self {x y : K} : remainder x x = some y → y = 0

open Scalar PartialFunctions in
/-- Scalars that stand for elements of a field or for none.  What is written as digits stands for
something. -/
class Scalar.Partial (α : Type) [Scalar α] (K : outParam Type) [Field K] [PartialFunctions K] where
  value : α → Option K
  isFinite_iff {n : α} : isFinite n = true ↔ (value n).isSome
  isFinite_of_isNumeral {n : α} : Token.IsNumeral (text n).toList → isFinite n = true
  value_ofNat (k : ℕ) : value (ofNat k : α) = some (k : K)
  value_emptySum : value (emptySum : α) = some 0
  value_add (a b : α) : value (a + b) = Option.map₂ (· + ·) (value a) (value b)
  value_mul (a b : α) : value (a * b) = Option.map₂ (· * ·) (value a) (value b)
  value_neg (a : α) : value (-a) = (value a).map (-·)
  value_div {a b : α} {x y : K} : value a = some x → value b = some y → y ≠ 0 →
    value (a / b) = some (x / y)
  beq_ofNat {n : α} {k : ℕ} : (n == ofNat k) = true ↔ value n = some (k : K)
  isFinite_constant (c : Constant) : isFinite (constant c : α) = true
  value_evaluate {k : Keyword} {n : α} {x : K} : value n = some x →
    (k.evaluate n).toOption.bind value = keyword k x
  value_power {a b : α} {x y : K} : value a = some x → value b = some y →
    value (Scalar.power a b) = PartialFunctions.power x y
  value_floorRem {a b : α} {x y : K} : value a = some x → value b = some y →
    remainder x y =
      if isInteger a && isInteger b && !isZero b then value (floorRem a b) else none
  isFinite_floorRem {a b : α} : isInteger a = true → isInteger b = true → isZero b = false →
    isFinite (floorRem a b) = true

namespace Scalar.Partial

variable {α : Type} [Scalar α] {K : Type} [Field K] [PartialFunctions K] [Partial α K] {n : α}

theorem isZero_iff : isZero n = true ↔ value n = some 0 := by
  rw [isZero, beq_ofNat, Nat.cast_zero]

theorem isOne_iff : isOne n = true ↔ value n = some 1 := by
  rw [isOne, beq_ofNat, Nat.cast_one]

theorem value_zero : value (zero : α) = some 0 := by
  rw [zero, value_ofNat, Nat.cast_zero]

theorem value_one : value (one : α) = some 1 := by
  rw [one, value_ofNat, Nat.cast_one]

theorem value_negOne : value (negOne : α) = some (-1) := by
  rw [negOne, value_neg, value_ofNat, Nat.cast_one]
  rfl

/-- Numbers are added or multiplied from the left, or the first last. -/
theorem value_foldl_cons {f : α → α → α} {g : K → K → K} {e : α} {u : K}
    (hf : ∀ a b, value (f a b) = Option.map₂ g (value a) (value b))
    (assoc : ∀ x y z, g (g x y) z = g x (g y z)) (unit : value e = some u)
    (left : ∀ x, g u x = x) (right : ∀ x, g x u = x) (n : α) (ns : List α) :
    value ((n :: ns).foldl f e) = Option.map₂ g (value n) (value (ns.foldl f e)) := by
  have step (ns : List α) (a : α) :
      value (ns.foldl f a) = Option.map₂ g (value a) (value (ns.foldl f e)) := by
    induction ns generalizing a with
    | nil =>
        rw [List.foldl_nil, List.foldl_nil, unit]
        exact (Option.map₂_right_identity right _).symm
    | cons n ns ih =>
        rw [List.foldl_cons, List.foldl_cons, ih (f a n), ih (f e n), hf, hf, unit,
          Option.map₂_left_identity left, Option.map₂_assoc assoc]
  rw [List.foldl_cons, step, hf, unit, Option.map₂_left_identity left]

end Scalar.Partial

end AlgebraicTerms
