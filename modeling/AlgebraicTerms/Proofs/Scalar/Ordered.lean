import AlgebraicTerms.Proofs.Scalar.Rational

/-!
# Ordered scalars

Scalars whose order is strict and does not tell equal numbers apart.  Doubles have these properties,
also those that are no numbers, which are neither equal to nor less than anything.  Between numbers,
which are told by being equal to themselves, their order is linear.
-/

namespace AlgebraicTerms

open Scalar in
class Scalar.Ordered (α : Type) [Scalar α] : Prop where
  lt_asymm {a b : α} : lt a b = true → lt b a = false
  lt_trans {a b c : α} : lt a b = true → lt b c = true → lt a c = true
  lt_congr_left {a b : α} (c : α) : (a == b) = true → lt a c = lt b c
  lt_congr_right {a b : α} (c : α) : (a == b) = true → lt c a = lt c b
  beq_symm {a b : α} : (a == b) = true → (b == a) = true
  beq_trans {a b c : α} : (a == b) = true → (b == c) = true → (a == c) = true

open Scalar in
class Scalar.Ranked (α : Type) [Scalar α] : Prop extends Scalar.Ordered α where
  not_lt_trans {a b c : α} : (b == b) = true → lt a b = false → lt b c = false → lt a c = false
  not_lt_greater {a b c : α} : lt c (greater a b) = false ↔ lt c a = false ∧ lt c b = false
  greater_self {a b : α} : (a == a) = true → (b == b) = true → (greater a b == greater a b) = true
  zero_self : ((zero : α) == zero) = true
  one_self : ((one : α) == one) = true
  symbolicDegree_self : ((symbolicDegree : α) == symbolicDegree) = true

theorem Rational.lt_iff {a b : ℚ} : Scalar.lt a b = true ↔ a < b := decide_eq_true_iff

instance : Scalar.Ordered ℚ where
  lt_asymm h := Bool.eq_false_iff.2 fun h' =>
    absurd (Rational.lt_iff.1 h') (not_lt.2 (Rational.lt_iff.1 h).le)
  lt_trans h h' := Rational.lt_iff.2 ((Rational.lt_iff.1 h).trans (Rational.lt_iff.1 h'))
  lt_congr_left _ h := by rw [beq_iff_eq.1 h]
  lt_congr_right _ h := by rw [beq_iff_eq.1 h]
  beq_symm h := beq_iff_eq.2 (beq_iff_eq.1 h).symm
  beq_trans h h' := beq_iff_eq.2 ((beq_iff_eq.1 h).trans (beq_iff_eq.1 h'))

theorem Rational.not_lt_iff {a b : ℚ} : Scalar.lt a b = false ↔ b ≤ a :=
  decide_eq_false_iff_not.trans not_lt

instance : Scalar.Ranked ℚ where
  not_lt_trans _ h h' :=
    Rational.not_lt_iff.2 ((Rational.not_lt_iff.1 h').trans (Rational.not_lt_iff.1 h))
  not_lt_greater := by
    intro a b c
    rw [Rational.not_lt_iff, Rational.not_lt_iff, Rational.not_lt_iff]
    exact max_le_iff
  greater_self _ _ := beq_self_eq_true _
  zero_self := beq_self_eq_true _
  one_self := beq_self_eq_true _
  symbolicDegree_self := beq_self_eq_true _

end AlgebraicTerms
