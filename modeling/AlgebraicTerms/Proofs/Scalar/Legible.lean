import AlgebraicTerms.Proofs.Token.Written
import AlgebraicTerms.Scalar

/-!
# Legible scalars

Scalars whose texts are literals that stand for them.  Doubles have these properties: a finite double
that is not negative is written as digits with an optional fraction, reading that text gives the same
double back, and a negative one is written as a minus and the text of its opposite.
-/

namespace AlgebraicTerms

open Scalar in
class Scalar.Legible (α : Type) [Scalar α] : Prop where
  isNumeral_text {n : α} : isFinite n = true → isZero n = false → isNegative n = false →
    Token.IsNumeral (text n).toList
  literal_text {n : α} : isFinite n = true → isZero n = false → isNegative n = false →
    literal (text n) = n
  text_negative {n : α} : isFinite n = true → isNegative n = true → text n = "-" ++ text (-n)
  isFinite_neg {n : α} : isFinite n = true → isFinite (-n) = true
  not_isNegative_neg {n : α} : isNegative n = true → isNegative (-n) = false
  not_isZero_neg {n : α} : isNegative n = true → isZero (-n) = false
  not_isZero_of_isNegative {n : α} : isNegative n = true → isZero n = false
  isZero_zero : isZero (ofNat 0 : α) = true
  text_zero : text (ofNat 0 : α) = "0"
  literal_zero : (literal "0" : α) = ofNat 0
  isFinite_one : isFinite (ofNat 1 : α) = true
  not_isZero_one : isZero (ofNat 1 : α) = false
  not_isNegative_one : isNegative (ofNat 1 : α) = false
  text_one : text (ofNat 1 : α) = "1"
  text_two : text (ofNat 2 : α) = "2"

open Scalar in
/-- Scalars whose literals have no sign, so that a literal of zero is the zero without one. -/
class Scalar.UnsignedLiterals (α : Type) [Scalar α] : Prop where
  not_isNegative_literal {s : String} : Token.IsNumberLexeme s.toList →
    isNegative (literal s : α) = false
  literal_of_isZero {s : String} : Token.IsNumberLexeme s.toList →
    isZero (literal s : α) = true → (literal s : α) = ofNat 0

open Scalar in
/-- Scalars of which none that is negative reads like one. -/
class Scalar.PlainOne (α : Type) [Scalar α] : Prop where
  not_isNegative {n : α} : text n = "1" → isNegative n = false

/-- It is enough that negative scalars which read like one have a sign. -/
theorem Scalar.PlainOne.of_sign {α : Type} [Scalar α]
    (h : ∀ n : α, isNegative n = true → ∃ s, text n = "-" ++ s) : Scalar.PlainOne α where
  not_isNegative {n} one := Bool.eq_false_iff.2 fun negative => by
    obtain ⟨s, sign⟩ := h n negative
    have first := congrArg (fun s : String => s.toList.head?) (one.symm.trans sign)
    simp only [String.toList_append] at first
    exact absurd first (by simp)

end AlgebraicTerms
