import AlgebraicTerms.Proofs.Scalar.Rational

/-!
# Scalars written as words

Scalars all of whose texts are words with an optional minus, also of those that are not finite.
Doubles have these properties: what is written after the minus is a run of digits with an optional
fraction, or one of `inf` and `NaN`.
-/

namespace AlgebraicTerms

/-- Whether the character occurs in names and numerals. -/
def Token.isWordChar (c : Char) : Bool := c.isAlphanum || c = '.'

/-- Letters, digits and points that are not a name. -/
structure Token.IsPlainWord (w : String) : Prop where
  ne_nil : w.toList ≠ []
  chars : ∀ c ∈ w.toList, isWordChar c = true
  keyword : Keyword.ofName? w = none
  constant : Constant.ofName? w = none

open Scalar in
class Scalar.Worded (α : Type) [Scalar α] : Prop where
  isPlainWord_text {n : α} : isZero n = false → isNegative n = false → Token.IsPlainWord (text n)
  text_of_isNegative {n : α} : isNegative n = true → text n = "-" ++ text (-n)
  isNegative_neg {n : α} : text n = "1" → isNegative (-n) = true
  neg_neg (n : α) : -(-n) = n

instance Scalar.plainOne_of_worded {α : Type} [Scalar α] [Scalar.Worded α] : Scalar.PlainOne α :=
  .of_sign fun _ negative => ⟨_, Worded.text_of_isNegative negative⟩

namespace Rational

theorem isPlainWord_of_isNumeral {w : String} (h : Token.IsNumeral w.toList) :
    Token.IsPlainWord w := by
  have digit {c : Char} (hc : c.isDigit = true) : Token.isWordChar c = true := by
    rw [Token.isWordChar, Char.isAlphanum, hc, Bool.or_true, Bool.true_or]
  obtain ⟨c, s, hs, hc⟩ := h.exists_cons
  have other (name : String) (hname : name.toList.head?.any Char.isDigit = false) : name ≠ w := by
    rintro rfl
    rw [hs, List.head?_cons, Option.any_some, hc] at hname
    cases hname
  refine ⟨hs ▸ List.cons_ne_nil c s, fun d hd => ?_, ?_, ?_⟩
  · rcases h with h | ⟨ds, es, hds, hes, heq⟩
    · exact digit (h.2 d hd)
    · rw [heq, List.mem_append, List.mem_cons] at hd
      rcases hd with hd | rfl | hd
      · exact digit (hds.2 d hd)
      · rfl
      · exact digit (hes.2 d hd)
  · refine List.find?_eq_none.2 fun k _ hk => other k.name ?_ (beq_iff_eq.1 hk)
    cases k <;> decide
  · refine List.find?_eq_none.2 fun c _ hc => other c.name ?_ (beq_iff_eq.1 hc)
    cases c <;> decide

theorem text_injective {p q : ℚ} (hp : 0 ≤ p) (hq : 0 ≤ q) (h : text p = text q) : p = q := by
  rw [text_of_nonneg hp, text_of_nonneg hq] at h
  rw [← literal_numeral hp, h, literal_numeral hq]

end Rational

instance : Scalar.Worded ℚ where
  isPlainWord_text {n} hzero hneg :=
    Rational.isPlainWord_of_isNumeral (Scalar.Legible.isNumeral_text rfl hzero hneg)
  text_of_isNegative h := Rational.text_of_neg (Rational.isNegative_iff.1 h)
  isNegative_neg {n} h := by
    refine Rational.isNegative_iff.2 ?_
    have one : Rational.text 1 = "1" := Scalar.Legible.text_one (α := ℚ)
    rcases lt_or_ge n 0 with hn | hn
    · have same := Rational.text_of_neg hn
      rw [show Rational.text n = "1" from h] at same
      have first := congrArg (fun s : String => s.toList.head?) same
      simp only [String.toList_append] at first
      exact absurd first (by simp)
    · rw [Rational.text_injective hn zero_le_one (h.trans one.symm)]
      norm_num
  neg_neg n := neg_neg n

end AlgebraicTerms
