import AlgebraicTerms.Proofs.Formula.Unambiguity
import AlgebraicTerms.Proofs.Scalar.Rational
import AlgebraicTerms.Proofs.Term.Meaning
import AlgebraicTerms.Proofs.Term.Parsing

/-!
# Equality of terms

Terms are equal if they read the same.  A text has only one formula, so equal terms have the same
formula and with it the same value (`eval_eq_of_text_eq`), as long as their products keep remainders
apart.  They need not: `a*(b%c*d)` and `a*b%c*d` are equal (`hidden_remainder_collides`).
-/

namespace AlgebraicTerms

namespace Term

variable {α : Type} [Scalar α] [Scalar.Legible α]

/-- A text has only one formula. -/
theorem formula_eq_of_text_eq {a b : Term α} (ha : a.Legible) (hb : b.Legible)
    (h : a.text = b.text) : a.formula = b.formula := by
  obtain ⟨ts, written, yields⟩ := spelled ha
  obtain ⟨us, written', yields'⟩ := spelled hb
  have trees := TokenTree.erase_ofSource written
  rw [h, TokenTree.erase_ofSource written'] at trees
  subst trees
  exact Formula.yields_unique (formula_fits ha).wellNested (formula_fits hb).wellNested yields yields'

theorem eval_eq_of_text_eq {M : Type*} {I : Meaning α M} (hI : I.Lawful) {a b : Term α}
    (ha : a.Legible) (hb : b.Legible) (clearA : a.ClearRemainders) (clearB : b.ClearRemainders)
    (h : a.text = b.text) : a.eval I = b.eval I := by
  rw [← formula_eval hI ha (.inr clearA), ← formula_eval hI hb (.inr clearB),
    formula_eq_of_text_eq ha hb h]

theorem text_ne_empty {t : Term α} (ht : t.Legible) : t.text ≠ "" := by
  obtain ⟨ts, ⟨⟨c, w, hs, _⟩, _⟩, _⟩ := spelled ht
  intro h
  rw [h] at hs
  cases hs

/-- Equal terms that were parsed have the same value in every field, for all assignments of their
variables and all functions in the place of remainders, powers and keywords, if none has a product
that hides a remainder. -/
theorem eval_eq_of_parsed {F : Type*} [Field F] (I : Interpretation α F) {s s' : String}
    {t t' : Term α} (ht : parse .registry s = .ok t) (ht' : parse .registry s' = .ok t')
    (hfinite : t.FiniteNumbers) (hfinite' : t'.FiniteNumbers) (clear : t.ClearRemainders)
    (clear' : t'.ClearRemainders) (h : t.text = t'.text) :
    t.eval I.meaning = t'.eval I.meaning := by
  rcases parse_legible ht hfinite with rfl | legible
  · rcases parse_legible ht' hfinite' with rfl | legible'
    · rfl
    · exact absurd h.symm (text_ne_empty legible')
  · rcases parse_legible ht' hfinite' with rfl | legible'
    · exact absurd h (text_ne_empty legible)
    · exact eval_eq_of_text_eq I.lawful legible legible' clear clear' h

/-- Numbers with their own values, variables with the given ones, and a remainder that adds one. -/
def sampleInterpretation (var : String → ℚ) : Interpretation ℚ ℚ where
  number := id
  const _ := 0
  var name _ := var name
  call _ q := q
  rem q _ := q + 1
  power q _ := q
  number_zero := Rational.isZero_iff.1
  number_one := Nat.cast_one
  number_neg _ := rfl

/-- The two ways to group a product of three variables. -/
theorem eval_eq_of_parsed_products :
    ∃ t t' : Term ℚ, parse .registry "a*(b*c)" = .ok t ∧ parse .registry "a*b*c" = .ok t' ∧
      t.eval (sampleInterpretation fun _ => 2).meaning =
        t'.eval (sampleInterpretation fun _ => 2).meaning := by
  have level : Formula.deepParenthesis? 0 0 "a*(b*c)".toList = none ∧
      Formula.deepParenthesis? 0 0 "a*b*c".toList = none := by decide
  have trees : TokenTree.ofSource .registry "a*(b*c)".toList =
      [.var ⟨0, 1⟩ "a" none, .char ⟨1, 2⟩ '*', .group ⟨2, 7⟩
        [.var ⟨3, 4⟩ "b" none, .char ⟨4, 5⟩ '*', .var ⟨5, 6⟩ "c" none]] := rfl
  have trees' : TokenTree.ofSource .registry "a*b*c".toList =
      [.var ⟨0, 1⟩ "a" none, .char ⟨1, 2⟩ '*', .var ⟨2, 3⟩ "b" none, .char ⟨3, 4⟩ '*',
        .var ⟨4, 5⟩ "c" none] := rfl
  have grouped : parse (α := ℚ) .registry "a*(b*c)" = .ok (.bin .mul (.var "a" none)
      (.bin .mul (.var "b" none) (.var "c" none))) := by
    simp only [parse, Formula.parse, level.1, trees]
    rfl
  have plain : parse (α := ℚ) .registry "a*b*c" = .ok (.bin .mul
      (.bin .mul (.var "a" none) (.var "b" none)) (.var "c" none)) := by
    simp only [parse, Formula.parse, level.2, trees']
    rfl
  refine ⟨_, _, grouped, plain, eval_eq_of_parsed _ grouped plain ?_ ?_ ?_ ?_ rfl⟩
  · exact ⟨trivial, trivial, trivial⟩
  · exact ⟨⟨trivial, trivial⟩, trivial⟩
  · exact ⟨trivial, ⟨trivial, trivial, fun _ _ => rfl⟩, fun _ _ => rfl⟩
  · exact ⟨⟨trivial, trivial, fun _ _ => rfl⟩, trivial, fun _ _ => rfl⟩

/-- A product that hides a remainder reads like one with another value. -/
theorem hidden_remainder_collides :
    ∃ t t' : Term ℚ, parse .registry "a*(b%c*d)" = .ok t ∧ parse .registry "a*b%c*d" = .ok t' ∧
      t.FiniteNumbers ∧ t'.FiniteNumbers ∧ t.text = t'.text ∧
        ∃ I : Interpretation ℚ ℚ, t.eval I.meaning ≠ t'.eval I.meaning := by
  have level : Formula.deepParenthesis? 0 0 "a*(b%c*d)".toList = none ∧
      Formula.deepParenthesis? 0 0 "a*b%c*d".toList = none := by decide
  have trees : TokenTree.ofSource .registry "a*(b%c*d)".toList =
      [.var ⟨0, 1⟩ "a" none, .char ⟨1, 2⟩ '*', .group ⟨2, 9⟩
        [.var ⟨3, 4⟩ "b" none, .char ⟨4, 5⟩ '%', .var ⟨5, 6⟩ "c" none, .char ⟨6, 7⟩ '*',
          .var ⟨7, 8⟩ "d" none]] := rfl
  have trees' : TokenTree.ofSource .registry "a*b%c*d".toList =
      [.var ⟨0, 1⟩ "a" none, .char ⟨1, 2⟩ '*', .var ⟨2, 3⟩ "b" none, .char ⟨3, 4⟩ '%',
        .var ⟨4, 5⟩ "c" none, .char ⟨5, 6⟩ '*', .var ⟨6, 7⟩ "d" none] := rfl
  have hidden : parse (α := ℚ) .registry "a*(b%c*d)" = .ok (.bin .mul (.var "a" none)
      (.bin .mul (.bin .mod (.var "b" none) (.var "c" none)) (.var "d" none))) := by
    simp only [parse, Formula.parse, level.1, trees]
    rfl
  have plain : parse (α := ℚ) .registry "a*b%c*d" = .ok (.bin .mul
      (.bin .mod (.bin .mul (.var "a" none) (.var "b" none)) (.var "c" none)) (.var "d" none)) := by
    simp only [parse, Formula.parse, level.2, trees']
    rfl
  refine ⟨_, _, hidden, plain, ⟨trivial, ⟨trivial, trivial⟩, trivial⟩,
    ⟨⟨⟨trivial, trivial⟩, trivial⟩, trivial⟩, rfl, sampleInterpretation fun _ => 2, ?_⟩
  -- `2*((2+1)*2)` against `(2*2+1)*2`
  show (2 : ℚ) * ((2 + 1) * 2) ≠ (2 * 2 + 1) * 2
  norm_num

end Term

end AlgebraicTerms
