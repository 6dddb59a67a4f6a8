import AlgebraicTerms.Proofs.Term.Conversions
import AlgebraicTerms.Proofs.Term.Definite
import AlgebraicTerms.Proofs.Term.Forms
import Mathlib.Analysis.SpecialFunctions.Pow.Complex

/-!
# Equivalent forms

The conversions between equivalent forms keep the value of a definite term, and negations and
reciprocals have the value that their names say (`forms_eval`).  Only a number that is zero has no
reciprocal.  Powers need not be added or multiplied out for that: all that is asked of them is what
exponents `0` and `1` and the negation of an exponent mean.
-/

namespace AlgebraicTerms

namespace Interpretation

variable {α : Type} {F : Type*} [Scalar α] [Field F]

/-- What the exponents `0` and `1` and negated exponents mean. -/
structure PowerConventions (I : Interpretation α F) : Prop where
  power_zero (x : F) : I.power x 0 = 1
  power_one (x : F) : I.power x 1 = x
  power_neg (x y : F) : I.power x (-y) = 1 / I.power x y

theorem PowerConventions.power_negOne {I : Interpretation α F} (laws : I.PowerConventions) (x : F) :
    I.power x (-1) = 1 / x := by
  rw [laws.power_neg, laws.power_one]

/-- The complex numbers, with principal powers and with no remainders. -/
noncomputable def complexes (var : String → ℂ) (call : Keyword → ℂ → ℂ) : Interpretation ℚ ℂ :=
  ofRationals var call (fun _ _ => 0) fun x y => x ^ y

theorem complexes_powerConventions (var : String → ℂ) (call : Keyword → ℂ → ℂ) :
    (complexes var call).PowerConventions where
  power_zero := Complex.cpow_zero
  power_one := Complex.cpow_one
  power_neg x y := (Complex.cpow_neg x y).trans (one_div _).symm

end Interpretation

namespace Term

variable {α : Type} {F : Type*} [Scalar α] [Field F] {I : Interpretation α F} {t : Term α}

/-! ## Negations and coefficients -/

theorem withSummandsNegated_eval [Scalar.Legible α] (exact : I.FullyExact) (ht : t.Definite) :
    t.withSummandsNegated.eval I.meaning = -t.eval I.meaning :=
  ((eval_negations exact.negOne).withSummandsNegated (eval_neg_number exact)
    (Definite.joinLaws I .sum) Definite.arrangeable exact.finite ht).symm

theorem eval_coefficients [Scalar.Legible α] (exact : I.FullyExact) :
    Coefficients (fun t u : Term α => t.eval I.meaning = u.eval I.meaning) Definite where
  toJoinLaws := Definite.joinLaws I .product
  neg_mul _ _ := neg_mul _ _
  mul_number {t} m {n} hn := by
    show I.number m * t.eval I.meaning = I.number (m * n)
    rw [eval_of_number? exact.toExact hn, exact.mul]
  mul_neg n t := by
    show I.number n * -t.eval I.meaning = I.number (-n) * t.eval I.meaning
    rw [exact.neg, neg_mul, mul_neg]
  one_mul t := by
    show I.number (Scalar.ofNat 1) * t.eval I.meaning = t.eval I.meaning
    rw [I.number_one, one_mul]
  of_one_mul t u := by
    show _ = I.number (Scalar.ofNat 1) * (bin .mul t u).eval I.meaning
    rw [I.number_one, one_mul]
  zero_mul t := by
    show I.number (Scalar.ofNat 0) * t.eval I.meaning = I.number (Scalar.ofNat 0)
    rw [exact.zero, zero_mul]
  negOne {n} minus := by
    show I.number n = -I.number (Scalar.ofNat 1)
    rw [exact.beq minus, exact.negOne, I.number_one]
  one isOne := (exact.isOne isOne).trans I.number_one.symm
  zero isZero := (I.number_zero isZero).trans exact.zero.symm
  negative {n} _ := by
    show I.number n = -I.number (-n)
    rw [exact.neg, neg_neg]

theorem withCoefficient_eval [Scalar.Legible α] (exact : I.FullyExact) (ht : t.Definite) :
    t.withCoefficient.eval I.meaning = t.eval I.meaning :=
  ((eval_coefficients exact).withCoefficient Definite.arrangeable exact.finite ht).symm

/-! ## Powers -/

theorem withoutTrivialPowers_eval [Scalar.Legible α] (laws : I.PowerConventions) (ht : t.Definite) :
    t.withoutTrivialPowers.eval I.meaning = t.eval I.meaning := by
  have trivialPowers :
      TrivialPowers (fun t u : Term α => t.eval I.meaning = u.eval I.meaning) Definite := {
    toReplacement := eval_replacement I
    power_one := fun {l r} hr one => by
      show I.power (l.eval I.meaning) (r.eval I.meaning) = l.eval I.meaning
      rw [hr.unitAsRead I .product one]
      exact laws.power_one _
    power_zero := fun {l r} hr zero => by
      show I.power (l.eval I.meaning) (r.eval I.meaning) = I.number (Scalar.ofNat 1)
      rw [hr.unitAsRead I .sum zero, I.number_one]
      exact laws.power_zero _ }
  exact (trivialPowers.withoutTrivialPowers Definite.arrangeable Definite.inherited ht).symm

theorem powerAsReciprocal_eval (exact : I.FullyExact) (laws : I.PowerConventions) (t : Term α) :
    t.powerAsReciprocal.eval I.meaning = t.eval I.meaning := by
  have opposite (x y : F) : I.power x (-y) = 1 / I.power x y := laws.power_neg x y
  have negativePowers :
      NegativePowers fun t u : Term α => t.eval I.meaning = u.eval I.meaning := {
    toReplacement := eval_replacement I
    power_negOne := fun {l r n} hn minus => by
      show I.power (l.eval I.meaning) (r.eval I.meaning) = 1 / l.eval I.meaning
      rw [eval_of_number? exact.toExact hn, exact.beq minus, exact.negOne, laws.power_negOne]
    power_negative := fun {l r n} hn _ => by
      show I.power (l.eval I.meaning) (r.eval I.meaning) =
        1 / I.power (l.eval I.meaning) (I.number (-n))
      rw [eval_of_number? exact.toExact hn, exact.neg, laws.power_neg, one_div_one_div]
    power_neg := fun l r => laws.power_neg _ _ }
  exact (negativePowers.powerAsReciprocal t).symm

/-! ## Reciprocals -/

theorem eval_reciprocals (exact : I.FullyExact) (laws : I.PowerConventions) :
    Reciprocals fun t u : Term α => t.eval I.meaning = u.eval I.meaning where
  toNegations := eval_negations exact.negOne
  neg_number := eval_neg_number exact
  recip_recip _ := one_div_one_div _
  recip_number {t n} hn nonzero := by
    have hne : I.number n ≠ 0 := fun zero => ne_true_of_eq_false nonzero (exact.isZero zero)
    show 1 / t.eval I.meaning = I.number (Scalar.one / n)
    rw [eval_of_number? exact.toExact hn, exact.div _ hne, Scalar.one, I.number_one]
  recip_power _ _ := (laws.power_neg _ _).symm
  recip t := by
    show 1 / t.eval I.meaning = I.power (t.eval I.meaning) (I.number Scalar.negOne)
    rw [exact.negOne, laws.power_negOne]

def IsZeroNumber (t : Term α) : Prop := ∃ n, t.number? = some n ∧ Scalar.isZero n = true

/-- Either a zero has no reciprocal, and that is the result, or the result is a term with the value. -/
def HasResult (I : Interpretation α F) (zero : Prop) (value : F)
    (result : Except (DomainError α) (Term α)) : Prop :=
  (zero ∧ result = .error .divisionByZero) ∨
    ¬zero ∧ ∃ u, result = .ok u ∧ u.eval I.meaning = value

theorem not_isZeroNumber (h : t.number? = none) : ¬t.IsZeroNumber := by
  rintro ⟨n, hn, _⟩
  rw [h] at hn
  cases hn

/-- Only a zero has no reciprocal. -/
theorem reciprocal_result (t : Term α) : t.IsZeroNumber ∧ t.reciprocal = .error .divisionByZero ∨
    ¬t.IsZeroNumber ∧ ∃ u, t.reciprocal = .ok u := by
  cases hn : t.number? with
  | none => exact .inr ⟨not_isZeroNumber hn, _, by simp only [reciprocal, hn]; rfl⟩
  | some n =>
      have zero : t.IsZeroNumber ↔ Scalar.isZero n = true := by simp [IsZeroNumber, hn]
      simp only [reciprocal, hn, zero]
      by_cases h : Scalar.isZero n = true
      · exact .inl ⟨h, if_pos h⟩
      · exact .inr ⟨h, _, if_neg h⟩

theorem reciprocal_eval (exact : I.FullyExact) (laws : I.PowerConventions) (t : Term α) :
    HasResult I t.IsZeroNumber (1 / t.eval I.meaning) t.reciprocal :=
  (reciprocal_result t).imp_right fun ⟨nonzero, u, hu⟩ =>
    ⟨nonzero, u, hu, ((eval_reciprocals exact laws).reciprocal hu).symm⟩

/-- Writing a reciprocal as a power fails where taking it does. -/
theorem reciprocalAsPower_result (t : Term α) :
    (∃ u, t = inv .recip u ∧ u.IsZeroNumber) ∧ t.reciprocalAsPower = .error .divisionByZero ∨
    (¬∃ u, t = inv .recip u ∧ u.IsZeroNumber) ∧ ∃ u, t.reciprocalAsPower = .ok u := by
  cases hrecip : t.operandOf? .recip with
  | none =>
      refine .inr ⟨?_, t, by simp only [reciprocalAsPower, hrecip]⟩
      rintro ⟨u, rfl, _⟩
      cases hrecip
  | some operand =>
      obtain rfl := operandOf?_eq_some.1 hrecip
      have zero : (∃ u, inv .recip operand = inv .recip u ∧ u.IsZeroNumber) ↔
          operand.IsZeroNumber := by
        simp
      rw [zero]
      cases hn : operand.number? with
      | none =>
          refine .inr ⟨not_isZeroNumber hn, ?_⟩
          simp only [reciprocalAsPower, hrecip, hn]
          split
          · exact ⟨_, rfl⟩
          · exact ⟨_, rfl⟩
          · rename_i number
            cases number
          · exact ⟨_, rfl⟩
      | some n =>
          have same : (inv .recip operand).reciprocalAsPower = operand.reciprocal := by
            cases operand <;> cases hn <;> rfl
          rw [same]
          exact reciprocal_result operand

theorem reciprocalAsPower_eval (exact : I.FullyExact) (laws : I.PowerConventions) (t : Term α) :
    HasResult I (∃ u, t = inv .recip u ∧ u.IsZeroNumber) (t.eval I.meaning)
      t.reciprocalAsPower :=
  (reciprocalAsPower_result t).imp_right fun ⟨nonzero, u, hu⟩ =>
    ⟨nonzero, u, hu, ((eval_reciprocals exact laws).reciprocalAsPower hu).symm⟩

/-- What each conversion makes of the value of a definite term. -/
theorem forms_eval [Scalar.Legible α] (exact : I.FullyExact) (laws : I.PowerConventions)
    (ht : t.Definite) :
    t.withExponents.eval I.meaning = t.eval I.meaning ∧
      t.withoutTrivialPowers.eval I.meaning = t.eval I.meaning ∧
      t.powerAsReciprocal.eval I.meaning = t.eval I.meaning ∧
      t.negationsAsProducts.eval I.meaning = t.eval I.meaning ∧
      t.withCoefficient.eval I.meaning = t.eval I.meaning ∧
      HasResult I (∃ u, t = inv .recip u ∧ u.IsZeroNumber) (t.eval I.meaning) t.reciprocalAsPower ∧
      t.negated.eval I.meaning = -t.eval I.meaning ∧
      t.withSummandsNegated.eval I.meaning = -t.eval I.meaning ∧
      (∃ u, t.inverted .neg = .ok u ∧ u.eval I.meaning = -t.eval I.meaning) ∧
      HasResult I t.IsZeroNumber (1 / t.eval I.meaning) (t.inverted .recip) :=
  ⟨withExponents_eval laws.power_one t, withoutTrivialPowers_eval laws ht,
    powerAsReciprocal_eval exact laws t, negationsAsProducts_eval exact.negOne t,
    withCoefficient_eval exact ht, reciprocalAsPower_eval exact laws t, negated_eval exact t,
    withSummandsNegated_eval exact ht, ⟨t.negated, rfl, negated_eval exact t⟩,
    reciprocal_eval exact laws t⟩

/-- The product `-2*(-a)` with one coefficient, without a negation, and its opposite. -/
theorem forms_eval_product :
    let a : Term ℚ := .var "a" none
    let t := bin .mul (num (-2)) (.inv .neg a)
    t.Definite ∧ t.withCoefficient = bin .mul (num 2) a ∧
      t.negationsAsProducts = bin .mul (num (-2)) (.bin .mul (.num (-1)) a) ∧
      t.inverted .neg = .ok (inv .neg t) ∧
      ∀ (var : String → ℂ) (call : Keyword → ℂ → ℂ),
        let I := Interpretation.complexes var call
        I.FullyExact ∧ I.PowerConventions ∧
          (bin .mul (num 2) a).eval I.meaning = t.eval I.meaning ∧
          (bin .mul (num (-2)) (.bin .mul (.num (-1)) a)).eval I.meaning = t.eval I.meaning ∧
          (inv .neg t).eval I.meaning = -t.eval I.meaning := by
  intro a t
  have definite : t.Definite := ⟨rfl, Legible.definite ⟨by decide, rfl, rfl, nofun⟩⟩
  have coefficient : t.withCoefficient = bin .mul (num 2) a := by with_unfolding_all rfl
  have products : t.negationsAsProducts = bin .mul (num (-2)) (.bin .mul (.num (-1)) a) := by
    with_unfolding_all rfl
  refine ⟨definite, coefficient, products, rfl, fun var call => ?_⟩
  have exact : (Interpretation.complexes var call).FullyExact :=
    Interpretation.ofRationals_fullyExact var call _ _
  have laws := Interpretation.complexes_powerConventions var call
  obtain ⟨-, -, -, without, gathered, -, negated, -⟩ := forms_eval exact laws definite
  refine ⟨exact, laws, coefficient ▸ gathered, products ▸ without, negated⟩

end Term

end AlgebraicTerms
