import AlgebraicTerms.Proofs.Search.Candidates
import AlgebraicTerms.Proofs.Term.Generic

/-!
# What simplification keeps

The simplest form of a polynomial has the value of the polynomial wherever it has one
(`simplifyBy_rational?`), if all factorings that the search looks at multiply out to the sums they were
made from.  The program's own rule takes a product of factors out of summands that have only some of
them, which changes the value (`shared_factors_change_value`).
-/

namespace AlgebraicTerms

namespace Term

variable {α : Type} [Scalar α] [Scalar.Exact α]

open Classical in
/-- The factorings of a rule that multiply out to the sum they were made from. -/
noncomputable def FactoringRule.exactPart (rule : FactoringRule α) {K : Type*} [Field K]
    (ρ : Assignment K) : FactoringRule α := fun ts products =>
  (rule ts products).filter fun f => ∀ a, Chain.sum.Total ρ ts a → f.Makes ρ a

theorem exactPart_exact (rule : FactoringRule α) {K : Type*} [Field K] (ρ : Assignment K) :
    (rule.exactPart ρ).Exact ρ := by
  intro ts a h f hf
  simp only [FactoringRule.exactPart, List.mem_filter, decide_eq_true_iff] at hf
  exact hf.2 a h

variable [Scalar.Legible α] {rule : FactoringRule α} {options : SearchOptions} {e r : Term α}
  {σ : Assignment ℚ} {q : ℚ}

/-- With an exact rule for common factors, simplification keeps the value of a polynomial. -/
theorem simplifyBy_rational? (exact : rule.Exact generic) (he : e.IsPolynomial)
    (hr : e.simplifyBy rule options = .ok r) (hq : r.rational? σ = some q) :
    e.rational? σ = some q := by
  obtain ⟨f, hf⟩ := he.hasValue generic
  obtain ⟨p, hp⟩ := he.rational? σ
  have simplest := simplifyBy_hasValue exact hf hr
  rw [hp, (hf.specialises hp).unique (simplest.specialises hq)]

/-- Simplification keeps the value of a polynomial if its answer is also found with an exact rule for
common factors, such as the exact part of the program's own rule (`exactPart_exact`). -/
theorem simplify_rational? (he : e.IsPolynomial) (exact : rule.Exact generic)
    (same : e.simplifyBy rule options = e.simplify options)
    (hr : e.simplify options = .ok r) (hq : r.rational? σ = some q) :
    e.rational? σ = some q :=
  simplifyBy_rational? exact he (same.trans hr) hq

omit [Scalar α] [Scalar.Exact α] [Scalar.Legible α] in
theorem ok_of_toOption {ε β : Type} {x : Except ε β} {r : β} (h : x.toOption = some r) :
    x = .ok r := by
  cases x with
  | ok t => exact congrArg _ (Option.some.inj h)
  | error e => cases h

set_option maxRecDepth 100000 in
/-- `a^2+2*a*b+b^2` becomes `(a+b)^2` also without looking for common factors. -/
theorem simplify_rational?_square : ∃ e r : Term ℚ, e.IsPolynomial ∧
    FactoringRule.Exact (fun _ _ => [] : FactoringRule ℚ) generic ∧
      e.simplifyBy (fun _ _ => []) {} = e.simplify {} ∧ e.simplify {} = .ok r ∧
        r.rational? (fun _ _ => 3) = some 36 ∧ e.rational? (fun _ _ => 3) = some 36 := by
  let a : Term ℚ := var "a" none
  let b : Term ℚ := var "b" none
  let e : Term ℚ :=
    bin .add (bin .add (bin .pow a (num 2)) (bin .mul (bin .mul (num 2) a) b)) (bin .pow b (num 2))
  let r : Term ℚ := bin .pow (bin .add a b) (num 2)
  have ha : a.IsPolynomial :=
    .var ⟨by decide +kernel, by decide +kernel, by decide +kernel, fun _ h => by cases h⟩
  have hb : b.IsPolynomial :=
    .var ⟨by decide +kernel, by decide +kernel, by decide +kernel, fun _ h => by cases h⟩
  have he : e.IsPolynomial := .add (.add (.pow ha (k := 2) rfl Nat.two_pos)
    (.mul (.mul (.num 2) ha) hb)) (.pow hb (k := 2) rfl Nat.two_pos)
  have exact : FactoringRule.Exact (fun _ _ => [] : FactoringRule ℚ) generic :=
    fun _ _ _ _ h => by cases h
  have hr : e.simplify {} = .ok r := ok_of_toOption (by decide +kernel)
  have unfactored : e.simplifyBy (fun _ _ => []) {} = .ok r := ok_of_toOption (by decide +kernel)
  have same := unfactored.trans hr.symm
  have hq : r.rational? (fun _ _ => 3) = some 36 := by decide +kernel
  exact ⟨e, r, he, exact, same, hr, hq, simplify_rational? he exact same hr hq⟩

set_option maxRecDepth 100000 in
/-- `x*y` is taken out of all summands of `a*x*y+b*x*y+c^2*x`, which leaves `x*y*(a+b+c^2)`. -/
theorem shared_factors_change_value : ∃ e r : Term ℚ, e.IsPolynomial ∧ e.simplify {} = .ok r ∧
    ∃ σ p q, e.rational? σ = some p ∧ r.rational? σ = some q ∧ p ≠ q := by
  let a : Term ℚ := var "a" none
  let b : Term ℚ := var "b" none
  let c : Term ℚ := var "c" none
  let x : Term ℚ := var "x" none
  let y : Term ℚ := var "y" none
  let e : Term ℚ := bin .add (bin .add (bin .mul (bin .mul a x) y) (bin .mul (bin .mul b x) y))
    (bin .mul (bin .pow c (num 2)) x)
  let r : Term ℚ := bin .mul (bin .mul x y) (bin .add (bin .add a b) (bin .pow c (num 2)))
  have letter {v : Term ℚ} (h : v ∈ [a, b, c, x, y]) : v.IsPolynomial := by
    simp only [List.mem_cons, List.not_mem_nil, or_false] at h
    obtain rfl | rfl | rfl | rfl | rfl := h
    all_goals
      exact .var ⟨by decide +kernel, by decide +kernel, by decide +kernel, fun _ h => by cases h⟩
  have he : e.IsPolynomial := .add
    (.add (.mul (.mul (letter (by simp)) (letter (by simp))) (letter (by simp)))
      (.mul (.mul (letter (by simp)) (letter (by simp))) (letter (by simp))))
    (.mul (.pow (letter (by simp)) (k := 2) rfl Nat.two_pos) (letter (by simp)))
  have hr : e.simplify {} = .ok r := ok_of_toOption (by decide +kernel)
  let σ : Assignment ℚ := fun name _ => if name = "y" then 2 else 1
  have hp : e.rational? σ = some 5 := by decide +kernel
  have hq : r.rational? σ = some 6 := by decide +kernel
  exact ⟨e, r, he, hr, σ, 5, 6, hp, hq, by decide⟩

end Term

end AlgebraicTerms
