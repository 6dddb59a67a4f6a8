import AlgebraicTerms.Proofs.Search.Fruitful
import AlgebraicTerms.Proofs.Search.State
import AlgebraicTerms.Proofs.Simplify
import AlgebraicTerms.Proofs.Term.Rearranged

/-!
# Commutativity

A search sees only terms in canonical order, and always finds a candidate, so the simplest form of a
term depends on nothing but the canonical order of its expansion.  Sums and products commute where
that order does not depend on which side came first (`Term.simplify_comm`).  It may: operands whose
keys agree stay in the order in which they were given (`Term.tied_operands_keep_order`), and a chain
treats its first operand differently (`Term.named_one_keeps_place` and the products after it).
-/

namespace AlgebraicTerms

variable {α : Type} [Scalar α]

namespace Search

variable {options : SearchOptions} {rule : Term.FactoringRule α} {t u : Term α}

/-- A search only sees terms in canonical order. -/
theorem candidatesWithin_eq_of_sorted (h : t.sorted = u.sorted) (depth : ℕ) :
    candidatesWithin options rule depth t = candidatesWithin options rule depth u := by
  cases depth with
  | zero => rfl
  | succ depth => rw [candidatesWithin, candidatesWithin, candidatesVia, candidatesVia, h]

end Search

namespace Term

variable {options : SearchOptions} {rule : FactoringRule α} {t u x y : Term α}

/-- Simplification depends only on the canonical order of the expanded term. -/
theorem simplifyBy_eq_of_sorted (ht : t ≠ .empty) (hu : u ≠ .empty)
    (h : t.expanded.withExponents.sorted = u.expanded.withExponents.sorted) :
    t.simplifyBy rule options = u.simplifyBy rule options := by
  have same : Search.candidates options rule t.expanded.withExponents =
      Search.candidates options rule u.expanded.withExponents :=
    Search.candidatesWithin_eq_of_sorted h options.depth
  have some : Search.Ensures Search.Fruitful []
      (Search.candidates options rule u.expanded.withExponents) (· ≠ []) :=
    Search.candidatesWithin_ne_nil _ _ options.depth [] u.expanded.withExponents
  have fruitful := some SearchState.start rfl .empty
  show ((Search.simplified _ t).run SearchState.start).1 =
    ((Search.simplified _ u).run SearchState.start).1
  rw [Search.simplified_run _ ht, Search.simplified_run _ hu, same]
  cases hrun : (Search.candidates options rule u.expanded.withExponents).run SearchState.start with
  | mk r s =>
      cases r with
      | error e => rfl
      | ok found =>
          cases found with
          | nil => exact absurd rfl (fruitful _ _ hrun).1
          | cons c found => rfl

/-- Summands that the keys tell apart may be exchanged. -/
theorem expanded_add_comm [Scalar.Ordered α]
    (h : ∀ t ∈ x.expanded.withExponents.sortedOperands .sum,
      ∀ u ∈ y.expanded.withExponents.sortedOperands .sum, t.Comparable u) :
    (bin .add x y).expanded.withExponents.sorted =
      (bin .add y x).expanded.withExponents.sorted :=
  congrArg Chain.sum.join (sortByKey_append_comm h)

/-- A sum does not depend on the order of its sides if the keys tell the summands of the one from
those of the other, and a product does not if its sides can be exchanged. -/
theorem simplify_comm [Scalar.Ordered α] (x y : Term α) (options : SearchOptions) :
    ((∀ t ∈ x.expanded.withExponents.sortedOperands .sum,
        ∀ u ∈ y.expanded.withExponents.sortedOperands .sum, t.Comparable u) →
      (bin .add x y).simplify options = (bin .add y x).simplify options) ∧
    (x.Exchangeable y → (bin .mul x y).simplify options = (bin .mul y x).simplify options) :=
  ⟨fun h => simplifyBy_eq_of_sorted nofun nofun (expanded_add_comm h),
    fun h => simplifyBy_eq_of_sorted nofun nofun (expanded_mul_comm h)⟩

/-- `a+1` and `b-c` can be added and multiplied in either order. -/
theorem simplify_comm_difference :
    let x : Term ℚ := bin .add (var "a" none) (num 1)
    let y : Term ℚ := bin .sub (var "b" none) (var "c" none)
    (∀ t ∈ x.expanded.withExponents.sortedOperands .sum,
      ∀ u ∈ y.expanded.withExponents.sortedOperands .sum, t.Comparable u) ∧ x.Exchangeable y ∧
    (bin .add x y).simplify {} = (bin .add y x).simplify {} ∧
      (bin .mul x y).simplify {} = (bin .mul y x).simplify {} := by
  intro x y
  have sum : ∀ t ∈ x.expanded.withExponents.sortedOperands .sum,
      ∀ u ∈ y.expanded.withExponents.sortedOperands .sum, t.Comparable u := by decide +kernel
  have product : x.Exchangeable y := by decide +kernel
  exact ⟨sum, product, (simplify_comm x y {}).1 sum, (simplify_comm x y {}).2 product⟩

set_option maxRecDepth 100000 in
/-- `x` and `abs(x)` have the same degree and weight, and stay as they are given. -/
theorem tied_operands_keep_order : ∃ x y s s' p p' : Term ℚ,
    (bin .add x y).simplify {} = .ok s ∧ (bin .add y x).simplify {} = .ok s' ∧ s.text ≠ s'.text ∧
      (bin .mul x y).simplify {} = .ok p ∧ (bin .mul y x).simplify {} = .ok p' ∧
        p.text ≠ p'.text := by
  let x : Term ℚ := var "x" none
  let y : Term ℚ := call .abs x
  have sum : (bin .add x y).simplify {} = .ok (bin .add x y) := ok_of_toOption (by decide +kernel)
  have sum' : (bin .add y x).simplify {} = .ok (bin .add y x) := ok_of_toOption (by decide +kernel)
  have product : (bin .mul x y).simplify {} = .ok (bin .mul x y) :=
    ok_of_toOption (by decide +kernel)
  have product' : (bin .mul y x).simplify {} = .ok (bin .mul y x) :=
    ok_of_toOption (by decide +kernel)
  exact ⟨x, y, _, _, _, _, sum, sum', by decide +kernel, product, product', by decide +kernel⟩

/-! ## Conditions on factors

In each of these products the keys tell all operands apart, and one condition on the factors is not
met. -/

/-- Whether the keys tell apart the factors of each product of two terms, and the products. -/
def Distinguished (x y : Term α) : Prop :=
  (∀ p ∈ products x y, ToldApart ((Chain.product.join p).prepared.sortedOperands .product)) ∧
    ToldApart ((bin .mul x y).expanded.withExponents.sortedOperands .sum)

instance [DecidableEq α] (x y : Term α) : Decidable (x.Distinguished y) :=
  inferInstanceAs (Decidable (_ ∧ _))

set_option maxRecDepth 100000 in
/-- Of factors that all read `1` the first stays.  If it is the number it is collected with 9, and if
it is a name it is not. -/
theorem named_one_keeps_place : ∃ x y : Term ℚ, x.Distinguished y ∧
    (∀ p ∈ products x y, (Chain.product.join p).reads "0" = false ∧
      ∀ q ∈ p, q.operandOf? .recip = none) ∧
    ((bin .mul x y).simplify {}).map text = .ok "10+10*h" ∧
      ((bin .mul y x).simplify {}).map text = .ok "9+1+h+9*h" := by
  let x : Term ℚ := bin .add (var "1" none) (bin .pow (num 3) (num 2))
  let y : Term ℚ := bin .add (num 1) (var "h" none)
  exact ⟨x, y, by decide +kernel, by decide +kernel, ok_of_toOption (by decide +kernel),
    ok_of_toOption (by decide +kernel)⟩

set_option maxRecDepth 100000 in
/-- A product that reads `0` is left out.  A negated sum that comes to be in front is one summand, and
is taken apart elsewhere. -/
theorem zero_product_makes_place : ∃ x y : Term ℚ, x.Distinguished y ∧
    (∀ p ∈ products x y, ∀ q ∈ p, q.Movable) ∧
    ((bin .mul x y).simplify {}).map text = .ok "-2-b-(2+b)*h" ∧
      ((bin .mul y x).simplify {}).map text = .ok "(2+b)*(-1-h)" := by
  let x : Term ℚ := bin .add (num 0) (inv .neg (bin .add (var "b" none) (num 2)))
  let y : Term ℚ := bin .add (num 1) (var "h" none)
  exact ⟨x, y, by decide +kernel, by decide +kernel, ok_of_toOption (by decide +kernel),
    ok_of_toOption (by decide +kernel)⟩

set_option maxRecDepth 100000 in
/-- A reciprocal in front stays a node of its own, and is a divisor elsewhere.  Only a divisor is taken
apart. -/
theorem reciprocal_of_product_keeps_place : ∃ x y : Term ℚ, x.Distinguished y ∧
    (∀ p ∈ products x y, (Chain.product.join p).reads "0" = false ∧ ∀ q ∈ p,
      q.reads "1" = false ∧ ∀ u ∈ q.operandOf? .recip, u.negationsAsProducts = u) ∧
    ((bin .mul x y).simplify {}).map text = .ok "1 / a/b*g^2" ∧
      ((bin .mul y x).simplify {}).map text = .ok "1 / (a*b)*g^2" := by
  let x : Term ℚ := bin .pow (var "g" none) (num 2)
  let y : Term ℚ := inv .recip (bin .mul (var "a" none) (var "b" none))
  exact ⟨x, y, by decide +kernel, by decide +kernel, ok_of_toOption (by decide +kernel),
    ok_of_toOption (by decide +kernel)⟩

set_option maxRecDepth 100000 in
/-- Only in a divisor is the negated exponent written as a product. -/
theorem reciprocal_of_negation_keeps_place : ∃ x y : Term ℚ, x.Distinguished y ∧
    (∀ p ∈ products x y, (Chain.product.join p).reads "0" = false ∧ ∀ q ∈ p,
      q.reads "1" = false ∧ ∀ u ∈ q.operandOf? .recip, u.isBinary [.mul, .div] = false) ∧
    ((bin .mul x y).simplify {}).map text = .ok "g^2/a^(-1*b)" ∧
      ((bin .mul y x).simplify {}).map text = .ok "g^2*a^b" := by
  let x : Term ℚ := bin .pow (var "g" none) (num 2)
  let y : Term ℚ := inv .recip (bin .pow (var "a" none) (inv .neg (var "b" none)))
  exact ⟨x, y, by decide +kernel, by decide +kernel, ok_of_toOption (by decide +kernel),
    ok_of_toOption (by decide +kernel)⟩

end Term

end AlgebraicTerms
