import AlgebraicTerms.Proofs.Term.StrictMerging

/-!
# Terms that show what has no value

A rule of the search may drop a part of a term without looking for its value: like terms cancel, zero
times anything is zero, powers of the same base are merged, `1/(1/x)` is `x` and `x%x` is zero.  A term
is exposed if none of this hides that a part has no value.
-/

namespace AlgebraicTerms

open Scalar.Partial (value)

namespace Term

variable {α : Type} [Scalar α] {c : Chain} {t u : Term α} {ts us : List (Term α)}

/-! ## Finite numbers -/

section Legible

theorem inherited_legible : Inherited (Legible (α := α)) := ⟨And.left, And.right, id, id⟩

theorem operandsIn_legible (h : t.Legible) : ∀ u ∈ t.operandsIn c, u.Legible :=
  inherited_legible.operandsIn h

theorem operands_legible (h : t.Legible) : ∀ u ∈ t.operands, u.Legible :=
  inherited_legible.operands h

variable [Scalar.Legible α]

theorem join_legible (hne : ts ≠ []) (h : ∀ t ∈ ts, t.Legible) : (c.join ts).Legible :=
  inherited_legible.join_of_ne_nil And.intro Scalar.Legible.isFinite_neg hne h

omit [Scalar.Legible α] in
theorem hereditary_legible : Hereditary (Legible (α := α)) := ⟨.rfl, .rfl, .rfl⟩

theorem withExponents_legible (h : t.Legible) : t.withExponents.Legible :=
  hereditary_legible.withExponents Scalar.Legible.isFinite_one h

theorem isFinite_negOne : Scalar.isFinite (Scalar.negOne : α) = true :=
  Scalar.Legible.isFinite_neg Scalar.Legible.isFinite_one

theorem negationsAsProducts_legible (h : t.Legible) : t.negationsAsProducts.Legible :=
  hereditary_legible.negationsAsProducts isFinite_negOne h

end Legible

variable {K : Type} [Field K] [DecidableEq K] [PartialFunctions K] [Scalar.Partial α K]

theorem value?_ne_none_of_number (ht : t.Legible) (h : t.isNumber = true) : t.value? ≠ none := by
  refine Option.isSome_iff_ne_none.1 ?_
  cases t with
  | num n => exact Scalar.Partial.isFinite_iff.1 ht
  | const d => exact Scalar.Partial.isFinite_iff.1 (Scalar.Partial.isFinite_constant d)
  | _ => cases h

/-- A number that a finite reciprocal becomes is finite. -/
theorem value?_ne_none_of_reciprocalAsPower (ht : t.Legible) (hu : t.reciprocalAsPower = .ok u)
    (h : u.isNumber = true) : u.value? ≠ none := by
  rcases reciprocalAsPower_cases hu with rfl | rfl | ⟨b, e, rfl, rfl⟩ | ⟨x, n, rfl, hx, hn, rfl⟩ |
    ⟨x, rfl, rfl⟩
  · exact value?_ne_none_of_number ht h
  · exact value?_ne_none_of_number ht h
  · cases h
  · have finite : x.value? ≠ none := value?_ne_none_of_number ht (Option.isSome_iff_exists.2 ⟨n, hx⟩)
    obtain ⟨y, hy⟩ := Option.ne_none_iff_exists'.1 finite
    have nonzero : y ≠ 0 := by
      intro zero
      rw [zero, value?_of_number? hx] at hy
      exact absurd (Scalar.Partial.isZero_iff.2 hy) (ne_true_of_eq_false hn)
    have recip : (inv .recip x).value? = some y⁻¹ := by
      show x.value?.bind reciprocal? = _
      rw [hy]
      exact if_neg nonzero
    rw [reciprocalAsPower_value? recip hu]
    exact Option.some_ne_none _
  · cases h

/-- Finite numbers have a sum and a product. -/
theorem value_number_ne_none (h : ∀ t ∈ ts, t.isNumber = true → t.value? ≠ none) :
    value (c.number ts) ≠ none := by
  induction ts with
  | nil =>
      rw [value_number_nil]
      exact Option.some_ne_none _
  | cons t ts ih =>
      have rest := ih fun u hu => h u (List.mem_cons_of_mem _ hu)
      cases hn : t.number? with
      | none =>
          rw [Chain.number_cons_none hn]
          exact rest
      | some n =>
          have first := h t List.mem_cons_self (by rw [isNumber, hn]; rfl)
          rw [value?_of_number? hn] at first
          obtain ⟨x, hx⟩ := Option.ne_none_iff_exists'.1 first
          obtain ⟨y, hy⟩ := Option.ne_none_iff_exists'.1 rest
          rw [value_number_cons hn, hx, hy]
          exact Option.some_ne_none _

/-! ## Exposed terms -/

/-- Whether the given terms are the factors of a product, with reciprocals as powers. -/
def HasFactors (t : Term α) (ts : List (Term α)) : Prop :=
  List.Forall₂ (fun operand factor => operand.reciprocalAsPower = .ok factor)
    t.withExponents.operands ts

/-- The summands that a sum is left with by its rule, apart from numbers. -/
def summandsToCollect (t : Term α) : List (Term α) :=
  others (t.withExponents.operands.map negationsAsProducts)

/-- Whether like terms are collected only if all have values, unless a part without one is left. -/
def ExposesSummands (t : Term α) : Prop :=
  (∀ u ∈ collectOrZero t.summandsToCollect, u.isNumber = false → u.value? ≠ none) →
    ∀ u ∈ t.summandsToCollect, u.Collectable

/-- Whether a product shows every part without a value: as a power, a reciprocal has a value only if it
had one before, only factors with values are dropped when a number among them is zero, and only firm
ones are merged. -/
structure ExposesFactors (t : Term α) : Prop where
  reciprocals : ∀ operand ∈ t.withExponents.operands, ∀ factor,
    operand.reciprocalAsPower = .ok factor → factor.value? ≠ none → operand.value? ≠ none
  zero : ∀ ts, t.HasFactors ts → Scalar.isZero (productOfNumbers ts) = true →
    ∀ factor ∈ ts, factor.value? ≠ none
  powers : ∀ ts, t.HasFactors ts → Scalar.isZero (productOfNumbers ts) = false →
    Mergeable (others ts)

namespace HasFactors

variable {l r : Term α}

/-- What holds of the factors that operands become holds of all factors. -/
theorem all {P : Term α → Prop} (h : t.HasFactors ts) (step : ∀ operand ∈ t.withExponents.operands,
    ∀ factor, operand.reciprocalAsPower = .ok factor → P factor) : ∀ factor ∈ ts, P factor := by
  rw [HasFactors] at h
  generalize t.withExponents.operands = operands at h step
  induction h with
  | nil => exact fun factor hfactor => absurd hfactor List.not_mem_nil
  | cons first _ ih =>
      refine List.forall_mem_cons.2 ⟨step _ List.mem_cons_self _ first, ih fun operand hoperand => ?_⟩
      exact step operand (List.mem_cons_of_mem _ hoperand)

omit [DecidableEq K] [PartialFunctions K] [Scalar.Partial α K] [Field K] in
theorem ground (h : t.HasFactors ts) (ht : t.IsGround) : ∀ factor ∈ ts, factor.IsGround :=
  h.all fun operand hoperand _ hfactor =>
    reciprocalAsPower_ground (operands_ground (withExponents_ground ht) operand hoperand) hfactor

theorem finite [Scalar.Legible α] (h : (bin .mul l r).HasFactors ts) (ht : (bin .mul l r).Legible) :
    ∀ factor ∈ ts, factor.isNumber = true → factor.value? ≠ none :=
  h.all fun operand hoperand _ hfactor =>
    value?_ne_none_of_reciprocalAsPower (operandsIn_legible (c := .product)
      (withExponents_legible ht) operand hoperand) hfactor

/-- The factors make the product. -/
theorem total? (h : (bin .mul l r).HasFactors ts) (exposes : (bin .mul l r).ExposesFactors) :
    Chain.product.total? ts = (bin .mul l r).value? := by
  have operands : Chain.product.total? (bin .mul l r).withExponents.operands =
      (bin .mul l r).value? := by
    rw [← withExponents_value? (bin .mul l r)]
    exact operandsIn_total? (c := .product)
  have values : List.Forall₂ (fun operand factor => operand.value? = factor.value?)
      (bin .mul l r).withExponents.operands ts := by
    refine List.Forall₂.imp ?_ ((List.forall₂_and_left _ ts).2 ⟨fun _ hoperand => hoperand, h⟩)
    rintro operand factor ⟨hoperand, hfactor⟩
    cases hx : operand.value? with
    | some x => exact (reciprocalAsPower_value? hx hfactor).symm
    | none =>
        by_contra undefined
        exact exposes.reciprocals operand hoperand factor hfactor (Ne.symm undefined) hx
  rw [← operands, Chain.total?_congr values]

end HasFactors

/-- A quotient as the product that it is turned into. -/
def quotientAsProduct (l r : Term α) : Term α :=
  .bin .mul l (Chain.product.join ((r.operandsIn .product).map (.inv .recip)))

/-- Whether the rule of the term's operation shows every part without a value. -/
def ExposesOperands : Term α → Prop
  | bin .add l r => ExposesSummands (bin .add l r)
  | bin .sub l r => ExposesSummands (bin .add l (inv .neg r))
  | bin .mul l r => ExposesFactors (bin .mul l r)
  | bin .div l r => ExposesFactors (quotientAsProduct l r)
  | bin .mod l r => ∀ x, l.value? = some x → r.value? = some x → (bin .mod l r).value? ≠ none
  | _ => True

/-- A term without variables, with finite numbers and no product that hides a remainder, whose parts
without a value show. -/
structure Exposed (t : Term α) : Prop where
  ground : t.IsGround
  legible : t.Legible
  clear : t.ClearRemainders
  operands : t.ExposesOperands

end Term

end AlgebraicTerms
