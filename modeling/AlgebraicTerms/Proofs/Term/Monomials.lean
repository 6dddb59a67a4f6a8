import AlgebraicTerms.Proofs.Term.Linear

/-!
# Sums of monomials

A monomial is a product of numbers and at most one variable.  A collectable term is expanded to a sum
of monomials with signs (`expanded_spread`), and in canonical order such a sum is nested to the left
(`sorted_row`).
-/

namespace AlgebraicTerms

namespace Term

variable {α : Type} [Scalar α] {P : Term α → Prop} {t u l r : Term α} {ts : List (Term α)}

/-- A number or the first power of a variable. -/
inductive IsFactor : Term α → Prop
  | num (n : α) : IsFactor (num n)
  | power {name : String} {index : Option String} {n : α} : (var (α := α) name index).Legible →
    (Term.num n).reads "1" = true → IsFactor (bin .pow (var name index) (Term.num n))

/-- A product of terms that has at most one variable. -/
structure MonomialIn (P : Term α → Prop) (t : Term α) : Prop where
  product : ProductOf P t
  single : t.unknowns.length ≤ 1

def IsMonomial : Term α → Prop := MonomialIn IsFactor

/-- A sum of monomials with signs. -/
def IsSpread : Term α → Prop := SumOf (SignedOf IsMonomial)

/-- A sum of monomials with signs that is nested to the left. -/
def IsRow : Term α → Prop := RowOf (SignedOf IsMonomial)

/-- Whether terms are numbers and others that no conversion looks into. -/
structure ArePlain (P : Term α → Prop) : Prop where
  numbers : ∀ n, P (num n)
  not_inv : ∀ i u, ¬P (inv i u)
  eq_pow : ∀ op l r, P (bin op l r) → op = .pow
  unsigned : ∀ t, P t → t.negationsAsProducts = t

theorem arePlain_isAtom : ArePlain (IsAtom (α := α)) where
  numbers n := .num n
  not_inv i u h := by cases h
  eq_pow op l r h := by cases h
  unsigned t h := by cases h <;> rfl

theorem arePlain_isFactor : ArePlain (IsFactor (α := α)) where
  numbers n := .num n
  not_inv i u h := by cases h
  eq_pow op l r h := by
    cases h
    rfl
  unsigned t h := by cases h <;> rfl

namespace ArePlain

variable (plain : ArePlain P)

include plain

theorem not_isSum (h : P t) : t.isSum = false := by
  cases t with
  | bin op l r =>
      rw [plain.eq_pow _ _ _ h]
      rfl
  | _ => rfl

/-- A plain term is its only operand in any chain. -/
theorem operandsIn (c : Chain) (h : P t) : t.operandsIn c = [t] := by
  cases t with
  | bin op l r =>
      rw [plain.eq_pow _ _ _ h]
      rfl
  | _ => rfl

theorem product_not_isSum (h : ProductOf P t) : t.isSum = false := by
  cases h with
  | leaf h => exact plain.not_isSum h
  | mul _ _ => rfl

/-- Products of plain terms have no minus in front. -/
theorem product_ne_neg (h : ProductOf P t) : t ≠ inv .neg u := by
  rintro rfl
  cases h with
  | leaf h => exact plain.not_inv _ _ h

theorem operandsIn_sum_of_signed (h : SignedOf (ProductOf P) t) : t.operandsIn .sum = [t] := by
  cases h with
  | leaf h =>
      cases h with
      | leaf h => exact plain.operandsIn .sum h
      | mul _ _ => rfl
  | neg _ => rfl

theorem unsigned_product (h : ProductOf P t) : t.negationsAsProducts = t := by
  induction h with
  | leaf h => exact plain.unsigned _ h
  | mul _ _ ihl ihr => exact congrArg₂ (bin .mul) ihl ihr

/-- Minuses before a product of plain terms become a factor. -/
theorem negationsAsProducts_signed (h : SignedOf (ProductOf P) t) :
    ProductOf P t.negationsAsProducts := by
  have both : ProductOf P t.negationsAsProducts ∧ ProductOf P (inv .neg t).negationsAsProducts := by
    induction h with
    | @leaf t h =>
        refine ⟨by rwa [plain.unsigned_product h], ?_⟩
        have front : (inv .neg t).negationsAsProducts = bin .mul (num Scalar.negOne) t := by
          cases t with
          | inv i u =>
              cases i with
              | neg => exact absurd rfl (plain.product_ne_neg h)
              | recip => rfl
          | _ => rfl
        rw [front]
        exact .mul (.leaf (plain.numbers _)) h
    | neg _ ih => exact ⟨ih.2, ih.1⟩
  exact both.1

theorem negationsAsProducts_product (h : ProductOf (SignedOf (ProductOf P)) t) :
    ProductOf P t.negationsAsProducts := by
  induction h with
  | leaf h => exact plain.negationsAsProducts_signed h
  | mul _ _ ihl ihr => exact .mul ihl ihr

end ArePlain

/-! ## Expansion -/

theorem RowOf.negationsAsProducts (h : RowOf P t) {Q : Term α → Prop}
    (hPQ : ∀ u, P u → Q u.negationsAsProducts) : SumOf Q t.negationsAsProducts := by
  induction h with
  | leaf h => exact .leaf (hPQ _ h)
  | add _ hr ih => exact .add ih (.leaf (hPQ _ hr))
  | sub _ hr ih => exact .sub ih (.leaf (hPQ _ hr))

theorem isMonomial_of_multiple (h : MultipleOf IsAtom t) : MonomialIn IsAtom t := by
  induction h with
  | leaf h =>
      refine ⟨.leaf h, ?_⟩
      cases h <;> exact Nat.le_of_ble_eq_true rfl
  | left n _ ih => exact ⟨.mul (.leaf (.num n)) ih.product, ih.single⟩
  | @right n t _ ih =>
      refine ⟨.mul ih.product (.leaf (.num n)), ?_⟩
      show (t.unknowns ++ []).length ≤ 1
      rw [List.append_nil]
      exact ih.single

omit [Scalar α] in
theorem SignedOf.single (h : SignedOf (MonomialIn P) t) : t.unknowns.length ≤ 1 := by
  induction h with
  | leaf h => exact h.single
  | neg _ ih => exact ih

/-- A list of factors with minuses that has at most one variable. -/
structure AreNarrow (ts : List (Term α)) : Prop where
  factors : ∀ t ∈ ts, SignedOf (ProductOf IsAtom) t
  single : (allUnknowns ts).length ≤ 1

theorem not_isSum_of_signed (h : SignedOf (ProductOf IsAtom) t) : t.isSum = false := by
  cases h with
  | leaf h => exact arePlain_isAtom.product_not_isSum h
  | neg _ => rfl

theorem signed_product (h : SignedOf (MonomialIn IsAtom) t) : SignedOf (ProductOf IsAtom) t :=
  h.mono fun _ => MonomialIn.product

theorem operandsIn_narrow (h : SignedOf (MonomialIn IsAtom) t) :
    AreNarrow (t.operandsIn .product) := by
  refine ⟨?_, ?_⟩
  · cases h with
    | leaf h =>
        intro u hu
        exact .leaf (.leaf (h.product.operandsIn (fun u hu => arePlain_isAtom.operandsIn _ hu) u hu))
    | neg h => exact fun u hu => List.eq_of_mem_singleton hu ▸ .neg (signed_product h)
  · rw [operandsIn_unknowns]
    exact h.single

/-- The factors of a multiple: one sum and numbers, or no sum. -/
theorem multiple_operands (h : MultipleOf (SumOf (SignedOf (MonomialIn IsAtom))) t) :
    (∃ s, SumOf (SignedOf (MonomialIn IsAtom)) s ∧ (t.operandsIn .product).filter isSum = [s] ∧
      ∀ u ∈ (t.operandsIn .product).filter (!·.isSum), ∃ n, u = num n) ∨
    AreNarrow (t.operandsIn .product) := by
  have number (n : α) : SignedOf (ProductOf IsAtom) (num n) := .leaf (.leaf (.num n))
  induction h with
  | @leaf t h =>
      cases h with
      | leaf h => exact .inr (operandsIn_narrow h)
      | add hl hr => exact .inl ⟨_, .add hl hr, rfl, nofun⟩
      | sub hl hr => exact .inl ⟨_, .sub hl hr, rfl, nofun⟩
  | @left n t _ ih =>
      have split : (bin .mul (num n) t).operandsIn .product = num n :: t.operandsIn .product := rfl
      rw [split]
      refine ih.imp ?_ fun narrow => ?_
      · rintro ⟨s, hs, sums, others⟩
        refine ⟨s, hs, sums, ?_⟩
        exact List.forall_mem_cons.2 ⟨⟨n, rfl⟩, others⟩
      · exact ⟨List.forall_mem_cons.2 ⟨number n, narrow.factors⟩, narrow.single⟩
  | @right n t _ ih =>
      have split : (bin .mul t (num n)).operandsIn .product = t.operandsIn .product ++ [num n] := rfl
      rw [split]
      refine ih.imp ?_ fun narrow => ?_
      · rintro ⟨s, hs, sums, others⟩
        refine ⟨s, hs, ?_, ?_⟩
        · rw [List.filter_append, sums]
          rfl
        · rw [List.filter_append]
          intro u hu
          rcases List.mem_append.1 hu with hu | hu
          · exact others u hu
          · exact ⟨n, List.eq_of_mem_singleton hu⟩
      · refine ⟨fun u hu => ?_, ?_⟩
        · rcases List.mem_append.1 hu with hu | hu
          · exact narrow.factors u hu
          · exact List.eq_of_mem_singleton hu ▸ number n
        · rw [allUnknowns_append, allUnknowns_singleton]
          show (allUnknowns (t.operandsIn .product) ++ []).length ≤ 1
          rw [List.append_nil]
          exact narrow.single

theorem expandedProducts_narrow (h : MultipleOf (SumOf (SignedOf (MonomialIn IsAtom))) t) :
    ∀ p ∈ expandedProducts (t.operandsIn .product), AreNarrow p := by
  rcases multiple_operands h with ⟨s, hs, sums, others⟩ | narrow
  · have sum : s.isSum = true :=
      (List.mem_filter.1 (sums.symm ▸ List.mem_cons_self : s ∈ (t.operandsIn .product).filter isSum)).2
    have summands := hs.operandsIn (fun u hu =>
      arePlain_isAtom.operandsIn_sum_of_signed (signed_product hu)) fun u hu => .neg hu
    have narrow {o : Term α} (ho : o ∈ s.operands) {ns : List (Term α)}
        (hns : ∀ u ∈ ns, ∃ n, u = num n) : AreNarrow (o :: ns) := by
      have signed := summands o (operands_of_isSum sum ▸ ho)
      refine ⟨List.forall_mem_cons.2 ⟨signed_product signed, fun u hu => ?_⟩, ?_⟩
      · obtain ⟨n, rfl⟩ := hns u hu
        exact .leaf (.leaf (.num n))
      · have none : allUnknowns ns = [] := by
          refine List.flatMap_eq_nil_iff.2 fun u hu => ?_
          obtain ⟨n, rfl⟩ := hns u hu
          rfl
        rw [allUnknowns_cons, none, List.append_nil]
        exact signed.single
    intro p hp
    rw [expandedProducts, sums] at hp
    split at hp
    · obtain ⟨o, ho, rfl⟩ := List.mem_map.1 hp
      exact narrow ho fun u hu => absurd hu List.not_mem_nil
    · rw [List.foldl_cons, List.foldl_nil, distribute, List.flatMap_singleton] at hp
      obtain ⟨o, ho, rfl⟩ := List.mem_map.1 hp
      exact narrow ho others
  · have sums : (t.operandsIn .product).filter isSum = [] := List.filter_eq_nil_iff.2 fun u hu => by
      rw [not_isSum_of_signed (narrow.factors u hu)]
      decide
    have others : (t.operandsIn .product).filter (!·.isSum) = t.operandsIn .product :=
      List.filter_eq_self.2 fun u hu => by
        rw [not_isSum_of_signed (narrow.factors u hu)]
        rfl
    intro p hp
    rw [expandedProducts, sums, others] at hp
    split at hp
    · rw [List.eq_of_mem_singleton hp]
      exact ⟨fun u hu => absurd hu List.not_mem_nil, Nat.zero_le 1⟩
    · exact List.eq_of_mem_singleton hp ▸ narrow

/-- A multiple is expanded to a sum of monomials. -/
theorem expanded_multiple (h : MultipleOf (SumOf (SignedOf (MonomialIn IsAtom))) (bin .mul l r)) :
    SumOf (MonomialIn IsAtom) (bin .mul l r).expanded := by
  let Signed : Term α → Prop := MonomialIn (SignedOf (ProductOf IsAtom))
  have direct (i : Inverse) (u : Term α) : ¬ProductOf IsAtom (inv i u) := fun h => by
    cases h with
    | leaf h => cases h
  have products : ∀ q ∈ (expandedProducts ((bin .mul l r).operandsIn .product)).map
      Chain.product.join, Signed q := by
    intro q hq
    obtain ⟨p, hp, rfl⟩ := List.mem_map.1 hq
    have narrow := expandedProducts_narrow h p hp
    refine ⟨join_productOf narrow.factors (fun n => .leaf (.leaf (.num n))) ?_, ?_⟩
    · rintro u (h | h)
      exact direct _ _ h
    · exact (join_unknowns _ p).length_le.trans narrow.single
  have unsigned (u : Term α) (hu : Signed (inv .neg u)) : Signed u := by
    refine ⟨?_, hu.single⟩
    cases hu.product with
    | leaf h => exact .leaf (h.of_neg direct)
  have row : RowOf Signed (Chain.sum.join ((expandedProducts
      ((bin .mul l r).operandsIn .product)).map Chain.product.join)) :=
    join_rowOf products (fun n => ⟨.leaf (.leaf (.leaf (.num n))), Nat.zero_le 1⟩) unsigned
  have monomial {q : Term α} (hq : Signed q) : MonomialIn IsAtom q.negationsAsProducts :=
    ⟨arePlain_isAtom.negationsAsProducts_product hq.product,
      (negationsAsProducts_unknowns q).symm ▸ hq.single⟩
  rw [expanded, operands_of_chain rfl]
  exact row.negationsAsProducts fun _ => monomial

theorem expanded_sum (h : SumOf (SignedOf (MonomialIn IsAtom)) t) :
    SumOf (SignedOf (MonomialIn IsAtom)) t.expanded := by
  induction h with
  | leaf h =>
      cases h with
      | leaf h =>
          cases hp : h.product with
          | leaf ha => cases ha <;> exact .leaf (.leaf h)
          | mul _ _ => exact (expanded_multiple (.leaf (.leaf (.leaf h)))).mono fun _ => .leaf
      | neg h => exact .leaf (.neg h)
  | add _ _ ihl ihr => exact .add ihl ihr
  | sub _ _ ihl ihr => exact .sub ihl ihr

theorem expanded_collectable (h : t.IsCollectable) :
    SumOf (SignedOf (MonomialIn IsAtom)) t.expanded := by
  have inner {u : Term α} (hu : SumOf (SignedOf (MultipleOf IsAtom)) u) :
      SumOf (SignedOf (MonomialIn IsAtom)) u :=
    hu.mono fun _ hs => hs.mono fun _ => isMonomial_of_multiple
  induction h with
  | leaf h =>
      replace h := h.mono (Q := SumOf (SignedOf (MonomialIn IsAtom))) fun _ => inner
      cases h with
      | leaf h => exact expanded_sum h
      | left n h => exact (expanded_multiple (.left n h)).mono fun _ => .leaf
      | right n h => exact (expanded_multiple (.right n h)).mono fun _ => .leaf
  | add _ _ ihl ihr => exact .add ihl ihr
  | sub _ _ ihl ihr => exact .sub ihl ihr

section

variable [Scalar.Legible α]

theorem reads_one : (num (Scalar.one : α)).reads "1" = true := by
  refine reads_iff.2 ?_
  rw [text, numberText, Scalar.one, Scalar.Legible.not_isZero_one, if_neg (by decide),
    Scalar.Legible.text_one]

theorem withExponents_isMonomial (h : MonomialIn IsAtom t) : t.withExponents.IsMonomial := by
  refine ⟨?_, (withExponents_unknowns t).symm ▸ h.single⟩
  have product := h.product
  clear h
  induction product with
  | leaf h =>
      cases h with
      | num n => exact .leaf (.num n)
      | var legible => exact .leaf (.power legible reads_one)
  | mul _ _ ihl ihr => exact .mul ihl ihr

/-- What is searched for a collectable term. -/
theorem expanded_spread (h : t.IsCollectable) : t.expanded.withExponents.IsSpread := by
  have signed {t : Term α} (h : SignedOf (MonomialIn IsAtom) t) :
      SignedOf IsMonomial t.withExponents := by
    induction h with
    | leaf h => exact .leaf (withExponents_isMonomial h)
    | neg _ ih => exact .neg ih
  have spread {t : Term α} (h : SumOf (SignedOf (MonomialIn IsAtom)) t) :
      t.withExponents.IsSpread := by
    induction h with
    | leaf h => exact .leaf (signed h)
    | add _ _ ihl ihr => exact .add ihl ihr
    | sub _ _ ihl ihr => exact .sub ihl ihr
  exact spread (expanded_collectable h)

end

/-! ## Canonical order -/

theorem IsMonomial.operandsIn (h : t.IsMonomial) : ∀ u ∈ t.operandsIn .product, IsFactor u :=
  h.product.operandsIn fun _ hu => arePlain_isFactor.operandsIn _ hu

/-- The powers in products of factors are written out already. -/
theorem withExponents_of_product (h : ProductOf IsFactor t) : t.withExponents = t := by
  induction h with
  | leaf h => cases h <;> rfl
  | mul _ _ ihl ihr => exact congrArg₂ (bin .mul) ihl ihr

theorem sortedOperands_product (h : ProductOf IsFactor t) :
    t.sortedOperands .product = t.operandsIn .product := by
  induction h with
  | leaf h => cases h <;> rfl
  | mul _ _ ihl ihr =>
      show Chain.product.splice .mul _ _ = Chain.product.splice .mul _ _
      rw [ihl, ihr]

theorem sorted_isMonomial (h : t.IsMonomial) : t.sorted.IsMonomial := by
  refine ⟨?_, (sorted_unknowns t).length_le.trans h.single⟩
  rw [sorted_eq_join .product, sortedOperands_product h.product]
  refine join_productOf (fun u hu => ?_) .num fun u hu => by cases hu
  exact h.operandsIn u ((sortByKey_perm _).mem_iff.2 hu)

theorem sorted_signed (h : SignedOf IsMonomial t) : SignedOf IsMonomial t.sorted := by
  induction h with
  | leaf h => exact .leaf (sorted_isMonomial h)
  | neg _ ih => exact .neg ih

theorem isMonomial_ne_inv {i : Inverse} : ¬(inv i t).IsMonomial := fun h => by
  cases h.product with
  | leaf h => cases h

theorem not_isSum_of_isMonomial (h : t.IsMonomial) : t.isSum = false :=
  arePlain_isFactor.product_not_isSum h.product

theorem not_isSum_of_signed_monomial (h : SignedOf IsMonomial t) : t.isSum = false := by
  cases h with
  | leaf h => exact not_isSum_of_isMonomial h
  | neg _ => rfl

theorem sortedOperands_of_not_sum (h : t.isSum = false) : t.sortedOperands .sum = [t.sorted] := by
  cases t with
  | bin op l r => cases op <;> first | rfl | cases h
  | _ => rfl

/-- Canonical order makes a row of a sum of monomials. -/
theorem sorted_row (h : t.IsSpread) : t.sorted.IsRow := by
  have operands : ∀ u ∈ t.sortedOperands .sum, SignedOf IsMonomial u := by
    induction h with
    | leaf h =>
        rw [sortedOperands_of_not_sum (not_isSum_of_signed_monomial h)]
        exact fun u hu => List.eq_of_mem_singleton hu ▸ sorted_signed h
    | add _ _ ihl ihr =>
        intro u hu
        rcases List.mem_append.1 hu with hu | hu
        · exact ihl u hu
        · exact ihr u hu
    | sub _ _ ihl ihr =>
        intro u hu
        rcases List.mem_append.1 hu with hu | hu
        · exact ihl u hu
        · obtain ⟨v, hv, rfl⟩ := List.mem_map.1 hu
          exact .neg (ihr v hv)
  rw [sorted_eq_join .sum]
  refine join_rowOf (fun u hu => operands u ((sortByKey_perm _).mem_iff.2 hu)) ?_ fun u hu => ?_
  · exact fun n => .leaf ⟨.leaf (.num n), Nat.zero_le 1⟩
  · exact hu.of_neg fun _ _ => isMonomial_ne_inv

/-! ## Summands -/

theorem withExponents_of_spread (h : t.IsSpread) : t.withExponents = t := by
  have signed {t : Term α} (h : SignedOf IsMonomial t) : t.withExponents = t := by
    induction h with
    | leaf h => exact withExponents_of_product h.product
    | neg _ ih => exact congrArg (inv .neg) ih
  induction h with
  | leaf h => exact signed h
  | add _ _ ihl ihr => exact congrArg₂ (bin .add) ihl ihr
  | sub _ _ ihl ihr => exact congrArg₂ (bin .sub) ihl ihr

/-- The summands of a sum of monomials are monomials once their minuses are factors. -/
theorem summands_isMonomial (h : (bin .add l r).IsSpread) :
    ∀ u ∈ (bin .add l r).withExponents.operands.map negationsAsProducts, u.IsMonomial := by
  have products {u : Term α} (hu : SignedOf IsMonomial u) : SignedOf (ProductOf IsFactor) u :=
    hu.mono fun _ => MonomialIn.product
  have summands := h.operandsIn (fun u hu =>
    arePlain_isFactor.operandsIn_sum_of_signed (products hu)) fun u hu => .neg hu
  rw [withExponents_of_spread h, operands_of_chain rfl]
  intro u hu
  obtain ⟨v, hv, rfl⟩ := List.mem_map.1 hu
  have signed := summands v hv
  refine ⟨arePlain_isFactor.negationsAsProducts_signed (products signed), ?_⟩
  rw [negationsAsProducts_unknowns]
  exact signed.single

end Term

end AlgebraicTerms
