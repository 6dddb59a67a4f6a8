import AlgebraicTerms.Proofs.Term.Replacement

/-!
# Laws of forms

Every conversion between forms of a term, with the laws that its steps are.  A replacement for which
the laws hold replaces a term by its conversion.
-/

namespace AlgebraicTerms

namespace Term

variable {α : Type} [Scalar α] {R : Term α → Term α → Prop} {P : Term α → Prop}

/-! ## Exponents and negations -/

theorem Replacement.withExponents (replacement : Replacement R)
    (firstPower : ∀ {t : Term α}, t.number? = none → R t (.bin .pow t (num Scalar.one)))
    (t : Term α) : R t t.withExponents := by
  induction t with
  | bin op l r ihl ihr =>
      cases op with
      | pow => exact replacement.refl _
      | _ => exact replacement.bin _ ihl ihr
  | inv i t ih => exact replacement.inv i ih
  | call | var => exact firstPower rfl
  | _ => exact replacement.refl _

structure Negations (R : Term α → Term α → Prop) : Prop extends Replacement R where
  neg_neg (t : Term α) : R (.inv .neg (.inv .neg t)) t
  neg_product (t : Term α) : R (.inv .neg t) (.bin .mul (num Scalar.negOne) t)

namespace Negations

theorem negationsAsProducts (laws : Negations R) (t : Term α) : R t t.negationsAsProducts := by
  induction t using negationsAsProducts.induct with
  | case1 t ih =>
      rw [Term.negationsAsProducts]
      exact laws.trans (laws.neg_neg t) ih
  | case2 t _ =>
      rw [Term.negationsAsProducts]
      · exact laws.neg_product t
      · assumption
  | case3 op l r ihl ihr => exact laws.bin op ihl ihr
  | case4 t _ _ _ =>
      rw [Term.negationsAsProducts]
      · exact laws.refl t
      all_goals assumption

variable (laws : Negations R)
  (number : ∀ {t : Term α} {n : α}, t.number? = some n → R (.inv .neg t) (num (-n)))

include laws number

theorem negated (t : Term α) : R (.inv .neg t) t.negated := by
  unfold Term.negated
  split
  · exact laws.neg_neg _
  · split
    · rename_i n hn
      exact number hn
    · exact laws.refl _

theorem withSummandsNegated (sums : JoinLaws .sum R P) (arrangeable : Arrangeable P)
    (numbers : ∀ n, P (num n)) {t : Term α} (h : P t) : R (.inv .neg t) t.withSummandsNegated := by
  have opposite {u : Term α} (hu : P u) : P u.negated := by
    unfold Term.negated
    split
    · exact arrangeable.inverse.1 hu
    · split
      · exact numbers _
      · exact arrangeable.inverse.2 hu
  have each : List.Forall₂ R ((t.operandsIn .sum).map (.inv .neg))
      ((t.operandsIn .sum).map Term.negated) :=
    List.forall₂_map_left_iff.2 (List.forall₂_map_right_iff.2
      (List.forall₂_same.2 fun u _ => laws.negated number u))
  have apart := laws.trans (laws.inv .neg (sums.operandsIn t))
    (sums.whole_inverse (operandsIn_ne_nil .sum t))
  refine laws.trans apart (laws.trans (sums.whole_congr each) (sums.join arrangeable.append ?_))
  exact List.forall_mem_map.2 fun u hu => opposite (arrangeable.operandsIn h u hu)

end Negations

namespace Hereditary

variable {p : Term α → Prop} {t : Term α}

theorem withExponents (hereditary : Hereditary p) (one : p (num Scalar.one)) (h : p t) :
    p t.withExponents :=
  hereditary.replacement.withExponents (fun _ ht => hereditary.bin.2 ⟨ht, one⟩) t h

theorem negations (hereditary : Hereditary p) (negOne : p (num Scalar.negOne)) :
    Negations fun t u => p t → p u where
  toReplacement := hereditary.replacement
  neg_neg _ h := hereditary.inv.1 (hereditary.inv.1 h)
  neg_product _ h := hereditary.bin.2 ⟨negOne, hereditary.inv.1 h⟩

theorem negationsAsProducts (hereditary : Hereditary p) (negOne : p (num Scalar.negOne)) (h : p t) :
    p t.negationsAsProducts :=
  (hereditary.negations negOne).negationsAsProducts t h

end Hereditary

/-! ## Products multiplied out -/

structure Distributes (R : Term α → Term α → Prop) (P : Term α → Prop) : Prop
    extends Negations R where
  chains (c : Chain) : JoinLaws c R P
  distrib (t u v : Term α) :
    R (.bin .mul (.bin .add t u) v) (.bin .add (.bin .mul t v) (.bin .mul u v))

/-- The sum of products that are given by their factors. -/
def sumOfProducts (ps : List (List (Term α))) : Term α := Chain.sum.whole (ps.map Chain.product.whole)

namespace Distributes

variable {t : Term α} {p us ss : List (Term α)} {ps : List (List (Term α))}

/-- A product times the terms of a sum. -/
theorem row (laws : Distributes R P) (hp : p ≠ []) (hus : us ≠ []) :
    R (.bin .mul (Chain.product.whole p) (Chain.sum.whole us)) (sumOfProducts (us.map (· :: p))) := by
  have product (u : Term α) :
      Chain.product.whole (u :: p) = .bin .mul u (Chain.product.whole p) :=
    Chain.product.whole_cons u hp
  induction us with
  | nil => exact absurd rfl hus
  | cons u us ih =>
      cases us with
      | nil => exact laws.trans ((laws.chains .product).swap _ u) (laws.of_eq (product u).symm)
      | cons v us =>
          have first : R (.bin .mul (Chain.product.whole p) (Chain.sum.whole (u :: v :: us)))
              (.bin .add (.bin .mul u (Chain.product.whole p))
                (.bin .mul (Chain.sum.whole (v :: us)) (Chain.product.whole p))) :=
            laws.trans ((laws.chains .product).swap _ _) (laws.distrib u _ _)
          have rest := laws.trans ((laws.chains .product).swap _ _) (ih (List.cons_ne_nil v us))
          exact laws.trans first (laws.bin .add (laws.of_eq (product u).symm) rest)

/-- Products times a sum. -/
theorem distribute (laws : Distributes R P) (hps : ps ≠ []) (h : ∀ p ∈ ps, p ≠ [])
    (ht : t.isSum = true) :
    R (.bin .mul (sumOfProducts ps) t) (sumOfProducts (Term.distribute ps t)) := by
  have hne := operands_ne_nil t
  have sum : R t (Chain.sum.whole t.operands) := by
    rw [operands_of_isSum ht]
    exact (laws.chains .sum).operandsIn t
  have once {p : List (Term α)} (hp : p ≠ []) :
      R (.bin .mul (Chain.product.whole p) t) (sumOfProducts (t.operands.map (· :: p))) :=
    laws.trans (laws.bin .mul (laws.refl _) sum) (laws.row hp hne)
  induction ps with
  | nil => exact absurd rfl hps
  | cons p ps ih =>
      obtain ⟨hp, hps'⟩ := List.forall_mem_cons.1 h
      cases ps with
      | nil =>
          have single : Term.distribute [p] t = t.operands.map (· :: p) := List.flatMap_singleton _ p
          rw [single]
          exact once hp
      | cons q ps =>
          have rest := ih (List.cons_ne_nil q ps) hps'
          have split : R (.bin .mul (sumOfProducts (p :: q :: ps)) t)
              (.bin .add (.bin .mul (Chain.product.whole p) t)
                (.bin .mul (sumOfProducts (q :: ps)) t)) :=
            laws.distrib _ _ t
          have rows : Term.distribute (p :: q :: ps) t =
              t.operands.map (· :: p) ++ Term.distribute (q :: ps) t := List.flatMap_cons
          have front : (t.operands.map (· :: p)).map Chain.product.whole ≠ [] :=
            fun none => hne (List.map_eq_nil_iff.1 (List.map_eq_nil_iff.1 none))
          have back : (Term.distribute (q :: ps) t).map Chain.product.whole ≠ [] :=
            fun none => distribute_ne_nil (List.cons_ne_nil q ps) hne (List.map_eq_nil_iff.1 none)
          have together := (laws.chains .sum).whole_append front back
          rw [← List.map_append, ← rows] at together
          exact laws.trans split (laws.trans (laws.bin .add (once hp) rest) together)

omit [Scalar α] in
theorem distribute_nonempty : ∀ p ∈ Term.distribute ps t, p ≠ [] := by
  intro p hp
  obtain ⟨q, _, hp⟩ := List.mem_flatMap.1 hp
  obtain ⟨u, _, rfl⟩ := List.mem_map.1 hp
  exact List.cons_ne_nil u q

/-- Products times one sum after the other. -/
theorem foldl_distribute (laws : Distributes R P) (hps : ps ≠ []) (h : ∀ p ∈ ps, p ≠ [])
    (hss : ∀ s ∈ ss, s.isSum = true) :
    R (Chain.product.whole (sumOfProducts ps :: ss)) (sumOfProducts (ss.foldl Term.distribute ps)) := by
  have products := laws.chains .product
  induction ss generalizing ps with
  | nil => exact laws.refl _
  | cons s ss ih =>
      obtain ⟨hs, hss⟩ := List.forall_mem_cons.1 hss
      have rest := ih (distribute_ne_nil hps (operands_ne_nil s)) distribute_nonempty hss
      exact laws.trans (products.whole_pair _ s ss)
        (laws.trans (products.whole_head (laws.distribute hps h hs)) rest)

/-- Factors may be multiplied out. -/
theorem expandedProducts (laws : Distributes R P) {ts : List (Term α)} (hts : ts ≠ []) :
    R (Chain.product.whole ts) (sumOfProducts (Term.expandedProducts ts)) := by
  have products := laws.chains .product
  have sums : ∀ s ∈ ts.filter isSum, s.isSum = true := fun s hs => (List.mem_filter.1 hs).2
  have apart : (ts.filter isSum ++ ts.filter (!·.isSum)).Perm ts := List.filter_append_perm isSum ts
  rw [Term.expandedProducts]
  split
  · rename_i none
    rw [List.isEmpty_iff.1 none, List.append_nil] at apart
    refine laws.trans (products.whole_perm apart.symm) ?_
    cases hsums : ts.filter isSum with
    | nil => exact absurd (hsums ▸ apart).nil_eq.symm hts
    | cons s ss =>
        rw [hsums] at sums
        obtain ⟨hs, hss⟩ := List.forall_mem_cons.1 sums
        have terms : R s (sumOfProducts (s.operands.map ([·]))) := by
          have single : (s.operands.map ([·])).map Chain.product.whole = s.operands := by
            rw [List.map_map]
            exact List.map_id _
          rw [sumOfProducts, single, operands_of_isSum hs]
          exact (laws.chains .sum).operandsIn s
        refine laws.trans (products.whole_head terms) (laws.foldl_distribute ?_ ?_ hss)
        · exact fun none => operands_ne_nil s (List.map_eq_nil_iff.1 none)
        · exact List.forall_mem_map.2 fun u _ => List.cons_ne_nil u []
  · rename_i some
    have hothers : ts.filter (!·.isSum) ≠ [] := fun none => some (List.isEmpty_iff.2 none)
    have order := apart.symm.trans List.perm_append_comm
    refine laws.trans (products.whole_perm order) ?_
    have start : R (Chain.product.whole (ts.filter (!·.isSum) ++ ts.filter isSum))
        (Chain.product.whole (sumOfProducts [ts.filter (!·.isSum)] :: ts.filter isSum)) := by
      cases hsums : ts.filter isSum with
      | nil =>
          rw [List.append_nil]
          exact laws.refl _
      | cons s ss => exact products.whole_split hothers (List.cons_ne_nil s ss)
    exact laws.trans start
      (laws.foldl_distribute (List.cons_ne_nil _ _) (List.forall_mem_singleton.2 hothers) sums)

theorem expanded (laws : Distributes R P) (arrangeable : Arrangeable P) (inherited : Inherited P)
    (one : P (num Scalar.one)) {t : Term α} (h : P t) : R t t.expanded := by
  induction t with
  | bin op l r ihl ihr =>
      cases op with
      | mul =>
          have factors : ∀ p ∈ Term.expandedProducts (Term.bin .mul l r).operands, ∀ q ∈ p, P q := by
            intro p hp q hq
            rcases exists_mem_expandedProducts.1 ⟨p, hp, hq⟩ with ⟨hq, _⟩ | ⟨s, hs, _, hq⟩
            · exact inherited.operands h q hq
            · exact inherited.operands (inherited.operands h s hs) q hq
          have product {p : List (Term α)} (hp : ∀ q ∈ p, P q) : P (Chain.product.join p) := by
            cases p with
            | nil => exact one
            | cons q p => exact arrangeable.join (List.cons_ne_nil q p) hp
          have joined : List.Forall₂ R
              ((Term.expandedProducts (Term.bin .mul l r).operands).map Chain.product.whole)
              ((Term.expandedProducts (Term.bin .mul l r).operands).map Chain.product.join) :=
            List.forall₂_map_left_iff.2 (List.forall₂_map_right_iff.2 (List.forall₂_same.2
              fun p hp => (laws.chains .product).join arrangeable.append (factors p hp)))
          have apart : R (Term.bin .mul l r)
              (sumOfProducts (Term.expandedProducts (Term.bin .mul l r).operands)) :=
            laws.trans ((laws.chains .product).operandsIn _)
              (laws.expandedProducts (operandsIn_ne_nil .product _))
          refine laws.trans (laws.trans apart ((laws.chains .sum).whole_congr joined))
            (laws.trans ?_ (laws.negationsAsProducts _))
          exact (laws.chains .sum).join arrangeable.append
            (List.forall_mem_map.2 fun p hp => product (factors p hp))
      | _ => exact laws.bin _ (ihl (inherited.left h)) (ihr (inherited.right h))
  | _ => exact laws.refl _

end Distributes

/-! ## Coefficients -/

/-- The laws by which numbers are taken out of a product. -/
structure Coefficients (R : Term α → Term α → Prop) (P : Term α → Prop) : Prop
    extends JoinLaws .product R P where
  neg_mul (t u : Term α) : R (.bin .mul (.inv .neg t) u) (.inv .neg (.bin .mul t u))
  mul_number {t : Term α} (m : α) {n : α} : t.number? = some n →
    R (.bin .mul (num m) t) (num (m * n))
  mul_neg (n : α) (t : Term α) : R (.bin .mul (num n) (.inv .neg t)) (.bin .mul (num (-n)) t)
  one_mul (t : Term α) : R (.bin .mul (num Scalar.one) t) t
  of_one_mul (t u : Term α) : R (.bin .mul t u) (.bin .mul (num Scalar.one) (.bin .mul t u))
  zero_mul (t : Term α) : R (.bin .mul (num Scalar.zero) t) (num Scalar.zero)
  negOne {n : α} : (n == Scalar.negOne) = true → R (num n) (.inv .neg (num Scalar.one))
  one {n : α} : Scalar.isOne n = true → R (num n) (num Scalar.one)
  zero {n : α} : Scalar.isZero n = true → R (num n) (num Scalar.zero)
  negative {n : α} : Scalar.isNegative n = true → R (num n) (.inv .neg (num (-n)))

namespace Gathered

variable {g : Gathered α} {t : Term α} {ts : List (Term α)}

/-- What holds of factors, and of a negated factor without its sign, holds of what is gathered. -/
theorem forall_mem_add (operand : ∀ u, P (inv .neg u) → P u) (hg : ∀ u ∈ g.factors, P u)
    (ht : P t) : ∀ u ∈ (g.add t).factors, P u := by
  unfold add
  split
  · exact hg
  · rename_i operand' _ negated
    obtain rfl := operandOf?_eq_some.1 negated
    exact List.forall_mem_append.2 ⟨hg, List.forall_mem_singleton.2 (operand operand' ht)⟩
  · exact List.forall_mem_append.2 ⟨hg, List.forall_mem_singleton.2 ht⟩

theorem forall_mem_foldl_add (operand : ∀ u, P (inv .neg u) → P u) (hts : ∀ u ∈ ts, P u)
    (hg : ∀ u ∈ g.factors, P u) : ∀ u ∈ (ts.foldl add g).factors, P u := by
  induction ts generalizing g with
  | nil => exact hg
  | cons t ts ih =>
      obtain ⟨ht, hts⟩ := List.forall_mem_cons.1 hts
      exact ih hts (forall_mem_add operand hg ht)

end Gathered

/-- The coefficient and the factors as one product. -/
def Gathered.whole (g : Gathered α) : Term α := Chain.product.whole (num g.coefficient :: g.factors)

namespace Coefficients

variable {g : Gathered α} {t u : Term α} {ts : List (Term α)}

theorem add (laws : Coefficients R P) (g : Gathered α) (t : Term α) :
    R (.bin .mul g.whole t) (g.add t).whole := by
  have last : R (.bin .mul g.whole t) (Chain.product.whole (num g.coefficient :: (g.factors ++ [t]))) :=
    laws.whole_append (List.cons_ne_nil _ _) (List.cons_ne_nil t [])
  have first : R (.bin .mul g.whole t)
      (Chain.product.whole (.bin .mul (num g.coefficient) t :: g.factors)) :=
    laws.trans last (laws.trans (laws.whole_perm (.cons _ (List.perm_append_singleton t g.factors)))
      (laws.whole_pair _ t _))
  cases hn : t.number? with
  | some n =>
      simp only [Gathered.add, hn]
      exact laws.trans first (laws.whole_head (laws.mul_number _ hn))
  | none =>
      cases hneg : t.operandOf? .neg with
      | none =>
          simp only [Gathered.add, hn, hneg]
          exact last
      | some operand =>
          obtain rfl := operandOf?_eq_some.1 hneg
          simp only [Gathered.add, hn, hneg]
          refine laws.trans first (laws.trans (laws.whole_head (laws.mul_neg _ operand)) ?_)
          exact laws.trans (laws.whole_unpair _ operand _)
            (laws.whole_perm (.cons _ (List.perm_append_singleton operand g.factors).symm))

theorem foldl_add (laws : Coefficients R P) (g : Gathered α) (ts : List (Term α)) :
    R (Chain.product.whole (g.whole :: ts)) (ts.foldl Gathered.add g).whole := by
  induction ts generalizing g with
  | nil => exact laws.refl _
  | cons t ts ih =>
      exact laws.trans (laws.whole_pair _ t ts) (laws.trans (laws.whole_head (laws.add g t)) (ih _))

theorem toTerm (laws : Coefficients R P) (arrangeable : Arrangeable P) (numbers : ∀ n, P (num n))
    (hg : ∀ t ∈ g.factors, P t) : R g.whole g.toTerm := by
  have product : R (Chain.product.whole g.factors) (Chain.product.join g.factors) :=
    laws.join arrangeable.append hg
  have scaled (n : α) : R (Chain.product.whole (num n :: g.factors))
      (Chain.product.join (num n :: g.factors)) :=
    laws.join arrangeable.append (List.forall_mem_cons.2 ⟨numbers n, hg⟩)
  have negated (t : Term α) : R (Chain.product.whole (.inv .neg t :: g.factors))
      (.inv .neg (Chain.product.whole (t :: g.factors))) := by
    cases g.factors with
    | nil => exact laws.refl _
    | cons u us => exact laws.neg_mul t _
  have one : R (Chain.product.whole (num Scalar.one :: g.factors)) (Chain.product.join g.factors) := by
    refine laws.trans ?_ product
    cases g.factors with
    | nil => exact laws.refl _
    | cons u us => exact laws.one_mul _
  rw [Gathered.toTerm, Gathered.whole]
  split
  · rename_i minus
    exact laws.trans (laws.whole_head (laws.negOne minus))
      (laws.trans (negated _) (laws.inv .neg one))
  · split
    · rename_i isOne
      exact laws.trans (laws.whole_head (laws.one isOne)) one
    · split
      · rename_i isZero
        refine laws.trans (laws.whole_head (laws.zero isZero)) ?_
        cases g.factors with
        | nil => exact laws.refl _
        | cons u us => exact laws.zero_mul _
      · split
        · rename_i negative
          exact laws.trans (laws.whole_head (laws.negative negative))
            (laws.trans (negated _) (laws.inv .neg (scaled _)))
        · exact scaled _

theorem withCoefficient (laws : Coefficients R P) (arrangeable : Arrangeable P)
    (numbers : ∀ n, P (num n)) {t : Term α} (h : P t) : R t t.withCoefficient := by
  unfold Term.withCoefficient
  split
  · rename_i l r
    have operands : ∀ u ∈ (Term.bin .mul l r).operands, P u := arrangeable.operandsIn (c := .product) h
    have gathered : ∀ u ∈ ((Term.bin .mul l r).operands.foldl Gathered.add ⟨Scalar.one, []⟩).factors,
        P u := Gathered.forall_mem_foldl_add (fun u => arrangeable.inverse.1) operands nofun
    have start : R (Term.bin .mul l r)
        (Chain.product.whole (num Scalar.one :: (Term.bin .mul l r).operands)) := by
      rw [Chain.product.whole_cons _ (operands_ne_nil _)]
      exact laws.trans (laws.of_one_mul l r) (laws.bin .mul (laws.refl _) (laws.operandsIn _))
    exact laws.trans start (laws.trans (laws.foldl_add ⟨Scalar.one, []⟩ _)
      (laws.toTerm arrangeable numbers gathered))
  · exact laws.refl t

end Coefficients

/-! ## Powers -/

/-- The laws by which trivial powers are removed. -/
structure TrivialPowers (R : Term α → Term α → Prop) (P : Term α → Prop) : Prop
    extends Replacement R where
  power_one {l r : Term α} : P r → r.reads "1" = true → R (.bin .pow l r) l
  power_zero {l r : Term α} : P r → r.reads "0" = true → R (.bin .pow l r) (num Scalar.one)

theorem TrivialPowers.withoutTrivialPowers (laws : TrivialPowers R P) (arrangeable : Arrangeable P)
    (inherited : Inherited P) {t : Term α} (h : P t) : R t t.withoutTrivialPowers := by
  induction t with
  | bin op l r ihl ihr =>
      have hl := ihl (inherited.left h)
      have hr := ihr (inherited.right h)
      cases op with
      | pow =>
          rw [Term.withoutTrivialPowers]
          split
          · rename_i one
            exact laws.trans (laws.power_one (inherited.right h) one) hl
          · split
            · rename_i zero
              exact laws.power_zero (inherited.right h) zero
            · exact laws.bin .pow hl hr
      | _ => exact laws.bin _ hl hr
  | inv i t ih => exact laws.inv i (ih (inherited.operand h))
  | call k t ih => exact laws.call k (ih (arrangeable.call.1 h))
  | _ => exact laws.refl _

/-- The laws by which powers with negative exponents are written as reciprocals. -/
structure NegativePowers (R : Term α → Term α → Prop) : Prop extends Replacement R where
  power_negOne {l r : Term α} {n : α} : r.number? = some n → (n == Scalar.negOne) = true →
    R (.bin .pow l r) (.inv .recip l)
  power_negative {l r : Term α} {n : α} : r.number? = some n → Scalar.isNegative n = true →
    R (.bin .pow l r) (.inv .recip (.bin .pow l (num (-n))))
  power_neg (l r : Term α) : R (.bin .pow l (.inv .neg r)) (.inv .recip (.bin .pow l r))

theorem NegativePowers.powerAsReciprocal (laws : NegativePowers R) (t : Term α) :
    R t t.powerAsReciprocal := by
  cases hp : t.power? with
  | none =>
      simp only [Term.powerAsReciprocal, hp]
      exact laws.refl t
  | some sides =>
      obtain ⟨base, exponent⟩ := sides
      obtain rfl := eq_pow_of_power? hp
      cases hn : exponent.number? with
      | some n =>
          simp only [Term.powerAsReciprocal, hp, hn]
          split
          · rename_i minus
            exact laws.power_negOne hn minus
          · split
            · rename_i negative
              exact laws.power_negative hn negative
            · exact laws.refl _
      | none =>
          cases hneg : exponent.operandOf? .neg with
          | none =>
              simp only [Term.powerAsReciprocal, hp, hn, hneg]
              exact laws.refl _
          | some positive =>
              obtain rfl := operandOf?_eq_some.1 hneg
              simp only [Term.powerAsReciprocal, hp, hn, hneg]
              exact laws.power_neg base positive

/-! ## Reciprocals -/

/-- What a factor becomes when reciprocals are written as powers. -/
theorem reciprocalAsPower_cases {t u : Term α} (hu : t.reciprocalAsPower = .ok u) : u = t ∨
    t = inv .recip (inv .recip u) ∨
    (∃ base exponent, t = inv .recip (bin .pow base exponent) ∧
      u = bin .pow base exponent.negated) ∨
    (∃ operand n, t = inv .recip operand ∧ operand.number? = some n ∧ Scalar.isZero n = false ∧
      u = num (Scalar.one / n)) ∨
    ∃ operand, t = inv .recip operand ∧ u = bin .pow operand (num Scalar.negOne) := by
  unfold reciprocalAsPower at hu
  split at hu
  · exact .inl (Except.ok.inj hu).symm
  · rename_i operand hrecip
    obtain rfl := operandOf?_eq_some.1 hrecip
    refine .inr ?_
    split at hu
    · rename_i inner hinner
      obtain rfl := operandOf?_eq_some.1 hinner
      exact .inl (Except.ok.inj hu ▸ rfl)
    · rename_i base exponent _ hpower
      obtain rfl := eq_pow_of_power? hpower
      exact .inr (.inl ⟨base, exponent, rfl, (Except.ok.inj hu).symm⟩)
    · rename_i n _ _ hn
      split at hu
      · cases hu
      · rename_i nonzero
        exact .inr (.inr (.inl ⟨operand, n, rfl, hn, Bool.eq_false_iff.2 nonzero,
          (Except.ok.inj hu).symm⟩))
    · exact .inr (.inr (.inr ⟨operand, rfl, (Except.ok.inj hu).symm⟩))

/-- The laws by which reciprocals are resolved or written as powers. -/
structure Reciprocals (R : Term α → Term α → Prop) : Prop extends Negations R where
  neg_number {t : Term α} {n : α} : t.number? = some n → R (.inv .neg t) (num (-n))
  recip_recip (t : Term α) : R (.inv .recip (.inv .recip t)) t
  recip_number {t : Term α} {n : α} : t.number? = some n → Scalar.isZero n = false →
    R (.inv .recip t) (num (Scalar.one / n))
  recip_power (l r : Term α) : R (.inv .recip (.bin .pow l r)) (.bin .pow l (.inv .neg r))
  recip (t : Term α) : R (.inv .recip t) (.bin .pow t (num Scalar.negOne))

namespace Reciprocals

variable {t u : Term α}

theorem reciprocal (laws : Reciprocals R) (hu : t.reciprocal = .ok u) : R (.inv .recip t) u := by
  cases hn : t.number? with
  | some n =>
      simp only [Term.reciprocal, hn] at hu
      split at hu
      · cases hu
      · rename_i nonzero
        cases hu
        exact laws.recip_number hn (Bool.eq_false_iff.2 nonzero)
  | none =>
      simp only [Term.reciprocal, hn] at hu
      cases hu
      cases hrecip : t.operandOf? .recip with
      | none => exact laws.refl _
      | some operand =>
          obtain rfl := operandOf?_eq_some.1 hrecip
          exact laws.recip_recip operand

theorem inverted (laws : Reciprocals R) {i : Inverse} (hu : t.inverted i = .ok u) :
    R (.inv i t) u := by
  cases i with
  | neg =>
      cases hu
      exact laws.negated laws.neg_number t
  | recip => exact laws.reciprocal hu

theorem reciprocalAsPower (laws : Reciprocals R) (hu : t.reciprocalAsPower = .ok u) : R t u := by
  rcases reciprocalAsPower_cases hu with rfl | rfl | ⟨base, exponent, rfl, rfl⟩ |
    ⟨operand, n, rfl, hn, nonzero, rfl⟩ | ⟨operand, rfl, rfl⟩
  · exact laws.refl _
  · exact laws.recip_recip u
  · exact laws.trans (laws.recip_power base exponent)
      (laws.bin .pow (laws.refl base) (laws.negated laws.neg_number exponent))
  · exact laws.recip_number hn nonzero
  · exact laws.recip operand

end Reciprocals

end Term

end AlgebraicTerms
