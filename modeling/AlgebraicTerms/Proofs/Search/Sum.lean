import AlgebraicTerms.Proofs.Search.Binomial
import AlgebraicTerms.Search.Sum

/-!
# Sums are searched soundly

All that a sum needs of the rule for common factors is that each factoring makes the sum again.
-/

namespace AlgebraicTerms

variable {α : Type} [Scalar α] [Scalar.Exact α] {K : Type*} [Field K]

/-- Whether a factoring multiplies out to the given sum. -/
def Term.Factoring.Makes (f : Term.Factoring α) (ρ : Assignment K) (a : K) : Prop :=
  ∃ x y z, f.factor.HasValue ρ x ∧ Chain.sum.Total ρ f.included y ∧
    Chain.sum.Total ρ f.unused z ∧ a = x * y + z

/-- Whether every factoring that a rule gives for a sum with a value makes the sum again. -/
def Term.FactoringRule.Exact (rule : Term.FactoringRule α) (ρ : Assignment K) : Prop :=
  ∀ (ts : List (Term α)) (a : K), Chain.sum.Total ρ ts a →
    ∀ f ∈ rule ts (ts.map Term.factors), f.Makes ρ a

namespace Search

variable [Scalar.Legible α] [CharZero K] {ρ : Assignment K} {J : Cache α → Prop} {A : List String}
  {find : Finder α} {simplify : Term α → Search α (Term α)} {rule : Term.FactoringRule α}
  {t u l r : Term α} {ts us : List (Term α)} {n : α} {a b : K}

/-! ## Numbers and like terms -/

omit [Scalar.Legible α] in
theorem offset_all (hfind : Finds J A ρ find) (h : t.HasValue ρ a) :
    Ensures J A (offset find n t) (AllHave ρ (Scalar.toField n + a)) := by
  have sum {m : α} (hm : a = Scalar.toField m) :
      Ensures J A (pure [.num (n + m)]) (AllHave ρ (Scalar.toField n + a)) := by
    refine .pure (.single ?_)
    rw [hm, ← Scalar.toField_add]
    exact .num _
  rw [offset]
  split
  · rename_i zero
    rw [Scalar.toField_eq_zero.2 (Scalar.isZero_iff.1 zero), zero_add]
    exact hfind.all h
  · split
    · rename_i m hm
      exact sum (h.of_number? hm)
    · refine (hfind.all h).bind fun found hfound => ?_
      split
      · rename_i m hm
        obtain ⟨u, hu, hm⟩ := List.exists_of_findSome?_eq_some hm
        exact sum ((hfound.2 u hu).of_number? hm)
      · exact .pure (hfound.map fun u hu => .add (.num n) hu)

omit [Scalar.Legible α] in
/-- Numbers are added without looking for other terms. -/
theorem mergeSummands_numbers (h : Chain.sum.Total ρ ts a) (numbers : Term.others ts = []) :
    Ensures J A (mergeSummands find ts) fun m =>
      ∃ n, m.settled = some [.num n] ∧ (Term.num n).HasValue ρ a := by
  obtain ⟨b, hb, rfl⟩ := h.others
  rw [numbers] at hb
  cases hb
  rw [Chain.combine_unit]
  simp only [mergeSummands, numbers]
  exact .pure ⟨_, rfl, .num _⟩

omit [Scalar.Legible α] in
/-- A zero may be left out of a sum. -/
theorem withoutZero_total (h : Chain.sum.Total ρ (.num n :: ts) a) :
    Chain.sum.Total ρ (if Scalar.isZero n then ts else .num n :: ts) a := by
  split
  · rename_i zero
    cases h with
    | cons hn hts =>
        rw [hn.of_number? rfl, Scalar.toField_eq_zero.2 (Scalar.isZero_iff.1 zero), Chain.combine,
          zero_add]
        exact hts
  · exact h

theorem mergeSummands_makes (hfind : Finds J A ρ find) (h : Chain.sum.Total ρ ts a) :
    Ensures J A (mergeSummands find ts) fun m => m.Makes .sum ρ a := by
  cases numbers : Term.others ts with
  | nil =>
      refine (mergeSummands_numbers h numbers).mono fun m hm => ?_
      obtain ⟨n, settled, hn⟩ := hm
      rw [Merged.Makes, settled]
      exact .single hn
  | cons t us =>
      obtain ⟨b, hb, rfl⟩ := h.others
      rw [numbers] at hb
      have collected := Term.collectOrZero_total hb
      simp only [mergeSummands, numbers]
      split
      · rename_i only honly
        rw [honly] at collected
        cases collected with
        | cons hvalue hnil =>
            cases hnil
            rw [Chain.combine_unit]
            exact (offset_all hfind hvalue).bind fun us hus => .pure hus
      · exact .pure (.cons (.num _) collected)

theorem finishSum_hasValue (h : t.HasValue ρ a) : (finishSum t).HasValue ρ a := by
  have summands : Chain.sum.Total ρ t.summands a := by
    have total := Chain.Total.cons (Term.hasValue_zero (α := α)) (Term.operandsIn_total (c := .sum) h)
    rwa [Chain.combine, zero_add] at total
  exact Term.join_hasValue (summands.map fun t _ a ht => Term.withCoefficient_hasValue ht)

omit [Scalar.Exact α] in
theorem finishSum_isNumber (h : t.isNumber = true) : (finishSum t).isNumber = true := by
  have two : finishSum t = Chain.sum.append (Term.num Scalar.zero) t := by
    cases t with
    | num n => rfl
    | const c => rfl
    | _ => cases h
  have zero : (Term.num (Scalar.zero : α)).reads "0" = true := Term.reads_iff.2 Term.text_zero
  rw [two]
  unfold Chain.append
  by_cases ht : t.reads "0" = true
  · rw [Chain.identityText, if_pos ht]
    rfl
  · rw [Chain.identityText, if_neg ht, if_pos zero]
    exact h

/-! ## Common factors -/

theorem factored_all {f : Term.Factoring α} (hfind : Finds J A ρ find) (h : f.Makes ρ a) :
    Ensures J A (factored find f) fun us => ∀ u ∈ us, u.HasValue ρ a := by
  obtain ⟨x, y, z, hx, hy, hz, rfl⟩ := h
  have sign {factor included : Term α} {x' y' : K} (hfactor : factor.HasValue ρ x')
      (hincluded : included.HasValue ρ y') (value : x' * y' = x * y) :
      Ensures J A (do
        let found ← find included
        if f.unused.isEmpty then return found.map (.bin .mul factor)
        else
          let unused := Chain.sum.join f.unused
          gather (fun t => find (.bin .add (.bin .mul factor t) unused)) found)
        fun us => ∀ u ∈ us, u.HasValue ρ (x * y + z) := by
    refine (hfind.all hincluded).bind fun found hfound => ?_
    rw [← value]
    split
    · rename_i empty
      rw [List.isEmpty_iff] at empty
      rw [empty] at hz
      cases hz
      rw [Chain.unit, add_zero]
      exact .pure (hfound.map fun t ht => .mul hfactor ht).2
    · refine .gather fun t ht => (hfind.all ?_).mono fun us hus => hus.2
      exact .add (.mul hfactor (hfound.2 t ht)) (Term.join_hasValue hz)
  have included := Term.join_hasValue hy
  refine .gather fun p hp => ?_
  rcases List.mem_pair.1 hp with rfl | rfl
  · exact sign hx included rfl
  · exact sign (.neg hx) (Term.withSummandsNegated_hasValue included) (neg_mul_neg x y)

/-! ## Sums -/

omit [Scalar.Legible α] [CharZero K] in
/-- The summands that the rule for sums starts from. -/
theorem searchedSummands_total (h : (Term.bin .add l r).HasValue ρ a) : Chain.sum.Total ρ
    ((Term.bin .add l r).withExponents.operands.map Term.negationsAsProducts) a := by
  show Chain.sum.Total ρ ((Term.bin .add l.withExponents r.withExponents).operands.map
    Term.negationsAsProducts) a
  rw [Term.operands_of_chain rfl]
  exact (Term.operandsIn_total (Term.withExponents_hasValue h)).map fun t _ a ht =>
    Term.negationsAsProducts_hasValue ht

section Rules

variable (hfind : Finds J A ρ find) (hsimplify : Simplifies J A ρ simplify) (hrule : rule.Exact ρ)

include hfind hsimplify hrule

theorem combineSummands_makes {combos : List (List (Term α))}
    (h : ∀ combo ∈ combos, Chain.sum.Total ρ combo a)
    (hts : ∀ t ∈ ts, t.HasValue ρ (Scalar.toField n + a)) :
    Ensures J A (combineSummands rule find simplify n ts combos)
      (Combined.Makes ρ (Scalar.toField n + a)) := by
  induction combos generalizing ts with
  | nil => exact .pure hts
  | cons combo combos ih =>
      have combined : Chain.sum.Total ρ (.num n :: combo) (Scalar.toField n + a) :=
        .cons (.num n) (h combo List.mem_cons_self)
      rw [combineSummands]
      refine (mergeSummands_makes hfind combined).bind fun merged hmerged => ?_
      rw [Merged.Makes] at hmerged
      split
      · rename_i settled hsettled
        rw [hsettled] at hmerged
        exact .pure (hmerged.map fun t ht => finishSum_hasValue ht)
      · rename_i hnone
        rw [hnone] at hmerged
        have summands : Chain.sum.Total ρ
            (if Scalar.isZero merged.number then merged.rest
              else .num merged.number :: merged.rest) (Scalar.toField n + a) :=
          withoutZero_total hmerged
        dsimp only
        generalize (if Scalar.isZero merged.number then merged.rest
          else .num merged.number :: merged.rest) = us at summands ⊢
        have continued (vs : List (Term α)) (hvs : ∀ v ∈ vs, v.HasValue ρ (Scalar.toField n + a)) :
            Ensures J A (do
              let bySquares ← binomials find simplify us (us.map Term.factors)
              combineSummands rule find simplify n (ts ++ vs ++ bySquares) combos)
              (Combined.Makes ρ (Scalar.toField n + a)) := by
          refine (binomials_all hfind hsimplify summands).bind fun ws hws => ?_
          refine ih (fun combo hcombo => h combo (List.mem_cons_of_mem _ hcombo)) fun t ht => ?_
          rcases List.mem_append.1 ht with ht | ht
          · rcases List.mem_append.1 ht with ht | ht
            · exact hts t ht
            · exact hvs t ht
          · exact hws t ht
        split
        · have byFactors : Ensures J A (gather (factored find) (rule us (us.map Term.factors)))
              fun vs => ∀ v ∈ vs, v.HasValue ρ (Scalar.toField n + a) :=
            .gather fun f hf => factored_all hfind (hrule us _ summands f hf)
          exact byFactors.bind continued
        · exact continued [] fun _ h => absurd h List.not_mem_nil

theorem sum_all (h : (Term.bin .add l r).HasValue ρ a) :
    Ensures J A (sum rule find simplify (.bin .add l r)) (AllHave ρ a) := by
  rw [sum]
  refine (mergeSummands_makes hfind (searchedSummands_total h)).bind fun merged hmerged => ?_
  rw [Merged.Makes] at hmerged
  split
  · rename_i settled hsettled
    rw [hsettled] at hmerged
    exact .pure (hmerged.map fun t ht => finishSum_hasValue ht)
  · rename_i hnone
    rw [hnone] at hmerged
    cases hmerged with
    | @cons _ _ _ b hnumber hrest =>
        cases hnumber
        refine (hfind.operands hrest).bind fun found hfound => ?_
        refine (combineSummands_makes hfind hsimplify hrule (fun combo hcombo =>
          combination_total hfound hrest hcombo) (fun _ h => absurd h List.not_mem_nil)).bind fun combined hcombined => ?_
        cases combined with
        | settled ts => exact .pure hcombined
        | collected ts =>
            have plain := Term.join_hasValue ((firsts_total hfound hrest).map
              fun t _ a ht => Term.withCoefficient_hasValue ht)
            refine .pure ⟨fun empty => ?_, fun t ht => ?_⟩
            · exact List.append_ne_nil_of_right_ne_nil ts (List.cons_ne_nil _ _) empty
            · rcases List.mem_append.1 ht with ht | ht
              · exact hcombined t ht
              · obtain rfl := List.eq_of_mem_singleton ht
                split
                · rename_i zero
                  rw [Scalar.toField_eq_zero.2 (Scalar.isZero_iff.1 zero), Chain.combine, zero_add]
                  exact plain
                · rw [Chain.combine, add_comm]
                  exact .add plain (.num _)

theorem difference_all (h : (Term.bin .sub l r).HasValue ρ a) :
    Ensures J A (difference rule find simplify l r) (AllHave ρ a) := by
  cases h with
  | sub hl hr =>
      rw [sub_eq_add_neg]
      exact sum_all hfind hsimplify hrule (.add hl (.neg hr))

end Rules

theorem sum_literal (h : (Term.bin .add l r).HasValue ρ a)
    (hs : (Term.bin .add l r).shape ≠ .other) :
    Ensures J A (sum rule find simplify (.bin .add l r)) (Found ρ (.bin .add l r) a) := by
  obtain ⟨hl, hr⟩ := Shape.join_ne_other hs
  obtain ⟨m, rfl, _⟩ := Term.exists_of_shape_literal hl
  obtain ⟨n, rfl, _⟩ := Term.exists_of_shape_literal hr
  have total : Chain.sum.Total ρ [.num m, .num n] a := Term.operandsIn_total h
  refine (mergeSummands_numbers total rfl).bind fun merged ⟨k, settled, hk⟩ => ?_
  rw [settled]
  have literal := h.num_literal hs hk
  have finished : finishSum (Term.num k) = .num k := by
    have positive : ¬(Term.num k).reads "0" = true := fun zero => by
      obtain ⟨_, ⟨⟩, hk'⟩ := Term.exists_of_shape_literal literal
      have value := (Term.HasValue.num (ρ := ρ) k).eq_zero zero
      exact hk'.ne' (Scalar.toField_eq_zero.1 value)
    show Chain.sum.append (.num Scalar.zero) (.num k) = .num k
    have zero : (Term.num (Scalar.zero : α)).reads "0" = true := Term.reads_iff.2 Term.text_zero
    unfold Chain.append
    rw [Chain.identityText, if_neg positive, if_pos zero]
  refine .pure ?_
  show Found ρ _ a [finishSum (Term.num k)]
  rw [finished]
  refine ⟨.single hk, fun _ c hc => ?_⟩
  obtain rfl := List.eq_of_mem_singleton hc
  exact literal

end Search

end AlgebraicTerms
