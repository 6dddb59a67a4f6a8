import AlgebraicTerms.Proofs.Term.Division

/-!
# Taking out a common divisor

Where shared factors are taken out of a sum together with the divisor of the coefficients, every term
that is left is replaced by the product of its own operands over that divisor.  That is its value over
the divisor if its operands multiply to it, which holds of products, quotients and first powers, but
not of other powers, sums and remainders: and in the negation of a product every operand is negated, so
that the sign is lost if their number is even.  Where it holds of all terms, the common divisor times
the scaled terms is the sum of the plain ones (`factorOut_sum`).
-/

namespace AlgebraicTerms

namespace Term

variable {α : Type} {F : Type*} [Scalar α] [Field F] {I : Interpretation α F}
  {t u s q l r : Term α} {ts shared summands : List (Term α)}

/-- Whether the operands of the term multiply to it. -/
def Multiplies : Term α → Prop
  | bin .mul _ _ | bin .div _ _ => True
  | bin .pow base exponent => base.isPower = false ∧ exponent.reads "1" = true
  | bin _ _ _ => False
  | inv .neg t => t.Multiplies ∧ Odd t.operands.length
  | inv .recip t => t.Multiplies
  | _ => True

omit [Scalar α] in
theorem operandsUnder_pow (h : t.isPower = false) : t.operandsUnder .pow = [t] := by
  cases t with
  | bin op l r =>
      cases op with
      | pow => cases h
      | _ => rfl
  | _ => rfl

/-! ## Legible terms -/

section Finite

variable (finite : ∀ n : α, Scalar.isFinite n = true)

include finite

theorem dividedBy?_legible (ht : t.Legible) (hs : s.Legible) (h : t.dividedBy? s = some q) :
    q.Legible := by
  obtain ⟨op, l, r, op', l', r', rfl, rfl, _, rfl⟩ := dividedBy?_eq_some h
  have difference : (exponentDifference r r').Legible := by
    unfold exponentDifference
    split
    · exact finite _
    · split
      · exact finite _
      · exact ⟨ht.2, hs.2⟩
  unfold plainPower
  split
  · exact finite _
  · split
    · exact hs.1
    · exact ⟨hs.1, difference⟩

theorem division_legible (hts : ∀ t ∈ ts, t.Legible) (hshared : ∀ s ∈ shared, s.Legible) :
    ∀ t ∈ (division ts shared).factors, t.Legible := by
  induction shared generalizing ts with
  | nil => exact hts
  | cons s shared ih =>
      obtain ⟨hs, hshared⟩ := List.forall_mem_cons.1 hshared
      cases divides : divideFirst? s ts with
      | none =>
          rw [division_cons_none divides]
          exact ih hts hshared
      | some divided =>
          obtain ⟨before, t, q, after, rfl, rfl, hq, found⟩ := divideFirst?_eq_some divides
          rw [division_cons_some found divides]
          obtain ⟨hbefore, hrest⟩ := List.forall_mem_append.1 hts
          obtain ⟨ht, hafter⟩ := List.forall_mem_cons.1 hrest
          refine ih (List.forall_mem_append.2 ⟨hbefore, List.forall_mem_cons.2 ⟨?_, hafter⟩⟩) hshared
          exact dividedBy?_legible finite ht hs hq

variable [Scalar.Legible α]

theorem join_product_legible (h : ∀ t ∈ ts, t.Legible) : (Chain.product.join ts).Legible := by
  cases ts with
  | nil => exact finite _
  | cons t ts => exact join_legible (List.cons_ne_nil t ts) h

theorem divideOut?_legible (ht : t.Legible) (hshared : ∀ s ∈ shared, s.Legible)
    (h : t.divideOut? shared = some q) : q.Legible := by
  rw [(divideOut?_eq_some h).2]
  have factors := division_legible finite (operandsIn_legible (c := .product) ht) hshared
  refine join_product_legible finite (List.forall_mem_cons.2 ⟨finite _, fun u hu => ?_⟩)
  exact factors u (List.mem_filter.1 hu).1

theorem withCoefficient_legible (h : t.Legible) : t.withCoefficient.Legible := by
  have written (g : Gathered α) (hg : ∀ t ∈ g.factors, t.Legible) : g.toTerm.Legible := by
    have plain := join_product_legible finite hg
    have scaled (n : α) : (Chain.product.join (num n :: g.factors)).Legible :=
      join_product_legible finite (List.forall_mem_cons.2 ⟨finite n, hg⟩)
    unfold Gathered.toTerm
    dsimp only
    split
    · exact plain
    · split
      · exact plain
      · split
        · exact finite _
        · split
          · exact scaled _
          · exact scaled _
  unfold withCoefficient
  split
  · exact written _ (Gathered.forall_mem_foldl_add (P := Legible) (fun _ => id) (operands_legible h) nofun)
  · exact h

end Finite

/-! ## Scaled terms -/

variable [Scalar.Legible α]

theorem prod_operands (P : I.PowerLaws) (ht : t.Legible) (h : t.Multiplies) :
    (t.operands.map (eval I.meaning)).prod = t.eval I.meaning := by
  have single (t : Term α) : ([t].map (eval I.meaning)).prod = t.eval I.meaning :=
    List.prod_singleton
  induction t with
  | bin op l r _ _ =>
      cases op with
      | mul | div => exact prod_operandsIn _
      | pow =>
          obtain ⟨hbase, one⟩ := h
          have number : r.isPower = false := by
            obtain ⟨n, rfl⟩ := exists_num_of_reads_one ht.2 one
            rfl
          show ((l.operandsUnder .pow ++ r.operandsUnder .pow).map (eval I.meaning)).prod = _
          rw [operandsUnder_pow hbase, operandsUnder_pow number, List.map_append, List.prod_append,
            single, single, eval_of_reads_one ht.2 one, mul_one]
          show _ = I.power (l.eval I.meaning) (r.eval I.meaning)
          rw [eval_of_reads_one ht.2 one, P.power_one]
      | add | sub | mod => exact h.elim
  | inv i t ih =>
      cases i with
      | neg =>
          show ((t.operands.map (inv .neg)).map (eval I.meaning)).prod = -(t.eval I.meaning)
          rw [prod_map_neg, h.2.neg_one_pow, ih ht h.1, neg_one_mul]
      | recip =>
          show ((t.operands.map (inv .recip)).map (eval I.meaning)).prod = 1 / t.eval I.meaning
          rw [prod_map_recip, ih ht h]
  | _ => exact single _

/-- A divisor times a term that is scaled down is the product of the term's operands. -/
theorem scaledDown_eval (exact : I.Exact) {divisor : α} (nonzero : I.number divisor ≠ 0)
    (ht : t.Legible) : I.number divisor * (scaledDown divisor t).eval I.meaning =
      (t.operands.map (eval I.meaning)).prod := by
  have factors : ∀ u ∈ others t.operands, u.Legible :=
    fun u hu => operands_legible ht u (List.mem_filter.1 hu).1
  have coefficient : I.number divisor * I.number (productOfNumbers t.operands / divisor) =
      I.number (productOfNumbers t.operands) := by
    rw [exact.div _ nonzero, mul_div_cancel₀ _ nonzero]
  rw [← prod_others exact, ← coefficient, mul_assoc]
  congr 1
  unfold scaledDown
  dsimp only
  split
  · rename_i zero
    show I.number _ = _
    rw [I.number_zero zero, zero_mul]
  · split
    · rename_i one
      rw [join_eval factors, exact.isOne one, one_mul]
    · have legible (n : α) : ∀ u ∈ num n :: others t.operands, u.Legible :=
        List.forall_mem_cons.2 ⟨exact.finite n, factors⟩
      rw [join_eval (legible _), List.map_cons, List.prod_cons]
      rfl

omit [Field F] [Scalar.Legible α] in
theorem factorOut_eq_pair {shared : Shared α} {plain scaled : Factoring α}
    (h : factorOut summands shared = [plain, scaled]) :
    Scalar.isZero shared.divisor = false ∧
      plain.included = summands.filterMap (fun t =>
        (t.divideOut? shared.factors).map withCoefficient) ∧
      scaled.included = plain.included.map (scaledDown shared.divisor) := by
  unfold factorOut at h
  dsimp only at h
  split at h
  · cases h
  · rename_i trivial
    cases h
    simp only [Bool.or_eq_true, not_or, Bool.not_eq_true] at trivial
    exact ⟨trivial.2, rfl, rfl⟩

/-- The common divisor times the scaled terms is the sum of the plain ones, if the operands of each
of these multiply to it. -/
theorem factorOut_sum (exact : I.Exact) (P : I.PowerLaws) {shared : Shared α}
    {plain scaled : Factoring α} (h : factorOut summands shared = [plain, scaled])
    (hsummands : ∀ t ∈ summands, t.Legible) (hshared : ∀ s ∈ shared.factors, s.Legible)
    (multiplies : ∀ t ∈ plain.included, t.Multiplies) :
    I.number shared.divisor * (scaled.included.map (eval I.meaning)).sum =
      (plain.included.map (eval I.meaning)).sum := by
  obtain ⟨divisor, included, scaledIncluded⟩ := factorOut_eq_pair h
  have nonzero : I.number shared.divisor ≠ 0 := fun zero => by
    rw [exact.isZero zero] at divisor
    cases divisor
  have legible : ∀ t ∈ plain.included, t.Legible := by
    rw [included]
    intro t ht
    obtain ⟨summand, hsummand, hq⟩ := List.mem_filterMap.1 ht
    obtain ⟨q, quotient, rfl⟩ := Option.map_eq_some_iff.1 hq
    exact withCoefficient_legible exact.finite
      (divideOut?_legible exact.finite (hsummands summand hsummand) hshared quotient)
  rw [scaledIncluded, List.map_map, ← List.sum_map_mul_left]
  congr 1
  refine List.map_congr_left fun t ht => ?_
  rw [Function.comp, scaledDown_eval exact nonzero (legible t ht),
    prod_operands P (legible t ht) (multiplies t ht)]

/-- A number times two first powers. -/
def multipleOfX (n : ℚ) (name : String) : Term ℚ :=
  bin .mul (bin .mul (num n) (variablePower name 1)) (variablePower "x" 1)

/-- `2*a*x+4*b*x` is `2*x` times `a+2*b`. -/
theorem factorOut_sum_multiples :
    factorOut [multipleOfX 2 "a", multipleOfX 4 "b"] ⟨[variablePower "x" 1], 2⟩ =
        [⟨variablePower "x" 1, [bin .mul (num 2) (variablePower "a" 1),
            bin .mul (num 4) (variablePower "b" 1)], []⟩,
          ⟨bin .mul (num 2) (variablePower "x" 1), [variablePower "a" 1,
            bin .mul (num 2) (variablePower "b" 1)], []⟩] ∧
      ((2 : ℚ) : ℝ) * ([variablePower "a" 1, bin .mul (num 2) (variablePower "b" 1)].map
          (eval (Interpretation.reals (fun _ => 5) fun _ a => a).meaning)).sum =
        ([bin .mul (num 2) (variablePower "a" 1), bin .mul (num 4) (variablePower "b" 1)].map
          (eval (Interpretation.reals (fun _ => 5) fun _ a => a).meaning)).sum := by
  have legible (n : ℚ) {name : String} (h : (var (α := ℚ) name none).Legible) :
      (multipleOfX n name).Legible :=
    ⟨⟨rfl, h, rfl⟩, ⟨by decide, rfl, rfl, nofun⟩, rfl⟩
  have pair : factorOut [multipleOfX 2 "a", multipleOfX 4 "b"] ⟨[variablePower "x" 1], 2⟩ =
      [⟨variablePower "x" 1, [bin .mul (num 2) (variablePower "a" 1),
          bin .mul (num 4) (variablePower "b" 1)], []⟩,
        ⟨bin .mul (num 2) (variablePower "x" 1), [variablePower "a" 1,
          bin .mul (num 2) (variablePower "b" 1)], []⟩] := by
    with_unfolding_all rfl
  refine ⟨pair, factorOut_sum (Interpretation.reals_exact _ _) (Interpretation.realPowers _ _) pair
    ?_ ?_ ?_⟩
  · exact List.forall_mem_cons.2 ⟨legible 2 ⟨by decide, rfl, rfl, nofun⟩,
      List.forall_mem_singleton.2 (legible 4 ⟨by decide, rfl, rfl, nofun⟩)⟩
  · exact List.forall_mem_singleton.2 ⟨⟨by decide, rfl, rfl, nofun⟩, rfl⟩
  · exact List.forall_mem_cons.2 ⟨trivial, List.forall_mem_singleton.2 trivial⟩

/-- A sign that is lost: of `2*a*x-2*b*x`, with the divisor `-2`, there is left `-2*x` times `-a-b`. -/
theorem factorOut_loses_sign :
    factorOut [multipleOfX 2 "a", multipleOfX (-2) "b"] ⟨[variablePower "x" 1], -2⟩ =
        [⟨variablePower "x" 1, [bin .mul (num 2) (variablePower "a" 1),
            inv .neg (bin .mul (num 2) (variablePower "b" 1))], []⟩,
          ⟨bin .mul (num (-2)) (variablePower "x" 1),
            [bin .mul (num (-1)) (variablePower "a" 1),
              bin .mul (bin .mul (num (-1 / 2)) (inv .neg (num 2)))
                (inv .neg (variablePower "b" 1))], []⟩] ∧
      ∃ I : Interpretation ℚ ℝ, I.Exact ∧ Nonempty I.PowerLaws ∧ (∀ name index, I.var name index ≠ 0) ∧
        I.number (-2) * ([bin .mul (num (-1)) (variablePower "a" 1),
            bin .mul (bin .mul (num (-1 / 2)) (inv .neg (num 2)))
              (inv .neg (variablePower "b" 1))].map (eval I.meaning)).sum ≠
          ([bin .mul (num 2) (variablePower "a" 1),
            inv .neg (bin .mul (num 2) (variablePower "b" 1))].map (eval I.meaning)).sum := by
  refine ⟨by with_unfolding_all rfl, .reals (fun _ => 1) fun _ a => a,
    Interpretation.reals_exact _ _, ⟨Interpretation.realPowers _ _⟩, fun _ _ => one_ne_zero, ?_⟩
  -- with all variables one, `4` against `0`
  show ((-2 : ℚ) : ℝ) * (((-1 : ℚ) : ℝ) * (1 : ℝ) ^ ((1 : ℚ) : ℝ) +
      (((-1 / 2 : ℚ) : ℝ) * -((2 : ℚ) : ℝ) * -((1 : ℝ) ^ ((1 : ℚ) : ℝ)) + 0)) ≠
    ((2 : ℚ) : ℝ) * (1 : ℝ) ^ ((1 : ℚ) : ℝ) +
      (-(((2 : ℚ) : ℝ) * (1 : ℝ) ^ ((1 : ℚ) : ℝ)) + 0)
  norm_num

end Term

end AlgebraicTerms
