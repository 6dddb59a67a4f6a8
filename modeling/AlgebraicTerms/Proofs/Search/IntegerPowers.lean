import AlgebraicTerms.Proofs.Search.SameBase
import AlgebraicTerms.Proofs.Search.Sound
import AlgebraicTerms.Proofs.Term.Integral
import AlgebraicTerms.Search.Power

/-!
# Products, quotients and powers with integer exponents

The rules for products, quotients and powers call the search for parts of their term.  If it answers
with terms of the same value, with integer exponents and without a zero base or divisor, all candidates
of the rule have the value of its term.  A candidate can come of factors that were merged early, of a
combination that settles the product, or of what is left of the factors; every way keeps the product of
all factors (`mergeFactors_eval`).
-/

namespace AlgebraicTerms

variable {α : Type} {F : Type*} [Scalar α] [Field F]

/-- Whether what is left after merging factors has the given product and property. -/
def Merged.Multiplies (I : Interpretation α F) (Good : Term α → Prop) (x : F) (m : Merged α) : Prop :=
  match m.settled with
  | some ts => ts ≠ [] ∧ ∀ t ∈ ts, Good t ∧ t.eval I.meaning = x
  | none => (∀ t ∈ m.rest, Good t) ∧
      I.number m.number * (m.rest.map (Term.eval I.meaning)).prod = x

def Combined.terms : Combined α → List (Term α)
  | settled ts | collected ts => ts

namespace Search

open Term

variable {I : Interpretation α F} {C : Term α → Prop} {J : Cache α → Prop} {A : List String}
  {find : Finder α} {t u v base base' m n exponent : Term α} {ts us rest : List (Term α)} {x : F}

/-- Whether the search answers every regular term, and with nothing but regular terms of its value. -/
def FindsRegular (J : Cache α → Prop) (A : List String) (I : Interpretation α F)
    (C : Term α → Prop) (find : Finder α) : Prop :=
  ∀ t, t.Regular I C → Ensures J A (find t) fun us =>
    us ≠ [] ∧ ∀ u ∈ us, u.Regular I C ∧ u.eval I.meaning = t.eval I.meaning

theorem FindsRegular.first (hfind : FindsRegular J A I C find) (ht : t.Regular I C) :
    Ensures J A (first find t) fun u => u.Regular I C ∧ u.eval I.meaning = t.eval I.meaning := by
  refine (hfind t ht).bind fun us ⟨hne, hus⟩ => .pure ?_
  cases us with
  | nil => exact absurd rfl hne
  | cons u us => exact hus u List.mem_cons_self

/-! ## Lists of factors -/

theorem eval_of_forall₂
    (h : List.Forall₂ (fun t u => u.Regular I C ∧ u.eval I.meaning = t.eval I.meaning) ts us) :
    (∀ u ∈ us, u.Regular I C) ∧ us.map (eval I.meaning) = ts.map (eval I.meaning) := by
  induction h with
  | nil => exact ⟨nofun, rfl⟩
  | cons hu _ ih =>
      refine ⟨List.forall_mem_cons.2 ⟨hu.1, ih.1⟩, ?_⟩
      rw [List.map_cons, List.map_cons, hu.2, ih.2]

theorem join_number_eval [Scalar.Legible α] (readable : Readable I C) {n : α}
    (h : ∀ t ∈ ts, t.Regular I C) : (Chain.product.join (.num n :: ts)).eval I.meaning =
      I.number n * (ts.map (eval I.meaning)).prod := by
  have units : ∀ t ∈ .num n :: ts, t.UnitAsRead I .product := List.forall_mem_cons.2
    ⟨(Regular.number readable n).unitAsRead readable, fun t ht => (h t ht).unitAsRead readable⟩
  rw [prod_join units, List.map_cons, List.prod_cons]
  rfl

theorem reciprocals_eval (exact : I.FullyExact) (powers : I.IntegerPowers)
    (readable : Readable I C) (h : ∀ t ∈ ts, t.Regular I C) :
    (ts.map powerAsReciprocal).map (eval I.meaning) = ts.map (eval I.meaning) := by
  rw [List.map_map]
  exact List.map_congr_left fun t ht =>
    (powerAsReciprocal_regular exact powers readable (h t ht)).2

section Found

variable {found : List (List (Term α))}
  (hfound : List.Forall₂ (fun t us => us ≠ [] ∧ ∀ u ∈ us, u.Regular I C ∧
    u.eval I.meaning = t.eval I.meaning) ts found)

include hfound

theorem combination_eval (hus : us ∈ combinations found) :
    (∀ u ∈ us, u.Regular I C) ∧ us.map (eval I.meaning) = ts.map (eval I.meaning) := by
  have chosen := mem_combinations hus
  clear hus
  refine eval_of_forall₂ ?_
  induction hfound generalizing us with
  | nil =>
      cases chosen
      exact .nil
  | cons ht _ ih =>
      cases chosen with
      | cons hu hus => exact .cons (ht.2 _ hu) (ih hus)

theorem firsts_eval : (∀ u ∈ found.filterMap List.head?, u.Regular I C) ∧
    (found.filterMap List.head?).map (eval I.meaning) = ts.map (eval I.meaning) := by
  refine eval_of_forall₂ ?_
  induction hfound with
  | nil => exact .nil
  | @cons t us _ _ ht _ ih =>
      cases us with
      | nil => exact absurd rfl ht.1
      | cons u us => exact .cons (ht.2 u List.mem_cons_self) ih

end Found

/-! ## Merging -/

variable (exact : I.FullyExact) (powers : I.IntegerPowers) (readable : Readable I C)

section Pairs

variable (tangent : ∀ x, I.call .tan x = I.call .sin x / I.call .cos x)

variable (hfind : FindsRegular J A I C find)

include exact powers readable tangent hfind

theorem mergeBases_product (ht : t.Regular I C) (hu : u.Regular I C)
    (hpt : t.power? = some (base, m)) (hpu : u.power? = some (base', n)) :
    Ensures J A (mergeBases find t u base m base' n)
      (PairOutcome.Keeps (Regular I C) (eval I.meaning) (t.eval I.meaning * u.eval I.meaning)) := by
  rw [mergeBases]
  split
  · rename_i v hv
    refine .pure ?_
    rcases sineOverCosine?_of_identityProduct? hv with h | h
    · exact sineOverCosine?_regular exact powers readable tangent ht hu h
    · rw [mul_comm]
      exact sineOverCosine?_regular exact powers readable tangent hu ht h
  · obtain rfl := eq_pow_of_power? hpt
    obtain rfl := eq_pow_of_power? hpu
    split
    · exact keeps_apart
    · split
      · rename_i same
        obtain ⟨k, hne, hm, power⟩ := ht.exists_power powers
        obtain ⟨l, hne', hn, _⟩ := hu.exists_power powers
        have integer : n.eval I.meaning = (k : F) :=
          ((ht.right readable).eval_eq readable (hu.right readable) (beq_iff.1 same)).symm.trans hm
        obtain ⟨_, power'⟩ :=
          (hu.left readable).power readable powers (hu.right readable) hne' integer
        refine (hfind.first ((ht.left readable).product readable (hu.left readable))).bind ?_
        intro product ⟨hproduct, value⟩
        have nonzero : product.eval I.meaning ≠ 0 := by
          rw [value]
          exact mul_ne_zero hne hne'
        obtain ⟨regular, result⟩ := hproduct.power readable powers (ht.right readable) nonzero hm
        refine .pure ⟨regular, ?_⟩
        rw [result, value, power, power']
        exact mul_zpow _ _ _
      · split
        · rename_i opposite
          exact .pure (opposite_regular powers readable ht hu (beq_iff.1 opposite))
        · split
          · rename_i opposite
            rw [mul_comm]
            exact .pure (opposite_regular powers readable hu ht (beq_iff.1 opposite))
          · exact keeps_apart

variable [Scalar.Legible α]

theorem mergePair_product {sameBase : Bool} (ht : t.Regular I C) (hu : u.Regular I C) :
    Ensures J A (mergePair find sameBase t u)
      (PairOutcome.Keeps (Regular I C) (eval I.meaning) (t.eval I.meaning * u.eval I.meaning)) := by
  rw [mergePair]
  split
  · rename_i base m base' n hpt hpu
    split
    · rename_i same
      obtain rfl := eq_pow_of_power? hpt
      obtain rfl := eq_pow_of_power? hpu
      obtain ⟨k, hne, hm, power⟩ := ht.exists_power powers
      obtain ⟨l, _, hn, power'⟩ := hu.exists_power powers
      have bases := (ht.left readable).eval_eq readable (hu.left readable) (beq_iff.1 same)
      have product : (Term.bin .pow base m).eval I.meaning * (Term.bin .pow base' n).eval I.meaning =
          base.eval I.meaning ^ (k + l) := by
        rw [power, power', ← bases, zpow_add₀ hne]
      rw [product]
      refine (hfind.first ((ht.right readable).sum readable (hu.right readable))).bind ?_
      intro e found
      obtain ⟨he, value⟩ := found
      have sum : e.eval I.meaning = ((k + l : ℤ) : F) := by
        rw [value, Int.cast_add, ← hm, ← hn]
        rfl
      obtain ⟨regular, result⟩ := (ht.left readable).power readable powers he hne sum
      refine .pure ?_
      split
      · rename_i none
        have zero := readable.faithful.eval_of_reads_zero (readable.num _) he.readable none
        show base.eval I.meaning ^ (k + l) = 1
        rw [← powers.power (.inl hne), ← sum, zero, ← Int.cast_zero, powers.power (.inl hne),
          zpow_zero]
      · exact ⟨regular, result⟩
    · split
      · exact keeps_apart
      · exact mergeBases_product exact powers readable tangent hfind ht hu hpt hpu
  · exact keeps_apart

end Pairs

section Rules

variable [Scalar.Legible α] (tangent : ∀ x, I.call .tan x = I.call .sin x / I.call .cos x)
  (hfind : FindsRegular J A I C find)

omit [Scalar.Legible α] in
include exact readable hfind in
theorem scale_eval {n : α} (ht : t.Regular I C) : Ensures J A (scale find n t) fun us =>
    us ≠ [] ∧ ∀ u ∈ us, u.Regular I C ∧ u.eval I.meaning = I.number n * t.eval I.meaning := by
  have product {m : α} (hm : I.number m = t.eval I.meaning) :
      Ensures J A (pure [.num (n * m)]) fun us : List (Term α) =>
        us ≠ [] ∧ ∀ u ∈ us, u.Regular I C ∧ u.eval I.meaning = I.number n * t.eval I.meaning := by
    refine .pure ⟨List.cons_ne_nil _ _, List.forall_mem_singleton.2 ⟨.number readable _, ?_⟩⟩
    rw [← hm]
    exact exact.mul n m
  rw [scale]
  split
  · rename_i one
    rw [exact.isOne one, one_mul]
    exact hfind t ht
  · split
    · rename_i m hm
      exact product (eval_of_number? exact.toExact hm).symm
    · refine (hfind t ht).bind fun found ⟨hne, hfound⟩ => ?_
      split
      · rename_i m hm
        obtain ⟨u, hu, hm⟩ := List.exists_of_findSome?_eq_some hm
        exact product ((eval_of_number? exact.toExact hm).symm.trans (hfound u hu).2)
      · refine .pure ⟨mt List.map_eq_nil_iff.1 hne, fun u hu => ?_⟩
        obtain ⟨v, hv, rfl⟩ := List.mem_map.1 hu
        obtain ⟨regular, value⟩ := hfound v hv
        exact ⟨(Regular.number readable n).product readable regular,
          congrArg (I.number n * ·) value⟩

include exact powers readable tangent hfind

/-- Merging factors keeps their product, whether it settles it or not. -/
theorem mergeFactors_eval (hts : ∀ t ∈ ts, t.Regular I C) :
    Ensures J A (mergeFactors find ts) fun merged =>
      merged.Multiplies I (Regular I C) (ts.map (eval I.meaning)).prod := by
  have settled {m : Merged α} {n : α} {x : F} (hm : m.settled = some [.num n])
      (value : I.number n = x) : m.Multiplies I (Regular I C) x := by
    rw [Merged.Multiplies, hm]
    exact ⟨List.cons_ne_nil _ _, List.forall_mem_singleton.2 ⟨.number readable n, value⟩⟩
  have total := prod_others exact.toExact ts
  have others : ∀ t ∈ others ts, t.Regular I C := fun t ht => hts t (List.mem_filter.1 ht).1
  rw [mergeFactors, ← total]
  split
  · rename_i zero
    refine .pure (settled rfl ?_)
    rw [I.number_zero zero, zero_mul]
    exact exact.zero
  · split
    · rename_i empty
      refine .pure (settled rfl ?_)
      rw [List.isEmpty_iff.1 empty]
      exact (mul_one _).symm
    · have pair (sameBase : Bool) (t u : Term α) (ht : t.Regular I C) (hu : u.Regular I C) :
          Ensures J A (mergePair find sameBase t u) (PairOutcome.Keeps (Regular I C)
            (eval I.meaning) (t.eval I.meaning * u.eval I.meaning)) :=
        mergePair_product exact powers readable tangent hfind ht hu
      refine (mergePowers_product (pair true) others).bind fun once ⟨honce, first⟩ => ?_
      refine (mergePowers_product (pair false) honce).bind fun rest ⟨hrest, second⟩ => ?_
      rw [← first, ← second]
      split
      · exact .pure (settled rfl (mul_one _).symm)
      · refine (scale_eval exact readable hfind (hrest _ List.mem_cons_self)).bind ?_
        intro us hus
        rw [List.map_singleton, List.prod_singleton]
        exact .pure hus
      · exact .pure ⟨hrest, rfl⟩

theorem combineFactors_eval {n : α} {combos : List (List (Term α))}
    (h : ∀ combo ∈ combos, (∀ t ∈ combo, t.Regular I C) ∧ (combo.map (eval I.meaning)).prod = x) :
    Ensures J A (combineFactors find n combos) fun combined =>
      ∀ t ∈ combined.terms, t.eval I.meaning = I.number n * x := by
  induction combos with
  | nil => exact .pure nofun
  | cons combo combos ih =>
      obtain ⟨⟨regular, product⟩, hcombos⟩ := List.forall_mem_cons.1 h
      have factors : ∀ t ∈ .num n :: combo.map Term.powerAsReciprocal, t.Regular I C := by
        refine List.forall_mem_cons.2 ⟨.number readable n, fun u hu => ?_⟩
        obtain ⟨t, ht, rfl⟩ := List.mem_map.1 hu
        exact (powerAsReciprocal_regular exact powers readable (regular t ht)).1
      have total : ((.num n :: combo.map Term.powerAsReciprocal).map (eval I.meaning)).prod =
          I.number n * x := by
        rw [List.map_cons, List.prod_cons, reciprocals_eval exact powers readable regular, product]
        rfl
      rw [combineFactors, ← total]
      refine (mergeFactors_eval exact powers readable tangent hfind factors).bind ?_
      intro merged hmerged
      rw [Merged.Multiplies] at hmerged
      split
      · rename_i settled hsettled
        rw [hsettled] at hmerged
        exact .pure fun t ht => (hmerged.2 t ht).2
      · rename_i none
        rw [none] at hmerged
        refine (ih hcombos).bind fun combined hcombined => ?_
        rw [← total] at hcombined
        cases combined with
        | settled ts => exact .pure hcombined
        | collected ts =>
            refine .pure (List.forall_mem_cons.2 ⟨?_, hcombined⟩)
            rw [join_number_eval readable hmerged.1]
            exact hmerged.2

/-- The candidates of a product have the product of its factors. -/
theorem product_eval (t : Term α) (h : ∀ f ∈ t.withExponents.operands, f.Regular I C) :
    Ensures J A (product find t) fun us =>
      ∀ u ∈ us, u.eval I.meaning = (t.withExponents.operands.map (eval I.meaning)).prod := by
  have factors : Ensures J A (t.withExponents.operands.mapM fun f => ofExcept f.reciprocalAsPower)
      (List.Forall₂ (fun t u => u.Regular I C ∧ u.eval I.meaning = t.eval I.meaning)
        t.withExponents.operands) :=
    .mapM fun f hf => .ofExcept fun u hu =>
      reciprocalAsPower_regular exact powers readable (h f hf) hu
  rw [product]
  refine factors.bind fun us hus => ?_
  obtain ⟨regular, values⟩ := eval_of_forall₂ hus
  rw [← values]
  refine (mergeFactors_eval exact powers readable tangent hfind regular).bind ?_
  intro merged hmerged
  rw [Merged.Multiplies] at hmerged
  split
  · rename_i settled hsettled
    rw [hsettled] at hmerged
    exact .pure fun t ht => (hmerged.2 t ht).2
  · rename_i none
    rw [none] at hmerged
    obtain ⟨hrest, total⟩ := hmerged
    rw [← total]
    refine (Ensures.mapM fun t ht => hfind t (hrest t ht)).bind fun found hfound => ?_
    refine (combineFactors_eval (x := (merged.rest.map (eval I.meaning)).prod) exact powers readable
      tangent hfind fun combo hcombo => ?_).bind fun combined hcombined => ?_
    · obtain ⟨chosen, values⟩ := combination_eval hfound hcombo
      exact ⟨chosen, by rw [values]⟩
    · cases combined with
      | settled ts => exact .pure hcombined
      | collected ts =>
          refine .pure (List.forall_mem_append.2 ⟨hcombined, List.forall_mem_singleton.2 ?_⟩)
          obtain ⟨firsts, values⟩ := firsts_eval hfound
          rw [join_number_eval readable, reciprocals_eval exact powers readable firsts, values]
          intro u hu
          obtain ⟨t, ht, rfl⟩ := List.mem_map.1 hu
          exact (powerAsReciprocal_regular exact powers readable (firsts t ht)).1

omit tangent in
theorem powerOf_eval {k : ℤ} (ht : t.Regular I C) (he : exponent.Regular I C)
    (hne : t.eval I.meaning ≠ 0) (integer : exponent.eval I.meaning = k) :
    Ensures J A (powerOf find t exponent) fun us =>
      ∀ u ∈ us, u.eval I.meaning = t.eval I.meaning ^ k := by
  obtain ⟨_, direct⟩ := ht.power readable powers he hne integer
  rw [powerOf]
  split
  · rename_i base inner hp
    obtain rfl := eq_pow_of_power? hp
    obtain ⟨l, nonzero, hinner, value⟩ := ht.exists_power powers
    have product : (Term.bin .mul inner exponent).eval I.meaning = ((l * k : ℤ) : F) := by
      rw [Int.cast_mul, ← hinner, ← integer]
      rfl
    have nested {e : Term α} (he : e.Regular I C)
        (h : e.eval I.meaning = ((l * k : ℤ) : F)) :
        (Term.bin .pow base e).Regular I C ∧ (Term.bin .pow base e).eval I.meaning =
          (Term.bin .pow base inner).eval I.meaning ^ k := by
      rw [value, ← zpow_mul]
      exact (ht.left readable).power readable powers he nonzero h
    have exponents := (ht.right readable).product readable he
    rw [nestedPower]
    refine (hfind _ exponents).bind fun found ⟨_, hfound⟩ => ?_
    refine (Ensures.gather (P := fun u => u.eval I.meaning =
      (Term.bin .pow base inner).eval I.meaning ^ k) fun e he => ?_).bind fun us hus => .pure ?_
    · obtain ⟨regular, same⟩ := hfound e he
      obtain ⟨hpower, result⟩ := nested regular (same.trans product)
      refine (hfind _ hpower).mono fun us h u hu => ?_
      rw [(h.2 u hu).2, result]
    · split
      · exact List.forall_mem_singleton.2 (nested exponents product).2
      · exact hus
  · split
    · rename_i none
      have zero := readable.faithful.eval_of_reads_zero (readable.num _) he.readable none
      refine .pure (List.forall_mem_singleton.2 ?_)
      rw [← powers.power (.inl hne), ← integer, zero, ← Int.cast_zero, powers.power (.inl hne),
        zpow_zero]
      exact I.number_one
    · split
      · rename_i b e hb hexponent
        rw [if_pos (exact.finite _)]
        have base := eval_of_number? exact.toExact hb
        refine .pure (List.forall_mem_singleton.2 ?_)
        rw [base] at hne ⊢
        exact powers.number hne ((eval_of_number? exact.toExact hexponent).symm.trans integer)
      · exact .pure (List.forall_mem_singleton.2 direct)

omit tangent in
theorem power_eval (h : (Term.bin .pow base exponent).Regular I C) :
    Ensures J A (power find base exponent) fun us =>
      ∀ u ∈ us, u.eval I.meaning = (Term.bin .pow base exponent).eval I.meaning := by
  obtain ⟨k, hne, integer, value⟩ := h.exists_power powers
  refine (hfind base (h.left readable)).bind fun bases ⟨_, hbases⟩ => ?_
  refine (hfind exponent (h.right readable)).bind fun exponents ⟨_, hexponents⟩ => ?_
  refine .gather fun e he => .gather fun b hb => ?_
  obtain ⟨regular, base⟩ := hbases b hb
  obtain ⟨regular', same⟩ := hexponents e he
  have nonzero : b.eval I.meaning ≠ 0 := by rwa [base]
  rw [value, ← base]
  exact powerOf_eval exact powers readable hfind regular regular' nonzero
    (same.trans integer)

/-- The rules for products, quotients and powers are sound: if the search answers terms with integer
exponents and without a zero base or divisor by such terms of the same value, every candidate of a rule
has the value of the term.  Variables and calls are taken as first powers, so they must not be zero. -/
theorem powerRules_eval (l r : Term α) :
    ((Term.bin .mul l r).withExponents.Regular I C →
      Ensures J A (product find (.bin .mul l r)) fun us =>
        ∀ u ∈ us, u.eval I.meaning = (Term.bin .mul l r).eval I.meaning) ∧
    ((Term.bin .div l r).withExponents.Regular I C →
      Ensures J A (quotient find l r) fun us =>
        ∀ u ∈ us, u.eval I.meaning = (Term.bin .div l r).eval I.meaning) ∧
    ((Term.bin .pow l r).withExponents.Regular I C →
      Ensures J A (power find l r) fun us =>
        ∀ u ∈ us, u.eval I.meaning = (Term.bin .pow l r).eval I.meaning) := by
  have factors (t t' : Term α) (regular : t.withExponents.Regular I C)
      (same : t'.withExponents.operands = t.withExponents.operandsIn .product) :
      Ensures J A (product find t') fun us => ∀ u ∈ us, u.eval I.meaning = t.eval I.meaning := by
    have h := product_eval exact powers readable tangent hfind t' fun f hf =>
      regular.operandsIn readable f (same ▸ hf)
    rwa [same, prod_operandsIn, withExponents_eval powers.power_one] at h
  refine ⟨fun h => factors _ _ h rfl, fun h => ?_,
    fun h => power_eval exact powers readable hfind h⟩
  rw [quotient]
  exact factors _ _ h (operands_quotient l r)

end Rules

/-- The trigonometric functions on the real numbers, where every variable is one. -/
noncomputable def trigonometry : Interpretation ℚ ℝ := .reals (fun _ => 1) fun
  | .sin, x => Real.sin x
  | .cos, x => Real.cos x
  | .tan, x => Real.tan x
  | _, x => x

/-- A power of a call on `x`. -/
def poweredCall (k : Keyword) (n : ℚ) : Term ℚ := .bin .pow (.call k (.var "x" none)) (.num n)

/-- A search that finds nothing but the term itself. -/
def echo : Finder ℚ := fun t => pure [t]

theorem powerRules_eval_tangent :
    (product echo (.bin .mul (.bin .mul (poweredCall .sin 2) (.var "x" none))
        (poweredCall .cos (-2)))).run .start =
          (.ok (List.replicate 2 (.bin .mul (poweredCall .tan 2) (variablePower "x" 1))), .start) ∧
      (Term.bin .mul (poweredCall .tan 2) (variablePower "x" 1)).eval trigonometry.meaning =
        (Term.bin .mul (.bin .mul (poweredCall .sin 2) (.var "x" none))
          (poweredCall .cos (-2))).eval trigonometry.meaning ∧
      (quotient echo (poweredCall .sin 3) (.bin .mul (poweredCall .cos 3) (.var "x" none))).run
          .start = (.ok (List.replicate 2 (.bin .div (poweredCall .tan 3) (.var "x" none))), .start) ∧
      (Term.bin .div (poweredCall .tan 3) (.var "x" none)).eval trigonometry.meaning =
        (Term.bin .div (poweredCall .sin 3)
          (.bin .mul (poweredCall .cos 3) (.var "x" none))).eval trigonometry.meaning ∧
      (power echo (variablePower "x" 2) (.num 3)).run .start =
        (.ok [.bin .pow (.var "x" none) (.bin .mul (.num 2) (.num 3))], .start) ∧
      (Term.bin .pow (.var "x" none) (.bin .mul (.num 2) (.num 3))).eval trigonometry.meaning =
        (Term.bin .pow (variablePower "x" 2) (.num 3)).eval trigonometry.meaning := by
  have exact : trigonometry.FullyExact := Interpretation.reals_fullyExact _ _
  have powers : trigonometry.IntegerPowers := Interpretation.reals_integerPowers _ _
  have tangent (x : ℝ) : trigonometry.call .tan x =
      trigonometry.call .sin x / trigonometry.call .cos x := Real.tan_eq_sin_div_cos x
  have readable := readable_of_remainderless exact.toExact
  have finds : FindsRegular (fun _ => True) [] trigonometry
      (fun t => t.Legible ∧ t.Remainderless) echo :=
    fun t ht => .pure ⟨List.cons_ne_nil _ _, List.forall_mem_singleton.2 ⟨ht, rfl⟩⟩
  have rules := powerRules_eval exact powers readable tangent finds
  -- The factors, all of which are powers of numbers other than zero.
  have hx : (Term.var (α := ℚ) "x" none).Regular trigonometry
      (fun t => t.Legible ∧ t.Remainderless) := ⟨⟨⟨by decide, rfl, rfl, nofun⟩, trivial⟩, trivial⟩
  have power {base : Term ℚ} (hbase : base.Regular trigonometry
      (fun t => t.Legible ∧ t.Remainderless)) (hne : base.eval trigonometry.meaning ≠ 0) (q : ℚ)
      (n : ℤ) (h : q = n) : (Term.bin .pow base (.num q)).Regular trigonometry
        (fun t => t.Legible ∧ t.Remainderless) ∧
      (Term.bin .pow base (.num q)).eval trigonometry.meaning ≠ 0 := by
    have integer : (Term.num q).eval trigonometry.meaning = (n : ℝ) := by
      rw [h]
      exact Rat.cast_intCast n
    obtain ⟨regular, value⟩ := hbase.power readable powers (.number readable q) hne integer
    rw [value]
    exact ⟨regular, zpow_ne_zero n hne⟩
  have called (k : Keyword) : (Term.call k (.var "x" none)).Regular trigonometry
      (fun t => t.Legible ∧ t.Remainderless) := ⟨hx.readable, trivial⟩
  have sine := power (called .sin) (Real.sin_pos_of_pos_of_le_one one_pos le_rfl).ne'
  have cosine := power (called .cos) Real.cos_one_pos.ne'
  have whole := power hx one_ne_zero
  have factor := whole 1 1 Int.cast_one.symm
  have product : (Term.bin .mul (.bin .mul (poweredCall .sin 2) (.var "x" none))
      (poweredCall .cos (-2))).withExponents.Regular trigonometry
        (fun t => t.Legible ∧ t.Remainderless) :=
    ((sine 2 2 (by norm_num)).1.product readable factor.1).product readable
      (cosine (-2) (-2) (by norm_num)).1
  have divisor := cosine 3 3 (by norm_num)
  have quotient : (Term.bin .div (poweredCall .sin 3)
      (.bin .mul (poweredCall .cos 3) (.var "x" none))).withExponents.Regular trigonometry
        (fun t => t.Legible ∧ t.Remainderless) :=
    (sine 3 3 (by norm_num)).1.quotient readable (divisor.1.product readable factor.1)
      (mul_ne_zero divisor.2 factor.2)
  have square := whole 2 2 (by norm_num)
  have nested := (power square.1 square.2 3 3 (by norm_num)).1
  have productRun : (Search.product echo (.bin .mul (.bin .mul (poweredCall .sin 2) (.var "x" none))
      (poweredCall .cos (-2)))).run .start = (.ok (List.replicate 2
        (.bin .mul (poweredCall .tan 2) (variablePower "x" 1))), .start) := by
    with_unfolding_all rfl
  have quotientRun : (Search.quotient echo (poweredCall .sin 3)
      (.bin .mul (poweredCall .cos 3) (.var "x" none))).run .start =
        (.ok (List.replicate 2 (.bin .div (poweredCall .tan 3) (.var "x" none))), .start) := by
    with_unfolding_all rfl
  have powerRun : (Search.power echo (variablePower "x" 2) (.num 3)).run .start =
      (.ok [.bin .pow (.var "x" none) (.bin .mul (.num 2) (.num 3))], .start) := rfl
  exact ⟨productRun,
    ((rules _ _).1 product .start rfl trivial _ _ productRun).1 _ List.mem_cons_self, quotientRun,
    ((rules _ _).2.1 quotient .start rfl trivial _ _ quotientRun).1 _ List.mem_cons_self, powerRun,
    ((rules _ _).2.2 nested .start rfl trivial _ _ powerRun).1 _ List.mem_cons_self⟩

end Search

end AlgebraicTerms
