import AlgebraicTerms.Proofs.Search.Sound
import AlgebraicTerms.Proofs.Term.LikeTerms
import AlgebraicTerms.Search.Product

/-!
# Products are searched soundly

Powers are merged in pairs, and each pair that is merged keeps the product of all factors.
-/

namespace AlgebraicTerms

variable {α : Type} [Scalar α] [Scalar.Exact α] {K : Type*} [Field K]

/-- Whether what is left after merging the operands of a chain has the value of the chain. -/
def Merged.Makes (m : Merged α) (c : Chain) (ρ : Assignment K) (a : K) : Prop :=
  match m.settled with
  | some ts => Search.AllHave ρ a ts
  | none => c.Total ρ (.num m.number :: m.rest) a

def Combined.Makes (ρ : Assignment K) (a : K) : Combined α → Prop
  | settled ts => Search.AllHave ρ a ts
  | collected ts => ∀ t ∈ ts, t.HasValue ρ a

namespace Search

/-- Whether two factors with the given product have that outcome. -/
def PairOutcome.Makes (ρ : Assignment K) (a : K) : PairOutcome α → Prop
  | apart => True
  | cancelled => a = 1
  | merged t => t.HasValue ρ a

variable [Scalar.Legible α] [CharZero K] {ρ : Assignment K} {J : Cache α → Prop} {A : List String}
  {find : Finder α} {t u base base' m n : Term α} {ts us : List (Term α)} {a b : K}

section Rules

variable (hfind : Finds J A ρ find)

include hfind

theorem mergeBases_makes (ht : t.HasValue ρ a) (hu : u.HasValue ρ b)
    (hpt : t.power? = some (base, m)) (hpu : u.power? = some (base', n)) :
    Ensures J A (mergeBases find t u base m base' n) (PairOutcome.Makes ρ (a * b)) := by
  obtain rfl := Term.eq_pow_of_power? hpt
  obtain rfl := Term.eq_pow_of_power? hpu
  have apart : Ensures J A (pure .apart : Search α (PairOutcome α))
      (PairOutcome.Makes ρ (a * b)) :=
    .pure trivial
  obtain ⟨x, k, hx, hk, zero, rfl⟩ := ht.exists_of_pow
  obtain ⟨y, l, hy, hl, zero', rfl⟩ := hu.exists_of_pow
  -- An exponent that reads like a negation is not a positive number, so its base is not zero.
  have nonzero {m n : Term α} {x y z : K} (hm : m.HasValue ρ x) (hn : n.HasValue ρ y)
      (h : m.text = (Term.inv .neg n).text) (zero : z = 0 → m.shape = .literal) :
      x = -y ∧ z ≠ 0 := by
    refine ⟨hm.eq_of_text_eq (.neg hn) h, fun hz => ?_⟩
    have shape := zero hz
    rw [hm.shape_eq (.neg hn) h] at shape
    cases shape
  rw [mergeBases, Term.identityProduct?_of_hasValue ht hu]
  simp only
  split
  · exact apart
  · split
    · rename_i same
      rw [Term.beq_iff] at same
      obtain rfl : k = l := Int.cast_injective (hk.eq_of_text_eq hl same)
      refine (hfind.first (.mul hx hy)).bind fun product hproduct => .pure ?_
      show (Term.bin .pow product m).HasValue ρ _
      rw [← mul_zpow]
      refine hproduct.1.power hk fun h => ?_
      rcases mul_eq_zero.1 h with h | h
      · exact zero h
      · exact (hk.shape_eq hl same).trans (zero' h)
    · split
      · rename_i opposite
        obtain ⟨value, hne⟩ := nonzero hk hl (Term.beq_iff.1 opposite) zero
        obtain rfl : k = -l := by exact_mod_cast value
        refine .pure ?_
        show (Term.bin .pow (Term.bin .div base' base) n).HasValue ρ _
        have quotient : x ^ (-l) * y ^ l = (y / x) ^ l := by
          rw [zpow_neg, div_zpow, div_eq_inv_mul]
        rw [quotient]
        refine (Term.HasValue.div hy hx hne).power hl fun h => zero' ?_
        exact (div_eq_zero_iff.1 h).resolve_right hne
      · split
        · rename_i opposite
          obtain ⟨value, hne⟩ := nonzero hl hk (Term.beq_iff.1 opposite) zero'
          obtain rfl : l = -k := by exact_mod_cast value
          refine .pure ?_
          show (Term.bin .pow (Term.bin .div base base') m).HasValue ρ _
          have quotient : x ^ k * y ^ (-k) = (x / y) ^ k := by
            rw [zpow_neg, div_zpow, div_eq_mul_inv]
          rw [quotient]
          refine (Term.HasValue.div hx hy hne).power hk fun h => zero ?_
          exact (div_eq_zero_iff.1 h).resolve_right hne
        · exact apart

theorem mergePair_makes {sameBase : Bool} (ht : t.HasValue ρ a) (hu : u.HasValue ρ b) :
    Ensures J A (mergePair find sameBase t u) (PairOutcome.Makes ρ (a * b)) := by
  have apart : Ensures J A (pure .apart : Search α (PairOutcome α))
      (PairOutcome.Makes ρ (a * b)) :=
    .pure trivial
  rw [mergePair]
  split
  · rename_i base m base' n hpt hpu
    split
    · rename_i same
      obtain rfl := Term.eq_pow_of_power? hpt
      obtain rfl := Term.eq_pow_of_power? hpu
      obtain ⟨x, k, hx, hk, zero, rfl⟩ := ht.exists_of_pow
      obtain ⟨y, l, hy, hl, zero', rfl⟩ := hu.exists_of_pow
      obtain rfl : x = y := hx.eq_of_text_eq hy (Term.beq_iff.1 same)
      refine (hfind.first (.add hk hl)).bind fun exponent hexponent => .pure ?_
      have sum : exponent.HasValue ρ ((k + l : ℤ) : K) := by
        rw [Int.cast_add]
        exact hexponent.1
      have literal (hzero : x = 0) : exponent.shape = .literal := by
        refine hexponent.2 ?_
        rw [Term.shape, zero hzero, zero' hzero]
        decide
      have product : x ^ k * x ^ l = x ^ (k + l) := by
        by_cases hzero : x = 0
        · have hk := hk.literal_pos (zero hzero)
          have hl := hl.literal_pos (zero' hzero)
          rw [hzero, zero_zpow k hk.ne', zero_mul, zero_zpow (k + l) (by omega)]
        · exact (zpow_add₀ hzero k l).symm
      rw [product]
      split
      · rename_i none
        have total : k + l = 0 := by exact_mod_cast sum.eq_zero none
        show x ^ (k + l) = 1
        rw [total, zpow_zero]
      · exact hx.power sum literal
    · split
      · exact apart
      · exact mergeBases_makes hfind ht hu hpt hpu
  · exact apart

theorem absorb_makes {sameBase : Bool} (ht : t.HasValue ρ a) (hts : Chain.product.Total ρ ts b) :
    Ensures J A (absorb find sameBase t ts) fun r =>
      Chain.product.Total ρ (r.1.toList ++ r.2) (a * b) := by
  induction ts generalizing t a b with
  | nil => exact .pure (.cons ht hts)
  | cons u ts ih =>
      cases hts with
      | @cons _ _ c d hu hts =>
          rw [absorb]
          refine (mergePair_makes hfind ht hu).bind fun outcome houtcome => ?_
          have product : a * (Chain.product.combine c d) = a * c * d := (mul_assoc a c d).symm
          cases outcome with
          | apart =>
              refine (ih ht hts).bind fun r hr => .pure ?_
              rw [product, mul_right_comm, mul_comm]
              exact (Chain.Total.cons hu hr).perm List.perm_middle.symm
          | cancelled =>
              have one : a * c = 1 := houtcome
              refine .pure ?_
              rw [product, one, one_mul]
              exact hts
          | merged v =>
              have hv : v.HasValue ρ (a * c) := houtcome
              simp only
              rw [product]
              split
              · exact ih hv hts
              · exact .pure (.cons hv hts)

theorem mergePowersWithin_total {sameBase : Bool} {rounds : ℕ} (h : Chain.product.Total ρ ts a) :
    Ensures J A (mergePowersWithin find sameBase rounds ts) fun us =>
      Chain.product.Total ρ us a := by
  induction rounds generalizing ts a with
  | zero => exact .pure h
  | succ rounds ih =>
      cases h with
      | nil => exact .pure .nil
      | cons ht hts =>
          rw [mergePowersWithin]
          split
          · refine (absorb_makes hfind ht hts).bind fun r hr => ?_
            obtain ⟨b, c, hb, hc, same⟩ := hr.exists_append
            refine (ih hc).bind fun us hus => .pure ?_
            show Chain.product.Total ρ _ (_ * _)
            rw [same]
            exact hb.append hus
          · exact (ih hts).bind fun us hus => .pure (.cons ht hus)

theorem mergePowers_total {sameBase : Bool} (h : Chain.product.Total ρ ts a) :
    Ensures J A (mergePowers find sameBase ts) fun us => Chain.product.Total ρ us a :=
  mergePowersWithin_total hfind h

omit [Scalar.Legible α] in
theorem scale_all {n : α} (h : t.HasValue ρ a) :
    Ensures J A (scale find n t) (AllHave ρ (Scalar.toField n * a)) := by
  have product {m : α} (hm : a = Scalar.toField m) :
      Ensures J A (pure [.num (n * m)]) (AllHave ρ (Scalar.toField n * a)) := by
    refine .pure (.single ?_)
    rw [hm, ← Scalar.toField_mul]
    exact .num _
  rw [scale]
  split
  · rename_i one
    have number : (Scalar.toField n : K) = 1 := by
      rw [Scalar.toField, Scalar.isOne_iff.1 one, Rat.cast_one]
    rw [number, one_mul]
    exact hfind.all h
  · split
    · rename_i m hm
      exact product (h.of_number? hm)
    · refine (hfind.all h).bind fun found hfound => ?_
      split
      · rename_i m hm
        obtain ⟨u, hu, hm⟩ := List.exists_of_findSome?_eq_some hm
        exact product ((hfound.2 u hu).of_number? hm)
      · exact .pure (hfound.map fun u hu => .mul (.num n) hu)

theorem mergeFactors_makes (h : Chain.product.Total ρ ts a) :
    Ensures J A (mergeFactors find ts) fun m => m.Makes .product ρ a := by
  obtain ⟨b, hb, rfl⟩ := h.others
  have settled {m : Merged α} {us : List (Term α)} {a : K} (hm : m.settled = some us)
      (hus : AllHave ρ a us) : m.Makes .product ρ a := by
    rw [Merged.Makes, hm]
    exact hus
  have number (hb : b = 1) : AllHave ρ (Chain.product.combine
      (Scalar.toField (Chain.product.number ts)) b) [.num (Term.productOfNumbers ts)] := by
    rw [hb, Chain.combine, mul_one]
    exact .single (.num _)
  rw [mergeFactors]
  split
  · rename_i zero
    refine .pure (settled rfl (.single ?_))
    have factor : (Scalar.toField (Chain.product.number ts) : K) = 0 :=
      Scalar.toField_eq_zero.2 (Scalar.isZero_iff.1 zero)
    rw [factor, Chain.combine, zero_mul]
    exact Term.hasValue_zero
  · split
    · rename_i empty
      rw [List.isEmpty_iff] at empty
      rw [empty] at hb
      cases hb
      exact .pure (settled rfl (number rfl))
    · refine (mergePowers_total hfind hb).bind fun once honce => ?_
      refine (mergePowers_total hfind honce).bind fun rest hrest => ?_
      split
      · cases hrest
        exact .pure (settled rfl (number rfl))
      · cases hrest with
        | cons honly hnil =>
            cases hnil
            rw [Chain.combine_unit]
            exact (scale_all hfind honly).bind fun us hus => .pure (settled rfl hus)
      · exact .pure (.cons (.num _) hrest)

theorem combineFactors_makes {n : α} {combos : List (List (Term α))}
    (h : ∀ combo ∈ combos, Chain.product.Total ρ combo a) :
    Ensures J A (combineFactors find n combos) (Combined.Makes ρ (Scalar.toField n * a)) := by
  induction combos with
  | nil => exact .pure nofun
  | cons combo combos ih =>
      have combined : Chain.product.Total ρ (.num n :: combo.map Term.powerAsReciprocal)
          (Scalar.toField n * a) :=
        .cons (.num n) ((h combo List.mem_cons_self).map fun t _ a ht =>
          Term.powerAsReciprocal_hasValue ht)
      refine (mergeFactors_makes hfind combined).bind fun merged hmerged => ?_
      rw [Merged.Makes] at hmerged
      split
      · rename_i settled hsettled
        rw [hsettled] at hmerged
        exact .pure hmerged
      · rename_i hnone
        rw [hnone] at hmerged
        refine (ih fun combo hcombo => h combo (List.mem_cons_of_mem _ hcombo)).bind ?_
        intro rest hrest
        cases rest with
        | settled ts => exact .pure hrest
        | collected ts =>
            refine .pure fun t ht => ?_
            rcases List.mem_cons.1 ht with rfl | ht
            · exact Term.join_hasValue hmerged
            · exact hrest t ht

end Rules

omit [Scalar.Legible α] in
theorem reciprocalsAsPowers_total (h : Chain.product.Total ρ ts a) :
    Ensures J A (ts.mapM fun f => ofExcept f.reciprocalAsPower) fun us =>
      Chain.product.Total ρ us a := by
  have each : Ensures J A (ts.mapM fun f => ofExcept f.reciprocalAsPower)
      (List.Forall₂ (fun t u => ∀ a : K, t.HasValue ρ a → u.HasValue ρ a) ts) :=
    .mapM fun t _ => .ofExcept fun u hu a ht => Term.reciprocalAsPower_hasValue ht hu
  exact each.mono fun us hus => h.replace hus

omit [Scalar.Legible α] in
/-- Numbers are multiplied without looking for other terms. -/
theorem mergeFactors_numbers (h : Chain.product.Total ρ ts a) (numbers : Term.others ts = []) :
    Ensures J A (mergeFactors find ts) fun m =>
      ∃ n, m.settled = some [.num n] ∧ (Term.num n).HasValue ρ a := by
  obtain ⟨b, hb, rfl⟩ := h.others
  rw [numbers] at hb
  cases hb
  rw [Chain.combine_unit]
  simp only [mergeFactors, numbers]
  split
  · rename_i zero
    have value : (Scalar.toField (Chain.product.number ts) : K) = 0 :=
      Scalar.toField_eq_zero.2 (Scalar.isZero_iff.1 zero)
    rw [value]
    exact .pure ⟨_, rfl, Term.hasValue_zero⟩
  · exact .pure ⟨_, rfl, .num _⟩

omit [Scalar.Legible α] in
theorem product_literal {l r : Term α} (h : (Term.bin .mul l r).HasValue ρ a)
    (hs : (Term.bin .mul l r).shape ≠ .other) :
    Ensures J A (product find (.bin .mul l r)) (Found ρ (.bin .mul l r) a) := by
  obtain ⟨hl, hr⟩ := Shape.join_ne_other hs
  obtain ⟨m, rfl, _⟩ := Term.exists_of_shape_literal hl
  obtain ⟨n, rfl, _⟩ := Term.exists_of_shape_literal hr
  have factors : Ensures J A
      ((Term.bin .mul (.num m) (.num n)).withExponents.operands.mapM fun f =>
        ofExcept f.reciprocalAsPower) fun us => us = [.num m, .num n] := by
    have same : (Term.bin .mul (.num m) (.num n)).withExponents.operands.mapM
        (fun f => ofExcept f.reciprocalAsPower) =
        (pure [.num m, .num n] : Search α (List (Term α))) := rfl
    rw [same]
    exact .pure rfl
  refine factors.bind fun us hus => ?_
  subst hus
  have total : Chain.product.Total ρ [.num m, .num n] a := Term.operandsIn_total h
  refine (mergeFactors_numbers total rfl).bind fun merged ⟨k, settled, hk⟩ => ?_
  rw [settled]
  refine .pure ⟨.single hk, fun _ c hc => ?_⟩
  obtain rfl := List.eq_of_mem_singleton hc
  exact h.num_literal hs hk

theorem product_all {l r : Term α} (hfind : Finds J A ρ find)
    (h : (Term.bin .mul l r).HasValue ρ a) :
    Ensures J A (product find (.bin .mul l r)) (AllHave ρ a) := by
  have operands : Chain.product.Total ρ (Term.bin .mul l r).withExponents.operands a := by
    show Chain.product.Total ρ (Term.bin .mul l.withExponents r.withExponents).operands a
    rw [Term.operands_of_chain rfl]
    exact Term.operandsIn_total (Term.withExponents_hasValue h)
  rw [product]
  refine (reciprocalsAsPowers_total operands).bind fun factors hfactors => ?_
  refine (mergeFactors_makes hfind hfactors).bind fun merged hmerged => ?_
  rw [Merged.Makes] at hmerged
  split
  · rename_i settled hsettled
    rw [hsettled] at hmerged
    exact .pure hmerged
  · rename_i hnone
    rw [hnone] at hmerged
    cases hmerged with
    | @cons _ _ _ b hnumber hrest =>
        cases hnumber
        refine (hfind.operands hrest).bind fun found hfound => ?_
        refine (combineFactors_makes hfind fun combo hcombo =>
          combination_total hfound hrest hcombo).bind fun combined hcombined => ?_
        cases combined with
        | settled ts => exact .pure hcombined
        | collected ts =>
            refine .pure ⟨fun empty => ?_, fun t ht => ?_⟩
            · exact List.append_ne_nil_of_right_ne_nil ts (List.cons_ne_nil _ _) empty
            · rcases List.mem_append.1 ht with ht | ht
              · exact hcombined t ht
              · obtain rfl := List.eq_of_mem_singleton ht
                refine Term.join_hasValue (.cons (.num _) ?_)
                exact (firsts_total hfound hrest).map fun t _ a ht =>
                  Term.powerAsReciprocal_hasValue ht

theorem quotient_all {l r : Term α} (hfind : Finds J A ρ find)
    (h : (Term.bin .div l r).HasValue ρ a) :
    Ensures J A (quotient find l r) (AllHave ρ a) := by
  cases h with
  | @div _ _ b c hl hr hne =>
      have divisor : (Term.inv .recip r).KeepsValue ρ
          (Chain.product.join ((r.operandsIn .product).map (.inv .recip))) :=
        (Term.keepsValue_joinLaws .product).joinInverses Term.arrangeable_all trivial
      rw [div_eq_mul_inv]
      exact product_all hfind (.mul hl (divisor.1 _ (.recip hr hne)))

end Search

end AlgebraicTerms
