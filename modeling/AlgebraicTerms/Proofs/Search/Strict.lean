import AlgebraicTerms.Proofs.Search.Folding
import AlgebraicTerms.Proofs.Term.Exposed

/-!
# Rules with strict values

Each rule turns an exposed term into numbers with its value, or fails, if the finder that it calls does so
with ground terms.  In particular it fails if the term has no value.
-/

namespace AlgebraicTerms

open Term
open Scalar.Partial (value)

variable {α : Type} [Scalar α] {K : Type} [Field K] [DecidableEq K] [PartialFunctions K]
  [Scalar.Partial α K]

/-- Whether the term is a number that stands for the given value, which exists. -/
structure Term.Denotes (t : Term α) (x : Option K) : Prop where
  number : t.isNumber = true
  value_eq : t.value? = x
  defined : x ≠ none

/-- Whether there are candidates, and all of them stand for the given value. -/
def Evaluated (x : Option K) (ts : List (Term α)) : Prop := ts ≠ [] ∧ ∀ t ∈ ts, t.Denotes x

variable {x : Option K} {n : α} {t u : Term α} {ts us : List (Term α)}

theorem Term.denotes_num (h : value n = x) (hx : x ≠ none) : (num n).Denotes x := ⟨rfl, h, hx⟩

theorem Term.Denotes.exists_number (h : t.Denotes x) : ∃ n, t.number? = some n ∧ value n = x := by
  obtain ⟨n, hn⟩ := Option.isSome_iff_exists.1 h.number
  exact ⟨n, hn, (value?_of_number? hn).symm.trans h.value_eq⟩

namespace Evaluated

theorem singleton (h : t.Denotes x) : Evaluated x [t] :=
  ⟨List.cons_ne_nil _ _, fun _ hu => List.eq_of_mem_singleton hu ▸ h⟩

theorem defined (h : Evaluated x ts) : x ≠ none := by
  obtain ⟨t, ht⟩ := List.exists_mem_of_ne_nil ts h.1
  exact (h.2 t ht).defined

theorem allNumbers (h : Evaluated x ts) : AllNumbers ts := ⟨h.1, fun t ht => (h.2 t ht).number⟩

theorem exists_number (h : Evaluated x ts) : ∃ n, ts.findSome? number? = some n ∧ value n = x := by
  cases ts with
  | nil => exact absurd rfl h.1
  | cons t ts =>
      obtain ⟨n, hn, hx⟩ := (h.2 t List.mem_cons_self).exists_number
      exact ⟨n, by rw [List.findSome?_cons, hn], hx⟩

theorem mono (h : Evaluated x ts) (hus : us ≠ []) (sub : ∀ u ∈ us, u ∈ ts) : Evaluated x us :=
  ⟨hus, fun u hu => h.2 u (sub u hu)⟩

end Evaluated

namespace Search

/-- Whether a finder evaluates every ground term, or fails. -/
def Evaluates (J : Cache α → Prop) (A : List String) (find : Finder α) : Prop :=
  ∀ u : Term α, u.IsGround → Ensures J A (find u) (Evaluated u.value?)

variable {J : Cache α → Prop} {A : List String} {find : Finder α}

theorem first_evaluates (hfind : Evaluates J A find) (hu : u.IsGround) :
    Ensures J A (first find u) fun t => t.Denotes u.value? := by
  refine (hfind u hu).bind fun found hfound => .pure ?_
  cases found with
  | nil => exact absurd rfl hfound.1
  | cons t ts => exact hfound.2 t List.mem_cons_self

/-! ## Merging factors -/

/-- Whether two factors may become what they do. -/
def PairOutcome.Follows (a b : Term α) : PairOutcome α → Prop
  | .apart => True
  | .cancelled => Merges a b []
  | .merged t => Merges a b [t]

theorem mergeBases_follows (hfind : Evaluates J A find) {base m base' n : Term α}
    (ha : base.IsGround) (hb : base'.IsGround) :
    Ensures J A (mergeBases find (bin .pow base m) (bin .pow base' n) base m base' n)
      (PairOutcome.Follows (bin .pow base m) (bin .pow base' n)) := by
  unfold mergeBases
  cases joined : identityProduct? (bin .pow base m) (bin .pow base' n) with
  | some t => exact .pure (.identity joined)
  | none =>
      dsimp only
      split
      · exact .pure trivial
      · split
        · rename_i same
          have ground : (bin .mul base base').IsGround := ⟨ha, hb⟩
          refine (first_evaluates hfind ground).bind fun p hp => .pure ?_
          exact .sameExponent (beq_iff.1 same) hp.number hp.value_eq.symm
        · split
          · rename_i opposite
            exact .pure (.opposite (beq_iff.1 opposite))
          · split
            · rename_i opposite
              exact .pure (.opposite' (beq_iff.1 opposite))
            · exact .pure trivial

variable [Scalar.Legible α] [Scalar.Worded α]

theorem mergePair_follows (hfind : Evaluates J A find) (sameBase : Bool) {a b : Term α}
    (ha : a.IsGround) (hb : b.IsGround) :
    Ensures J A (mergePair find sameBase a b) (PairOutcome.Follows a b) := by
  unfold mergePair
  cases hpa : a.power? with
  | none => exact .pure trivial
  | some p =>
      cases hpb : b.power? with
      | none => exact .pure trivial
      | some q =>
          obtain ⟨base, m⟩ := p
          obtain ⟨base', n⟩ := q
          obtain rfl := eq_pow_of_power? hpa
          obtain rfl := eq_pow_of_power? hpb
          dsimp only
          split
          · rename_i same
            have ground : (bin .add m n).IsGround := ⟨ha.2, hb.2⟩
            refine (first_evaluates hfind ground).bind fun e he => .pure ?_
            split
            · rename_i zero
              refine Merges.cancelled (beq_iff.1 same) ?_
              rw [← he.value_eq]
              exact value?_of_reads_identity (c := .sum) (isNumber_ground he.number) zero
            · exact Merges.sameBase (beq_iff.1 same) he.number he.value_eq.symm
          · split
            · exact .pure trivial
            · exact mergeBases_follows hfind ha.1 hb.1

theorem absorb_reaches (hfind : Evaluates J A find) (sameBase : Bool) {a : Term α}
    (h : ∀ t ∈ a :: ts, t.IsGround ∧ t.isNumber = false) :
    Ensures J A (absorb find sameBase a ts) fun r => Reaches (a :: ts) (r.1.toList ++ r.2) := by
  induction ts generalizing a with
  | nil => exact .pure (.done (List.Perm.refl _))
  | cons b ts ih =>
      rw [absorb]
      have ha := h a List.mem_cons_self
      have hb := h b (List.mem_cons_of_mem _ List.mem_cons_self)
      have hts : ∀ t ∈ ts, t.IsGround ∧ t.isNumber = false :=
        fun t ht => h t (List.mem_cons_of_mem _ (List.mem_cons_of_mem _ ht))
      refine (mergePair_follows hfind sameBase ha.1 hb.1).bind fun outcome hout => ?_
      cases outcome with
      | apart =>
          refine (ih (List.forall_mem_cons.2 ⟨ha, hts⟩)).bind fun r hr => .pure ?_
          have beside := (hr.append_left [b]).perm_left (List.Perm.swap b a ts)
          have back : (b :: (r.1.toList ++ r.2)).Perm (r.1.toList ++ b :: r.2) :=
            List.perm_middle.symm
          exact beside.perm_right back
      | cancelled => exact .pure (.step (List.Perm.refl _) hout (.done (List.Perm.refl _)))
      | merged t =>
          have power := Merges.powers hout ha.1 hb.1 t List.mem_cons_self
          dsimp only
          split
          · refine (ih (List.forall_mem_cons.2 ⟨power, hts⟩)).mono fun r hr => ?_
            exact .step (List.Perm.refl _) hout hr
          · exact .pure (.step (List.Perm.refl _) hout (.done (List.Perm.refl _)))

theorem mergePowers_reaches (hfind : Evaluates J A find) (sameBase : Bool)
    (h : ∀ t ∈ ts, t.IsGround ∧ t.isNumber = false) :
    Ensures J A (mergePowers find sameBase ts) (Reaches ts) := by
  unfold mergePowers
  generalize ts.length = rounds
  induction rounds generalizing ts with
  | zero => exact .pure (.done (List.Perm.refl _))
  | succ rounds ih =>
      cases ts with
      | nil => exact .pure (.done (List.Perm.refl _))
      | cons t ts =>
          rw [mergePowersWithin]
          split
          · refine (absorb_reaches hfind sameBase h).bind fun r hr => ?_
            have left : ∀ u ∈ r.2, u.IsGround ∧ u.isNumber = false :=
              fun u hu => hr.powers h u (List.mem_append_right _ hu)
            exact (ih left).bind fun us hus => .pure (hr.trans (hus.append_left _))
          · have rest : ∀ u ∈ ts, u.IsGround ∧ u.isNumber = false :=
              fun u hu => h u (List.mem_cons_of_mem _ hu)
            exact (ih rest).bind fun us hus => .pure (hus.append_left [t])

/-! ## Products -/

/-- What is left of operands with the given total: numbers that stand for it, or a number and ground
operands that make it. -/
structure LeavesTotal (c : Chain) (x : Option K) (m : Merged α) : Prop where
  settled : ∀ us, m.settled = some us → Evaluated x us
  ground : m.settled = none → ∀ t ∈ m.rest, t.IsGround
  finite : m.settled = none → value m.number ≠ none
  total : m.settled = none → c.combine? (value m.number) (c.total? m.rest) = x

section

omit [Scalar.Legible α] [Scalar.Worded α]

theorem leavesTotal_of_evaluated {c : Chain} (h : Evaluated x us) :
    LeavesTotal c x ⟨n, ts, some us⟩ :=
  have some : (some us : Option (List (Term α))) ≠ none := Option.some_ne_none us
  ⟨fun _ hvs => Option.some.inj hvs ▸ h, (absurd · some), (absurd · some), (absurd · some)⟩

omit [DecidableEq K] [PartialFunctions K] in
theorem combine?_ne_none {c : Chain} {x y : Option K} (hx : x ≠ none) (hy : y ≠ none) :
    c.combine? x y ≠ none :=
  fun h => (Option.map₂_eq_none_iff.1 h).elim hx hy

theorem scale_evaluates (hfind : Evaluates J A find) (hn : value n ≠ none) (ht : t.IsGround)
    (h : t.isNumber = false) :
    Ensures J A (scale find n t) (Evaluated (Chain.product.combine? (value n) t.value?)) := by
  have none : t.number? = none := Option.not_isSome_iff_eq_none.1 (ne_true_of_eq_false h)
  unfold scale
  split
  · rename_i one
    have unit : value n = some Chain.product.unit := Scalar.Partial.isOne_iff.1 one
    rw [unit, Chain.unit_combine?]
    exact hfind t ht
  · simp only [none]
    refine (hfind t ht).bind fun found hfound => ?_
    obtain ⟨m, hm, same⟩ := hfound.exists_number
    simp only [hm]
    refine .pure (.singleton (denotes_num ?_ (combine?_ne_none hn hfound.defined)))
    rw [← same]
    exact Scalar.Partial.value_mul n m

end

theorem mergeFactors_leaves (hfind : Evaluates J A find) (ground : ∀ t ∈ ts, t.IsGround)
    (finite : ∀ t ∈ ts, t.isNumber = true → t.value? ≠ none)
    (zero : Scalar.isZero (productOfNumbers ts) = true → ∀ t ∈ ts, t.value? ≠ none)
    (powers : Scalar.isZero (productOfNumbers ts) = false → Mergeable (others ts)) :
    Ensures J A (mergeFactors find ts) (LeavesTotal .product (Chain.product.total? ts)) := by
  have hn : value (productOfNumbers ts) ≠ none := value_number_ne_none (c := .product) finite
  have split : Chain.product.total? ts = Chain.product.combine? (value (productOfNumbers ts))
      (Chain.product.total? (others ts)) := total?_others ts
  unfold mergeFactors
  by_cases hzero : Scalar.isZero (productOfNumbers ts) = true
  · rw [if_pos hzero]
    have defined : Chain.product.total? ts ≠ none := fun none => by
      obtain ⟨t, ht, undefined⟩ := Chain.total?_eq_none_iff.1 none
      exact zero hzero t ht undefined
    refine .pure (leavesTotal_of_evaluated (.singleton (denotes_num ?_ defined)))
    rw [split, Scalar.Partial.isZero_iff.1 hzero] at defined ⊢
    cases hx : Chain.product.total? (others ts) with
    | none =>
        rw [hx] at defined
        exact absurd rfl defined
    | some x =>
        rw [Scalar.Partial.value_zero]
        exact congrArg some (zero_mul x).symm
  · rw [if_neg hzero]
    split
    · rename_i none
      rw [List.isEmpty_iff.1 none] at split
      have single : Chain.product.total? ts = value (productOfNumbers ts) :=
        split.trans (Chain.product.combine?_unit _)
      rw [single]
      exact .pure (leavesTotal_of_evaluated (.singleton (denotes_num rfl hn)))
    · have hothers : ∀ t ∈ others ts, t.IsGround ∧ t.isNumber = false := fun t ht =>
        ⟨others_ground ground t ht, by simpa using (List.mem_filter.1 ht).2⟩
      refine (mergePowers_reaches hfind true hothers).bind fun once honce => ?_
      refine (mergePowers_reaches hfind false (honce.powers hothers)).bind fun rest hrest => ?_
      have reaches := honce.trans hrest
      have left := reaches.powers hothers
      rw [split, ← reaches.total? (powers (Bool.eq_false_iff.2 hzero))]
      cases rest with
      | nil =>
          refine .pure (leavesTotal_of_evaluated (.singleton (denotes_num ?_ ?_)))
          · exact (Chain.product.combine?_unit _).symm
          · exact combine?_ne_none hn (Option.some_ne_none _)
      | cons only more =>
          cases more with
          | nil =>
              have honly := left only List.mem_cons_self
              rw [Chain.total?_singleton]
              exact (scale_evaluates hfind hn honly.1 honly.2).bind fun us hus =>
                .pure (leavesTotal_of_evaluated hus)
          | cons second more =>
              exact .pure ⟨fun us hus => absurd hus.symm (Option.some_ne_none us),
                fun _ t ht => (left t ht).1, fun _ => hn, fun _ => rfl⟩

omit [Scalar.Legible α] [Scalar.Worded α] in
/-- Numbers are multiplied at once. -/
theorem mergeFactors_denotes (h : ∀ t ∈ ts, t.isNumber = true) : ∃ (m : Merged α) (k : α),
    m.settled = some [.num k] ∧ value k = Chain.product.total? ts ∧
      ∀ find, mergeFactors find ts = pure m := by
  have none : others ts = [] := List.filter_eq_nil_iff.2 fun t ht => by rw [h t ht]; decide
  have total : Chain.product.total? ts = value (productOfNumbers ts) :=
    total?_of_numbers (c := .product) h
  simp only [mergeFactors, none, List.isEmpty_nil, if_true]
  split
  · rename_i zero
    refine ⟨_, Scalar.zero, rfl, ?_, fun _ => rfl⟩
    rw [total, Scalar.Partial.isZero_iff.1 zero, Scalar.Partial.value_zero]
  · exact ⟨_, _, rfl, total.symm, fun _ => rfl⟩

omit [Scalar.Legible α] [Scalar.Worded α] in
/-- Operands that were evaluated have combinations, which are of numbers and make what the operands
do. -/
theorem combinations_evaluated {found : List (List (Term α))}
    (h : List.Forall₂ (fun t us => Evaluated t.value? us) ts found) :
    combinations found ≠ [] ∧ ∀ combo ∈ combinations found,
      (∀ t ∈ combo, t.isNumber = true) ∧ ∀ c : Chain, c.total? combo = c.total? ts := by
  have numbers : ∀ us ∈ found, AllNumbers us := by
    induction h with
    | nil => exact fun us hus => absurd hus List.not_mem_nil
    | cons hus _ ih => exact List.forall_mem_cons.2 ⟨hus.allNumbers, ih⟩
  obtain ⟨hne, hcombos⟩ := combinations_of_numbers numbers
  refine ⟨hne, fun combo hcombo => ⟨hcombos combo hcombo, fun c => Chain.total?_congr ?_⟩⟩
  have chosen := mem_combinations hcombo
  clear hcombo hcombos hne numbers
  induction h generalizing combo with
  | nil =>
      cases chosen
      exact .nil
  | cons hus _ ih =>
      cases chosen with
      | cons ht rest => exact .cons (hus.2 _ ht).value_eq (ih _ rest)

omit [Scalar.Legible α] [Scalar.Worded α] in
/-- The first combination of numbers settles a product. -/
theorem combineFactors_evaluated {combos : List (List (Term α))} (hne : combos ≠ [])
    (h : ∀ combo ∈ combos, (∀ t ∈ combo, t.isNumber = true) ∧ Chain.product.total? combo = x)
    (defined : Chain.product.combine? (value n) x ≠ none) :
    ∃ us, Evaluated (Chain.product.combine? (value n) x) us ∧
      ∀ find, combineFactors find n combos = pure (.settled us) := by
  cases combos with
  | nil => exact absurd rfl hne
  | cons combo combos =>
      obtain ⟨number, total⟩ := h combo List.mem_cons_self
      have same : combo.map powerAsReciprocal = combo :=
        (List.map_congr_left fun t ht => powerAsReciprocal_of_isNumber (number t ht)).trans
          (List.map_id combo)
      have numbers : ∀ t ∈ .num n :: combo, t.isNumber = true :=
        List.forall_mem_cons.2 ⟨rfl, number⟩
      obtain ⟨m, k, hk, hvalue, hm⟩ := mergeFactors_denotes numbers
      rw [Chain.total?_cons, total] at hvalue
      refine ⟨[num k], .singleton (denotes_num hvalue defined), fun find => ?_⟩
      rw [combineFactors, same, hm, pure_bind, hk]

omit [Scalar.Legible α] [Scalar.Worded α] in
theorem mapM_evaluates (hfind : Evaluates J A find) (h : ∀ t ∈ ts, t.IsGround) :
    Ensures J A (ts.mapM find) (List.Forall₂ (fun t us => Evaluated t.value? us) ts) :=
  .mapM fun t ht => hfind t (h t ht)

omit [Scalar.Legible α] [Scalar.Worded α] in
theorem total?_ne_none_of_evaluated {c : Chain} {found : List (List (Term α))}
    (h : List.Forall₂ (fun t us => Evaluated t.value? us) ts found) : c.total? ts ≠ none := by
  induction h with
  | nil => exact Option.some_ne_none _
  | cons hus _ ih => exact combine?_ne_none hus.defined ih

/-- A product of ground factors is evaluated if it shows every part without a value. -/
theorem product_evaluates (hfind : Evaluates J A find) {l r : Term α}
    (ground : (bin .mul l r).IsGround) (finite : (bin .mul l r).Legible)
    (exposes : (bin .mul l r).ExposesFactors) :
    Ensures J A (product find (bin .mul l r)) (Evaluated (bin .mul l r).value?) := by
  have factors : Ensures J A ((bin .mul l r).withExponents.operands.mapM fun f =>
      ofExcept f.reciprocalAsPower) (bin .mul l r).HasFactors :=
    .mapM fun f _ => .ofExcept fun g hg => hg
  refine factors.bind fun fs hfs => ?_
  rw [← hfs.total? exposes]
  refine (mergeFactors_leaves hfind (hfs.ground ground) (hfs.finite finite)
    (exposes.zero fs hfs) (exposes.powers fs hfs)).bind fun merged hmerged => ?_
  cases hsettled : merged.settled with
  | some us => exact .pure (hmerged.settled us hsettled)
  | none =>
      refine (mapM_evaluates hfind (hmerged.ground hsettled)).bind fun found hfound => ?_
      obtain ⟨hne, hcombos⟩ := combinations_evaluated hfound
      obtain ⟨us, hus, hcombine⟩ := combineFactors_evaluated hne
        (fun combo hcombo => ⟨(hcombos combo hcombo).1, (hcombos combo hcombo).2 .product⟩)
        (combine?_ne_none (hmerged.finite hsettled) (total?_ne_none_of_evaluated hfound))
      rw [hmerged.total hsettled] at hus
      simp only [hcombine, pure_bind]
      exact .pure hus

omit [DecidableEq K] [PartialFunctions K] [Scalar.Partial α K] [Field K] [Scalar.Worded α] in
theorem quotientAsProduct_legible {l r : Term α} (h : (bin .div l r).Legible) :
    (quotientAsProduct l r).Legible := by
  refine ⟨h.1, join_legible (fun none => ?_) fun u hu => ?_⟩
  · exact operandsIn_ne_nil .product r (List.map_eq_nil_iff.1 none)
  · obtain ⟨v, hv, rfl⟩ := List.mem_map.1 hu
    exact operandsIn_legible h.2 v hv

theorem quotient_evaluates (hfind : Evaluates J A find) {l r : Term α}
    (ground : (bin .div l r).IsGround) (finite : (bin .div l r).Legible)
    (exposes : (quotientAsProduct l r).ExposesFactors) :
    Ensures J A (quotient find l r) (Evaluated (bin .div l r).value?) := by
  have inverses : ∀ u ∈ (r.operandsIn .product).map (inv .recip), u.IsGround := by
    intro u hu
    obtain ⟨v, hv, rfl⟩ := List.mem_map.1 hu
    exact operandsIn_ground ground.2 v hv
  have same : (bin .div l r).value? = (quotientAsProduct l r).value? :=
    ((value?_chainLaws .product).of_inverseOp l r).trans (value?_replacement.bin .mul rfl
      ((value?_joinLaws .product).joinInverses arrangeable_ground ground.2))
  rw [same]
  exact product_evaluates hfind ⟨ground.1, join_ground inverses⟩ (quotientAsProduct_legible finite)
    exposes

/-! ## Powers, remainders and calls -/

/-- Powers of numbers are evaluated at once. -/
theorem powerOf_evaluates {base exponent b e : Term α} (hb : b.Denotes base.value?)
    (he : e.Denotes exponent.value?) :
    Ensures J A (powerOf find b e) (Evaluated (bin .pow base exponent).value?) := by
  have noPower : b.power? = none := by
    cases b with
    | bin op l r => cases hb.number
    | _ => rfl
  obtain ⟨m, hm, hx⟩ := hb.exists_number
  obtain ⟨n, hn, hy⟩ := he.exists_number
  obtain ⟨x, basex⟩ := Option.ne_none_iff_exists'.1 hb.defined
  obtain ⟨y, exponenty⟩ := Option.ne_none_iff_exists'.1 he.defined
  have power : (bin .pow base exponent).value? = PartialFunctions.power x y := by
    show (base.value?.bind fun a => exponent.value?.bind (PartialFunctions.power a)) = _
    rw [basex, exponenty]
    rfl
  simp only [powerOf, noPower, hm, hn]
  rw [power]
  split
  · rename_i zero
    have none : e.value? = some 0 :=
      value?_of_reads_identity (c := .sum) (isNumber_ground he.number) zero
    rw [he.value_eq, exponenty] at none
    rw [Option.some.inj none, PartialFunctions.power_zero]
    exact .pure (.singleton (denotes_num Scalar.Partial.value_one (Option.some_ne_none _)))
  · rw [← Scalar.Partial.value_power (hx.trans basex) (hy.trans exponenty)]
    split
    · rename_i finite
      have defined := Option.isSome_iff_ne_none.1 (Scalar.Partial.isFinite_iff.1 finite)
      exact .pure (.singleton (denotes_num rfl defined))
    · exact .throw _

theorem power_evaluates (hfind : Evaluates J A find) {base exponent : Term α}
    (ground : (bin .pow base exponent).IsGround) :
    Ensures J A (power find base exponent) (Evaluated (bin .pow base exponent).value?) := by
  refine (hfind base ground.1).bind fun bases hbases => ?_
  refine (hfind exponent ground.2).bind fun exponents hexponents => ?_
  refine .gather_ne_nil hexponents.1 fun e he => .gather_ne_nil hbases.1 fun b hb => ?_
  exact powerOf_evaluates (hbases.2 b hb) (hexponents.2 e he)

omit [Scalar.Worded α] in
/-- Equal operands leave zero if they have a remainder at all. -/
theorem remainderOf_denotes {whole l r a b : Term α} (ha : a.Denotes l.value?)
    (hb : b.Denotes r.value?) (exposes : (bin .mod l r).ExposesOperands)
    (h : remainderOf whole a b = .ok t) : t.Denotes (bin .mod l r).value? := by
  obtain ⟨m, hm, hx⟩ := ha.exists_number
  obtain ⟨n, hn, hy⟩ := hb.exists_number
  obtain ⟨x, lx⟩ := Option.ne_none_iff_exists'.1 ha.defined
  obtain ⟨y, ry⟩ := Option.ne_none_iff_exists'.1 hb.defined
  have remainder : (bin .mod l r).value? = PartialFunctions.remainder x y := by
    show (l.value?.bind fun a => r.value?.bind (PartialFunctions.remainder a)) = _
    rw [lx, ry]
    rfl
  rw [lx] at hx
  rw [ry] at hy
  have clear {u : Term α} (hu : u.isNumber = true) : u.ClearRemainders := by
    cases u <;> trivial
  rcases remainderOf_cases hm hn h with ⟨same, rfl⟩ | ⟨wholem, wholen, nonzero, rfl⟩
  · have equal := value?_eq_of_text_eq (ha.value_eq ▸ ha.defined) (hb.value_eq ▸ hb.defined)
      (clear ha.number) (clear hb.number) same
    rw [ha.value_eq, hb.value_eq, lx, ry] at equal
    obtain rfl := Option.some.inj equal
    have defined := exposes x lx ry
    obtain ⟨z, hz⟩ := Option.ne_none_iff_exists'.1 defined
    refine denotes_num ?_ defined
    rw [hz, PartialFunctions.remainder_self (remainder.symm.trans hz)]
    exact Scalar.Partial.value_zero
  · have finite := Scalar.Partial.isFinite_floorRem wholem wholen nonzero
    rw [remainder, Scalar.Partial.value_floorRem hx hy, wholem, wholen, nonzero]
    exact denotes_num rfl (Option.isSome_iff_ne_none.1 (Scalar.Partial.isFinite_iff.1 finite))

omit [DecidableEq K] [PartialFunctions K] [Scalar.Partial α K] [Field K] [Scalar.Legible α]
  [Scalar.Worded α] in
theorem isFinite_of_outcome {k : Keyword} {v : α} (h : k.outcome n = .value v) :
    Scalar.isFinite v = true := by
  rw [Keyword.outcome] at h
  split at h
  · cases h
  · dsimp only at h
    split at h
    · cases h
      assumption
    · cases h

omit [Scalar.Legible α] [Scalar.Worded α] in
theorem call_denotes {k : Keyword} {argument c : Term α} (hc : c.Denotes argument.value?) :
    Ensures J A (call k c) fun t => t.Denotes (Term.call k argument).value? := by
  obtain ⟨n, hn, hx⟩ := hc.exists_number
  obtain ⟨x, argx⟩ := Option.ne_none_iff_exists'.1 hc.defined
  have value : (Term.call k argument).value? = (k.evaluate n).toOption.bind value := by
    show argument.value?.bind (PartialFunctions.keyword k) = _
    rw [Scalar.Partial.value_evaluate (hx.trans argx), argx]
    rfl
  simp only [Search.call, hn]
  cases outcome : k.outcome n with
  | value v =>
      have finite := isFinite_of_outcome outcome
      rw [value, Keyword.evaluate, outcome]
      exact .pure (denotes_num rfl (Option.isSome_iff_ne_none.1 (Scalar.Partial.isFinite_iff.1 finite)))
  | refused e => exact (Ensures.note _).bind fun _ _ => .throw _
  | notFinite v => exact (Ensures.note _).bind fun _ _ => .throw _

omit [Scalar.Legible α] [Scalar.Worded α] in
theorem inverted_denotes {i : Inverse} {operand c : Term α} (hc : c.Denotes operand.value?)
    (h : c.inverted i = .ok u) : u.Denotes (inv i operand).value? := by
  obtain ⟨n, hn, hx⟩ := hc.exists_number
  obtain ⟨x, operandx⟩ := Option.ne_none_iff_exists'.1 hc.defined
  cases i with
  | neg =>
      have negated : c.negated = num (-n) := by
        cases c <;> cases hn <;> rfl
      have opposite : (inv .neg operand).value? = some (-x) := by
        show operand.value?.map (-·) = _
        rw [operandx]
        rfl
      cases h
      rw [negated, opposite]
      refine denotes_num ?_ (Option.some_ne_none _)
      rw [Scalar.Partial.value_neg, hx, operandx]
      rfl
  | recip =>
      simp only [Term.inverted, Term.reciprocal, hn] at h
      split at h
      · cases h
      · rename_i nonzero
        cases h
        rw [operandx] at hx
        have hne : x ≠ 0 := fun zero => nonzero (Scalar.Partial.isZero_iff.2 (zero ▸ hx))
        have recip : (inv .recip operand).value? = some (1 / x) := by
          show operand.value?.bind reciprocal? = _
          rw [operandx, one_div]
          exact if_neg hne
        rw [recip]
        exact denotes_num (Scalar.Partial.value_div Scalar.Partial.value_one hx hne)
          (Option.some_ne_none _)

/-! ## Sums -/

omit [Scalar.Legible α] [Scalar.Worded α] in
theorem offset_evaluates (hfind : Evaluates J A find) (hn : value n ≠ none) (ht : t.IsGround)
    (h : t.isNumber = true → t.value? ≠ none) :
    Ensures J A (offset find n t) (Evaluated (Chain.sum.combine? (value n) t.value?)) := by
  unfold offset
  split
  · rename_i zero
    have unit : value n = some Chain.sum.unit := Scalar.Partial.isZero_iff.1 zero
    rw [unit, Chain.unit_combine?]
    exact hfind t ht
  · cases hm : t.number? with
    | some m =>
        have defined := h (by rw [isNumber, hm]; rfl)
        refine .pure (.singleton (denotes_num ?_ (combine?_ne_none hn defined)))
        rw [value?_of_number? hm]
        exact Scalar.Partial.value_add n m
    | none =>
        refine (hfind t ht).bind fun found hfound => ?_
        obtain ⟨m, hm, same⟩ := hfound.exists_number
        simp only [hm]
        refine .pure (.singleton (denotes_num ?_ (combine?_ne_none hn hfound.defined)))
        rw [← same]
        exact Scalar.Partial.value_add n m

section

variable [CharZero K]

/-- What is left of summands: numbers that stand for their sum, or what collecting them leaves. -/
structure LeavesCollected (ts : List (Term α)) (m : Merged α) : Prop where
  settled : ∀ us, m.settled = some us → Evaluated (Chain.sum.total? ts) us
  number : m.settled = none → m.number = sumOfNumbers ts
  rest : m.settled = none → m.rest = collectOrZero (others ts)

/-- Like terms are collected only if all have values, or a part without one is left and fails. -/
theorem mergeSummands_leaves (hfind : Evaluates J A find)
    (ground : ∀ t ∈ collectOrZero (others ts), t.IsGround)
    (finite : ∀ t ∈ ts, t.isNumber = true → t.value? ≠ none)
    (exposes : (∀ t ∈ collectOrZero (others ts), t.isNumber = false → t.value? ≠ none) →
      ∀ t ∈ others ts, t.Collectable) :
    Ensures J A (mergeSummands find ts) (LeavesCollected ts) := by
  have hn : value (sumOfNumbers ts) ≠ none := value_number_ne_none (c := .sum) finite
  have total : Chain.sum.total? ts = Chain.sum.combine? (value (sumOfNumbers ts))
      (Chain.sum.total? (others ts)) := total?_others ts
  have settled {k : α} {us vs : List (Term α)} (hus : Evaluated (Chain.sum.total? ts) us) :
      LeavesCollected ts ⟨k, vs, some us⟩ :=
    have some : (some us : Option (List (Term α))) ≠ none := Option.some_ne_none us
    ⟨fun _ hvs => Option.some.inj hvs ▸ hus, (absurd · some), (absurd · some)⟩
  unfold mergeSummands
  split
  · rename_i none
    rw [none] at total
    have single : Chain.sum.total? ts = value (sumOfNumbers ts) :=
      total.trans (Chain.sum.combine?_unit _)
    exact .pure (settled (.singleton (denotes_num single.symm (single ▸ hn))))
  · dsimp only
    split
    · rename_i only collected
      rw [collected] at ground exposes
      have honly := ground only List.mem_cons_self
      have sum (h : only.isNumber = false → only.value? ≠ none) :
          Chain.sum.total? (others ts) = only.value? ∧ only.value? ≠ none := by
        have collectable := exposes fun t ht => List.eq_of_mem_singleton ht ▸ h
        have kept := collectOrZero_total? collectable
        rw [collected, Chain.total?_singleton] at kept
        refine ⟨kept.symm, fun none => ?_⟩
        obtain ⟨t, ht, undefined⟩ := Chain.total?_eq_none_iff.1 (kept.symm.trans none)
        exact (collectable t ht).defined undefined
      have number (h : only.isNumber = true) : only.value? ≠ none :=
        (sum fun other => absurd h (ne_true_of_eq_false other)).2
      refine (offset_evaluates hfind hn honly number).bind fun us hus => .pure (settled ?_)
      have defined : only.value? ≠ none := fun none => by
        rw [none] at hus
        exact hus.defined (Option.map₂_none_right _ _)
      rw [total, (sum fun _ => defined).1]
      exact hus
    · exact .pure ⟨fun us hus => absurd hus.symm (Option.some_ne_none us), fun _ => rfl, fun _ => rfl⟩

omit [Scalar.Legible α] [Scalar.Worded α] [CharZero K] in
theorem mergeSummands_denotes (h : ∀ t ∈ ts, t.isNumber = true) : ∃ (m : Merged α) (k : α),
    m.settled = some [.num k] ∧ value k = Chain.sum.total? ts ∧
      ∀ find, mergeSummands find ts = pure m := by
  have none : others ts = [] := List.filter_eq_nil_iff.2 fun t ht => by rw [h t ht]; decide
  simp only [mergeSummands, none]
  exact ⟨_, _, rfl, (total?_of_numbers (c := .sum) h).symm, fun _ => rfl⟩

omit [CharZero K] in
theorem finishSum_denotes (h : t.Denotes x) : (finishSum t).Denotes x := by
  refine ⟨finishSum_isNumber h.number, ?_, h.defined⟩
  have two : finishSum t = Chain.sum.join [num Scalar.zero, t] := by
    cases t with
    | num n => rfl
    | const c => rfl
    | _ => cases h.number
  have ground : ∀ u ∈ [num Scalar.zero, t], u.IsGround :=
    List.forall_mem_cons.2 ⟨trivial, fun u hu => List.eq_of_mem_singleton hu ▸ isNumber_ground h.number⟩
  have zero : (num (Scalar.zero : α)).value? = some Chain.sum.unit := Scalar.Partial.value_zero
  rw [two, join_value? ground, Chain.total?_cons, Chain.total?_singleton, zero, Chain.unit_combine?,
    h.value_eq]

omit [CharZero K] in
/-- The first combination of numbers settles a sum. -/
theorem combineSummands_evaluated (rule : FactoringRule α) {combos : List (List (Term α))}
    (hne : combos ≠ [])
    (h : ∀ combo ∈ combos, (∀ t ∈ combo, t.isNumber = true) ∧ Chain.sum.total? combo = x)
    (defined : Chain.sum.combine? (value n) x ≠ none) :
    ∃ us, Evaluated (Chain.sum.combine? (value n) x) us ∧
      ∀ find simplify, combineSummands rule find simplify n [] combos = pure (.settled us) := by
  cases combos with
  | nil => exact absurd rfl hne
  | cons combo combos =>
      obtain ⟨number, total⟩ := h combo List.mem_cons_self
      have numbers : ∀ t ∈ .num n :: combo, t.isNumber = true :=
        List.forall_mem_cons.2 ⟨rfl, number⟩
      obtain ⟨m, k, hk, hvalue, hm⟩ := mergeSummands_denotes numbers
      rw [Chain.total?_cons, total] at hvalue
      refine ⟨[finishSum (num k)], .singleton (finishSum_denotes (denotes_num hvalue defined)),
        fun find simplify => ?_⟩
      rw [combineSummands, hm, pure_bind, hk]
      rfl

/-- A sum of ground summands is evaluated if it shows every part without a value. -/
theorem sum_evaluates (hfind : Evaluates J A find) (rule : FactoringRule α)
    (simplify : Term α → Search α (Term α)) {l r : Term α} (ground : (bin .add l r).IsGround)
    (finite : (bin .add l r).Legible) (exposes : (bin .add l r).ExposesSummands) :
    Ensures J A (sum rule find simplify (bin .add l r)) (Evaluated (bin .add l r).value?) := by
  have summands := summands_of_operands ground (le_refl _) (le_refl _)
  have collected : ∀ t ∈ collectOrZero (bin .add l r).summandsToCollect,
      t.Summand (bin .add l r).size :=
    collectOrZero_summand (Nat.succ_pos _) fun t ht => summands t (List.mem_filter.1 ht).1
  have numbers : ∀ t ∈ (bin .add l r).withExponents.operands.map negationsAsProducts,
      t.isNumber = true → t.value? ≠ none := by
    intro t ht
    obtain ⟨u, hu, rfl⟩ := List.mem_map.1 ht
    exact value?_ne_none_of_number (negationsAsProducts_legible
      (operandsIn_legible (c := .sum) (withExponents_legible finite) u hu))
  have total : Chain.sum.total? ((bin .add l r).withExponents.operands.map negationsAsProducts) =
      (bin .add l r).value? := by
    have products (us : List (Term α)) :
        Chain.sum.total? (us.map negationsAsProducts) = Chain.sum.total? us := by
      refine Chain.total?_congr (List.forall₂_map_left_iff.2 (List.forall₂_same.2 fun u _ => ?_))
      exact negationsAsProducts_value? u
    rw [products, ← withExponents_value? (bin .add l r)]
    exact operandsIn_total? (c := .sum)
  unfold sum
  rw [← total]
  refine (mergeSummands_leaves hfind (fun t ht => (collected t ht).shallow.ground) numbers
    exposes).bind fun merged hmerged => ?_
  cases hsettled : merged.settled with
  | some us =>
      have hus := hmerged.settled us hsettled
      refine .pure ⟨fun empty => hus.1 (List.map_eq_nil_iff.1 empty), fun t ht => ?_⟩
      obtain ⟨u, hu, rfl⟩ := List.mem_map.1 ht
      exact finishSum_denotes (hus.2 u hu)
  | none =>
      simp only [hmerged.rest hsettled]
      refine (mapM_evaluates hfind fun t ht => (collected t ht).shallow.ground).bind
        fun found hfound => ?_
      have defined := total?_ne_none_of_evaluated (c := .sum) hfound
      have collectable := exposes fun t ht _ none =>
        defined (Chain.total?_eq_none_iff.2 ⟨t, ht, none⟩)
      obtain ⟨hne, hcombos⟩ := combinations_evaluated hfound
      have kept : Chain.sum.total? (collectOrZero (bin .add l r).summandsToCollect) =
          Chain.sum.total? (bin .add l r).summandsToCollect := collectOrZero_total? collectable
      have number : value merged.number ≠ none := by
        rw [hmerged.number hsettled]
        exact value_number_ne_none (c := .sum) numbers
      obtain ⟨us, hus, hcombine⟩ := combineSummands_evaluated rule hne
        (fun combo hcombo => ⟨(hcombos combo hcombo).1, (hcombos combo hcombo).2 .sum⟩)
        (combine?_ne_none number defined)
      have sums : Chain.sum.total? ((bin .add l r).withExponents.operands.map negationsAsProducts) =
          Chain.sum.combine? (value merged.number)
            (Chain.sum.total? (collectOrZero (bin .add l r).summandsToCollect)) := by
        rw [hmerged.number hsettled, kept]
        exact total?_others (c := .sum) _
      rw [sums]
      simp only [hcombine, pure_bind]
      exact .pure hus

theorem difference_evaluates (hfind : Evaluates J A find) (rule : FactoringRule α)
    (simplify : Term α → Search α (Term α)) {l r : Term α} (ground : (bin .sub l r).IsGround)
    (finite : (bin .sub l r).Legible) (exposes : (bin .add l (inv .neg r)).ExposesSummands) :
    Ensures J A (difference rule find simplify l r) (Evaluated (bin .sub l r).value?) := by
  have same : (bin .add l (inv .neg r)).value? = (bin .sub l r).value? :=
    ((Chain.value?_op (c := .sum)).trans (congrArg _ (Chain.value?_inverse (c := .sum)))).trans
      (Chain.value?_inverseOp (c := .sum)).symm
  rw [← same]
  exact sum_evaluates hfind rule simplify ground finite exposes

end

/-! ## All rules -/

/-- The rule of an exposed term evaluates it, or fails. -/
theorem candidatesByRule_evaluates [CharZero K] (hfind : Evaluates J A find)
    (rule : FactoringRule α) (ht : t.Exposed) (hinv : ∀ i u, t ≠ .inv i u) :
    Ensures J A (candidatesByRule rule find t) (Evaluated t.value?) := by
  have own (number : t.isNumber = true) :
      Ensures J A (pure [t] : Search α (List (Term α))) (Evaluated t.value?) :=
    .pure (.singleton ⟨number, rfl, value?_ne_none_of_number ht.legible number⟩)
  cases t with
  | bin op l r =>
      cases op with
      | add => exact sum_evaluates hfind rule _ ht.ground ht.legible ht.operands
      | sub => exact difference_evaluates hfind rule _ ht.ground ht.legible ht.operands
      | mul => exact product_evaluates hfind ht.ground ht.legible ht.operands
      | div => exact quotient_evaluates hfind ht.ground ht.legible ht.operands
      | mod =>
          refine (first_evaluates hfind ht.ground.1).bind fun a ha => ?_
          refine (first_evaluates hfind ht.ground.2).bind fun b hb => ?_
          refine (Ensures.ofExcept fun u hu => ?_).bind fun u hu => .pure (.singleton hu)
          exact remainderOf_denotes ha hb ht.operands hu
      | pow => exact power_evaluates hfind ht.ground
  | call k argument =>
      refine (hfind argument ht.ground).bind fun found hfound => ?_
      refine (Ensures.mapM_all fun c hc => call_denotes (hfound.2 c hc)).mono fun us hus => ?_
      refine ⟨fun empty => hfound.1 (List.length_eq_zero_iff.1 ?_), hus.2⟩
      rw [← hus.1, empty, List.length_nil]
  | inv i u => exact absurd rfl (hinv i u)
  | num n => exact own rfl
  | const c => exact own rfl
  | empty => exact ht.ground.elim
  | var name index => exact ht.ground.elim

end Search

end AlgebraicTerms
