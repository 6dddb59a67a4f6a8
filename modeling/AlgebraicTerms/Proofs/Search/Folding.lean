import AlgebraicTerms.Proofs.Search.Candidates
import AlgebraicTerms.Proofs.Search.Remainder
import AlgebraicTerms.Proofs.Search.Settling
import AlgebraicTerms.Proofs.Term.Merging

/-!
# Rules on ground terms

Each rule turns a ground term into numbers if the finder that it calls does so with smaller terms.
Once the operands of a sum or product have only numbers as candidates, the first combination of them
settles it.
-/

namespace AlgebraicTerms

/-- Whether there are candidates and all of them are numbers. -/
def AllNumbers {α : Type} [Scalar α] (ts : List (Term α)) : Prop :=
  ts ≠ [] ∧ ∀ t ∈ ts, t.isNumber = true

theorem AllNumbers.singleton {α : Type} [Scalar α] {t : Term α} (h : t.isNumber = true) :
    AllNumbers [t] :=
  ⟨List.cons_ne_nil _ _, fun _ hu => List.eq_of_mem_singleton hu ▸ h⟩

theorem AllNumbers.exists_number {α : Type} [Scalar α] {ts : List (Term α)} (h : AllNumbers ts) :
    ∃ n, ts.findSome? Term.number? = some n := by
  cases ts with
  | nil => exact absurd rfl h.1
  | cons t ts =>
      obtain ⟨n, hn⟩ := Option.isSome_iff_exists.1 (h.2 t List.mem_cons_self)
      exact ⟨n, by rw [List.findSome?_cons, hn]⟩

open Term

namespace Search

variable {α : Type} [Scalar α]

/-- Whether a finder turns every smaller ground term into numbers. -/
def FoldsBelow (J : Cache α → Prop) (A : List String) (finds : ℕ → Finder α) (s : Size) : Prop :=
  ∀ u : Term α, u.IsGround → u.size.cost < s.cost →
    Settles J A (fun depth => finds depth u) AllNumbers

variable {J : Cache α → Prop} {A : List String} {finds : ℕ → Finder α} {s : Size}

section Rules

variable (hfind : FoldsBelow J A finds s)

include hfind

theorem first_folds {u : Term α} (hu : u.IsGround) (h : u.size.cost < s.cost) :
    Settles J A (fun depth => first (finds depth) u) fun t => t.isNumber = true := by
  refine (hfind u hu h).bind fun found hfound => .pure ?_
  cases found with
  | nil => exact absurd rfl hfound.1
  | cons t ts => exact hfound.2 t List.mem_cons_self

/-! ## Products -/

/-- What a pair of factors becomes. -/
def PairOutcome.Lighter (s : Size) (a b : Term α) : PairOutcome α → Prop
  | .merged t => Replaces s a b t
  | _ => True

theorem mergeBases_folds [Scalar.Legible α] [Scalar.Worded α] {base m base' n : Term α}
    (ha : (bin .pow base m).Shallow s) (hb : (bin .pow base' n).Shallow s)
    (hsums : (bin .pow base m).size.sums + (bin .pow base' n).size.sums ≤ s.sums)
    (hbulk : (bin .pow base m).bulk + (bin .pow base' n).bulk + 5 < s.load) :
    Settles J A (fun depth => mergeBases (finds depth) (bin .pow base m) (bin .pow base' n) base m
      base' n) (PairOutcome.Lighter s (bin .pow base m) (bin .pow base' n)) := by
  have apart : Settles J A (fun _ => (pure .apart : Search α (PairOutcome α)))
      (PairOutcome.Lighter s (bin .pow base m) (bin .pow base' n)) := .pure trivial
  unfold mergeBases
  cases hid : identityProduct? (bin .pow base m) (bin .pow base' n) with
  | some t =>
      refine .pure ?_
      rcases sineOverCosine?_of_identityProduct? hid with h | h
      · exact replaces_tangent h ha
      · exact (replaces_tangent h hb).symm
  | none =>
      refine .ite (fun _ => apart) fun units => .ite (fun same => ?_) fun _ => ?_
      · have equal : isUnitExponent n = isUnitExponent m := by
          rw [isUnitExponent, isUnitExponent, reads, reads, reads, reads, beq_iff.1 same]
        rw [equal, Bool.and_self, Bool.not_eq_true] at units
        have hm := exponentLoad_of_not_isUnitExponent units
        have hn := exponentLoad_of_not_isUnitExponent (equal.trans units)
        have smaller : (bin .mul base base').size.cost < s.cost := by
          refine Size.cost_lt_of_load (max_le ha.power.2.2.1 hb.power.2.2.1) ?_
            ((bases_lighter hm hn).trans hbulk)
          refine le_trans ?_ hsums
          exact Nat.add_le_add (Nat.le_add_right _ _) (Nat.le_add_right _ _)
        have ground : (bin .mul base base').IsGround := ⟨ha.power.1, hb.power.1⟩
        refine (first_folds hfind ground smaller).bind fun p hp => .pure ?_
        exact replaces_same_exponent ha hp hn
      · refine .ite (fun opposite => .pure ?_) fun _ => .ite (fun opposite => .pure ?_) fun _ => apart
        · refine replaces_opposite_exponents ha hb (exponentLoad_of_not_isUnitExponent ?_)
          refine Bool.eq_false_iff.2 fun hm => units ?_
          rw [hm, isUnitExponent_of_opposite opposite hm, Bool.and_self]
        · refine (replaces_opposite_exponents hb ha (exponentLoad_of_not_isUnitExponent ?_)).symm
          refine Bool.eq_false_iff.2 fun hn => units ?_
          rw [hn, isUnitExponent_of_opposite opposite hn, Bool.and_self]

theorem mergePair_folds [Scalar.Legible α] [Scalar.Worded α] (sameBase : Bool) {a b : Term α}
    (ha : a.Shallow s) (hb : b.Shallow s) (hsums : a.size.sums + b.size.sums ≤ s.sums)
    (hbulk : a.bulk + b.bulk + 5 < s.load) :
    Settles J A (fun depth => mergePair (finds depth) sameBase a b) (PairOutcome.Lighter s a b) := by
  have apart : Settles J A (fun _ => (pure .apart : Search α (PairOutcome α)))
      (PairOutcome.Lighter s a b) := .pure trivial
  unfold mergePair
  cases hpa : a.power? with
  | none => exact apart
  | some p =>
      cases hpb : b.power? with
      | none => exact apart
      | some q =>
          obtain ⟨base, m⟩ := p
          obtain ⟨base', n⟩ := q
          obtain rfl := eq_pow_of_power? hpa
          obtain rfl := eq_pow_of_power? hpb
          refine .ite (fun _ => ?_) fun _ => .ite (fun _ => apart) fun _ =>
            mergeBases_folds hfind ha hb hsums hbulk
          have smaller : (bin .add m n).size.cost < s.cost :=
            Size.cost_lt_of_depth (max_lt ha.power.2.2.2 hb.power.2.2.2)
          have ground : (bin .add m n).IsGround := ⟨ha.power.2.1, hb.power.2.1⟩
          refine (first_folds hfind ground smaller).bind fun e he => .pure ?_
          split
          · trivial
          · exact replaces_same_base ha he

theorem absorb_folds [Scalar.Legible α] [Scalar.Worded α] (sameBase : Bool) {a : Term α}
    {ts : List (Term α)} (h : FitInto s (a :: ts)) :
    Settles J A (fun depth => absorb (finds depth) sameBase a ts)
      fun r => MergesInto s (a :: ts) (r.1.toList ++ r.2) := by
  induction ts generalizing a with
  | nil => exact .pure ⟨h.shallow, le_refl _, le_refl _⟩
  | cons b ts ih =>
      simp only [absorb]
      have ha := h.shallow a List.mem_cons_self
      have hb := h.shallow b (List.mem_cons_of_mem _ List.mem_cons_self)
      have hts : ∀ t ∈ ts, t.Shallow s :=
        fun t ht => h.shallow t (List.mem_cons_of_mem _ (List.mem_cons_of_mem _ ht))
      have hsums := h.sums
      have hbulk := h.bulk
      simp only [totalSums_cons, totalBulk_cons] at hsums hbulk
      refine (mergePair_folds hfind sameBase ha hb (by omega) (by omega)).bind fun outcome hout => ?_
      cases outcome with
      | apart =>
          have rest : FitInto s (a :: ts) := by
            refine ⟨List.forall_mem_cons.2 ⟨ha, hts⟩, ?_, ?_⟩
            · rw [totalSums_cons]
              omega
            · rw [totalBulk_cons]
              omega
          refine (ih rest).bind fun r hr => .pure ?_
          obtain ⟨hshallow, hs, hb'⟩ := hr
          simp only [totalSums_append, totalBulk_append, totalSums_cons, totalBulk_cons] at hs hb'
          refine ⟨fun u hu => ?_, ?_, ?_⟩
          · rcases List.mem_append.1 hu with hu | hu
            · exact hshallow u (List.mem_append_left _ hu)
            · rcases List.mem_cons.1 hu with rfl | hu
              · exact hb
              · exact hshallow u (List.mem_append_right _ hu)
          · simp only [totalSums_append, totalSums_cons]
            omega
          · simp only [totalBulk_append, totalBulk_cons]
            omega
      | cancelled =>
          refine .pure ⟨hts, ?_, ?_⟩
          · simp only [Option.toList_none, List.nil_append, totalSums_cons]
            omega
          · simp only [Option.toList_none, List.nil_append, totalBulk_cons]
            omega
      | merged t =>
          have ht : Replaces s a b t := hout
          have hs := ht.sums
          have hb' := ht.bulk
          have into : MergesInto s (a :: b :: ts) (t :: ts) := by
            refine ⟨List.forall_mem_cons.2 ⟨ht.shallow, hts⟩, ?_, ?_⟩
            · simp only [totalSums_cons]
              omega
            · simp only [totalBulk_cons]
              omega
          refine .ite (fun _ => ?_) fun _ => .pure into
          exact (ih (h.merge into)).mono fun r hr => into.trans hr

theorem mergePowers_folds [Scalar.Legible α] [Scalar.Worded α] (sameBase : Bool)
    {ts : List (Term α)} (h : FitInto s ts) :
    Settles J A (fun depth => mergePowers (finds depth) sameBase ts) (MergesInto s ts) := by
  unfold mergePowers
  generalize ts.length = rounds
  induction rounds generalizing ts with
  | zero => exact .pure (.refl h.shallow)
  | succ rounds ih =>
      cases ts with
      | nil => exact .pure (.refl h.shallow)
      | cons t ts =>
          simp only [mergePowersWithin]
          refine .ite (fun _ => ?_) fun _ => ?_
          · refine (absorb_folds hfind sameBase h).bind fun r hr => ?_
            have left : FitInto s r.2 := (h.merge hr).sublist (List.sublist_append_right _ _)
            refine (ih left).bind fun us hus => .pure (hr.trans (hus.append_left fun u hu => ?_))
            exact hr.shallow u (List.mem_append_left _ hu)
          · refine (ih (h.sublist (List.sublist_cons_self _ _))).bind fun us hus => .pure ?_
            have own : ∀ u ∈ [t], u.Shallow s :=
              fun u hu => List.eq_of_mem_singleton hu ▸ h.shallow t List.mem_cons_self
            exact hus.append_left own

theorem scale_folds (n : α) {t : Term α} (ht : t.IsGround) (h : t.size.cost < s.cost) :
    Settles J A (fun depth => scale (finds depth) n t) AllNumbers := by
  unfold scale
  refine .ite (fun _ => hfind t ht h) fun _ => ?_
  cases t.number? with
  | some m => exact .pure (.singleton rfl)
  | none =>
      refine (hfind t ht h).bind fun found hfound => ?_
      obtain ⟨m, hm⟩ := hfound.exists_number
      simp only [hm]
      exact .pure (.singleton rfl)

theorem mergeFactors_folds [Scalar.Legible α] [Scalar.Worded α] {ts : List (Term α)}
    (h : FitInto s ts) : Settles J A (fun depth => mergeFactors (finds depth) ts) fun m =>
      (∀ us, m.settled = some us → AllNumbers us) ∧ (m.settled = none → FitInto s m.rest) := by
  have number (n m : α) (us : List (Term α)) : Settles J A
      (fun _ => (pure ⟨n, us, some [.num m]⟩ : Search α (Merged α))) fun m =>
        (∀ us, m.settled = some us → AllNumbers us) ∧ (m.settled = none → FitInto s m.rest) :=
    .pure ⟨fun us hus => Option.some.inj hus ▸ .singleton rfl, nofun⟩
  unfold mergeFactors
  refine .ite (fun _ => number _ _ _) fun _ => .ite (fun _ => number _ _ _) fun _ => ?_
  have fit : FitInto s (others ts) := h.sublist List.filter_sublist
  refine (mergePowers_folds hfind true fit).bind fun once honce => ?_
  refine (mergePowers_folds hfind false (fit.merge honce)).bind fun rest hrest => ?_
  have left := (fit.merge honce).merge hrest
  match rest, left with
  | [], _ => exact number _ _ _
  | [only], left =>
      have smaller : only.size.cost < s.cost := left.cost_lt List.mem_cons_self
      refine (scale_folds hfind _ (left.shallow only List.mem_cons_self).ground smaller).bind
        fun us hus => .pure ⟨fun vs hvs => Option.some.inj hvs ▸ hus, nofun⟩
  | _ :: _ :: _, left => exact .pure ⟨nofun, fun _ => left⟩

end Rules

/-- Numbers are multiplied at once. -/
theorem mergeFactors_of_numbers {ts : List (Term α)} (h : ∀ t ∈ ts, t.isNumber = true) :
    ∃ m : Merged α, (∃ n, m.settled = some [.num n]) ∧ ∀ find, mergeFactors find ts = pure m := by
  have none : others ts = [] := List.filter_eq_nil_iff.2 fun t ht => by rw [h t ht]; decide
  simp only [mergeFactors, none, List.isEmpty_nil, if_true]
  split
  · exact ⟨_, ⟨_, rfl⟩, fun _ => rfl⟩
  · exact ⟨_, ⟨_, rfl⟩, fun _ => rfl⟩

theorem powerAsReciprocal_of_isNumber {t : Term α} (h : t.isNumber = true) :
    t.powerAsReciprocal = t := by
  cases t with
  | bin op l r => cases h
  | _ => rfl

/-- Candidates that are numbers have combinations, and all of numbers. -/
theorem combinations_of_numbers {found : List (List (Term α))} (h : ∀ ts ∈ found, AllNumbers ts) :
    combinations found ≠ [] ∧ ∀ combo ∈ combinations found, ∀ t ∈ combo, t.isNumber = true := by
  constructor
  · exact combinations_ne_nil fun ts hts => (h ts hts).1
  · intro combo hcombo t ht
    have chosen := mem_combinations hcombo
    clear hcombo
    induction chosen with
    | nil => cases ht
    | cons hu _ ih =>
        rcases List.mem_cons.1 ht with rfl | ht
        · exact (h _ List.mem_cons_self).2 _ hu
        · exact ih (fun ts hts => h ts (List.mem_cons_of_mem _ hts)) ht

/-- Powers of numbers are evaluated at once. -/
theorem powerOf_folds {base exponent : Term α} (hbase : base.isNumber = true)
    (hexponent : exponent.isNumber = true) :
    Settles J A (fun depth => powerOf (finds depth) base exponent) AllNumbers := by
  have noPower : base.power? = none := by
    cases base with
    | bin op l r => cases hbase
    | _ => rfl
  obtain ⟨b, hb⟩ := Option.isSome_iff_exists.1 hbase
  obtain ⟨e, he⟩ := Option.isSome_iff_exists.1 hexponent
  simp only [powerOf, noPower, hb, he]
  refine .ite (fun _ => .pure (.singleton rfl)) fun _ => ?_
  exact .ite (fun _ => .pure (.singleton rfl)) fun _ => .throw _

theorem remainderOf_isNumber {whole l r t : Term α} (hl : l.isNumber = true)
    (hr : r.isNumber = true) (h : remainderOf whole l r = .ok t) : t.isNumber = true := by
  obtain ⟨a, ha⟩ := Option.isSome_iff_exists.1 hl
  obtain ⟨b, hb⟩ := Option.isSome_iff_exists.1 hr
  rcases remainderOf_cases ha hb h with ⟨-, rfl⟩ | ⟨-, -, -, rfl⟩ <;> rfl

/-- A keyword has a number as its value, or none. -/
theorem call_folds (k : Keyword) {t : Term α} (h : t.isNumber = true) :
    Settles J A (fun _ => call k t) fun u => u.isNumber = true := by
  obtain ⟨n, hn⟩ := Option.isSome_iff_exists.1 h
  simp only [call, hn]
  cases k.outcome n with
  | value v => exact .pure rfl
  | refused e => exact (Settles.note rfl).bind fun _ _ => .throw _
  | notFinite v => exact (Settles.note rfl).bind fun _ _ => .throw _

/-- The first combination of numbers settles a product. -/
theorem combineFactors_of_numbers (n : α) {combos : List (List (Term α))} (hne : combos ≠ [])
    (h : ∀ combo ∈ combos, ∀ t ∈ combo, t.isNumber = true) :
    ∃ ts, AllNumbers ts ∧ ∀ find, combineFactors find n combos = pure (.settled ts) := by
  cases combos with
  | nil => exact absurd rfl hne
  | cons combo combos =>
      have numbers : ∀ t ∈ .num n :: combo.map powerAsReciprocal, t.isNumber = true := by
        refine List.forall_mem_cons.2 ⟨rfl, fun t ht => ?_⟩
        obtain ⟨u, hu, rfl⟩ := List.mem_map.1 ht
        have number := h combo List.mem_cons_self u hu
        rwa [powerAsReciprocal_of_isNumber number]
      obtain ⟨m, ⟨k, hk⟩, hm⟩ := mergeFactors_of_numbers numbers
      refine ⟨[num k], .singleton rfl, fun find => ?_⟩
      rw [combineFactors, hm, pure_bind, hk]

section Rules

variable (hfind : FoldsBelow J A finds s)

include hfind

theorem mapM_folds {ts : List (Term α)} (h : ∀ t ∈ ts, t.IsGround ∧ t.size.cost < s.cost) :
    Settles J A (fun depth => ts.mapM (finds depth)) fun found => ∀ us ∈ found, AllNumbers us := by
  refine (Settles.mapM fun t ht => hfind t (h t ht).1 (h t ht).2).mono fun found hfound => ?_
  clear h
  induction hfound with
  | nil => exact nofun
  | cons hus _ ih => exact List.forall_mem_cons.2 ⟨hus, ih⟩

/-- A product of ground factors folds if it is no larger than a term of the given size. -/
theorem product_folds [Scalar.Legible α] [Scalar.Worded α] {l r : Term α}
    (ground : (bin .mul l r).IsGround) (hdepth : (bin .mul l r).size.depth ≤ s.depth)
    (hsums : (bin .mul l r).size.sums ≤ s.sums) (hload : (bin .mul l r).size.load ≤ s.load) :
    Settles J A (fun depth => product (finds depth) (bin .mul l r)) AllNumbers := by
  unfold product
  have factors : Settles J A (fun _ =>
      (bin .mul l r).withExponents.operands.mapM fun f => ofExcept f.reciprocalAsPower)
      (FitInto s) := by
    refine (Settles.mapM fun f _ => .ofExcept (P := fun g => f.reciprocalAsPower = .ok g)
      fun g hg => hg).mono fun gs hgs => ?_
    exact fitInto_of_reciprocals ground hdepth hsums hload hgs
  refine factors.bind fun fs hfs => (mergeFactors_folds hfind hfs).bind fun merged hmerged => ?_
  cases hsettled : merged.settled with
  | some us => exact .pure (hmerged.1 us hsettled)
  | none =>
      have fit := hmerged.2 hsettled
      refine (mapM_folds hfind fun t ht => ⟨(fit.shallow t ht).ground, fit.cost_lt ht⟩).bind
        fun found hfound => ?_
      obtain ⟨hne, hcombos⟩ := combinations_of_numbers hfound
      obtain ⟨us, hus, hcombine⟩ := combineFactors_of_numbers merged.number hne hcombos
      simp only [hcombine, pure_bind]
      exact .pure hus

/-- A quotient is no smaller than the product with the reciprocals. -/
theorem quotient_folds [Scalar.Legible α] [Scalar.Worded α] {l r : Term α}
    (ground : (bin .div l r).IsGround) (size : (bin .div l r).size = s) :
    Settles J A (fun depth => quotient (finds depth) l r) AllNumbers := by
  have hne : (r.operandsIn .product).map (inv .recip) ≠ [] := fun empty =>
    operandsIn_ne_nil .product r (List.map_eq_nil_iff.1 empty)
  have inverses : ∀ u ∈ (r.operandsIn .product).map (inv .recip),
      u.IsGround ∧ u.size.depth ≤ max r.size.depth 1 := by
    intro u hu
    obtain ⟨v, hv, rfl⟩ := List.mem_map.1 hu
    exact ⟨operandsIn_ground ground.2 v hv,
      max_le_max_right 1 ((factorsOf_operandsIn r).depth v hv)⟩
  obtain ⟨hd, hs, hw, _⟩ := join_product_size hne
  rw [totalSums_map_inv, (totals_operandsIn r).1] at hs
  rw [totalWeight_map_recip, (totals_operandsIn r).2] at hw
  subst size
  refine product_folds hfind ⟨ground.1, join_ground fun u hu => (inverses u hu).1⟩ ?_ ?_ ?_
  · show max l.size.depth _ ≤ max (max l.size.depth r.size.depth) 1
    rw [max_assoc]
    exact max_le_max_left _ (hd _ fun u hu => (inverses u hu).2)
  · exact Nat.add_le_add_left hs _
  · exact Nat.add_le_add_left hw _

/-! ## Powers, remainders and calls -/

theorem power_folds {base exponent : Term α} (ground : (bin .pow base exponent).IsGround)
    (size : (bin .pow base exponent).size = s) :
    Settles J A (fun depth => power (finds depth) base exponent) AllNumbers := by
  subst size
  have smaller : base.size.cost < (bin .pow base exponent).size.cost :=
    Size.cost_lt_of_load (le_max_left _ _) (Nat.le_add_right _ _)
      (Nat.lt_add_of_pos_right (exponentLoad_pos exponent))
  have shallower : exponent.size.cost < (bin .pow base exponent).size.cost :=
    Size.cost_lt_of_depth (Nat.lt_of_succ_le (le_max_right _ _))
  refine (hfind base ground.1 smaller).bind fun bases hbases => ?_
  refine (hfind exponent ground.2 shallower).bind fun exponents hexponents => ?_
  refine .gather hexponents.1 fun e he => .gather hbases.1 fun b hb => ?_
  exact powerOf_folds (hbases.2 b hb) (hexponents.2 e he)

theorem remainder_folds {whole l r : Term α} (ground : (bin .mod l r).IsGround)
    (size : (bin .mod l r).size = s) :
    Settles J A (fun depth => remainder (finds depth) whole l r) AllNumbers := by
  subst size
  have hl := thirteen_le_weight l
  have hr := thirteen_le_weight r
  have load : (bin .mod l r).size.load = l.size.weight + r.size.weight := rfl
  have left : l.size.cost < (bin .mod l r).size.cost := by
    refine Size.cost_lt_of_load (le_max_left _ _) (Nat.le_add_right _ _) ?_
    have hload := load_le_weight l
    omega
  have right : r.size.cost < (bin .mod l r).size.cost := by
    refine Size.cost_lt_of_load (le_max_right _ _) (Nat.le_add_left _ _) ?_
    have hload := load_le_weight r
    omega
  refine (first_folds hfind ground.1 left).bind fun l' hl' => ?_
  refine (first_folds hfind ground.2 right).bind fun r' hr' => ?_
  refine (Settles.ofExcept fun t ht => remainderOf_isNumber hl' hr' ht).bind fun t ht => .pure ?_
  exact .singleton ht

end Rules

/-! ## Sums -/

theorem offset_folds (hfind : FoldsBelow J A finds s) (n : α) {t : Term α} (ht : t.IsGround)
    (h : t.size.cost < s.cost) : Settles J A (fun depth => offset (finds depth) n t) AllNumbers := by
  unfold offset
  refine .ite (fun _ => hfind t ht h) fun _ => ?_
  cases t.number? with
  | some m => exact .pure (.singleton rfl)
  | none =>
      refine (hfind t ht h).bind fun found hfound => ?_
      obtain ⟨m, hm⟩ := hfound.exists_number
      simp only [hm]
      exact .pure (.singleton rfl)

theorem mergeSummands_folds (hfind : FoldsBelow J A finds s) (pos : 0 < s.sums) {ts : List (Term α)}
    (h : ∀ t ∈ ts, t.Summand s) : Settles J A (fun depth => mergeSummands (finds depth) ts) fun m =>
      (∀ us, m.settled = some us → AllNumbers us) ∧
        (m.settled = none → ∀ t ∈ m.rest, t.Summand s) := by
  unfold mergeSummands
  have hothers : ∀ t ∈ others ts, t.Summand s := fun t ht => h t (List.mem_filter.1 ht).1
  match others ts, hothers with
  | [], _ => exact .pure ⟨fun us hus => Option.some.inj hus ▸ .singleton rfl, nofun⟩
  | t :: ts, hothers =>
      have collected := collectOrZero_summand pos hothers
      simp only
      match collectOrZero (t :: ts), collected with
      | [only], collected =>
          have honly := collected only List.mem_cons_self
          refine (offset_folds hfind _ honly.shallow.ground honly.cost_lt).bind fun us hus => ?_
          exact .pure ⟨fun vs hvs => Option.some.inj hvs ▸ hus, nofun⟩
      | [], collected => exact .pure ⟨nofun, fun _ => collected⟩
      | _ :: _ :: _, collected => exact .pure ⟨nofun, fun _ => collected⟩

theorem mergeSummands_of_numbers {ts : List (Term α)} (h : ∀ t ∈ ts, t.isNumber = true) :
    ∃ m : Merged α, (∃ n, m.settled = some [.num n]) ∧ ∀ find, mergeSummands find ts = pure m := by
  have none : others ts = [] := List.filter_eq_nil_iff.2 fun t ht => by rw [h t ht]; decide
  simp only [mergeSummands, none]
  exact ⟨_, ⟨_, rfl⟩, fun _ => rfl⟩

/-- The first combination of numbers settles a sum. -/
theorem combineSummands_of_numbers [Scalar.Legible α] (rule : FactoringRule α) (n : α)
    {combos : List (List (Term α))} (hne : combos ≠ [])
    (h : ∀ combo ∈ combos, ∀ t ∈ combo, t.isNumber = true) :
    ∃ ts, AllNumbers ts ∧ ∀ find simplify,
      combineSummands rule find simplify n [] combos = pure (.settled ts) := by
  cases combos with
  | nil => exact absurd rfl hne
  | cons combo combos =>
      have numbers : ∀ t ∈ .num n :: combo, t.isNumber = true :=
        List.forall_mem_cons.2 ⟨rfl, h combo List.mem_cons_self⟩
      obtain ⟨m, ⟨k, hk⟩, hm⟩ := mergeSummands_of_numbers numbers
      refine ⟨[finishSum (num k)], .singleton (finishSum_isNumber rfl), fun find simplify => ?_⟩
      rw [combineSummands, hm, pure_bind, hk]
      rfl

section Rules

variable (hfind : FoldsBelow J A finds s)

include hfind

/-- A sum of ground summands folds if it is no larger than a term of the given size. -/
theorem sum_folds [Scalar.Legible α] (rule : FactoringRule α)
    (simplify : ℕ → Term α → Search α (Term α)) {l r : Term α} (ground : (bin .add l r).IsGround)
    (hdepth : (bin .add l r).size.depth ≤ s.depth) (hsums : (bin .add l r).size.sums ≤ s.sums) :
    Settles J A (fun depth => sum rule (finds depth) (simplify depth) (bin .add l r))
      AllNumbers := by
  have pos : 0 < s.sums := (Nat.succ_pos _).trans_le hsums
  have summands := summands_of_operands ground hdepth hsums
  refine (mergeSummands_folds hfind pos summands).bind fun merged hmerged => ?_
  have finish (us : List (Term α)) (hus : AllNumbers us) : AllNumbers (us.map finishSum) := by
    refine ⟨fun empty => hus.1 (List.map_eq_nil_iff.1 empty), fun t ht => ?_⟩
    obtain ⟨u, hu, rfl⟩ := List.mem_map.1 ht
    exact finishSum_isNumber (hus.2 u hu)
  cases hsettled : merged.settled with
  | some us => exact .pure (finish us (hmerged.1 us hsettled))
  | none =>
      have rest := hmerged.2 hsettled
      refine (mapM_folds hfind fun t ht => ⟨(rest t ht).shallow.ground, (rest t ht).cost_lt⟩).bind
        fun found hfound => ?_
      obtain ⟨hne, hcombos⟩ := combinations_of_numbers hfound
      obtain ⟨us, hus, hcombine⟩ := combineSummands_of_numbers rule merged.number hne hcombos
      simp only [hcombine, pure_bind]
      exact .pure hus

theorem difference_folds [Scalar.Legible α] (rule : FactoringRule α)
    (simplify : ℕ → Term α → Search α (Term α)) {l r : Term α} (ground : (bin .sub l r).IsGround)
    (size : (bin .sub l r).size = s) :
    Settles J A (fun depth => difference rule (finds depth) (simplify depth) l r) AllNumbers :=
  sum_folds hfind rule simplify ground (size ▸ le_refl _) (size ▸ le_refl _)

end Rules

end Search

end AlgebraicTerms
