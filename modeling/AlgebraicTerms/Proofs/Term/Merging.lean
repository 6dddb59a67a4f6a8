import AlgebraicTerms.Proofs.Term.Size
import AlgebraicTerms.Search.Product
import Mathlib.Algebra.Order.BigOperators.Group.List

/-!
# Merging ground terms

Merging factors is where terms get smaller only in their measure.  A product may be as heavy as its
factors together, less `5` for each and with `5` to spare.  Two factors that are merged leave one that
is at least `5` lighter than both.  Like terms are added to a term with no more sums than one of them.
-/

namespace AlgebraicTerms

namespace Term

variable {α : Type} [Scalar α]

/-- The weight of a factor that counts for the load of a product. -/
def bulk (t : Term α) : ℕ := t.size.weight - 5

def totalBulk (ts : List (Term α)) : ℕ := (ts.map bulk).sum

/-- A ground term whose exponents are nested no deeper than those of a term of the given size. -/
structure Shallow (s : Size) (t : Term α) : Prop where
  ground : t.IsGround
  depth : t.size.depth ≤ s.depth

/-- What factors are merged into: they have no more sums and no more bulk. -/
structure MergesInto (s : Size) (ts us : List (Term α)) : Prop where
  shallow : ∀ u ∈ us, u.Shallow s
  sums : totalSums us ≤ totalSums ts
  bulk : totalBulk us ≤ totalBulk ts

/-- Factors that are light enough for a product of the given size. -/
structure FitInto (s : Size) (ts : List (Term α)) : Prop where
  shallow : ∀ t ∈ ts, t.Shallow s
  sums : totalSums ts ≤ s.sums
  bulk : totalBulk ts + 5 < s.load

variable {s : Size} {t u : Term α} {ts us : List (Term α)}

theorem MergesInto.refl (h : ∀ t ∈ ts, t.Shallow s) : MergesInto s ts ts :=
  ⟨h, le_refl _, le_refl _⟩

theorem MergesInto.trans {vs : List (Term α)} (h : MergesInto s ts us) (h' : MergesInto s us vs) :
    MergesInto s ts vs :=
  ⟨h'.shallow, h'.sums.trans h.sums, h'.bulk.trans h.bulk⟩

theorem FitInto.merge (h : FitInto s ts) (h' : MergesInto s ts us) : FitInto s us :=
  ⟨h'.shallow, h'.sums.trans h.sums, (Nat.add_le_add_right h'.bulk 5).trans_lt h.bulk⟩

theorem totalBulk_cons (t : Term α) (ts : List (Term α)) :
    totalBulk (t :: ts) = t.bulk + totalBulk ts := rfl

theorem totalSums_cons (t : Term α) (ts : List (Term α)) :
    totalSums (t :: ts) = t.size.sums + totalSums ts := rfl

theorem totalBulk_append (ts us : List (Term α)) :
    totalBulk (ts ++ us) = totalBulk ts + totalBulk us := by
  rw [totalBulk, List.map_append, List.sum_append, totalBulk, totalBulk]

theorem bulk_le (t : Term α) : t.size.load ≤ t.bulk + 5 := by
  have hload := load_le_weight t
  rw [bulk]
  omega

/-- The factors before those that are merged may be merged already. -/
theorem MergesInto.append_left {vs : List (Term α)} (h : MergesInto s ts us)
    (hvs : ∀ v ∈ vs, v.Shallow s) : MergesInto s (vs ++ ts) (vs ++ us) := by
  refine ⟨List.forall_mem_append.2 ⟨hvs, h.shallow⟩, ?_, ?_⟩
  · rw [totalSums_append, totalSums_append]
    exact Nat.add_le_add_left h.sums _
  · rw [totalBulk_append, totalBulk_append]
    exact Nat.add_le_add_left h.bulk _

theorem FitInto.sublist (h : FitInto s ts) (hus : us.Sublist ts) : FitInto s us := by
  have hsums : totalSums us ≤ totalSums ts := (hus.map _).sum_le_sum fun _ _ => Nat.zero_le _
  have hbulk : totalBulk us ≤ totalBulk ts := (hus.map _).sum_le_sum fun _ _ => Nat.zero_le _
  exact ⟨fun u hu => h.shallow u (hus.subset hu), hsums.trans h.sums,
    (Nat.add_le_add_right hbulk 5).trans_lt h.bulk⟩

theorem FitInto.cost_lt (h : FitInto s ts) (ht : t ∈ ts) : t.size.cost < s.cost := by
  have hs := h.sums
  have hb := h.bulk
  have hsums : t.size.sums ≤ totalSums ts :=
    List.le_sum_of_mem (List.mem_map_of_mem (f := (·.size.sums)) ht)
  have hbulk : t.bulk ≤ totalBulk ts := List.le_sum_of_mem (List.mem_map_of_mem (f := Term.bulk) ht)
  have hload := bulk_le t
  exact Size.cost_lt_of_load (h.shallow t ht).depth (by omega) (by omega)

/-! ## Trigonometric identities -/

omit [Scalar α] in
theorem eq_of_poweredCall? {k : Keyword} {x m : Term α} (h : t.poweredCall? k = some (x, m)) :
    t = bin .pow (call k x) m := by
  cases t with
  | bin op l r =>
      cases op with
      | pow =>
          cases l with
          | call called argument =>
              simp only [poweredCall?, power?, call?, Option.bind_eq_bind, Option.bind_some] at h
              split at h
              · cases h
                subst called
                rfl
              · cases h
          | _ => cases h
      | _ => cases h
  | _ => cases h

/-- What a sine and a cosine merge into. -/
theorem eq_of_sineOverCosine? {a b : Term α} (h : sineOverCosine? a b = some t) :
    ∃ x m y n, a = bin .pow (call .sin x) m ∧ b = bin .pow (call .cos y) n ∧
      t = bin .pow (call .tan x) m := by
  simp only [sineOverCosine?, Option.bind_eq_bind, Option.bind_eq_some_iff] at h
  obtain ⟨⟨x, m⟩, hsin, ⟨y, n⟩, hcos, h⟩ := h
  split at h
  · cases h
    exact ⟨x, m, y, n, eq_of_poweredCall? hsin, eq_of_poweredCall? hcos, rfl⟩
  · cases h

theorem sineOverCosine?_of_identityProduct? {a b : Term α} (h : identityProduct? a b = some t) :
    sineOverCosine? a b = some t ∨ sineOverCosine? b a = some t := by
  have either {a b : Term α} (h : trigonometricProduct? a b = some t) :
      sineOverCosine? a b = some t ∨ sineOverCosine? b a = some t :=
    ((Option.orElse_eq_some _ _ _).1 h).imp_right (·.2)
  rw [identityProduct?] at h
  split at h
  · exact either h
  · split at h
    · exact (either h).symm
    · cases h

theorem eq_of_identitySum? {a b : Term α} (h : identitySum? a b = some t) :
    t = num Scalar.one := by
  have squares {a b : Term α} (h : squaresSum? a b = some t) : t = num Scalar.one := by
    simp only [squaresSum?, Option.bind_eq_bind, Option.bind_eq_some_iff] at h
    obtain ⟨_, _, _, _, h⟩ := h
    split at h
    · exact (Option.some.inj h).symm
    · cases h
  have either {a b : Term α} (h : trigonometricSum? a b = some t) : t = num Scalar.one :=
    ((Option.orElse_eq_some _ _ _).1 h).elim squares fun h => squares h.2
  rw [identitySum?] at h
  split at h
  · exact either h
  · split at h
    · exact either h
    · cases h

/-! ## Merged factors -/

theorem Shallow.power (h : (bin .pow t u).Shallow s) :
    t.IsGround ∧ u.IsGround ∧ t.size.depth ≤ s.depth ∧ u.size.depth < s.depth :=
  ⟨h.ground.1, h.ground.2, (le_max_left _ _).trans h.depth, (le_max_right _ _).trans h.depth⟩

theorem power_bulk (t u : Term α) : (bin .pow t u).bulk = t.size.load + u.size.exponentLoad - 5 :=
  rfl

variable {base base' m n : Term α}

/-- What two factors may be merged into. -/
structure Replaces (s : Size) (a b t : Term α) : Prop where
  shallow : t.Shallow s
  sums : t.size.sums ≤ a.size.sums + b.size.sums
  bulk : t.bulk ≤ a.bulk + b.bulk

theorem Replaces.symm {a b : Term α} (h : Replaces s a b t) : Replaces s b a t :=
  ⟨h.shallow, Nat.add_comm a.size.sums _ ▸ h.sums, Nat.add_comm a.bulk _ ▸ h.bulk⟩

theorem replaces_tangent {a b : Term α} (h : sineOverCosine? a b = some t) (ha : a.Shallow s) :
    Replaces s a b t := by
  obtain ⟨x, m, y, n, rfl, rfl, rfl⟩ := eq_of_sineOverCosine? h
  exact ⟨⟨ha.ground, ha.depth⟩, Nat.le_add_right _ _, Nat.le_add_right _ _⟩

theorem replaces_same_base (ha : (bin .pow base m).Shallow s) {e : Term α}
    (he : e.isNumber = true) :
    Replaces s (bin .pow base m) (bin .pow base' n) (bin .pow base e) := by
  obtain ⟨hbase, _, hdepth, hexponent⟩ := ha.power
  obtain ⟨hd, hs, hw, _⟩ := size_of_isNumber he
  refine ⟨⟨⟨hbase, isNumber_ground he⟩, max_le hdepth ?_⟩, ?_, ?_⟩
  · show e.size.depth + 1 ≤ s.depth
    omega
  · show base.size.sums + e.size.sums ≤ base.size.sums + m.size.sums + _
    omega
  · have hload := load_le_weight e
    have light := exponentLoad_le e
    have own := exponentLoad_pos m
    have other := thirteen_le_load base'
    have pos := exponentLoad_pos n
    have hbaseLoad := thirteen_le_load base
    simp only [power_bulk]
    omega

theorem replaces_same_exponent (ha : (bin .pow base m).Shallow s) {p : Term α}
    (hp : p.isNumber = true) (hn : 7 ≤ n.size.exponentLoad) :
    Replaces s (bin .pow base m) (bin .pow base' n) (bin .pow p m) := by
  obtain ⟨_, hm, _, hexponent⟩ := ha.power
  obtain ⟨hd, hs, hw, _⟩ := size_of_isNumber hp
  refine ⟨⟨⟨isNumber_ground hp, hm⟩, max_le (hd ▸ Nat.zero_le _) hexponent⟩, ?_, ?_⟩
  · show p.size.sums + m.size.sums ≤ base.size.sums + m.size.sums + _
    omega
  · have hload := load_le_weight p
    have hbaseLoad := thirteen_le_load base
    have hbaseLoad' := thirteen_le_load base'
    simp only [power_bulk]
    omega

theorem replaces_opposite_exponents (ha : (bin .pow base m).Shallow s)
    (hb : (bin .pow base' n).Shallow s) (hm : 7 ≤ m.size.exponentLoad) :
    Replaces s (bin .pow base m) (bin .pow base' n) (bin .pow (bin .div base' base) n) := by
  obtain ⟨hbase, _, hdepth, hexponent⟩ := ha.power
  obtain ⟨hbase', hn, hdepth', hexponent'⟩ := hb.power
  refine ⟨⟨⟨⟨hbase', hbase⟩, hn⟩, max_le (max_le (max_le hdepth' hdepth) ?_) hexponent'⟩, ?_, ?_⟩
  · exact (Nat.succ_le_succ (Nat.zero_le _)).trans hexponent'
  · show base'.size.sums + base.size.sums + n.size.sums ≤
      base.size.sums + m.size.sums + (base'.size.sums + n.size.sums)
    omega
  · have quotient : (bin .div base' base).size.load =
        base'.size.load + base'.size.isCall.toNat + (base.size.load + base.size.isCall.toNat) := rfl
    have hcall := Bool.toNat_le base.size.isCall
    have hcall' := Bool.toNat_le base'.size.isCall
    have hbaseLoad := thirteen_le_load base
    have hbaseLoad' := thirteen_le_load base'
    simp only [power_bulk]
    omega

/-- The product of two bases is lighter than the factors if their exponents are no units. -/
theorem bases_lighter (hm : 7 ≤ m.size.exponentLoad) (hn : 7 ≤ n.size.exponentLoad) :
    (bin .mul base base').size.load < (bin .pow base m).bulk + (bin .pow base' n).bulk + 5 := by
  have product : (bin .mul base base').size.load =
      base.size.load + base.size.isCall.toNat + (base'.size.load + base'.size.isCall.toNat) := rfl
  have hcall := Bool.toNat_le base.size.isCall
  have hcall' := Bool.toNat_le base'.size.isCall
  simp only [power_bulk]
  omega

/-! ## Like terms -/

/-- A term that can be a summand of a sum of the given size. -/
structure Summand (s : Size) (t : Term α) : Prop where
  shallow : t.Shallow s
  sums : t.size.sums < s.sums

theorem Summand.cost_lt (h : t.Summand s) : t.size.cost < s.cost :=
  Size.cost_lt_of_sums h.shallow.depth h.sums

theorem summand_of_isNumber (pos : 0 < s.sums) (h : t.isNumber = true) : t.Summand s := by
  obtain ⟨hd, hs, _⟩ := size_of_isNumber h
  exact ⟨⟨isNumber_ground h, hd ▸ Nat.zero_le _⟩, hs ▸ pos⟩

/-- The factors of a summand without its numbers. -/
theorem Summand.product (h : t.Summand s) : (Monomial.of t).product.Summand s := by
  have pos : 0 < s.sums := (Nat.zero_le _).trans_lt h.sums
  have factors : (Monomial.of t).factors = others (t.operandsIn .product) := rfl
  rw [Monomial.product, factors]
  by_cases hne : others (t.operandsIn .product) = []
  · rw [hne]
    exact summand_of_isNumber pos rfl
  · obtain ⟨hd, hs, _⟩ := join_product_size hne
    have fewer : totalSums (others (t.operandsIn .product)) ≤ t.size.sums := by
      rw [← (totals_operandsIn t).1]
      exact (List.filter_sublist.map _).sum_le_sum fun _ _ => Nat.zero_le _
    refine ⟨⟨join_ground (others_ground (operandsIn_ground h.shallow.ground)), hd _ fun u hu => ?_⟩,
      (hs.trans fewer).trans_lt h.sums⟩
    exact ((factorsOf_operandsIn t).depth u (List.mem_filter.1 hu).1).trans h.shallow.depth

theorem Summand.scaled (h : t.Summand s) (c : α) : (bin .mul (num c) t).Summand s := by
  obtain ⟨hd, hs, _⟩ := size_of_isNumber (t := num c) rfl
  refine ⟨⟨⟨trivial, h.shallow.ground⟩, max_le (hd ▸ Nat.zero_le _) h.shallow.depth⟩, ?_⟩
  show (num c).size.sums + t.size.sums < s.sums
  rw [hs, Nat.zero_add]
  exact h.sums

/-- A pile whose sum is a summand, with any coefficient. -/
structure Pile.Summand (s : Size) (p : Pile α) : Prop where
  sum : ∀ t ∈ p.sum, t.Summand s
  product : p.monomial.product.Summand s

theorem Pile.of_summand (h : t.Summand s) : (Pile.of t).Summand s :=
  ⟨fun _ hu => Option.some.inj hu ▸ h, h.product⟩

theorem Pile.Summand.add? {p q : Pile α} (hp : p.Summand s) (hq : p.add? t = some q) :
    q.Summand s := by
  have pos : 0 < s.sums := (Nat.zero_le _).trans_lt hp.product.sums
  rw [Pile.add?] at hq
  split at hq
  · rename_i sum hsum
    obtain ⟨u, _, hid⟩ := Option.bind_eq_some_iff.1 hsum
    cases hq
    rw [eq_of_identitySum? hid]
    exact Pile.of_summand (summand_of_isNumber pos rfl)
  · simp only at hq
    split at hq
    · cases hq
      exact ⟨fun _ hu => Option.some.inj hu ▸ summand_of_isNumber pos rfl, hp.product⟩
    · split at hq
      · cases hq
        refine ⟨fun u hu => ?_, hp.product⟩
        split at hu
        · cases hu
        · exact Option.some.inj hu ▸ hp.product.scaled _
      · cases hq
    · cases hq

theorem Pile.Summand.addAll {p : Pile α} (hp : p.Summand s) (h : ∀ t ∈ ts, t.Summand s) :
    ∀ t ∈ (p.addAll ts).1.toList ++ (p.addAll ts).2, t.Summand s := by
  induction ts generalizing p with
  | nil =>
      intro t ht
      rw [Pile.addAll, List.append_nil] at ht
      exact hp.sum t (Option.mem_toList.1 ht)
  | cons u ts ih =>
      have hts : ∀ t ∈ ts, t.Summand s := fun t ht => h t (List.mem_cons_of_mem _ ht)
      rw [Pile.addAll]
      cases hq : p.add? u with
      | some q => exact ih (hp.add? hq) hts
      | none =>
          intro t ht
          rcases List.mem_append.1 ht with ht | ht
          · exact ih hp hts t (List.mem_append_left _ ht)
          · rcases List.mem_cons.1 ht with rfl | ht
            · exact h t List.mem_cons_self
            · exact ih hp hts t (List.mem_append_right _ ht)

theorem collectOrZero_summand (pos : 0 < s.sums) (h : ∀ t ∈ ts, t.Summand s) :
    ∀ t ∈ collectOrZero ts, t.Summand s := by
  have within (piles : ℕ) : ∀ t ∈ collectWithin piles ts, t.Summand s := by
    induction piles generalizing ts with
    | zero => exact h
    | succ piles ih =>
        cases ts with
        | nil => exact nofun
        | cons u us =>
            have all := (Pile.of_summand (h u List.mem_cons_self)).addAll
              fun t ht => h t (List.mem_cons_of_mem _ ht)
            intro t ht
            rw [collectWithin] at ht
            rcases List.mem_append.1 ht with ht | ht
            · exact all t (List.mem_append_left _ ht)
            · exact ih (fun t ht => all t (List.mem_append_right _ ht)) t ht
  rw [collectOrZero]
  split
  · intro t ht
    exact List.eq_of_mem_singleton ht ▸ summand_of_isNumber pos rfl
  · exact within _

section

variable [Scalar.Legible α]

/-- The operands of a sum, once their negations are written as products. -/
theorem summands_of_operands {l r : Term α} (ground : (bin .add l r).IsGround)
    (hdepth : (bin .add l r).size.depth ≤ s.depth) (hsums : (bin .add l r).size.sums ≤ s.sums) :
    ∀ t ∈ (bin .add l r).withExponents.operands.map negationsAsProducts, t.Summand s := by
  have summands := summandsOf_operandsIn (bin .add l r).withExponents
  rw [withExponents_size ground] at summands
  have two : 2 ≤ ((bin .add l r).withExponents.operandsIn .sum).length := by
    have left := List.length_pos_of_ne_nil (operandsIn_ne_nil .sum l.withExponents)
    have right := List.length_pos_of_ne_nil (operandsIn_ne_nil .sum r.withExponents)
    have length := length_splice .sum .add (l.withExponents.operandsIn .sum)
      (r.withExponents.operandsIn .sum)
    show 2 ≤ (Chain.sum.splice .add _ _).length
    omega
  intro t ht
  obtain ⟨u, hu, rfl⟩ := List.mem_map.1 ht
  obtain ⟨hd, hs⟩ := negationsAsProducts_size u
  have hground := operands_ground (withExponents_ground ground) u hu
  refine ⟨⟨negationsAsProducts_ground hground, ?_⟩, ?_⟩
  · rw [hd]
    exact (summands.depth u hu).trans hdepth
  · have count := summands.count
    have own : u.size.sums ≤ totalSums ((bin .add l r).withExponents.operandsIn .sum) :=
      List.le_sum_of_mem (List.mem_map_of_mem (f := (·.size.sums)) hu)
    have sums : (bin .add l r).size.asFactor.sums = (bin .add l r).size.sums := rfl
    omega

variable [Scalar.Worded α]

/-! ## Factors of a product -/

theorem reciprocalsAsPowers_size {fs gs : List (Term α)} (hfs : ∀ f ∈ fs, f.Shallow s)
    (h : List.Forall₂ (fun f g => f.reciprocalAsPower = .ok g) fs gs) :
    (∀ g ∈ gs, g.Shallow s) ∧ totalSums gs ≤ totalSums fs ∧
      totalBulk gs + 3 * fs.length ≤ totalWeight fs := by
  induction h with
  | nil => exact ⟨hfs, le_refl _, le_refl _⟩
  | @cons f g fs gs hg _ ih =>
      obtain ⟨ihshallow, ihsums, ihbulk⟩ := ih fun f hf => hfs f (List.mem_cons_of_mem _ hf)
      obtain ⟨hd, hs, hw⟩ := reciprocalAsPower_size hg
      have hf := hfs f List.mem_cons_self
      have heavy := thirteen_le_weight f
      refine ⟨List.forall_mem_cons.2 ⟨⟨reciprocalAsPower_ground hf.ground hg, hd.trans hf.depth⟩,
        ihshallow⟩, Nat.add_le_add hs ihsums, ?_⟩
      have total : totalWeight (f :: fs) = f.size.weight + totalWeight fs := rfl
      rw [totalBulk_cons, total, List.length_cons, bulk]
      omega

/-- The factors of a product are light enough, since there are at least two. -/
theorem fitInto_of_reciprocals {l r : Term α} {gs : List (Term α)}
    (ground : (bin .mul l r).IsGround) (hdepth : (bin .mul l r).size.depth ≤ s.depth)
    (hsums : (bin .mul l r).size.sums ≤ s.sums) (hload : (bin .mul l r).size.load ≤ s.load)
    (hgs : List.Forall₂ (fun f g => f.reciprocalAsPower = .ok g)
      (bin .mul l r).withExponents.operands gs) : FitInto s gs := by
  have size := withExponents_size ground
  have products := factorsOf_operandsIn (bin .mul l r).withExponents
  obtain ⟨totalS, totalW⟩ := totals_operandsIn (bin .mul l r).withExponents
  rw [size] at products totalS totalW
  have two : 2 ≤ ((bin .mul l r).withExponents.operandsIn .product).length := by
    have left := List.length_pos_of_ne_nil (operandsIn_ne_nil .product l.withExponents)
    have right := List.length_pos_of_ne_nil (operandsIn_ne_nil .product r.withExponents)
    have length := length_splice .product .mul (l.withExponents.operandsIn .product)
      (r.withExponents.operandsIn .product)
    show 2 ≤ (Chain.product.splice .mul _ _).length
    omega
  have shallow : ∀ f ∈ (bin .mul l r).withExponents.operands, f.Shallow s := fun f hf =>
    ⟨operands_ground (withExponents_ground ground) f hf, (products.depth f hf).trans hdepth⟩
  obtain ⟨hshallow, hs, hb⟩ := reciprocalsAsPowers_size shallow hgs
  have operands : (bin .mul l r).withExponents.operands =
      (bin .mul l r).withExponents.operandsIn .product := rfl
  have sums : (bin .mul l r).size.asFactor.sums = (bin .mul l r).size.sums := rfl
  have weight : (bin .mul l r).size.asFactor.weight = (bin .mul l r).size.load := rfl
  rw [operands] at hs hb
  exact ⟨hshallow, by omega, by omega⟩

/-! ## Units as exponents -/

theorem exponentLoad_of_not_isUnitExponent (h : Search.isUnitExponent m = false) :
    7 ≤ m.size.exponentLoad := by
  have unit (h' : m.size.isOne = true ∨ m.size.isNegOne = true) :
      Search.isUnitExponent m = true := by
    rw [Search.isUnitExponent, Bool.or_eq_true, reads_iff, reads_iff]
    exact text_of_isUnit h'
  have hone : m.size.isOne = false :=
    Bool.eq_false_iff.2 fun hone => Bool.eq_false_iff.1 h (unit (.inl hone))
  have hneg : m.size.isNegOne = false :=
    Bool.eq_false_iff.2 fun hneg => Bool.eq_false_iff.1 h (unit (.inr hneg))
  rw [exponentLoad_of_not_isUnit hone hneg]
  exact Nat.le_add_left 7 _

end

/-- The opposite of an exponent is a unit only if the exponent is one. -/
theorem isUnitExponent_of_opposite (h : (m == inv .neg n) = true)
    (hm : Search.isUnitExponent m = true) : Search.isUnitExponent n = true := by
  have opposite : m.text.toList = '-' :: (parenthesized (n.isSum || n.leadsMinus) n.text).toList := by
    rw [beq_iff.1 h, text, String.toList_append]
    rfl
  rw [Search.isUnitExponent, Bool.or_eq_true, reads_iff, reads_iff] at hm ⊢
  rcases hm with hm | hm
  · rw [hm] at opposite
    cases opposite
  · rw [hm] at opposite
    refine .inl (String.toList_inj.1 ?_)
    cases needed : n.isSum || n.leadsMinus with
    | true =>
        rw [needed, parenthesized, if_pos rfl, String.toList_append, String.toList_append] at opposite
        cases opposite
    | false =>
        rw [needed] at opposite
        exact (List.cons.inj opposite).2.symm

end Term

end AlgebraicTerms
