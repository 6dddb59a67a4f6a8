import AlgebraicTerms.Proofs.Search.Product
import AlgebraicTerms.Search.Binomial
import Mathlib.Tactic.Ring

/-!
# Binomial squares are written soundly

Two squares and the summand that holds their mixed term are three different summands, so they can be
taken out of the sum together.
-/

namespace AlgebraicTerms.Search

variable {α : Type} [Scalar α]

/-! ## Positions of summands -/

omit [Scalar α] in
theorem pairs_of_pairwise {R : α → α → Prop} {xs : List α} (h : xs.Pairwise R) {p : α × α}
    (hp : p ∈ pairs xs) : p.1 ∈ xs ∧ p.2 ∈ xs ∧ R p.1 p.2 := by
  induction h with
  | nil => cases hp
  | cons hx _ ih =>
      rcases List.mem_append.1 hp with hp | hp
      · obtain ⟨y, hy, rfl⟩ := List.mem_map.1 hp
        exact ⟨List.mem_cons_self, List.mem_cons_of_mem _ hy, hx y hy⟩
      · obtain ⟨hl, hr, h⟩ := ih hp
        exact ⟨List.mem_cons_of_mem _ hl, List.mem_cons_of_mem _ hr, h⟩

omit [Scalar α] in
theorem zipIdx_pairwise (xs : List α) : xs.zipIdx.Pairwise fun p q => p.2 ≠ q.2 := by
  have indices : (xs.zipIdx.map Prod.snd).Nodup := by
    rw [List.zipIdx_map_snd]
    exact List.nodup_range'
  exact List.pairwise_map.1 indices

theorem squares_pairwise (products : List (List (Term α))) :
    (squares products).Pairwise fun a b => a.index ≠ b.index := by
  refine List.pairwise_filterMap.2 ((zipIdx_pairwise products).imp fun {p q} hne => ?_)
  intro a ha b hb
  obtain ⟨_, _, rfl⟩ := Option.map_eq_some_iff.1 ha
  obtain ⟨_, _, rfl⟩ := Option.map_eq_some_iff.1 hb
  exact hne

omit [Scalar α] in
/-- Three elements taken out of a list. -/
theorem perm_three {xs : List α} {i j k : ℕ} {x y z : α} (hx : xs[i]? = some x)
    (hy : xs[j]? = some y) (hz : xs[k]? = some z) (hij : i ≠ j) (hik : k ≠ i) (hjk : k ≠ j) :
    xs.Perm (x :: y :: z :: xs.zipIdx.filterMap fun (t, l) =>
      if l = i ∨ l = j ∨ l = k then none else some t) := by
  let taken (p : α × ℕ) : Bool := decide (p.2 = i ∨ p.2 = j ∨ p.2 = k)
  have out : (xs.zipIdx.filter taken).Perm [(x, i), (y, j), (z, k)] := by
    have nodup : xs.zipIdx.Nodup :=
      (zipIdx_pairwise xs).imp fun hne same => hne (congrArg Prod.snd same)
    refine (List.perm_ext_iff_of_nodup (nodup.filter _) (by simp [hij, hik.symm, hjk.symm])).2 ?_
    intro p
    obtain ⟨t, l⟩ := p
    rw [List.mem_filter, List.mk_mem_zipIdx_iff_getElem?, decide_eq_true_iff]
    simp only [List.mem_cons, Prod.mk.injEq, List.not_mem_nil, or_false]
    constructor
    · rintro ⟨ht, rfl | rfl | rfl⟩
      · exact .inl ⟨Option.some.inj (ht.symm.trans hx), rfl⟩
      · exact .inr (.inl ⟨Option.some.inj (ht.symm.trans hy), rfl⟩)
      · exact .inr (.inr ⟨Option.some.inj (ht.symm.trans hz), rfl⟩)
    · rintro (⟨rfl, rfl⟩ | ⟨rfl, rfl⟩ | ⟨rfl, rfl⟩)
      · exact ⟨hx, .inl rfl⟩
      · exact ⟨hy, .inr (.inl rfl)⟩
      · exact ⟨hz, .inr (.inr rfl)⟩
  have left : (xs.zipIdx.filter fun p => !taken p).map Prod.fst = xs.zipIdx.filterMap
      fun (t, l) => if l = i ∨ l = j ∨ l = k then none else some t := by
    rw [← List.filterMap_eq_filter, List.map_filterMap]
    refine congrArg (xs.zipIdx.filterMap ·) (funext fun p => ?_)
    by_cases h : p.2 = i ∨ p.2 = j ∨ p.2 = k
    · simp only [taken, Option.guard, h, if_pos, decide_true, Bool.not_true, Option.map_if]
      rfl
    · simp only [taken, Option.guard, h, decide_false, Bool.not_false]
      rfl
  have whole := (List.filter_append_perm taken xs.zipIdx).symm.map Prod.fst
  rw [List.zipIdx_map_fst, List.map_append, left] at whole
  exact whole.trans ((out.map Prod.fst).append_right _)

variable [Scalar.Exact α] {K : Type*} [Field K] [CharZero K] {ρ : Assignment K}
  {t u : Term α} {ts us factors square : List (Term α)} {a b : K}

/-! ## Roots -/

/-- Whether a square stands among the summands, with the given root. -/
structure Square.Makes (s : Square α) (ts : List (Term α)) (ρ : Assignment K) (r : K) : Prop where
  roots : Chain.product.Total ρ s.roots r
  summand : ∃ t, ts[s.index]? = some t ∧ t.HasValue ρ (r ^ 2)

omit [Scalar.Exact α] in
theorem squareFactors?_some (h : squareFactors? factors = some square) :
    square = .num (Term.productOfNumbers factors) :: Term.others factors ∧
      Scalar.isNegative (Term.productOfNumbers factors) = false ∧
      Scalar.isInteger (Scalar.sqrt (Term.productOfNumbers factors) * Scalar.ofNat 1000) = true ∧
      ∀ t ∈ Term.others factors, t.power?.any (fun (_, e) => e.reads "2") = true := by
  simp only [squareFactors?] at h
  split at h
  · cases h
  · rename_i sign
    split at h
    · cases h
    · rename_i exact
      split at h
      · rename_i powers
        cases h
        refine ⟨rfl, ?_, ?_, List.all_eq_true.1 powers⟩
        · exact (Bool.or_eq_false_iff.1 (Bool.eq_false_iff.2 sign)).1
        · rwa [Bool.not_eq_true', Bool.not_eq_false] at exact
      · cases h

theorem squareRoot_hasValue [Scalar.Legible α] (h : t.HasValue ρ a)
    (hpower : t.power?.any (fun (_, e) => e.reads "2") = true) :
    ∃ r, (squareRoot t).HasValue ρ r ∧ a = r ^ 2 := by
  cases hp : t.power? with
  | none =>
      rw [hp] at hpower
      cases hpower
  | some p =>
      obtain ⟨base, exponent⟩ := p
      obtain rfl := Term.eq_pow_of_power? hp
      have two : exponent.reads "2" = true := by
        rw [hp] at hpower
        exact hpower
      obtain ⟨x, k, hx, hk, _, rfl⟩ := h.exists_of_pow
      have value := hk.eq_two two
      have twice : k = 2 := by exact_mod_cast value
      refine ⟨x, ?_, by rw [twice]; exact zpow_ofNat x 2⟩
      have number : Scalar.Exact.value (exponent.number?.getD Scalar.two) = 2 := by
        cases hn : exponent.number? with
        | none => exact Scalar.value_two
        | some n =>
            have same := hk.of_number? hn
            rw [value, Scalar.toField] at same
            exact_mod_cast same.symm
      have half : Scalar.Exact.value (exponent.number?.getD Scalar.two / Scalar.two) = (1 : ℕ) := by
        rw [Scalar.Exact.value_div _ _ (by rw [Scalar.value_two]; decide), number,
          Scalar.value_two]
        norm_num
      have root := hx.pow_literal half Nat.one_pos
      rwa [pow_one] at root

/-- The roots of the factors of a square multiply to its root. -/
theorem squareRoots_total [Scalar.Legible α] (h : Chain.product.Total ρ factors a)
    (hsquare : squareFactors? factors = some square) :
    ∃ r, Chain.product.Total ρ (square.map squareRoot) r ∧ a = r ^ 2 := by
  have powers {ts : List (Term α)} {b : K} (hts : Chain.product.Total ρ ts b)
      (hpowers : ∀ t ∈ ts, t.power?.any (fun (_, e) => e.reads "2") = true) :
      ∃ r, Chain.product.Total ρ (ts.map squareRoot) r ∧ b = r ^ 2 := by
    induction hts with
    | nil => exact ⟨1, .nil, (one_pow 2).symm⟩
    | @cons t ts c d ht _ ih =>
        obtain ⟨r, hr, rfl⟩ := squareRoot_hasValue ht (hpowers t List.mem_cons_self)
        obtain ⟨s, hs, rfl⟩ := ih fun t ht => hpowers t (List.mem_cons_of_mem _ ht)
        exact ⟨r * s, .cons hr hs, (mul_pow r s 2).symm⟩
  obtain ⟨rfl, sign, exact, hpowers⟩ := squareFactors?_some hsquare
  obtain ⟨b, hb, rfl⟩ := h.others
  obtain ⟨s, hs, rfl⟩ := powers hb hpowers
  refine ⟨_, .cons (.num (Scalar.sqrt (Term.productOfNumbers factors))) hs, ?_⟩
  have number : (Scalar.toField (Scalar.sqrt (Term.productOfNumbers factors)) : K) ^ 2 =
      Scalar.toField (Chain.product.number factors) := by
    rw [Scalar.toField, ← Rat.cast_pow, Scalar.Exact.value_sqrt sign exact]
    rfl
  rw [Chain.combine, Chain.combine, mul_pow, number]

variable [Scalar.Legible α]

theorem squares_make {s : Square α} (h : Chain.sum.Total ρ ts a)
    (hs : s ∈ squares (ts.map Term.factors)) : ∃ r, s.Makes ts ρ r := by
  obtain ⟨p, hp, hs⟩ := List.mem_filterMap.1 hs
  obtain ⟨square, hsquare, rfl⟩ := Option.map_eq_some_iff.1 hs
  rw [List.mem_zipIdx_iff_getElem?, List.getElem?_map] at hp
  obtain ⟨t, ht, hfactors⟩ := Option.map_eq_some_iff.1 hp
  obtain ⟨b, hb⟩ := h.exists_value (List.mem_of_getElem? ht)
  rw [← hfactors] at hsquare
  obtain ⟨r, hr, rfl⟩ := squareRoots_total (Term.factors_total hb) hsquare
  exact ⟨r, hr, t, ht, hb⟩

variable {J : Cache α → Prop} {A : List String} {find : Finder α}
  {simplify : Term α → Search α (Term α)} {s s' : Square α} {r r' : K} {mixed : Term α}

/-- Whether simplifying keeps values. -/
def Simplifies (J : Cache α → Prop) (A : List String) (ρ : Assignment K)
    (simplify : Term α → Search α (Term α)) : Prop :=
  ∀ (t : Term α) (a : K), t.HasValue ρ a → Ensures J A (simplify t) fun u => u.HasValue ρ a

theorem doubleProduct_hasValue (hfind : Finds J A ρ find)
    (hs : Chain.product.Total ρ s.roots r) (hs' : Chain.product.Total ρ s'.roots r') :
    Ensures J A (doubleProduct find s s') fun t => t.HasValue ρ (2 * r * r') := by
  have two : (Term.num (Scalar.two : α)).HasValue ρ (2 : K) := by
    have h : (Term.num (Scalar.two : α)).HasValue ρ (Scalar.toField (Scalar.two : α) : K) := .num _
    rwa [Scalar.toField, Scalar.value_two, Rat.cast_ofNat] at h
  have factors : Chain.product.Total ρ (.num Scalar.two :: s.roots ++ s'.roots) (2 * r * r') :=
    (Chain.Total.cons two hs).append hs'
  refine (mergeFactors_makes hfind factors).bind fun merged hmerged => ?_
  rw [Merged.Makes] at hmerged
  split
  · rename_i settled hsettled
    rw [hsettled] at hmerged
    exact .pure (hmerged.head _)
  · rename_i hnone
    rw [hnone] at hmerged
    exact .pure (Term.join_hasValue hmerged)

/-- Other summands, a square, and what is left of its mixed term. -/
theorem joinSquare_hasValue {left : Term α} {c w v : K} (hus : Chain.sum.Total ρ us c)
    (hroots : u.HasValue ρ w) (hleft : left.HasValue ρ v) :
    (Chain.sum.join (us ++ .bin .pow u (.num Scalar.two) ::
      if left.reads "0" then [] else [left])).HasValue ρ (c + (w ^ 2 + v)) := by
  refine Term.join_hasValue (hus.append (.cons ?_ ?_))
  · exact hroots.pow_literal (k := 2) Scalar.value_two Nat.two_pos
  · split
    · rename_i zero
      rw [hleft.eq_zero zero]
      exact .nil
    · exact .singleton hleft

theorem completeSquare_all {summand : List (Term α) × ℕ} (hsimplify : Simplifies J A ρ simplify)
    (h : Chain.sum.Total ρ ts a) (hs : s.Makes ts ρ r) (hs' : s'.Makes ts ρ r')
    (hne : s.index ≠ s'.index) (hmixed : mixed.HasValue ρ (2 * r * r'))
    (hsummand : summand ∈ (ts.map Term.factors).zipIdx) :
    Ensures J A (completeSquare simplify ts s s' mixed summand) fun us =>
      ∀ u ∈ us, u.HasValue ρ a := by
  obtain ⟨factors, k⟩ := summand
  rw [List.mk_mem_zipIdx_iff_getElem?, List.getElem?_map] at hsummand
  obtain ⟨z, hz, rfl⟩ := Option.map_eq_some_iff.1 hsummand
  obtain ⟨x, hx, hxvalue⟩ := hs.summand
  obtain ⟨y, hy, hyvalue⟩ := hs'.summand
  have none : Ensures J A (pure [] : Search α (List (Term α))) fun us =>
      ∀ u ∈ us, u.HasValue ρ a := .pure nofun
  rw [completeSquare]
  split
  · exact none
  · rename_i other
    rw [not_or] at other
    have total := h.perm (perm_three hx hy hz hne other.1 other.2)
    cases total with
    | @cons _ _ _ _ hx' total =>
        cases total with
        | @cons _ _ _ _ hy' total =>
            cases total with
            | @cons _ _ c rest hz' hrest =>
                obtain rfl := hx'.unique hxvalue
                obtain rfl := hy'.unique hyvalue
                have term := Term.join_hasValue (Term.factors_total hz')
                have sum := Term.join_hasValue hs.roots
                have sum' := Term.join_hasValue hs'.roots
                simp only
                generalize (Chain.product.join z.factors).withCoefficient.isNegation = negative
                cases negative with
                | true =>
                    refine (hsimplify _ _ (.add term hmixed)).bind fun left hleft => ?_
                    split
                    · exact none
                    · refine .pure fun u hu => ?_
                      obtain rfl := List.eq_of_mem_singleton hu
                      have square := joinSquare_hasValue hrest (.sub sum sum')
                        (Term.negationsAsProducts_hasValue (Term.withExponents_hasValue hleft))
                      have value : rest + ((r - r') ^ 2 + (c + 2 * r * r')) =
                          r ^ 2 + (r' ^ 2 + (c + rest)) := by ring
                      rw [value] at square
                      exact square
                | false =>
                    refine (hsimplify _ _ (.sub term hmixed)).bind fun left hleft => ?_
                    split
                    · exact none
                    · refine .pure fun u hu => ?_
                      obtain rfl := List.eq_of_mem_singleton hu
                      have square := joinSquare_hasValue hrest (.add sum sum')
                        (Term.negationsAsProducts_hasValue (Term.withExponents_hasValue hleft))
                      have value : rest + ((r + r') ^ 2 + (c - 2 * r * r')) =
                          r ^ 2 + (r' ^ 2 + (c + rest)) := by ring
                      rw [value] at square
                      exact square

theorem binomials_all (hfind : Finds J A ρ find) (hsimplify : Simplifies J A ρ simplify)
    (h : Chain.sum.Total ρ ts a) :
    Ensures J A (binomials find simplify ts (ts.map Term.factors)) fun us =>
      ∀ u ∈ us, u.HasValue ρ a := by
  refine .gather fun p hp => ?_
  obtain ⟨hl, hr, hne⟩ := pairs_of_pairwise (squares_pairwise _) hp
  obtain ⟨r, hs⟩ := squares_make h hl
  obtain ⟨r', hs'⟩ := squares_make h hr
  refine (doubleProduct_hasValue hfind hs.roots hs'.roots).bind fun mixed hmixed => ?_
  exact .gather fun summand hsummand => completeSquare_all hsimplify h hs hs' hne hmixed hsummand

end AlgebraicTerms.Search
