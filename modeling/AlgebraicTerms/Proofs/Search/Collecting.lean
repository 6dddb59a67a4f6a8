import AlgebraicTerms.Proofs.Search.Candidates
import AlgebraicTerms.Proofs.Term.Grade

/-!
# Rules on sums of monomials

Every term that is met while a sum of monomials is searched has one candidate, and that is tidy.  Once
its like terms are collected, such a sum has no common factors and no two squares.
-/

namespace AlgebraicTerms

open Term

variable {α : Type} [Scalar α]

/-! ## No common factors and no squares -/

namespace Term

variable {t u : Term α} {ts : List (Term α)}

theorem others_factors (t : Term α) : others t.factors = others (t.operandsIn .product) := rfl

variable [Scalar.Legible α] [Scalar.PlainOne α]

theorem sharedPowers_of_apart (h : t.IsMonomial) (h' : u.IsMonomial)
    (apart : t.unknowns ≠ u.unknowns) : sharedPowers t.factors u.factors = [] := by
  have unsigned {w : Term α} (hw : w.IsFirstPower) : (w.operandOf? .neg).getD w = w := by
    obtain ⟨name, index, n, rfl, _, _⟩ := hw
    rfl
  rw [sharedPowers, unsignedOthers, unsignedOthers, others_factors, others_factors]
  rcases h.haveUnknowns with ⟨own, _⟩ | ⟨w, own, hw, hvs⟩
  · rw [own]
    rfl
  · rcases h'.haveUnknowns with ⟨other, _⟩ | ⟨w', other, hw', hvs'⟩
    · rw [own, other]
      rfl
    · rw [hvs, hvs'] at apart
      have differ : ¬(w == w') = true := fun same => apart ((hw.text_eq_iff hw').1 (beq_iff.1 same))
      have none : sharedPower? w w' = none := by
        obtain ⟨name, index, n, rfl, legible, one⟩ := hw
        obtain ⟨name', index', n', rfl, legible', one'⟩ := hw'
        rw [sharedPower?, if_neg differ]
        refine if_neg fun same => apart ?_
        exact congrArg (fun v => [v]) (var_of_text_eq legible legible' (beq_iff.1 same))
      rw [own, other, List.map_singleton, List.map_singleton, unsigned hw, unsigned hw',
        List.flatMap_singleton, List.filterMap_cons_none none]
      rfl

/-- Monomials of different variables share no factor. -/
theorem factorings_of_apart (hts : ∀ t ∈ ts, t.IsMonomial)
    (apart : ts.Pairwise fun t u => t.unknowns ≠ u.unknowns) :
    factorings ts (ts.map factors) = [] := by
  have none : firstShared? (ts.map factors) = none := by
    refine List.findSome?_eq_none_iff.2 fun p hp => List.findSome?_eq_none_iff.2 fun q hq => ?_
    obtain ⟨a, i⟩ := p
    obtain ⟨b, j⟩ := q
    rw [List.mk_mem_zipIdx_iff_getElem?, List.getElem?_map] at hp hq
    obtain ⟨t, ht, rfl⟩ := Option.map_eq_some_iff.1 hp
    obtain ⟨u, hu, rfl⟩ := Option.map_eq_some_iff.1 hq
    obtain ⟨hi, rfl⟩ := List.getElem?_eq_some_iff.1 ht
    obtain ⟨hj, rfl⟩ := List.getElem?_eq_some_iff.1 hu
    rw [List.pairwise_iff_getElem] at apart
    have differ (hne : i ≠ j) : ts[i].unknowns ≠ ts[j].unknowns := by
      rcases Nat.lt_or_gt_of_ne hne with hlt | hlt
      · exact apart i j hi hj hlt
      · exact (apart j i hj hi hlt).symm
    by_cases same : i = j
    · exact if_pos (by rw [decide_eq_true same, Bool.true_or])
    · have shared := sharedPowers_of_apart (hts _ (List.getElem_mem hi))
        (hts _ (List.getElem_mem hj)) (differ same)
      exact if_pos (by rw [shared, List.isEmpty_nil, Bool.or_true])
  rw [factorings, none]

end Term

namespace Search

theorem squareFactors?_of_power {fs : List (Term α)} {u : Term α} (h : others fs = [u])
    (hu : u.IsFirstPower) : squareFactors? fs = none := by
  obtain ⟨name, index, n, rfl, _, one⟩ := hu
  have notTwo : (num n).reads "2" = false := by
    rw [reads, reads_iff.1 one]
    decide
  simp only [squareFactors?, h]
  split
  · rfl
  · split
    · rfl
    · refine if_neg fun all => ?_
      rw [List.all_cons, power?, Option.any_some, notTwo] at all
      cases all

/-- Of monomials with different variables only one can be a square. -/
theorem pairs_squares_of_apart {ts : List (Term α)} (hts : ∀ t ∈ ts, t.IsMonomial)
    (apart : ts.Pairwise fun t u => t.unknowns ≠ u.unknowns) :
    pairs (squares (ts.map Term.factors)) = [] := by
  have unknownless {t : Term α} (ht : t ∈ ts) {s : List (Term α)}
      (hs : squareFactors? t.factors = some s) : t.unknowns = [] := by
    rcases (hts t ht).haveUnknowns with ⟨_, none⟩ | ⟨u, own, hu, _⟩
    · exact none
    · have power : squareFactors? t.factors = none := squareFactors?_of_power own hu
      rw [power] at hs
      cases hs
  have alone : (squares (ts.map Term.factors)).Pairwise fun _ _ => False := by
    refine List.pairwise_filterMap.2 (List.pairwise_iff_getElem.2 fun i j hi hj hij => ?_)
    intro s hs s' hs'
    rw [List.getElem_zipIdx, List.getElem_map] at hs hs'
    obtain ⟨_, hf, _⟩ := Option.map_eq_some_iff.1 hs
    obtain ⟨_, hf', _⟩ := Option.map_eq_some_iff.1 hs'
    rw [List.length_zipIdx, List.length_map] at hi hj
    have equal := (unknownless (List.getElem_mem hi) hf).trans
      (unknownless (List.getElem_mem hj) hf').symm
    exact List.pairwise_iff_getElem.1 apart i j hi hj hij equal
  cases hsquares : squares (ts.map Term.factors) with
  | nil => rfl
  | cons s rest =>
      cases rest with
      | nil => rfl
      | cons s' rest =>
          rw [hsquares] at alone
          exact absurd ((List.pairwise_cons.1 alone).1 s' List.mem_cons_self) id

/-! ## Answers -/

variable [Scalar.Exact α]

/-- What is found for a term: a tidy term of its values, which is a monomial for a monomial and reads
the same for a number or variable. -/
structure Answers (t c : Term α) : Prop where
  keeps : t.Keeps c
  tidy : c.IsTidy
  monomial : 2 ≤ t.grade → t.grade ≤ 4 → c.IsMonomial
  atom : 4 ≤ t.grade → c.IsAtom ∧ c.text = t.text

/-- Whether a term is searched on behalf of a sum of monomials. -/
inductive IsSearched : Term α → Prop
  | monomial {t} : t.IsMonomial → IsSearched t
  | var {name index} : (Term.var (α := α) name index).Legible → IsSearched (.var name index)

/-- Whether a finder answers all terms of at least the given grade. -/
def AnswersFrom (J : Cache α → Prop) (A : List String) (g : ℕ) (find : Finder α) : Prop :=
  ∀ t, IsSearched t → t.IsTotal → g ≤ t.sorted.grade →
    Ensures J A (find t) fun ts => ∃ c, ts = [c] ∧ Answers t.sorted c

variable {J : Cache α → Prop} {A : List String} {find : Finder α} {g : ℕ} {t u l r : Term α}
  {ts : List (Term α)} {n : α}

variable [Scalar.Legible α]

theorem AnswersFrom.monomial (hfind : AnswersFrom J A g find) (h : t.IsMonomial) (total : t.IsTotal)
    (hg : g ≤ t.sorted.grade) : Ensures J A (find t) fun ts =>
      ∃ c, ts = [c] ∧ t.Keeps c ∧ c.IsTidy ∧ c.IsMonomial := by
  refine (hfind t (.monomial h) total hg).mono ?_
  rintro _ ⟨c, rfl, answer⟩
  have grade := (sorted_isMonomial h).grade
  refine ⟨c, rfl, fun ρ a ha => answer.keeps ρ a (sorted_hasValue ha), answer.tidy, ?_⟩
  exact answer.monomial grade.1 grade.2

/-! ## Products and powers -/

section Products

variable (hfind : AnswersFrom J A 3 find)

include hfind

/-- A multiple of a first power. -/
theorem scale_answers (h : u.IsFirstPower) (hn : Scalar.isZero n = false) (total : u.IsTotal) :
    Ensures J A (scale find n u) fun ts => ∃ c, ts = [c] ∧ c.IsTidy ∧ c.IsMonomial ∧
      (Term.bin .mul (.num n) u).Keeps c := by
  have own : u.sorted.grade = 3 := by
    obtain ⟨name, index, m, rfl, _, _⟩ := h
    exact grade_bin _ _ _
  have search := hfind.monomial h.isMonomial total own.ge
  rw [scale]
  split
  · rename_i one
    refine search.mono ?_
    rintro _ ⟨c, rfl, keeps, tidy, monomial⟩
    refine ⟨c, rfl, tidy, monomial, fun ρ a ha => ?_⟩
    cases ha with
    | mul hm ha =>
        have value := Scalar.isOne_iff.1 one
        rw [hm.unique (hasValue_num ρ n), value, one_mul]
        exact keeps ρ _ ha
  · have noNumber : u.number? = none := by
      obtain ⟨name, index, m, rfl, _, _⟩ := h
      rfl
    rw [noNumber]
    refine search.bind ?_
    rintro _ ⟨c, rfl, keeps, tidy, monomial⟩
    have notNumber : c.isNumber = false := by
      obtain ⟨v, hv⟩ : ∃ v, v ∈ u.unknowns := by
        obtain ⟨name, index, m, rfl, _, _⟩ := h
        exact ⟨_, List.mem_cons_self⟩
      exact not_isNumber_of_mem_unknowns
        ((keeps.needs total (h.isTidy.needed v hv)).mem (total.keep keeps))
    have noCandidate : [c].findSome? Term.number? = none := by
      rw [List.findSome?_singleton]
      rw [Term.isNumber, Option.isSome_eq_false_iff, Option.isNone_iff_eq_none] at notNumber
      exact notNumber
    rw [noCandidate]
    refine .pure ⟨_, rfl, tidy.scaled (fun zero => ?_) notNumber, monomial.scaled n, ?_⟩
    · rw [Scalar.isZero_iff.2 zero] at hn
      cases hn
    · intro ρ a ha
      cases ha with
      | mul hm ha => exact .mul hm (keeps ρ _ ha)

omit [Scalar.Exact α] [Scalar.Legible α] hfind in
/-- There is nothing to merge a single power with. -/
theorem mergePowers_single (sameBase : Bool) (h : u.IsFirstPower) :
    mergePowers find sameBase [u] = pure [u] := by
  obtain ⟨name, index, m, rfl, _, _⟩ := h
  rfl

omit [Scalar.Exact α] [Scalar.Legible α] hfind in
theorem mapM_reciprocalAsPower (h : ∀ t ∈ ts, IsFactor t) :
    (ts.mapM fun f => ofExcept f.reciprocalAsPower) = (pure ts : Search α (List (Term α))) := by
  induction ts with
  | nil => rfl
  | cons t ts ih =>
      have own : t.reciprocalAsPower = .ok t := by
        cases h t List.mem_cons_self <;> rfl
      rw [List.mapM_cons, own, ih fun u hu => h u (List.mem_cons_of_mem t hu)]
      rfl

/-- A monomial is multiplied out to a number or a multiple of a first power. -/
theorem product_answers (h : (Term.bin .mul l r).IsMonomial)
    (total : (Term.bin .mul l r).IsTotal) :
    Ensures J A (product find (.bin .mul l r)) fun ts => ∃ c, ts = [c] ∧
      c.IsTidy ∧ c.IsMonomial ∧ (Term.bin .mul l r).Keeps c := by
  have number {k m : α} {rest : List (Term α)} (keeps : (Term.bin .mul l r).Keeps (.num k)) :
      Ensures J A (pure ⟨m, rest, some [.num k]⟩ : Search α (Merged α)) fun m =>
        ∃ c, m.settled = some [c] ∧ c.IsTidy ∧ c.IsMonomial ∧ (Term.bin .mul l r).Keeps c :=
    .pure ⟨_, rfl, isTidy_num k, isMonomial_num k, keeps⟩
  have merged : Ensures J A (mergeFactors find ((Term.bin .mul l r).operandsIn .product)) fun m =>
      ∃ c, m.settled = some [c] ∧ c.IsTidy ∧ c.IsMonomial ∧ (Term.bin .mul l r).Keeps c := by
    rw [mergeFactors]
    rcases h.gathered with ⟨none, keeps⟩ | ⟨u, one, hu, keeps⟩
    · rw [none]
      split
      · rename_i zero
        refine number fun ρ a ha => ?_
        rw [(keeps ρ a ha).unique (hasValue_num ρ _), Scalar.isZero_iff.1 zero]
        exact hasValue_zero
      · exact number keeps
    · rw [one]
      split
      · rename_i zero
        refine number fun ρ a ha => ?_
        cases keeps ρ a ha with
        | mul hn _ =>
            rw [hn.unique (hasValue_num ρ _), Scalar.isZero_iff.1 zero, zero_mul]
            exact hasValue_zero
      · rename_i nonzero
        rw [List.isEmpty_cons, if_neg Bool.false_ne_true, mergePowers_single true hu, pure_bind,
          mergePowers_single false hu, pure_bind]
        have power : u.IsTotal := fun ρ => by
          obtain ⟨a, ha⟩ := total ρ
          cases keeps ρ a ha with
          | mul _ hu => exact ⟨_, hu⟩
        refine (scale_answers hfind hu (Bool.eq_false_iff.2 nonzero) power).bind ?_
        rintro _ ⟨c, rfl, tidy, monomial, keeps'⟩
        exact .pure ⟨c, rfl, tidy, monomial, keeps.trans keeps'⟩
  rw [product, withExponents_of_product h.product, operands_of_chain rfl,
    mapM_reciprocalAsPower h.operandsIn, pure_bind]
  refine merged.bind ?_
  rintro m ⟨c, settled, good⟩
  rw [settled]
  exact .pure ⟨c, rfl, good⟩

end Products

omit [Scalar.Exact α] [Scalar.Legible α] [Scalar α] in
theorem gather_singleton {β γ : Type} (f : γ → Search α (List β)) (x : γ) :
    gather f [x] = f x := by
  rw [gather, List.mapM_cons, List.mapM_nil]
  simp

omit [Scalar.Legible α] in
theorem IsAtom.legible {a : Term α} (h : a.IsAtom) : a.Legible := by
  cases h with
  | num n => exact Scalar.Exact.finite n
  | var legible => exact legible

/-- What reads like a variable is that variable. -/
theorem IsAtom.eq_var {a : Term α} {name : String} {index : Option String} (h : a.IsAtom)
    (legible : (Term.var (α := α) name index).Legible)
    (same : a.text = (Term.var (α := α) name index).text) : a = .var name index := by
  have formulas := formula_eq_of_text_eq (IsAtom.legible h) legible same
  cases h with
  | num n =>
      rw [formula] at formulas
      split at formulas
      · cases formulas
      · split at formulas <;> cases formulas
  | var _ =>
      rw [formula, formula] at formulas
      injection formulas with _ sameName sameIndex
      rw [sameName, sameIndex]

/-- A first power is found as a first power. -/
theorem power_answers {name : String} {index : Option String}
    (hfind : AnswersFrom J A 4 find) (legible : (Term.var (α := α) name index).Legible)
    (one : (Term.num n).reads "1" = true) :
    Ensures J A (power find (.var name index) (.num n)) fun ts => ∃ c, ts = [c] ∧
      c.IsFirstPower ∧ (Term.bin .pow (.var name index) (.num n)).Keeps c := by
  have five : 4 ≤ (Term.var (α := α) name index).sorted.grade := Nat.le_succ 4
  have four : 4 ≤ (Term.num n).sorted.grade := (grade_of_reads_one one).ge
  have base := hfind (.var name index) (.var legible) (fun ρ => ⟨_, .var legible⟩) five
  have exponent := hfind (.num n) (.monomial (isMonomial_num n)) (fun ρ => ⟨_, .num n⟩) four
  refine base.bind ?_
  rintro _ ⟨b, rfl, hb⟩
  refine exponent.bind ?_
  rintro _ ⟨e, rfl, he⟩
  obtain ⟨hatom, htext⟩ := hb.atom five
  obtain ⟨hatom', htext'⟩ := he.atom four
  obtain rfl := IsAtom.eq_var hatom legible htext
  rw [gather_singleton, gather_singleton]
  cases hatom' with
  | var legible' => cases IsAtom.eq_var (.num n) legible' htext'.symm
  | num m =>
      have one' : (Term.num m).reads "1" = true := reads_iff.2 (htext'.trans (reads_iff.1 one))
      have notZero : (Term.num m).reads "0" = false := by
        rw [reads, reads_iff.1 one']
        decide
      have found : powerOf find (.var name index) (.num m) =
          pure [.bin .pow (.var name index) (.num m)] := by
        simp only [powerOf, power?, number?, notZero]
        rfl
      rw [found]
      refine .pure ⟨_, rfl, ⟨name, index, m, rfl, legible, one'⟩, fun ρ a ha => ?_⟩
      have value := withoutTrivialPowers_hasValue ha
      rw [withoutTrivialPowers, if_pos one] at value
      have power := value.pow_literal (k := 1)
        ((value_of_reads_one one').trans Nat.cast_one.symm) Nat.one_pos
      rwa [pow_one] at power

/-! ## Sums -/

/-- Several monomials with different variables that are left of others with the same total. -/
structure Apart (ts : List (Term α)) (m : Merged α) : Prop where
  members : ∀ t ∈ m.rest, t.IsMonomial ∧ ∃ u ∈ others ts, t.unknowns = u.unknowns
  apart : m.rest.Pairwise fun t u => t.unknowns ≠ u.unknowns
  total : ∀ (ρ : Assignment ℚ) a, Chain.sum.Total ρ ts a →
    Chain.sum.Total ρ (.num m.number :: m.rest) a
  others : others ts ≠ []

/-- A tidy term with the values of a sum. -/
structure SumsTo (ts : List (Term α)) (c : Term α) : Prop where
  tidy : c.IsTidy
  values : ∀ (ρ : Assignment ℚ) a, Chain.sum.Total ρ ts a → c.HasValue ρ a

/-- What becomes of monomials whose like terms are collected. -/
def Collects (ts : List (Term α)) (m : Merged α) : Prop :=
  match m.settled with
  | some us => ∃ c, us = [c] ∧ SumsTo ts c
  | none => Apart ts m

section Sums

variable (hfind : AnswersFrom J A 2 find)

include hfind

theorem offset_answers (h : t.IsMonomial) (total : t.IsTotal) :
    Ensures J A (offset find n t) fun ts => ∃ c, ts = [c] ∧ c.IsTidy ∧
      ∀ (ρ : Assignment ℚ) a, t.HasValue ρ a → c.HasValue ρ (Scalar.Exact.value n + a) := by
  have search := hfind.monomial h total (sorted_isMonomial h).grade.1
  have sum {c : Term α} {m : α} (keeps : t.Keeps c) (hm : c.number? = some m) :
      Ensures J A (pure [.num (n + m)] : Search α (List (Term α))) fun ts => ∃ c, ts = [c] ∧
        c.IsTidy ∧ ∀ (ρ : Assignment ℚ) a, t.HasValue ρ a → c.HasValue ρ (Scalar.Exact.value n + a) := by
    refine .pure ⟨_, rfl, isTidy_num _, fun ρ a ha => ?_⟩
    rw [(keeps ρ a ha).of_number? hm, Scalar.toField, Rat.cast_id, ← Scalar.Exact.value_add]
    exact hasValue_num ρ _
  rw [offset]
  split
  · rename_i zero
    refine search.mono ?_
    rintro _ ⟨c, rfl, keeps, tidy, _⟩
    refine ⟨c, rfl, tidy, fun ρ a ha => ?_⟩
    rw [Scalar.isZero_iff.1 zero, zero_add]
    exact keeps ρ a ha
  · split
    · rename_i m hm
      exact sum (fun _ _ ha => ha) hm
    · refine search.bind ?_
      rintro _ ⟨c, rfl, keeps, tidy, _⟩
      rw [List.findSome?_singleton]
      cases hm : c.number? with
      | some m => exact sum keeps hm
      | none =>
          have other : c.isNumber = false := by
            rw [Term.isNumber, hm]
            rfl
          refine .pure ⟨_, rfl, tidy.raised other, fun ρ a ha => ?_⟩
          exact .add (hasValue_num ρ n) (keeps ρ a ha)

theorem mergeSummands_collects (hts : ∀ t ∈ ts, t.IsMonomial) (total : ∀ t ∈ ts, t.IsTotal) :
    Ensures J A (mergeSummands find ts) (Collects ts) := by
  have value (ρ : Assignment ℚ) (a : ℚ) (h : Chain.sum.Total ρ ts a) :
      ∃ b, Chain.sum.Total ρ (others ts) b ∧ a = Scalar.Exact.value (sumOfNumbers ts) + b := by
    obtain ⟨b, hb, same⟩ := h.others
    rw [Scalar.toField, Rat.cast_id] at same
    exact ⟨b, hb, same⟩
  have monomials : ∀ t ∈ others ts, t.IsMonomial := fun t ht => hts t (List.mem_filter.1 ht).1
  rw [mergeSummands]
  cases hothers : others ts with
  | nil =>
      refine .pure ⟨_, rfl, isTidy_num _, fun ρ a ha => ?_⟩
      obtain ⟨b, hb, rfl⟩ := value ρ a ha
      rw [hothers] at hb
      cases hb
      rw [Chain.unit, add_zero]
      exact hasValue_num ρ _
  | cons t us =>
      rw [hothers] at monomials
      have collected (ρ : Assignment ℚ) (a : ℚ) (ha : Chain.sum.Total ρ ts a) : ∃ b,
          Chain.sum.Total ρ (collectOrZero (t :: us)) b ∧
            a = Scalar.Exact.value (sumOfNumbers ts) + b := by
        obtain ⟨b, hb, same⟩ := value ρ a ha
        rw [hothers] at hb
        exact ⟨b, collectOrZero_total hb, same⟩
      have single {only : Term α} (honly : collectOrZero (t :: us) = [only])
          (monomial : only.IsMonomial) : Ensures J A (do
            return ⟨sumOfNumbers ts, [only], some (← offset find (sumOfNumbers ts) only)⟩)
            (Collects ts) := by
        rw [honly] at collected
        have everywhere : only.IsTotal := fun ρ => by
          obtain ⟨a, ha⟩ := Chain.Total.of_forall (c := .sum) fun u hu => total u hu ρ
          obtain ⟨b, hb, _⟩ := collected ρ a ha
          exact hb.exists_value List.mem_cons_self
        refine (offset_answers hfind monomial everywhere).bind ?_
        rintro _ ⟨c, rfl, tidy, values⟩
        refine .pure ⟨c, rfl, tidy, fun ρ a ha => ?_⟩
        obtain ⟨b, hb, rfl⟩ := collected ρ a ha
        cases hb with
        | cons hb hnil =>
            cases hnil
            rw [Chain.combine_unit]
            exact values ρ _ hb
      obtain ⟨members, apart⟩ := collect_pairwise monomials
      cases hcollect : collect (t :: us) with
      | nil =>
          have zero : collectOrZero (t :: us) = [.num Scalar.zero] := by
            rw [collectOrZero, hcollect]
          simp only [zero]
          exact single zero (isMonomial_num _)
      | cons s rest =>
          have all : collectOrZero (t :: us) = s :: rest := by rw [collectOrZero, hcollect]
          rw [hcollect] at members apart
          simp only [all]
          cases rest with
          | nil => exact single all (members s List.mem_cons_self).1
          | cons s' rest =>
              rw [all] at collected
              refine .pure ⟨fun p hp => ?_, apart, fun ρ a ha => ?_, ?_⟩
              · rw [hothers]
                exact members p hp
              · obtain ⟨b, hb, rfl⟩ := collected ρ a ha
                exact .cons (hasValue_num ρ _) hb
              · rw [hothers]
                exact List.cons_ne_nil _ _

end Sums

omit [Scalar.Exact α] [Scalar.Legible α] [Scalar α] in
/-- One candidate each can be combined in one way. -/
theorem combinations_singletons (cs : List (Term α)) :
    combinations (cs.map fun c => [c]) = [cs] := by
  rw [combinations_eq_sections]
  induction cs with
  | nil => rfl
  | cons c cs ih => rw [List.map_cons, List.sections, ih, List.flatMap_singleton, List.map_singleton]

theorem SumsTo.finish {c : Term α} (h : SumsTo ts c) (total : ∀ t ∈ ts, t.IsTotal) :
    SumsTo ts (finishSum c) := by
  have everywhere : c.IsTotal := fun ρ => by
    obtain ⟨a, ha⟩ := Chain.Total.of_forall (c := .sum) fun t ht => total t ht ρ
    exact ⟨a, h.values ρ a ha⟩
  refine ⟨h.tidy.keep everywhere (fun ρ a ha => finishSum_hasValue ha) ?_ finishSum_isNumber,
    fun ρ a ha => finishSum_hasValue (h.values ρ a ha)⟩
  exact (finishSum_unknowns c).subperm

/-- What becomes of the only combination of the summands' candidates. -/
def Combines (ts : List (Term α)) : Combined α → Prop
  | .settled us => ∃ c, us = [c] ∧ SumsTo ts c
  | .collected us => us = [] ∧ allUnknowns ts ≠ []

section Summands

variable (hfind : AnswersFrom J A 2 find) {simplify : Term α → Search α (Term α)}

include hfind

theorem combineSummands_combines (monomials : ∀ t ∈ ts, t.IsMonomial)
    (tidy : ∀ t ∈ ts, t.IsTidy) (total : ∀ t ∈ ts, t.IsTotal) :
    Ensures J A (combineSummands factorings find simplify n [] [ts])
      (Combines (.num n :: ts)) := by
  have everywhere : ∀ t ∈ .num n :: ts, t.IsTotal :=
    List.forall_mem_cons.2 ⟨fun ρ => ⟨_, .num n⟩, total⟩
  rw [combineSummands]
  refine (mergeSummands_collects hfind (List.forall_mem_cons.2 ⟨isMonomial_num n, monomials⟩)
    everywhere).bind fun merged hmerged => ?_
  rw [Collects] at hmerged
  cases hsettled : merged.settled with
  | some us =>
      rw [hsettled] at hmerged
      obtain ⟨c, rfl, hc⟩ := hmerged
      exact .pure ⟨_, rfl, hc.finish everywhere⟩
  | none =>
      rw [hsettled] at hmerged
      have occurs {u : Term α} (hu : u ∈ others (.num n :: ts)) : u.unknowns ≠ [] := by
        obtain ⟨hu, notNumber⟩ := List.mem_filter.1 hu
        rcases List.mem_cons.1 hu with rfl | hu
        · cases notNumber
        · intro none
          rw [(tidy u hu).number none] at notNumber
          cases notNumber
      have parts : (∀ t ∈ if Scalar.isZero merged.number then merged.rest
            else .num merged.number :: merged.rest, t.IsMonomial) ∧
          (if Scalar.isZero merged.number then merged.rest
            else .num merged.number :: merged.rest).Pairwise fun t u => t.unknowns ≠ u.unknowns := by
        have members := fun t ht => (hmerged.members t ht).1
        split
        · exact ⟨members, hmerged.apart⟩
        · refine ⟨List.forall_mem_cons.2 ⟨isMonomial_num _, members⟩, ?_⟩
          refine List.pairwise_cons.2 ⟨fun t ht => ?_, hmerged.apart⟩
          obtain ⟨u, hu, same⟩ := (hmerged.members t ht).2
          rw [same]
          exact (occurs hu).symm
      dsimp only
      rw [factorings_of_apart parts.1 parts.2, binomials, pairs_squares_of_apart parts.1 parts.2]
      refine .pure ⟨rfl, fun empty => ?_⟩
      obtain ⟨u, hu⟩ := List.exists_mem_of_ne_nil _ hmerged.others
      exact occurs hu (List.flatMap_eq_nil_iff.1 empty u (List.mem_filter.1 hu).1)

omit [Scalar.Legible α] hfind in
/-- What is found for monomials, one term for each. -/
theorem condensed {cs : List (Term α)} (hts : ∀ t ∈ ts, t.IsTotal)
    (hcs : List.Forall₂ (fun t c => t.Keeps c ∧ c.IsTidy ∧ c.IsMonomial) ts cs) :
    (∀ c ∈ cs, c.IsMonomial ∧ c.IsTidy ∧ c.IsTotal) ∧
      (allUnknowns cs).Subperm (allUnknowns ts) := by
  induction hcs with
  | nil => exact ⟨nofun, .refl _⟩
  | @cons t c ts cs hc _ ih =>
      obtain ⟨keeps, tidy, monomial⟩ := hc
      have total := hts t List.mem_cons_self
      obtain ⟨all, fewer⟩ := ih fun u hu => hts u (List.mem_cons_of_mem t hu)
      exact ⟨List.forall_mem_cons.2 ⟨⟨monomial, tidy, total.keep keeps⟩, all⟩,
        (tidy.subperm keeps total).append fewer⟩

omit hfind in
/-- The last candidate of a sum. -/
theorem plainSum_sumsTo (tidy : ∀ t ∈ ts, t.IsTidy) (total : ∀ t ∈ ts, t.IsTotal)
    (nodup : (allUnknowns ts).Nodup) (some : allUnknowns ts ≠ []) :
    SumsTo (.num n :: ts) (if Scalar.isZero n then Chain.sum.join (ts.map Term.withCoefficient)
      else .bin .add (Chain.sum.join (ts.map Term.withCoefficient)) (.num n)) := by
  have plain {ρ : Assignment ℚ} {a : ℚ} (h : Chain.sum.Total ρ ts a) :
      (Chain.sum.join (ts.map Term.withCoefficient)).HasValue ρ a :=
    join_hasValue (h.map fun t _ a ht => withCoefficient_hasValue ht)
  have values (ρ : Assignment ℚ) (a : ℚ) (h : Chain.sum.Total ρ (.num n :: ts) a) :
      (if Scalar.isZero n then Chain.sum.join (ts.map Term.withCoefficient)
        else .bin .add (Chain.sum.join (ts.map Term.withCoefficient)) (.num n)).HasValue ρ a := by
    split
    · rename_i zero
      have whole := withoutZero_total h
      rw [if_pos zero] at whole
      exact plain whole
    · cases h with
      | cons hn hts =>
          rw [Chain.combine, add_comm]
          exact .add (plain hts) hn
  have fewer : (Chain.sum.join (ts.map Term.withCoefficient)).unknowns.Sublist (allUnknowns ts) :=
    (join_unknowns _ _).trans (allUnknowns_map_sublist fun t _ => withCoefficient_unknowns t)
  refine ⟨isTidy_of_sum (List.forall_mem_cons.2 ⟨isTidy_num n, tidy⟩)
    (List.forall_mem_cons.2 ⟨fun ρ => ⟨_, .num n⟩, total⟩) nodup some values ?_, values⟩
  split
  · exact fewer
  · show (_ ++ []).Sublist _
    rw [List.append_nil]
    exact fewer

theorem mapM_monomials (hts : ∀ t ∈ ts, t.IsMonomial ∧ t.IsTotal) :
    Ensures J A (ts.mapM find) fun found => ∃ cs, found = cs.map (fun c => [c]) ∧
      List.Forall₂ (fun t c => t.Keeps c ∧ c.IsTidy ∧ c.IsMonomial) ts cs := by
  refine (Ensures.mapM fun t ht => hfind.monomial (hts t ht).1 (hts t ht).2
    (sorted_isMonomial (hts t ht).1).grade.1).mono fun found hfound => ?_
  clear hts
  induction hfound with
  | nil => exact ⟨[], rfl, .nil⟩
  | cons hc _ ih =>
      obtain ⟨c, rfl, hc⟩ := hc
      obtain ⟨cs, rfl, hcs⟩ := ih
      exact ⟨c :: cs, rfl, .cons hc hcs⟩

/-- Monomials with different variables are found one by one, and their sum is tidy. -/
theorem sum_answers (spread : (Term.bin .add l r).IsSpread)
    (total : (Term.bin .add l r).IsTotal) :
    Ensures J A (sum factorings find simplify (.bin .add l r)) fun ts =>
      ∃ c, ts = [c] ∧ c.IsTidy ∧ (Term.bin .add l r).Keeps c := by
  have values (ρ : Assignment ℚ) (a : ℚ) (h : (Term.bin .add l r).HasValue ρ a) :=
    searchedSummands_total h
  rw [sum]
  have monomials := summands_isMonomial spread
  generalize (Term.bin .add l r).withExponents.operands.map negationsAsProducts = ts
    at values monomials ⊢
  have everywhere : ∀ t ∈ ts, t.IsTotal := fun t ht ρ => by
    obtain ⟨a, ha⟩ := total ρ
    exact (values ρ a ha).exists_value ht
  refine (mergeSummands_collects hfind monomials everywhere).bind fun merged hmerged => ?_
  rw [Collects] at hmerged
  have answer {us : List (Term α)} {c : Term α} (hc : SumsTo us c)
      (hus : ∀ (ρ : Assignment ℚ) a, Chain.sum.Total ρ ts a → Chain.sum.Total ρ us a) :
      ∃ d, [c] = [d] ∧ d.IsTidy ∧ (Term.bin .add l r).Keeps d :=
    ⟨c, rfl, hc.tidy, fun ρ a ha => hc.values ρ a (hus ρ a (values ρ a ha))⟩
  cases hsettled : merged.settled with
  | some us =>
      rw [hsettled] at hmerged
      obtain ⟨c, rfl, hc⟩ := hmerged
      exact .pure (answer (hc.finish everywhere) fun ρ a ha => ha)
  | none =>
      rw [hsettled] at hmerged
      have rest : ∀ t ∈ merged.rest, t.IsTotal := fun t ht ρ => by
        obtain ⟨a, ha⟩ := Chain.Total.of_forall (c := .sum) fun t ht => everywhere t ht ρ
        exact (hmerged.total ρ a ha).exists_value (List.mem_cons_of_mem _ ht)
      have members := fun t ht => (hmerged.members t ht).1
      refine (mapM_monomials hfind fun t ht => ⟨members t ht, rest t ht⟩).bind ?_
      rintro _ ⟨cs, rfl, hcs⟩
      obtain ⟨all, fewer⟩ := condensed rest hcs
      have nodup := nodup_of_subperm fewer
        (allUnknowns_nodup (fun t ht => (members t ht).single) hmerged.apart)
      have found (ρ : Assignment ℚ) (a : ℚ) (h : Chain.sum.Total ρ ts a) :
          Chain.sum.Total ρ (.num merged.number :: cs) a := by
        refine (hmerged.total ρ a h).replace (.cons (fun _ hn => hn) ?_)
        exact hcs.imp fun t c hc a ha => hc.1 ρ a ha
      rw [combinations_singletons]
      refine (combineSummands_combines hfind (fun c hc => (all c hc).1) (fun c hc => (all c hc).2.1)
        fun c hc => (all c hc).2.2).bind fun combined hcombined => ?_
      cases combined with
      | settled us =>
          obtain ⟨c, rfl, hc⟩ := hcombined
          exact .pure (answer hc found)
      | collected us =>
          obtain ⟨rfl, some⟩ := hcombined
          have firsts : (cs.map fun c => [c]).filterMap List.head? = cs := by
            rw [List.filterMap_map]
            exact List.filterMap_some
          simp only [firsts]
          exact .pure (answer (plainSum_sumsTo (fun c hc => (all c hc).2.1)
            (fun c hc => (all c hc).2.2) nodup some) found)

end Summands

end Search

end AlgebraicTerms
