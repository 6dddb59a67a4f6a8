import AlgebraicTerms.Proofs.Search.Multiples

/-!
# The search for linear forms

The summands of a linear form share no factor and hold no squares, so that they are found one by one
and their sum is the only candidate.
-/

namespace AlgebraicTerms

open Term

variable {α : Type} [Scalar α]

namespace Multiple

variable [Scalar.Legible α] {m : Multiple α} {n : α}

/-! ## Signs and variables -/

omit [Scalar.Legible α] in
theorem scaled_withCoefficient [Scalar.Unital α] (n : α) (m : Multiple α) :
    (Term.bin .mul (.num n) m.power).withCoefficient = Gathered.toTerm ⟨n, [m.power]⟩ := by
  show Gathered.toTerm ⟨Scalar.ofNat 1 * n, [m.power]⟩ = _
  rw [Scalar.Unital.one_mul]

/-- The number in front of what is found is written as the multiple had it. -/
theorem found_withCoefficient [Scalar.Worded α] [Scalar.Unital α] (proper : m.IsProper) :
    m.found.withCoefficient = m.signed m.power := by
  have hx : Places (α := α) power := .inr rfl
  have product {n : α} (h : m.factor = some n) :
      Chain.product.join [.num n, m.power] = .bin .mul (.num n) m.power :=
    Chain.append_of_proper (proper.factor_reads h) ((hx.legible proper).not_reads rfl .product)
  rw [found, coefficient?, signed, unsigned]
  cases m.negative with
  | false =>
      rw [if_neg Bool.false_ne_true, if_neg Bool.false_ne_true]
      cases h : m.factor with
      | none => rfl
      | some n =>
          have positive := proper.factor n h
          have other : (n == Scalar.negOne) = false := Bool.eq_false_iff.2 fun same => by
            have less : Scalar.lt n (Scalar.ofNat 0) = Scalar.lt Scalar.negOne (Scalar.ofNat 0) :=
              Scalar.Ordered.lt_congr_left _ same
            have negative : Scalar.isNegative (Scalar.negOne : α) = true :=
              Scalar.isPositive_one.isNegative_neg
            have unsigned := positive.unsigned
            rw [Scalar.isNegative, less] at unsigned
            exact absurd negative (Bool.eq_false_iff.1 unsigned)
          dsimp only
          rw [scaled_withCoefficient, Gathered.toTerm]
          dsimp only
          rw [other, proper.notOne n h, positive.nonzero, positive.unsigned]
          exact product h
  | true =>
      rw [if_pos rfl, if_pos rfl]
      cases h : m.factor with
      | none =>
          have same : (-Scalar.one == (Scalar.negOne : α)) = true :=
            Scalar.Unital.neg_beq_neg.trans Scalar.isOne_one
          dsimp only [Option.getD_none]
          rw [scaled_withCoefficient, Gathered.toTerm]
          dsimp only
          rw [same]
          rfl
      | some n =>
          have positive := proper.factor n h
          have other : (-n == (Scalar.negOne : α)) = false :=
            Scalar.Unital.neg_beq_neg.trans (proper.notOne n h)
          dsimp only [Option.getD_some]
          rw [scaled_withCoefficient, Gathered.toTerm]
          dsimp only
          rw [other, positive.not_isOne_neg, positive.not_isZero_neg, positive.isNegative_neg,
            Scalar.Worded.neg_neg, product h]
          rfl

theorem power_isFactor (proper : m.IsProper) : IsFactor m.power := .power proper.legible reads_one

theorem unsigned_isMonomial (proper : m.IsProper) : (m.unsigned m.power).IsMonomial := by
  rw [Multiple.unsigned]
  cases m.factor with
  | none => exact ⟨.leaf (power_isFactor proper), Nat.le_refl 1⟩
  | some n => exact ⟨.mul (.leaf (.num n)) (.leaf (power_isFactor proper)), Nat.le_refl 1⟩

theorem signed_isMonomial (proper : m.IsProper) : SignedOf IsMonomial (m.signed m.power) := by
  have unsigned := unsigned_isMonomial proper
  rw [signed]
  split
  · exact .neg (.leaf unsigned)
  · exact .leaf unsigned

theorem product_isMonomial (proper : m.IsProper) : m.product.IsMonomial := by
  have signed := signed_isMonomial proper
  have plain := signed.mono fun _ => MonomialIn.product
  refine ⟨arePlain_isFactor.negationsAsProducts_signed plain, ?_⟩
  rw [product, negationsAsProducts_unknowns]
  exact signed.single

theorem found_isMonomial (proper : m.IsProper) : m.found.IsMonomial := by
  rw [found]
  cases m.coefficient? with
  | none => exact ⟨.leaf (power_isFactor proper), Nat.le_refl 1⟩
  | some n => exact ⟨.mul (.leaf (.num n)) (.leaf (power_isFactor proper)), Nat.le_refl 1⟩

omit [Scalar.Legible α] in
theorem product_unknowns : m.product.unknowns = [(m.name, m.index)] := by
  rw [product, negationsAsProducts_unknowns, signed, unsigned]
  cases m.negative <;> cases m.factor <;> rfl

omit [Scalar.Legible α] in
theorem found_unknowns : m.found.unknowns = [(m.name, m.index)] := by
  rw [found]
  cases m.coefficient? <;> rfl

end Multiple

namespace Search

variable [Scalar.Legible α] [Scalar.PlainOne α] {find : Finder α}
  {simplify : Term α → Search α (Term α)} {ts cs : List (Term α)} {t c l r : Term α} {n : α}

/-! ## Summands with different variables -/

/-- Whether terms are monomials no two of which are alike. -/
structure AreApart (ts : List (Term α)) : Prop where
  monomials : ∀ t ∈ ts, t.IsMonomial
  apart : ts.Pairwise fun t u => t.unknowns ≠ u.unknowns

/-- Two or more summands that are not alike are left as they are. -/
theorem mergeSummands_of_apart (h : AreApart (others ts)) (two : 2 ≤ (others ts).length) :
    mergeSummands find ts = pure ⟨sumOfNumbers ts, others ts, none⟩ := by
  have collected := collect_of_apart h.monomials h.apart
  rw [mergeSummands]
  rcases hothers : others ts with _ | ⟨t, _ | ⟨u, us⟩⟩
  · rw [hothers] at two
    cases two
  · rw [hothers] at two
    exact absurd two (Nat.not_succ_le_self 1)
  · rw [hothers] at collected
    dsimp only
    rw [collectOrZero, collected]

/-- A single summand settles the sum. -/
theorem mergeSummands_of_single (h : others ts = [t]) (monomial : t.IsMonomial) :
    mergeSummands find ts = do
      let found ← offset find (sumOfNumbers ts) t
      return ⟨sumOfNumbers ts, [t], some found⟩ := by
  have collected : collect [t] = [t] :=
    collect_of_apart (List.forall_mem_singleton.2 monomial) (List.pairwise_singleton _ _)
  rw [mergeSummands, h]
  dsimp only
  rw [collectOrZero, collected]

/-- What is apart has no common factor and no squares, so that nothing more is found. -/
theorem combineSummands_of_apart (h : AreApart (others (.num n :: cs)))
    (two : 2 ≤ (others (.num n :: cs)).length)
    (occurs : ∀ c ∈ others (.num n :: cs), c.unknowns ≠ []) :
    combineSummands factorings find simplify n [] [cs] = pure (.collected []) := by
  have parts : AreApart (if Scalar.isZero (sumOfNumbers (.num n :: cs)) then others (.num n :: cs)
      else .num (sumOfNumbers (.num n :: cs)) :: others (.num n :: cs)) := by
    split
    · exact h
    · exact ⟨List.forall_mem_cons.2 ⟨isMonomial_num _, h.monomials⟩,
        List.pairwise_cons.2 ⟨fun c hc => (occurs c hc).symm, h.apart⟩⟩
  rw [combineSummands, mergeSummands_of_apart h two, pure_bind]
  dsimp only
  rw [factorings_of_apart parts.monomials parts.apart, binomials,
    pairs_squares_of_apart parts.monomials parts.apart]
  rfl

theorem combineSummands_of_single (h : others (.num n :: cs) = [c]) (monomial : c.IsMonomial) :
    combineSummands factorings find simplify n [] [cs] = do
      let found ← offset find (sumOfNumbers (.num n :: cs)) c
      return .settled (found.map finishSum) := by
  rw [combineSummands, mergeSummands_of_single h monomial, bind_assoc]
  simp only [pure_bind]

omit [Scalar.Legible α] [Scalar.PlainOne α] in
/-- A number is added to what is found. -/
theorem offset_delivers {J : Cache α → Prop} {A : List String} (nonzero : Scalar.isZero n = false)
    (ht : t.isNumber = false) (hc : c.isNumber = false) (found : Delivers J A (find t) [c]) :
    Delivers J A (offset find n t) [.bin .add (.num n) c] := by
  have none {u : Term α} (hu : u.isNumber = false) : u.number? = none := by
    rwa [Term.isNumber, Option.isSome_eq_false_iff, Option.isNone_iff_eq_none] at hu
  have noCandidate : [c].findSome? Term.number? = Option.none := by
    rw [List.findSome?_singleton]
    exact none hc
  rw [offset, nonzero, none ht]
  refine found.bind ?_
  rw [noCandidate]
  exact .pure _

/-! ## Sums -/

variable {J : Cache α → Prop} {A : List String} {us : List (Term α)}

/-- A number and a single summand are the sum. -/
theorem sum_delivers_of_single (summands : (Term.bin .add l r).withExponents.operands.map
      negationsAsProducts = ts) (own : others ts = [t]) (monomial : t.IsMonomial)
    (nonzero : Scalar.isZero (sumOfNumbers ts) = false) (hc : c.isNumber = false)
    (found : Delivers J A (find t) [c]) :
    Delivers J A (sum factorings find simplify (.bin .add l r))
      [finishSum (.bin .add (.num (sumOfNumbers ts)) c)] := by
  have ht : t.isNumber = false := by
    have mem : t ∈ others ts := own ▸ List.mem_singleton_self t
    exact Bool.not_eq_true' _ ▸ (List.mem_filter.1 mem).2
  rw [sum, summands, mergeSummands_of_single own monomial, bind_assoc]
  refine (offset_delivers nonzero ht hc found).bind ?_
  exact .pure _

/-- The candidates of a sum, by what its only combination gives and its plain sum. -/
def concluded (plain : Term α) : Combined α → List (Term α)
  | .settled ts => ts
  | .collected ts => ts ++ [plain]

/-- A sum of the given terms and a number, unless that is zero. -/
def plainSum (n : α) (ts : List (Term α)) : Term α :=
  if Scalar.isZero n then Chain.sum.join ts else .bin .add (Chain.sum.join ts) (.num n)

/-- Summands that are apart are found one by one, each given with what is found for it. -/
theorem sum_delivers_of_apart {xs : List (Term α × Term α)} {combined : Combined α}
    (summands : (Term.bin .add l r).withExponents.operands.map negationsAsProducts = ts)
    (own : others ts = xs.map Prod.fst) (h : AreApart (others ts)) (two : 2 ≤ xs.length)
    (found : ∀ x ∈ xs, Delivers J A (find x.1) [x.2])
    (combines : Delivers J A
      (combineSummands factorings find simplify (sumOfNumbers ts) [] [xs.map Prod.snd]) combined) :
    Delivers J A (sum factorings find simplify (.bin .add l r))
      (concluded (plainSum (sumOfNumbers ts) ((xs.map Prod.snd).map withCoefficient))
        combined) := by
  have length : (others ts).length = xs.length := by rw [own, List.length_map]
  rw [sum, summands, mergeSummands_of_apart h (length ▸ two), pure_bind]
  dsimp only
  rw [own]
  refine (Delivers.mapM found).bind ?_
  have singles : xs.map (fun x => [x.2]) = (xs.map Prod.snd).map fun c => [c] := by
    rw [List.map_map]
    rfl
  have firsts : ((xs.map Prod.snd).map fun c => [c]).filterMap List.head? = xs.map Prod.snd := by
    rw [List.filterMap_map]
    exact List.filterMap_some
  rw [singles, combinations_singletons, firsts]
  refine combines.bind ?_
  cases combined with
  | settled us => exact .pure _
  | collected us => exact .pure _

end Search

namespace Multiple

variable {ms : List (Multiple α)} {x : Multiple α → Term α} {n : α}

/-- Whether each multiple is represented by a monomial with its variable. -/
structure Stands (x : Multiple α → Term α) (ms : List (Multiple α)) : Prop where
  monomial : ∀ m ∈ ms, (x m).IsMonomial
  unknowns : ∀ m, (x m).unknowns = [(m.name, m.index)]

namespace Stands

variable (h : Stands x ms)

include h

theorem areApart (distinct : Distinct ms) : Search.AreApart (ms.map x) := by
  refine ⟨List.forall_mem_map.2 h.monomial, List.pairwise_map.2 ?_⟩
  refine (List.pairwise_map.1 distinct).imp fun {m m'} apart same => apart ?_
  rw [h.unknowns, h.unknowns] at same
  exact List.singleton_inj.1 same

theorem occurs : ∀ t ∈ ms.map x, t.unknowns ≠ [] :=
  List.forall_mem_map.2 fun m _ => h.unknowns m ▸ List.cons_ne_nil _ _

theorem not_isNumber (m : Multiple α) : (x m).isNumber = false :=
  not_isNumber_of_mem_unknowns (h.unknowns m ▸ List.mem_singleton_self (m.name, m.index))

theorem others_eq : others (ms.map x) = ms.map x := by
  refine List.filter_eq_self.2 (List.forall_mem_map.2 fun m _ => ?_)
  rw [h.not_isNumber]
  rfl

theorem numbers_eq : numbers (ms.map x) = [] := by
  refine List.filterMap_eq_nil_iff.2 (List.forall_mem_map.2 fun m _ => ?_)
  have none := h.not_isNumber m
  rwa [Term.isNumber, Option.isSome_eq_false_iff, Option.isNone_iff_eq_none] at none

theorem sumOfNumbers_eq : sumOfNumbers (ms.map x) = Scalar.emptySum := by
  rw [sumOfNumbers, h.numbers_eq]
  rfl

theorem sumOfNumbers_cons [Scalar.Unital α] (n : α) : sumOfNumbers (.num n :: ms.map x) = n := by
  have own : numbers (.num n :: ms.map x) = [n] := congrArg (n :: ·) h.numbers_eq
  rw [sumOfNumbers, own]
  exact Scalar.Unital.emptySum_add n

end Stands

variable [Scalar.Legible α]

/-- What is searched for the multiples, with what is found. -/
def answered (ms : List (Multiple α)) : List (Term α × Term α) :=
  ms.map fun m => (m.product, m.found)

omit [Scalar.Legible α] in
theorem answered_fst (ms : List (Multiple α)) : (answered ms).map Prod.fst = ms.map product :=
  List.map_map

omit [Scalar.Legible α] in
theorem answered_snd (ms : List (Multiple α)) : (answered ms).map Prod.snd = ms.map found :=
  List.map_map

theorem stands_product (proper : ∀ m ∈ ms, m.IsProper) : Stands product ms :=
  ⟨fun m hm => product_isMonomial (proper m hm), fun _ => product_unknowns⟩

theorem stands_found (proper : ∀ m ∈ ms, m.IsProper) : Stands found ms :=
  ⟨fun m hm => found_isMonomial (proper m hm), fun _ => found_unknowns⟩

end Multiple

namespace Search

open Multiple

variable [Scalar.Legible α] [Scalar.Worded α] [Scalar.Unital α] {J : Cache α → Prop}
  {A : List String} {find : Finder α} {simplify : Term α → Search α (Term α)} {l r : Term α}
  {ms : List (Multiple α)} {m : Multiple α} {n : α}

theorem finishSum_number (hm : m.IsProper) (hn : (Term.num n).reads "0" = false) :
    finishSum (.bin .add (.num n) m.found) = row Multiple.power (.num n) [m] := by
  have single : m.found.operandsIn .sum = [m.found] := by
    rw [found]
    cases m.coefficient? <;> rfl
  have zero : (Term.num (Scalar.zero : α)).reads "0" = true := by
    refine reads_iff.2 ?_
    have isZero : Scalar.isZero (Scalar.zero : α) = true := Scalar.Legible.isZero_zero
    rw [text, numberText, if_pos isZero]
  have first : Chain.sum.append (.num Scalar.zero) (.num n) = .num n :=
    (if_neg (Bool.eq_false_iff.1 hn)).trans (if_pos zero)
  have summands : (Term.bin .add (.num n) m.found).summands.map withCoefficient =
      [.num Scalar.zero, .num n, m.signed m.power] := by
    rw [Term.summands, operandsIn_bin rfl, single, ← found_withCoefficient hm]
    rfl
  have joined := join_row (x := Multiple.power) (.inr rfl) hn (List.forall_mem_singleton.2 hm)
  rw [finishSum, summands]
  show Chain.sum.append (Chain.sum.append (.num Scalar.zero) (.num n)) (m.signed m.power) = _
  rw [first]
  exact joined

/-- A number and a multiple are the sum. -/
theorem sum_delivers_of_number (hm : m.IsProper)
    (product : Delivers J A (find m.product) [m.found])
    (summands : (Term.bin .add l r).withExponents.operands.map negationsAsProducts =
      [.num n, m.product]) (hn : (Term.num n).reads "0" = false)
    (nonzero : Scalar.isZero n = false) :
    Delivers J A (sum factorings find simplify (.bin .add l r))
      [row Multiple.power (.num n) [m]] := by
  have proper := List.forall_mem_singleton.2 hm
  have stands := stands_product proper
  have own : others [.num n, m.product] = [m.product] := stands.others_eq
  have number : sumOfNumbers [.num n, m.product] = n := stands.sumOfNumbers_cons n
  have delivered : Delivers J A (sum factorings find simplify (.bin .add l r))
      [finishSum (.bin .add (.num (sumOfNumbers [.num n, m.product])) m.found)] :=
    sum_delivers_of_single summands own (product_isMonomial hm) (by rwa [number])
      ((stands_found proper).not_isNumber m) product
  rwa [number, finishSum_number hm hn] at delivered

variable (proper : ∀ m ∈ ms, m.IsProper) (distinct : Distinct ms)
  (products : ∀ m ∈ ms, Delivers J A (find m.product) [m.found])

include proper

theorem signed_of_found :
    (ms.map found).map withCoefficient = ms.map fun m => m.signed m.power := by
  rw [List.map_map]
  exact List.map_congr_left fun m hm => found_withCoefficient (proper m hm)

include distinct

omit [Scalar.Unital α] in
theorem combineSummands_of_multiples (two : 2 ≤ ms.length) (n : α) :
    combineSummands factorings find simplify n [] [ms.map found] = pure (.collected []) := by
  have stands := stands_found proper
  have own : others (.num n :: ms.map found) = ms.map found := stands.others_eq
  refine combineSummands_of_apart ?_ ?_ ?_
  · rw [own]
    exact stands.areApart distinct
  · rwa [own, List.length_map]
  · rw [own]
    exact stands.occurs

/-- A number that is found beside multiples is added to them. -/
theorem combineSummands_of_opposite (simplify : Term α → Search α (Term α)) (hms : ms ≠ [])
    (hn : Scalar.IsPositive n) (found : ∀ m ∈ ms, Delivers J A (find m.found) [m.found]) :
    ∃ combined, Delivers J A (combineSummands factorings find simplify Scalar.emptySum []
        [.num (-n) :: ms.map Multiple.found]) combined ∧
      concluded (plainSum Scalar.emptySum (.num (-n) :: ms.map fun m => m.signed m.power))
        combined = [row Multiple.power (.num (-n)) ms] := by
  have stands := stands_found proper
  have own : others (.num Scalar.emptySum :: .num (-n) :: ms.map Multiple.found) =
      ms.map Multiple.found := stands.others_eq
  have sum : sumOfNumbers (.num Scalar.emptySum :: .num (-n) :: ms.map Multiple.found) = -n := by
    have numbers : numbers (.num Scalar.emptySum :: .num (-n) :: ms.map Multiple.found) =
        [Scalar.emptySum, -n] := congrArg (_ :: _ :: ·) stands.numbers_eq
    rw [sumOfNumbers, numbers]
    show Scalar.emptySum + Scalar.emptySum + -n = -n
    rw [Scalar.Unital.emptySum_add, Scalar.Unital.emptySum_add]
  have hreads : (Term.num (-n)).reads "0" = false :=
    num_not_reads_zero (Scalar.Legible.isFinite_neg hn.finite) hn.not_isZero_neg
  rcases ms with _ | ⟨m, _ | ⟨m', ms⟩⟩
  · exact absurd rfl hms
  · have hm := List.forall_mem_singleton.1 proper
    refine ⟨.settled [finishSum (.bin .add (.num (-n)) m.found)], ?_,
      congrArg (fun t => [t]) (finishSum_number hm hreads)⟩
    rw [combineSummands_of_single own (found_isMonomial hm), sum]
    exact (offset_delivers hn.not_isZero_neg (stands.not_isNumber m) (stands.not_isNumber m)
      (found m List.mem_cons_self)).bind (.pure _)
  · refine ⟨.collected [], ?_, ?_⟩
    · have apart := stands.areApart distinct
      have two : 2 ≤ ((m :: m' :: ms).map Multiple.found).length := Nat.le_add_left 2 _
      have occurs := stands.occurs
      rw [← own] at apart two occurs
      rw [combineSummands_of_apart apart two occurs]
      exact .pure _
    · rw [plainSum, if_pos Scalar.Unital.isZero_emptySum]
      exact congrArg (fun t => [t]) (join_row (.inr rfl) hreads proper)

include products

/-- Several multiples, maybe with a number, are found one by one. -/
theorem sum_delivers_of_multiples {ts : List (Term α)} (two : 2 ≤ ms.length)
    (summands : (Term.bin .add l r).withExponents.operands.map negationsAsProducts = ts)
    (own : others ts = ms.map Multiple.product) :
    Delivers J A (sum factorings find simplify (.bin .add l r))
      [plainSum (sumOfNumbers ts) (ms.map fun m => m.signed m.power)] := by
  have combines : Delivers J A (combineSummands factorings find simplify (sumOfNumbers ts) []
      [(answered ms).map Prod.snd]) (.collected []) := by
    rw [answered_snd, combineSummands_of_multiples proper distinct two]
    exact .pure _
  have apart : AreApart (others ts) := own ▸ (stands_product proper).areApart distinct
  have delivered := sum_delivers_of_apart summands (own.trans (answered_fst ms).symm) apart
    (by rwa [answered, List.length_map]) (List.forall_mem_map.2 products) combines
  rwa [answered_snd, signed_of_found proper] at delivered

/-- A number with a minus in front is found as its opposite. -/
theorem sum_delivers_of_minus (hms : ms ≠ []) (hn : Scalar.IsPositive n)
    (summands : (Term.bin .add l r).withExponents.operands.map negationsAsProducts =
      .bin .mul (.num Scalar.negOne) (.num n) :: ms.map Multiple.product)
    (number : Delivers J A (find (.bin .mul (.num Scalar.negOne) (.num n))) [.num (-n)])
    (found : ∀ m ∈ ms, Delivers J A (find m.found) [m.found]) :
    Delivers J A (sum factorings find simplify (.bin .add l r))
      [row Multiple.power (.num (-n)) ms] := by
  let opposite : Term α := .bin .mul (.num Scalar.negOne) (.num n)
  have stands := stands_product proper
  have own : others (opposite :: ms.map Multiple.product) = opposite :: ms.map Multiple.product :=
    congrArg (opposite :: ·) stands.others_eq
  have apart : AreApart (others (opposite :: ms.map Multiple.product)) := by
    have monomial : opposite.IsMonomial := ⟨.mul (.leaf (.num _)) (.leaf (.num _)), Nat.zero_le 1⟩
    obtain ⟨monomials, apart⟩ := stands.areApart distinct
    rw [own]
    exact ⟨List.forall_mem_cons.2 ⟨monomial, monomials⟩,
      List.pairwise_cons.2 ⟨fun t ht => (stands.occurs t ht).symm, apart⟩⟩
  have none : sumOfNumbers (opposite :: ms.map Multiple.product) = Scalar.emptySum :=
    stands.sumOfNumbers_eq
  obtain ⟨combined, combines, concludes⟩ :=
    combineSummands_of_opposite proper distinct simplify hms hn found
  let xs : List (Term α × Term α) := (opposite, .num (-n)) :: answered ms
  have searched : xs.map Prod.fst = opposite :: ms.map Multiple.product :=
    congrArg (opposite :: ·) (answered_fst ms)
  have answers : xs.map Prod.snd = .num (-n) :: ms.map Multiple.found :=
    congrArg (Term.num (-n) :: ·) (answered_snd ms)
  have two : 2 ≤ xs.length :=
    Nat.succ_le_succ (List.length_pos_iff.2 (List.map_eq_nil_iff.not.2 hms))
  have delivers : ∀ x ∈ xs, Delivers J A (find x.1) [x.2] :=
    List.forall_mem_cons.2 ⟨number, List.forall_mem_map.2 products⟩
  rw [← answers, ← none] at combines
  have delivered := sum_delivers_of_apart summands (own.trans searched.symm) apart two delivers
    combines
  rw [none, answers, List.map_cons, signed_of_found proper] at delivered
  exact concludes ▸ delivered

end Search

end AlgebraicTerms
