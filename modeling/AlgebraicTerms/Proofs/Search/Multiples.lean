import AlgebraicTerms.Proofs.LinearForms
import AlgebraicTerms.Proofs.Search.Delivery
import AlgebraicTerms.Proofs.Term.LinearForm

/-!
# The search for multiples

What is searched on behalf of a linear form has one candidate, which is known from its text
(`Resolves.unique`): a number, a variable, its first power or a multiple of that.
-/

namespace AlgebraicTerms

variable {α : Type} [Scalar α]

open Term

/-! ## What is found -/

namespace Formula

/-- The formula of a first power. -/
def firstPower (name : String) (index : Option String) : Formula α :=
  .binary .pow .nowhere (.var .nowhere name index) (.number .nowhere Scalar.one)

/-- What is found for a formula that is met while a linear form is searched. -/
inductive Resolution : Formula α → Term α → Prop
  | number (n) : Resolution (.number .nowhere n) (.num n)
  | opposite (n) : Resolution (.minus .nowhere (.number .nowhere n)) (.num (-n))
  | var (name index) : Resolution (.var .nowhere name index) (.var name index)
  | power (name index) : Resolution (firstPower name index) (.firstPower name index)
  | multiple (n name index) :
    Resolution (.binary .mul .nowhere (.number .nowhere n) (firstPower name index))
      (.bin .mul (.num n) (.firstPower name index))
  | minusMultiple (n name index) :
    Resolution (.minus .nowhere (.binary .mul .nowhere (.number .nowhere n)
      (firstPower name index)))
      (.bin .mul (.num (-n)) (.firstPower name index))
  | product (n name index) :
    Resolution (.minus .nowhere (.binary .mul .nowhere (.binary .mul .nowhere
      (.number .nowhere Scalar.one) (.number .nowhere n)) (firstPower name index)))
      (.bin .mul (.num (-n)) (.firstPower name index))
  | numbers (n) :
    Resolution (.minus .nowhere (.binary .mul .nowhere (.number .nowhere Scalar.one)
      (.number .nowhere n))) (.num (-n))

theorem Resolution.unique {f : Formula α} {c d : Term α} (h : f.Resolution c)
    (h' : f.Resolution d) : c = d := by
  cases h <;> cases h' <;> rfl

end Formula

/-- The terms that are searched on behalf of a linear form, in canonical order, with what is found
for them. -/
inductive Term.Resolves : Term α → Term α → Prop
  | one : Resolves (.num Scalar.one) (.num Scalar.one)
  | negOne : Resolves (.num Scalar.negOne) (.num Scalar.negOne)
  | var {name index} : (Term.var (α := α) name index).Legible →
    Resolves (.var name index) (.var name index)
  | power {name index} : (Term.var (α := α) name index).Legible →
    Resolves (.firstPower name index) (.firstPower name index)
  | multiple {n name index} : (Term.var (α := α) name index).Legible → Scalar.IsPositive n →
    Scalar.isOne n = false →
    Resolves (.bin .mul (.num n) (.firstPower name index))
      (.bin .mul (.num n) (.firstPower name index))
  | minusMultiple {n name index} : (Term.var (α := α) name index).Legible → Scalar.IsPositive n →
    Resolves (.bin .mul (.num (-n)) (.firstPower name index))
      (.bin .mul (.num (-n)) (.firstPower name index))
  | product {n name index} : (Term.var (α := α) name index).Legible → Scalar.IsPositive n →
    Resolves (.bin .mul (.bin .mul (.num Scalar.negOne) (.num n)) (.firstPower name index))
      (.bin .mul (.num (-n)) (.firstPower name index))
  | numbers {n} : Scalar.IsPositive n →
    Resolves (.bin .mul (.num Scalar.negOne) (.num n)) (.num (-n))

namespace Term

variable {t u l r c d : Term α} {n : α} {name : String} {index : Option String}

theorem formula_positive (h : Scalar.IsPositive n) : (num n).formula = .number .nowhere n := by
  rw [formula, h.nonzero, h.unsigned]
  rfl

theorem grade_le (t : Term α) : t.grade ≤ 5 := by
  rw [grade]
  cases t.formula with
  | binary op _ _ _ => cases op <;> exact Nat.le_of_ble_eq_true rfl
  | _ => exact Nat.le_of_ble_eq_true rfl

theorem grade_firstPower (name : String) (index : Option String) :
    (firstPower (α := α) name index).grade = 3 := grade_bin _ _ _

variable [Scalar.Legible α]

theorem formula_firstPower :
    (firstPower (α := α) name index).formula = Formula.firstPower name index := by
  have unsigned : Scalar.isNegative (Scalar.one : α) = false := Scalar.Legible.not_isNegative_one
  have right : (num (Scalar.one : α)).rightEnclosed .pow = false := by
    rw [rightEnclosed, leadsMinus, unsigned]
    rfl
  rw [firstPower, formula, right, formula_positive Scalar.isPositive_one]
  rfl

theorem formula_mul_firstPower (left : l.leftEnclosed .mul = false) :
    (bin .mul l (firstPower name index)).formula =
      l.formula.glue .mul (Formula.firstPower name index) := by
  rw [formula, left, formula_firstPower]
  rfl

theorem Resolves.legible (h : Resolves t c) : t.Legible := by
  have power {name : String} {index : Option String}
      (legible : (Term.var (α := α) name index).Legible) :
      (Term.firstPower (α := α) name index).Legible := ⟨legible, Scalar.Legible.isFinite_one⟩
  have negOne : Scalar.isFinite (Scalar.negOne : α) = true :=
    Scalar.Legible.isFinite_neg Scalar.Legible.isFinite_one
  cases h with
  | one => exact Scalar.Legible.isFinite_one
  | negOne => exact negOne
  | var legible => exact legible
  | power legible => exact power legible
  | multiple legible positive _ => exact ⟨positive.finite, power legible⟩
  | minusMultiple legible positive =>
      exact ⟨Scalar.Legible.isFinite_neg positive.finite, power legible⟩
  | product legible positive => exact ⟨⟨negOne, positive.finite⟩, power legible⟩
  | numbers positive => exact ⟨negOne, positive.finite⟩

variable [Scalar.Worded α] [Scalar.Unital α]

theorem formula_negative (h : Scalar.IsPositive n) :
    (num (-n)).formula = .minus .nowhere (.number .nowhere n) := by
  rw [formula, h.not_isZero_neg, h.isNegative_neg, Scalar.Worded.neg_neg]
  rfl

theorem Resolves.resolution (h : Resolves t c) : t.formula.Resolution c := by
  have negOne : (num (Scalar.negOne : α)).formula = .minus .nowhere (.number .nowhere Scalar.one) :=
    formula_negative Scalar.isPositive_one
  have numbers {n : α} (positive : Scalar.IsPositive n) :
      (bin .mul (num Scalar.negOne) (num n)).formula = .minus .nowhere (.binary .mul .nowhere
        (.number .nowhere Scalar.one) (.number .nowhere n)) := by
    have right : (num n).rightEnclosed .mul = false := positive.unsigned
    rw [formula, right, negOne, formula_positive positive]
    rfl
  cases h with
  | one =>
      rw [formula_positive Scalar.isPositive_one]
      exact .number _
  | negOne =>
      rw [negOne]
      exact .opposite _
  | var => exact .var _ _
  | power =>
      rw [formula_firstPower]
      exact .power _ _
  | multiple legible positive _ =>
      rw [formula_mul_firstPower rfl, formula_positive positive]
      exact .multiple _ _ _
  | minusMultiple legible positive =>
      rw [formula_mul_firstPower rfl, formula_negative positive]
      exact .minusMultiple _ _ _
  | product legible positive =>
      rw [formula_mul_firstPower rfl, numbers positive]
      exact .product _ _ _
  | numbers positive =>
      rw [numbers positive]
      exact .numbers _

/-- What is found is known from the text. -/
theorem Resolves.unique (h : Resolves t c) (h' : Resolves u d) (same : t.text = u.text) :
    c = d := by
  have resolution := h.resolution
  rw [formula_eq_of_text_eq h.legible h'.legible same] at resolution
  exact resolution.unique h'.resolution

end Term

namespace Search

variable {A : List String} {options : SearchOptions} {rule : FactoringRule α} {find : Finder α}
  {t u l r c : Term α} {g : ℕ} {n : α}

/-! ## Rules -/

section Rules

variable {J : Cache α → Prop} {name : String} {index : Option String}

theorem scale_delivers (notOne : Scalar.isOne n = false)
    (power : Delivers J A (find (.firstPower name index)) [.firstPower name index]) :
    Delivers J A (scale find n (.firstPower name index))
      [.bin .mul (.num n) (.firstPower name index)] := by
  rw [scale, notOne]
  exact power.bind (.pure _)

/-- A product of numbers is multiplied out. -/
theorem product_delivers_number (h : (Term.bin .mul l r).IsMonomial)
    (own : others ((Term.bin .mul l r).operandsIn .product) = [])
    (number : productOfNumbers ((Term.bin .mul l r).operandsIn .product) = n)
    (nonzero : Scalar.isZero n = false) :
    Delivers J A (product find (.bin .mul l r)) [.num n] := by
  have merged : Delivers J A (mergeFactors find ((Term.bin .mul l r).operandsIn .product))
      ⟨n, [], some [.num n]⟩ := by
    rw [mergeFactors, own, number, nonzero]
    exact .pure _
  rw [product, withExponents_of_product h.product, operands_of_chain rfl,
    mapM_reciprocalAsPower h.operandsIn, pure_bind]
  exact merged.bind (.pure _)

variable [Scalar.Legible α]

theorem isFirstPower_firstPower (legible : (Term.var (α := α) name index).Legible) :
    (firstPower (α := α) name index).IsFirstPower :=
  ⟨name, index, Scalar.one, rfl, legible, reads_one⟩

theorem powerOf_one (find : Finder α) (name : String) (index : Option String) :
    powerOf find (.var name index) (.num Scalar.one) = pure [.firstPower name index] := by
  have nonzero : ¬(Term.num (Scalar.one : α)).reads "0" = true := fun zero => by
    rw [reads, reads_iff.1 reads_one] at zero
    exact absurd zero (by decide)
  exact if_neg nonzero

theorem power_delivers (base : Delivers J A (find (.var name index)) [.var name index])
    (exponent : Delivers J A (find (.num Scalar.one)) [.num Scalar.one]) :
    Delivers J A (power find (.var name index) (.num Scalar.one)) [.firstPower name index] := by
  refine base.bind (exponent.bind ?_)
  rw [gather_singleton, gather_singleton, powerOf_one]
  exact .pure _

/-- A product of numbers and a first power is multiplied out. -/
theorem product_delivers (h : (Term.bin .mul l r).IsMonomial)
    (own : others ((Term.bin .mul l r).operandsIn .product) = [.firstPower name index])
    (number : productOfNumbers ((Term.bin .mul l r).operandsIn .product) = n)
    (legible : (Term.var (α := α) name index).Legible) (nonzero : Scalar.isZero n = false)
    (notOne : Scalar.isOne n = false)
    (power : Delivers J A (find (.firstPower name index)) [.firstPower name index]) :
    Delivers J A (product find (.bin .mul l r)) [.bin .mul (.num n) (.firstPower name index)] := by
  have first := isFirstPower_firstPower legible
  have merged : Delivers J A (mergeFactors find ((Term.bin .mul l r).operandsIn .product))
      ⟨n, [.firstPower name index], some [.bin .mul (.num n) (.firstPower name index)]⟩ := by
    rw [mergeFactors, own, number, nonzero]
    rw [if_neg Bool.false_ne_true, List.isEmpty_cons, if_neg Bool.false_ne_true,
      mergePowers_single true first, pure_bind, mergePowers_single false first, pure_bind]
    exact (scale_delivers notOne power).bind (.pure _)
  rw [product, withExponents_of_product h.product, operands_of_chain rfl,
    mapM_reciprocalAsPower h.operandsIn, pure_bind]
  exact merged.bind (.pure _)

end Rules

/-! ## The search -/

/-- Whether every remembered text is that of a searched term with what is found for it. -/
def Resolved (cache : Cache α) : Prop :=
  ∀ key found, cache.lookup key = some found → ∃ t c : Term α, Resolves t c ∧ t.text = key ∧
    found = [c]

theorem Resolved.nil : Resolved ([] : Cache α) := by
  intro key found hfound
  cases hfound

theorem Resolved.cons {cache : Cache α} (hcache : Resolved cache) (h : Resolves t c) :
    Resolved ((t.text, [c]) :: cache) := by
  intro key found hfound
  rw [List.lookup_cons] at hfound
  split at hfound
  · rename_i same
    cases hfound
    exact ⟨t, c, h, (beq_iff_eq.1 same).symm, rfl⟩
  · exact hcache key found hfound

variable [Scalar.Legible α] [Scalar.Worded α] [Scalar.Unital α]

theorem Resolved.known {cache : Cache α} {found : List (Term α)} (hcache : Resolved cache)
    (h : Resolves t c) (hfound : cache.lookup t.text = some found) : found = [c] := by
  obtain ⟨u, d, hu, same, rfl⟩ := hcache _ _ hfound
  rw [hu.unique h same]

/-- Whether a finder delivers what is to be found for terms of at least the given grade, if the
terms at work are outside of them. -/
def DeliversFrom (g : ℕ) (find : Finder α) : Prop :=
  ∀ A t c, Resolves t.sorted c → Inside A t.sorted → g ≤ t.sorted.grade →
    Delivers Resolved A (find t) [c]

/-- A searched term is found if its operation finds it. -/
theorem candidatesVia_delivers (h : Resolves t.sorted c) (hA : Inside A t.sorted)
    (byRule : Delivers Resolved (t.sorted.text :: A) (candidatesByRule rule find t.sorted) [c]) :
    Delivers Resolved A (candidatesVia options rule find t) [c] := by
  have idle := hA.notMem h.legible
  have hinv (i : Inverse) (operand : Term α) : t.sorted ≠ .inv i operand := by
    intro same
    rw [same] at h
    cases h
  intro s hactive hcache
  cases hfound : s.cache.lookup t.sorted.text with
  | some found =>
      obtain rfl := hcache.known h hfound
      refine ⟨s, ?_, hactive, hcache⟩
      rw [candidatesVia, get_run, hfound]
      rfl
  | none =>
      obtain ⟨v, hrun, busy, known⟩ := byRule (s.enter t.sorted.text)
        (congrArg (t.sorted.text :: ·) hactive) hcache
      rw [← hactive] at idle
      obtain ⟨w, active, cache, _, hcompute⟩ := compute_run options hinv hrun
      rw [candidatesVia_run hfound idle, working_run, hcompute, pruned_singleton]
      refine ⟨_, rfl, ?_, ?_⟩
      · show w.active.erase t.sorted.text = A
        rw [active, busy, List.erase_cons_head]
      · show Resolved ((t.sorted.text, [c]) :: w.cache)
        rw [cache]
        exact known.cons h

theorem candidatesByRule_delivers (hfind : DeliversFrom (g + 1) find) (h : Resolves t c)
    (hA : Inside A t) (hg : g ≤ t.grade) :
    Delivers Resolved (t.text :: A) (candidatesByRule rule find t) [c] := by
  have inner {u d : Term α} (hu : Resolves u.sorted d) (higher : t.grade < u.sorted.grade) :
      Delivers Resolved (t.text :: A) (find u) [d] :=
    hfind _ u d hu (hA.cons h.legible (.inl higher)) (Nat.lt_of_le_of_lt hg higher)
  have power {name : String} {index : Option String}
      (legible : (Term.var (α := α) name index).Legible) (grade : t.grade < 3) :
      Delivers Resolved (t.text :: A) (find (.firstPower name index))
        [.firstPower name index] :=
    inner (.power legible) (grade.trans_eq (grade_firstPower name index).symm)
  have factor {name : String} {index : Option String}
      (legible : (Term.var (α := α) name index).Legible) :
      IsFactor (.firstPower (α := α) name index) := .power legible reads_one
  have opposite (n : α) : Scalar.product [Scalar.negOne, n] = -n := by
    show Scalar.ofNat 1 * Scalar.negOne * n = -n
    rw [Scalar.Unital.one_mul, Scalar.Unital.negOne_mul]
  cases h with
  | one => exact .pure _
  | negOne => exact .pure _
  | var => exact .pure _
  | power legible =>
      refine power_delivers (inner (.var legible) ?_) (inner .one ?_)
      · rw [grade_firstPower]
        exact Nat.le_of_ble_eq_true rfl
      · rw [grade_firstPower]
        exact (grade_of_reads_one reads_one).ge
  | multiple legible positive notOne =>
      exact product_delivers ⟨.mul (.leaf (.num _)) (.leaf (factor legible)), Nat.le_refl 1⟩ rfl
        (Scalar.Unital.one_mul _) legible positive.nonzero notOne
        (power legible (by rw [grade_bin]; decide))
  | minusMultiple legible positive =>
      exact product_delivers ⟨.mul (.leaf (.num _)) (.leaf (factor legible)), Nat.le_refl 1⟩ rfl
        (Scalar.Unital.one_mul _) legible positive.not_isZero_neg positive.not_isOne_neg
        (power legible (by rw [grade_bin]; decide))
  | product legible positive =>
      exact product_delivers
        ⟨.mul (.mul (.leaf (.num _)) (.leaf (.num _))) (.leaf (factor legible)), Nat.le_refl 1⟩ rfl
        (opposite _) legible positive.not_isZero_neg positive.not_isOne_neg
        (power legible (by rw [grade_bin]; decide))
  | numbers positive =>
      exact product_delivers_number ⟨.mul (.leaf (.num _)) (.leaf (.num _)), Nat.zero_le 1⟩ rfl
        (opposite _) positive.not_isZero_neg

/-- The looser a term binds, the deeper it has to be searched. -/
theorem candidatesWithin_delivers (options : SearchOptions) (rule : FactoringRule α) (depth : ℕ) :
    DeliversFrom (6 - depth) (candidatesWithin (α := α) options rule depth) := by
  induction depth with
  | zero => exact fun A t c _ _ hg => absurd hg (Nat.not_le.2 (Nat.lt_succ_of_le t.sorted.grade_le))
  | succ depth ih =>
      intro A t c h hA hg
      refine candidatesVia_delivers h hA (candidatesByRule_delivers ?_ h hA hg)
      exact fun A t c h hA hg => ih A t c h hA (by omega)

end Search

/-! ## Multiples -/

namespace Multiple

variable {m : Multiple α}

/-- The multiple as it is searched for, with its minus as a factor. -/
def product (m : Multiple α) : Term α := (m.signed m.power).negationsAsProducts

/-- The number in front of the variable, unless that is one. -/
def coefficient? (m : Multiple α) : Option α :=
  if m.negative then some (-(m.factor.getD Scalar.one)) else m.factor

/-- What is found for the multiple. -/
def found (m : Multiple α) : Term α :=
  match m.coefficient? with
  | none => m.power
  | some n => .bin .mul (.num n) m.power

variable [Scalar.Legible α] [Scalar.Worded α] [Scalar.Unital α]

omit [Scalar.Legible α] in
theorem not_reads_opposite {n : α} (h : Scalar.IsPositive n) : (Term.num (-n)).reads "1" = false :=
  Bool.eq_false_iff.2 fun one => by
    have unsigned := not_isNegative_of_reads_one one
    rw [h.isNegative_neg] at unsigned
    cases unsigned

/-- A product with two numbers is put in order number by number. -/
theorem sorted_product {n : α} (proper : m.IsProper) (h : m.factor = some n) :
    (Term.bin .mul (.num Scalar.negOne) (.bin .mul (.num n) m.power)).sorted =
      .bin .mul (.bin .mul (.num Scalar.negOne) (.num n)) m.power := by
  have hx : Places (α := α) power := .inr rfl
  have order : InOrder [.num Scalar.negOne, .num n, m.power] := by
    refine List.pairwise_cons.2 ⟨fun t ht => ?_, List.pairwise_pair.2 ?_⟩
    · rcases List.mem_pair.1 ht with rfl | rfl
      · exact .refl _
      · rw [hx.sortKey]
        exact number_atMost _ _
    · rw [hx.sortKey]
      exact number_atMost _ _
  have negOne := not_reads_opposite (α := α) Scalar.isPositive_one
  have other := (hx.legible proper).not_reads rfl .product
  have inner : Chain.product.append (.num Scalar.negOne) (.num n) =
      Chain.product.attach (.num Scalar.negOne) (.num n) :=
    Chain.append_of_proper negOne (proper.factor_reads h)
  have outer (chain : Term α) (hchain : chain.reads Chain.product.identityText = false) :
      Chain.product.append chain m.power = Chain.product.attach chain m.power :=
    Chain.append_of_proper hchain other
  rw [sorted_eq_join .product]
  show Chain.product.join (sortByKey [.num Scalar.negOne, .num n, m.power]) = _
  rw [sortByKey_of_inOrder order]
  show Chain.product.append (Chain.product.append (.num Scalar.negOne) (.num n)) m.power = _
  rw [inner, outer _ (Chain.attach_reads .product .product _ _)]
  rfl

/-- Minus one times a number is found as the opposite. -/
theorem negOne_mul_resolves {n : α} (h : Scalar.IsPositive n) :
    Resolves (Term.bin .mul (.num Scalar.negOne) (.num n)).sorted (.num (-n)) := by
  have negOne : (Term.num (Scalar.negOne : α)).reads "1" = false :=
    not_reads_opposite Scalar.isPositive_one
  have order : InOrder [.num Scalar.negOne, .num n] := List.pairwise_pair.2 (.refl _)
  have ordered : (Term.bin .mul (.num Scalar.negOne) (.num n)).sorted =
      Chain.product.append (.num Scalar.negOne) (.num n) := by
    rw [sorted_eq_join .product]
    show Chain.product.join (sortByKey [.num Scalar.negOne, .num n]) = _
    rw [sortByKey_of_inOrder order]
    rfl
  rw [ordered]
  cases one : (Term.num n).reads "1" with
  | true =>
      obtain rfl := eq_one_of_reads h.finite one
      have alone : Chain.product.append (.num Scalar.negOne) (.num Scalar.one) =
          (.num Scalar.negOne : Term α) := if_pos reads_one
      rw [alone]
      exact .negOne
  | false =>
      rw [Chain.append_of_proper negOne one]
      exact .numbers h

theorem unsigned_resolves (proper : m.IsProper) :
    Resolves (m.unsigned m.power).sorted (m.unsigned m.power) := by
  have hx : Places (α := α) power := .inr rfl
  rw [unsigned]
  cases h : m.factor with
  | none => exact .power proper.legible
  | some n =>
      dsimp only
      rw [hx.sorted_scaled proper (proper.factor_reads h)]
      exact .multiple proper.legible (proper.factor n h) (proper.notOne n h)

theorem found_resolves (proper : m.IsProper) : Resolves m.found.sorted m.found := by
  have hx : Places (α := α) power := .inr rfl
  cases hm : m.negative with
  | true =>
      have positive : Scalar.IsPositive (m.factor.getD Scalar.one) := by
        cases h : m.factor with
        | none => exact Scalar.isPositive_one
        | some n => exact proper.factor n h
      rw [found, coefficient?, if_pos hm]
      dsimp only
      rw [hx.sorted_scaled proper (not_reads_opposite positive)]
      exact .minusMultiple proper.legible positive
  | false =>
      have same : m.found = m.unsigned m.power := by
        rw [found, coefficient?, hm, unsigned]
        rfl
      rw [same]
      exact unsigned_resolves proper

theorem product_resolves (proper : m.IsProper) : Resolves m.product.sorted m.found := by
  have hx : Places (α := α) power := .inr rfl
  cases hm : m.negative with
  | false =>
      have same : m.product = m.found := by
        rw [product, signed, unsigned, found, coefficient?, hm]
        cases m.factor <;> rfl
      rw [same]
      exact found_resolves proper
  | true =>
      rw [product, signed, unsigned, found, coefficient?, hm, if_pos rfl, if_pos rfl]
      cases h : m.factor with
      | none =>
          have ordered : (Term.bin .mul (.num Scalar.negOne) m.power).sorted =
              .bin .mul (.num Scalar.negOne) m.power :=
            hx.sorted_scaled proper (not_reads_opposite Scalar.isPositive_one)
          show Resolves (Term.bin .mul (.num Scalar.negOne) m.power).sorted _
          rw [ordered]
          exact .minusMultiple proper.legible Scalar.isPositive_one
      | some n =>
          show Resolves (Term.bin .mul (.num Scalar.negOne) (.bin .mul (.num n) m.power)).sorted _
          rw [sorted_product proper h]
          exact .product proper.legible (proper.factor n h)

end Multiple

end AlgebraicTerms
