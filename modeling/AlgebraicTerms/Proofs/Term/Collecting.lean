import AlgebraicTerms.Proofs.Term.LikeTerms
import AlgebraicTerms.Proofs.Term.Tidy

/-!
# Collecting monomials

Two monomials are like terms iff they have the same variable, or none.  So after like terms are added
up, no two summands have the same variable (`collect_pairwise`).
-/

namespace AlgebraicTerms

namespace Term

variable {α : Type} [Scalar α] {t u : Term α} {ts us : List (Term α)} {vs : List Unknown} {n : α}

/-! ## Factors of monomials -/

theorem IsFirstPower.isFactor (h : t.IsFirstPower) : IsFactor t := by
  obtain ⟨name, index, n, rfl, legible, one⟩ := h
  exact .power legible one

/-- Factors that are not numbers, and the variables in them: at most one power of a variable. -/
def HaveUnknowns (ts : List (Term α)) (vs : List Unknown) : Prop :=
  ts = [] ∧ vs = [] ∨ ∃ u, ts = [u] ∧ u.IsFirstPower ∧ vs = u.unknowns

theorem others_haveUnknowns (hts : ∀ u ∈ ts, IsFactor u) (single : (allUnknowns ts).length ≤ 1) :
    HaveUnknowns (others ts) (allUnknowns ts) := by
  induction ts with
  | nil => exact .inl ⟨rfl, rfl⟩
  | cons t ts ih =>
      have rest := fun u hu => hts u (List.mem_cons_of_mem t hu)
      rw [allUnknowns_cons] at single ⊢
      cases hts t List.mem_cons_self with
      | num n => exact ih rest single
      | @power name index n legible one =>
          have none : allUnknowns ts = [] :=
            List.length_eq_zero_iff.1 (Nat.le_zero.1 (Nat.le_of_succ_le_succ single))
          have only : others ts = [] := by
            rcases ih rest (none.symm ▸ Nat.zero_le 1) with ⟨h, _⟩ | ⟨u, _, ⟨_, _, _, rfl, _⟩, h⟩
            · exact h
            · rw [none] at h
              cases h
          refine .inr ⟨_, ?_, ⟨name, index, n, rfl, legible, one⟩, by rw [none]; rfl⟩
          show bin .pow (var name index) (Term.num n) :: others ts = _
          rw [only]

theorem IsMonomial.haveUnknowns (h : t.IsMonomial) :
    HaveUnknowns (others (t.operandsIn .product)) t.unknowns := by
  have single := h.single
  rw [← operandsIn_unknowns .product] at single ⊢
  exact others_haveUnknowns h.operandsIn single

theorem isMonomial_num (n : α) : (num n).IsMonomial := ⟨.leaf (.num n), Nat.zero_le 1⟩

theorem IsMonomial.scaled (h : t.IsMonomial) (n : α) : (bin .mul (num n) t).IsMonomial :=
  ⟨.mul (.leaf (.num n)) h.product, h.single⟩

theorem IsFirstPower.isMonomial (h : t.IsFirstPower) : t.IsMonomial := by
  refine ⟨.leaf h.isFactor, ?_⟩
  obtain ⟨name, index, n, rfl, _, _⟩ := h
  exact Nat.le_refl 1

theorem IsMonomial.leadsTrigonometric (h : t.IsMonomial) : t.leadsTrigonometric = false := by
  cases h.product with
  | leaf h => cases h <;> rfl
  | mul hl _ =>
      cases hl with
      | leaf h => cases h <;> rfl
      | mul _ _ => rfl

theorem IsMonomial.identitySum? (h : t.IsMonomial) (h' : u.IsMonomial) :
    Term.identitySum? t u = none := by
  rw [Term.identitySum?, h.leadsTrigonometric, h'.leadsTrigonometric]
  rfl

/-- A monomial is its number, or that many times the power in it. -/
theorem IsMonomial.gathered [Scalar.Exact α] (h : t.IsMonomial) :
    others (t.operandsIn .product) = [] ∧
        t.Keeps (num (productOfNumbers (t.operandsIn .product))) ∨
      ∃ u, others (t.operandsIn .product) = [u] ∧ u.IsFirstPower ∧
        t.Keeps (bin .mul (num (productOfNumbers (t.operandsIn .product))) u) := by
  rcases h.haveUnknowns with ⟨none, _⟩ | ⟨u, one, hu, _⟩
  · refine .inl ⟨none, fun ρ a ha => ?_⟩
    obtain ⟨b, hb, rfl⟩ := (operandsIn_total (c := .product) ha).others
    rw [none] at hb
    cases hb
    rw [Chain.combine_unit]
    exact .num _
  · refine .inr ⟨u, one, hu, fun ρ a ha => ?_⟩
    obtain ⟨b, hb, rfl⟩ := (operandsIn_total (c := .product) ha).others
    rw [one] at hb
    cases hb with
    | cons hb hnil =>
        cases hnil
        rw [Chain.combine_unit]
        exact .mul (.num _) hb

/-! ## Texts of powers -/

section Texts

theorem value_of_reads_one [Scalar.Exact α] [Scalar.Legible α] (one : (num n).reads "1" = true) :
    Scalar.Exact.value n = 1 :=
  (hasValue_num origin n).eq_one one

variable [Scalar.Legible α] [Scalar.PlainOne α]

omit [Scalar.Legible α] in
theorem not_isNegative_of_reads_one (one : (num n).reads "1" = true) :
    Scalar.isNegative n = false := by
  have text : numberText n = "1" := reads_iff.1 one
  rw [numberText] at text
  split at text
  · exact absurd text (by decide)
  · exact Scalar.PlainOne.not_isNegative text

omit [Scalar.Legible α] in
theorem power_text {name : String} {index : Option String} (one : (num n).reads "1" = true) :
    (bin .pow (var name index) (num n)).text = (var (α := α) name index).text ++ "^1" := by
  have unsigned : (num n).leadsMinus = false := not_isNegative_of_reads_one one
  show parenthesized false (var (α := α) name index).text ++ "^" ++
    parenthesized ((num n).isOperation || (num n).leadsMinus) (num n).text = _
  rw [unsigned, reads_iff.1 one, String.append_assoc]
  rfl

omit [Scalar.PlainOne α] in
theorem var_of_text_eq {name name' : String} {index index' : Option String}
    (h : (var (α := α) name index).Legible) (h' : (var (α := α) name' index').Legible)
    (same : (var (α := α) name index).text = (var (α := α) name' index').text) :
    (name, index) = (name', index') := by
  have formulas := formula_eq_of_text_eq h h' same
  rw [formula, formula] at formulas
  injection formulas with _ sameName sameIndex
  rw [sameName, sameIndex]

/-- First powers read the same iff they have the same variable. -/
theorem IsFirstPower.text_eq_iff (h : t.IsFirstPower) (h' : u.IsFirstPower) :
    t.text = u.text ↔ t.unknowns = u.unknowns := by
  obtain ⟨name, index, n, rfl, legible, one⟩ := h
  obtain ⟨name', index', n', rfl, legible', one'⟩ := h'
  rw [power_text one, power_text one']
  constructor
  · intro same
    rw [← String.toList_inj, String.toList_append, String.toList_append] at same
    have base := String.toList_inj.1 (List.append_cancel_right same)
    exact congrArg (fun v => [v]) (var_of_text_eq legible legible' base)
  · intro same
    injection same with same
    injection same with sameName sameIndex
    rw [sameName, sameIndex]

end Texts

/-! ## Piles -/

/-- What is known of a pile of monomials with the given variables. -/
structure Pile.Holds (p : Pile α) (vs : List Unknown) : Prop where
  factors : HaveUnknowns p.monomial.factors vs
  sum : ∀ s ∈ p.sum, s.IsMonomial ∧ s.unknowns = vs

theorem monomial_factors (t : Term α) :
    (Monomial.of t).factors = others (t.operandsIn .product) := rfl

theorem Pile.of_holds (h : t.IsMonomial) : (Pile.of t).Holds t.unknowns :=
  ⟨h.haveUnknowns, fun _ hs => Option.some.inj hs ▸ ⟨h, rfl⟩⟩

variable [Scalar.Legible α] [Scalar.PlainOne α]

/-- A summand is added to a pile iff it has the variables of the pile. -/
theorem Pile.Holds.add? {p : Pile α} (hp : p.Holds vs) (h : t.IsMonomial) :
    match p.add? t with
    | some q => q.Holds vs ∧ t.unknowns = vs
    | none => t.unknowns ≠ vs := by
  have noIdentity : p.sum.bind (Term.identitySum? · t) = none := by
    cases hs : p.sum with
    | none => rfl
    | some s => exact (hp.sum s hs).1.identitySum? h
  rw [Pile.add?, noIdentity]
  simp only [monomial_factors]
  rcases hp.factors with ⟨own, rfl⟩ | ⟨u, own, hu, rfl⟩
  · rcases h.haveUnknowns with ⟨other, none⟩ | ⟨w, other, hw, hvs⟩
    · rw [own, other]
      exact ⟨⟨.inl ⟨rfl, rfl⟩, fun s hs => Option.some.inj hs ▸ ⟨isMonomial_num _, rfl⟩⟩, none⟩
    · rw [own, other]
      obtain ⟨name, index, n, rfl, _, _⟩ := hw
      rw [hvs]
      exact List.cons_ne_nil _ _
  · rcases h.haveUnknowns with ⟨other, none⟩ | ⟨w, other, hw, hvs⟩
    · rw [own, other, none]
      obtain ⟨name, index, n, rfl, _, _⟩ := hu
      exact (List.cons_ne_nil _ _).symm
    · rw [own, other]
      have products : p.monomial.product = u ∧ (Monomial.of t).product = w := by
        rw [Monomial.product, Monomial.product, monomial_factors, own, other]
        exact ⟨rfl, rfl⟩
      simp only [List.isEmpty_cons, products]
      by_cases same : (u == w) = true
      · simp only [same, if_true]
        refine ⟨⟨.inr ⟨u, rfl, hu, rfl⟩, fun s hs => ?_⟩,
          hvs.trans ((hu.text_eq_iff hw).1 (beq_iff.1 same)).symm⟩
        split at hs
        · cases hs
        · exact Option.some.inj hs ▸ ⟨hu.isMonomial.scaled _, rfl⟩
      · simp only [same]
        rw [hvs]
        exact fun equal => same (beq_iff.2 ((hu.text_eq_iff hw).2 equal.symm))

theorem Pile.Holds.addAll {p : Pile α} (hp : p.Holds vs) (hts : ∀ t ∈ ts, t.IsMonomial) :
    (∀ s ∈ (p.addAll ts).1, s.IsMonomial ∧ s.unknowns = vs) ∧ (p.addAll ts).2.Sublist ts ∧
      ∀ t ∈ (p.addAll ts).2, t.unknowns ≠ vs := by
  induction ts generalizing p with
  | nil => exact ⟨hp.sum, .refl _, nofun⟩
  | cons t ts ih =>
      have rest := fun u hu => hts u (List.mem_cons_of_mem t hu)
      have step := hp.add? (hts t List.mem_cons_self)
      rw [Pile.addAll]
      cases hq : p.add? t with
      | some q =>
          rw [hq] at step
          obtain ⟨sum, sublist, left⟩ := ih step.1 rest
          exact ⟨sum, sublist.cons t, left⟩
      | none =>
          rw [hq] at step
          obtain ⟨sum, sublist, left⟩ := ih hp rest
          exact ⟨sum, sublist.cons_cons t, List.forall_mem_cons.2 ⟨step, left⟩⟩

/-- Collected monomials are monomials with the same variables, no two of them alike. -/
theorem collectWithin_pairwise {piles : ℕ} (hpiles : ts.length ≤ piles)
    (hts : ∀ t ∈ ts, t.IsMonomial) :
    (∀ s ∈ collectWithin piles ts, s.IsMonomial ∧ ∃ t ∈ ts, s.unknowns = t.unknowns) ∧
      (collectWithin piles ts).Pairwise fun s s' => s.unknowns ≠ s'.unknowns := by
  induction piles generalizing ts with
  | zero =>
      obtain rfl := List.length_eq_zero_iff.1 (Nat.le_zero.1 hpiles)
      exact ⟨nofun, .nil⟩
  | succ piles ih =>
      cases ts with
      | nil => exact ⟨nofun, .nil⟩
      | cons t ts =>
          have rest := fun u hu => hts u (List.mem_cons_of_mem t hu)
          obtain ⟨sum, sublist, left⟩ := (Pile.of_holds (hts t List.mem_cons_self)).addAll rest
          have fewer := sublist.length_le.trans (Nat.le_of_succ_le_succ hpiles)
          obtain ⟨members, pairwise⟩ := ih fewer fun u hu => rest u (sublist.subset hu)
          rw [collectWithin]
          constructor
          · intro s hs
            rcases List.mem_append.1 hs with hs | hs
            · obtain ⟨monomial, same⟩ := sum s (Option.mem_toList.1 hs)
              exact ⟨monomial, t, List.mem_cons_self, same⟩
            · obtain ⟨monomial, u, hu, same⟩ := members s hs
              exact ⟨monomial, u, List.mem_cons_of_mem t (sublist.subset hu), same⟩
          · refine List.pairwise_append.2 ⟨?_, pairwise, fun s hs s' hs' same => ?_⟩
            · cases ((Pile.of t).addAll ts).1 with
              | none => exact .nil
              | some s => exact List.pairwise_singleton _ _
            · obtain ⟨_, u, hu, same'⟩ := members s' hs'
              exact left u hu (same'.symm.trans (same.symm.trans (sum s (Option.mem_toList.1 hs)).2))

/-- Monomials with different variables stay as they are. -/
theorem Pile.addAll_of_apart {p : Pile α} (hp : p.Holds vs)
    (hts : ∀ t ∈ ts, t.IsMonomial ∧ t.unknowns ≠ vs) : p.addAll ts = (p.sum, ts) := by
  induction ts with
  | nil => rfl
  | cons t ts ih =>
      obtain ⟨⟨monomial, apart⟩, rest⟩ := List.forall_mem_cons.1 hts
      have step := hp.add? monomial
      rw [Pile.addAll]
      cases hq : p.add? t with
      | some q =>
          rw [hq] at step
          exact absurd step.2 apart
      | none => rw [ih rest]

theorem collect_of_apart (hts : ∀ t ∈ ts, t.IsMonomial)
    (apart : ts.Pairwise fun t u => t.unknowns ≠ u.unknowns) : collect ts = ts := by
  rw [collect]
  induction ts with
  | nil => rfl
  | cons t ts ih =>
      obtain ⟨ht, rest⟩ := List.forall_mem_cons.1 hts
      obtain ⟨first, others⟩ := List.pairwise_cons.1 apart
      rw [List.length_cons, collectWithin,
        Pile.addAll_of_apart (Pile.of_holds ht) fun u hu => ⟨rest u hu, (first u hu).symm⟩]
      exact congrArg (t :: ·) (ih rest others)

theorem collect_pairwise (hts : ∀ t ∈ ts, t.IsMonomial) :
    (∀ s ∈ collect ts, s.IsMonomial ∧ ∃ t ∈ ts, s.unknowns = t.unknowns) ∧
      (collect ts).Pairwise fun s s' => s.unknowns ≠ s'.unknowns :=
  collectWithin_pairwise (Nat.le_refl _) hts

end Term

end AlgebraicTerms
