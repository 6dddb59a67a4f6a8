import AlgebraicTerms.Proofs.Term.Monomials

/-!
# Tidy terms

A term is tidy if every variable occurs once and makes a difference, so that a term without variables
is a number.  Which variables make a difference is seen from the values alone, so that a tidy term
stays tidy when it is rewritten without changing values or adding variables.
-/

namespace AlgebraicTerms

namespace Term

variable {α : Type} [Scalar α] [Scalar.Exact α] {t u : Term α} {ts : List (Term α)} {v : Unknown}
  {n : α}

/-- Whether a term has a value everywhere. -/
def IsTotal (t : Term α) : Prop := ∀ ρ : Assignment ℚ, ∃ a, t.HasValue ρ a

/-- Whether a term has the values of another. -/
def Keeps (t u : Term α) : Prop := ∀ (ρ : Assignment ℚ) (a : ℚ), t.HasValue ρ a → u.HasValue ρ a

/-- Whether a variable makes a difference to the value of a term. -/
def Needs (t : Term α) (v : Unknown) : Prop :=
  ∀ a b, t.HasValue (unitAt v) a → t.HasValue origin b → a ≠ b

structure IsTidy (t : Term α) : Prop where
  nodup : t.unknowns.Nodup
  needed : ∀ v ∈ t.unknowns, t.Needs v
  number : t.unknowns = [] → t.isNumber = true

theorem IsTotal.keep (h : t.IsTotal) (keeps : t.Keeps u) : u.IsTotal := by
  intro ρ
  obtain ⟨a, ha⟩ := h ρ
  exact ⟨a, keeps ρ a ha⟩

theorem Keeps.trans {w : Term α} (h : t.Keeps u) (h' : u.Keeps w) : t.Keeps w :=
  fun ρ a ha => h' ρ a (h ρ a ha)

theorem IsTotal.legible (h : t.IsTotal) : t.Legible := by
  obtain ⟨a, ha⟩ := h origin
  exact ha.legible

omit [Scalar α] [Scalar.Exact α] in
theorem unitAt_of_notMem (h : v ∉ t.unknowns) :
    ∀ w ∈ t.unknowns, unitAt v w.1 w.2 = origin w.1 w.2 := by
  refine fun w hw => if_neg fun same => h ?_
  rw [← same]
  exact hw

theorem Keeps.needs_of_needs (keeps : t.Keeps u) (h : u.Needs v) : t.Needs v :=
  fun a b ha hb => h a b (keeps _ a ha) (keeps _ b hb)

theorem isTidy_num (n : α) : (num n).IsTidy :=
  ⟨List.nodup_nil, fun _ h => absurd h List.not_mem_nil, fun _ => rfl⟩

theorem isTidy_var (name : String) (index : Option String) :
    (var (α := α) name index).IsTidy := by
  refine ⟨List.nodup_singleton _, fun v hv a b ha hb => ?_, fun none => absurd none (List.cons_ne_nil _ _)⟩
  obtain rfl := List.eq_of_mem_singleton hv
  cases ha
  cases hb
  rw [unitAt, if_pos rfl, origin]
  exact one_ne_zero

/-- A term is tidy if all that makes a difference to a tidy term makes a difference to it. -/
theorem IsTidy.of_needs (h : t.IsTidy) (same : u.unknowns = t.unknowns)
    (needs : ∀ v, t.Needs v → u.Needs v) (number : t.isNumber = true → u.isNumber = true) :
    u.IsTidy :=
  ⟨same ▸ h.nodup, fun v hv => needs v (h.needed v (same ▸ hv)), fun none =>
    number (h.number (same ▸ none))⟩

/-- Only variables that occur make a difference. -/
theorem Needs.mem (h : t.Needs v) (total : t.IsTotal) : v ∈ t.unknowns := by
  by_contra hv
  obtain ⟨a, ha⟩ := total (unitAt v)
  exact h a a ha (ha.congr (unitAt_of_notMem hv)) rfl

/-- The variables of a tidy term occur in every term that it has the values of. -/
theorem IsTidy.subset (h : u.IsTidy) (keeps : t.Keeps u) (total : t.IsTotal) :
    u.unknowns ⊆ t.unknowns :=
  fun v hv => (keeps.needs_of_needs (h.needed v hv)).mem total

theorem IsTidy.subperm (h : u.IsTidy) (keeps : t.Keeps u) (total : t.IsTotal) :
    u.unknowns.Subperm t.unknowns :=
  List.subperm_of_subset h.nodup (h.subset keeps total)

variable [Scalar.Legible α]

theorem Keeps.needs (keeps : t.Keeps u) (total : t.IsTotal) (h : t.Needs v) : u.Needs v := by
  intro a b ha hb
  obtain ⟨x, hx⟩ := total (unitAt v)
  obtain ⟨y, hy⟩ := total origin
  rw [ha.unique (keeps _ _ hx), hb.unique (keeps _ _ hy)]
  exact h x y hx hy

/-- Rewriting keeps a term tidy. -/
theorem IsTidy.keep (h : t.IsTidy) (total : t.IsTotal) (keeps : t.Keeps u)
    (fewer : u.unknowns.Subperm t.unknowns) (number : t.isNumber = true → u.isNumber = true) :
    u.IsTidy := by
  refine ⟨nodup_of_subperm fewer h.nodup, fun v hv =>
    keeps.needs total (h.needed v (fewer.subset hv)), fun none => ?_⟩
  refine number (h.number (List.eq_nil_iff_forall_not_mem.2 fun v hv => ?_))
  have needed := (keeps.needs total (h.needed v hv)).mem (total.keep keeps)
  rw [none] at needed
  cases needed

/-! ## Multiples, sums with a number and opposites -/

theorem IsTidy.scaled (h : t.IsTidy) (hn : Scalar.Exact.value n ≠ 0) (ht : t.isNumber = false) :
    (bin .mul (num n) t).IsTidy := by
  refine h.of_needs rfl (fun v hv a b ha hb => ?_) fun number =>
    absurd number (Bool.eq_false_iff.1 ht)
  cases ha with
  | mul hm ha =>
      cases hb with
      | mul hm' hb =>
          rw [hm.unique (hasValue_num _ n), hm'.unique (hasValue_num _ n)]
          exact fun same => hv _ _ ha hb (mul_left_cancel₀ hn same)

theorem IsTidy.raised (h : t.IsTidy) (ht : t.isNumber = false) : (bin .add (num n) t).IsTidy := by
  refine h.of_needs rfl (fun v hv a b ha hb => ?_) fun number =>
    absurd number (Bool.eq_false_iff.1 ht)
  cases ha with
  | add hm ha =>
      cases hb with
      | add hm' hb =>
          rw [hm.unique (hasValue_num _ n), hm'.unique (hasValue_num _ n)]
          exact fun same => hv _ _ ha hb (add_left_cancel same)

theorem IsTidy.negated (h : t.IsTidy) (total : t.IsTotal) : t.negated.IsTidy := by
  refine h.of_needs (negated_unknowns t) (fun v hv a b ha hb same => ?_) fun number => ?_
  · obtain ⟨x, hx⟩ := total (unitAt v)
    obtain ⟨y, hy⟩ := total origin
    refine hv x y hx hy (neg_injective ?_)
    rw [← ha.unique (negated_hasValue hx), ← hb.unique (negated_hasValue hy), same]
  · cases t <;> first | rfl | cases number

/-- The first power of a variable. -/
def IsFirstPower (t : Term α) : Prop :=
  ∃ name index n, t = bin .pow (var name index) (num n) ∧ (var (α := α) name index).Legible ∧
    (num n).reads "1" = true

theorem IsFirstPower.isTidy (h : t.IsFirstPower) : t.IsTidy := by
  obtain ⟨name, index, n, rfl, legible, one⟩ := h
  have value {ρ : Assignment ℚ} {a : ℚ}
      (ha : (bin .pow (var name index) (num n)).HasValue ρ a) : a = ρ name index := by
    have base := withoutTrivialPowers_hasValue ha
    rw [withoutTrivialPowers, if_pos one] at base
    exact base.unique (.var legible)
  refine ⟨List.nodup_singleton _, fun v hv a b ha hb => ?_, fun none => absurd none (List.cons_ne_nil _ _)⟩
  obtain rfl := List.eq_of_mem_singleton hv
  rw [value ha, value hb, unitAt, if_pos rfl, origin]
  exact one_ne_zero

/-! ## Sums of tidy terms -/

/-- A variable that makes a difference to one summand makes a difference to the sum, if it occurs in
no other. -/
theorem sum_needs (hts : ∀ t ∈ ts, ∀ v ∈ t.unknowns, t.Needs v) (nodup : (allUnknowns ts).Nodup)
    (hv : v ∈ allUnknowns ts) {a b : ℚ} (ha : Chain.sum.Total (unitAt v) ts a)
    (hb : Chain.sum.Total origin ts b) : a ≠ b := by
  have unchanged {us : List (Term α)} (hv : v ∉ allUnknowns us) {a b : ℚ}
      (ha : Chain.sum.Total (unitAt v) us a) (hb : Chain.sum.Total origin us b) : a = b := by
    induction us generalizing a b with
    | nil =>
        cases ha
        cases hb
        rfl
    | cons u us ih =>
        rw [allUnknowns_cons, List.mem_append, not_or] at hv
        cases ha with
        | cons ha has =>
            cases hb with
            | cons hb hbs =>
                rw [ih hv.2 has hbs, hb.unique (ha.congr (unitAt_of_notMem hv.1))]
  induction ts generalizing a b with
  | nil => cases hv
  | cons t ts ih =>
      rw [allUnknowns_cons] at nodup hv
      obtain ⟨_, nodup', disjoint⟩ := List.nodup_append'.1 nodup
      cases ha with
      | cons ha has =>
          cases hb with
          | cons hb hbs =>
              rcases List.mem_append.1 hv with hv | hv
              · rw [unchanged (disjoint hv) has hbs]
                exact fun same => hts t List.mem_cons_self v hv _ _ ha hb (add_right_cancel same)
              · have notHere : v ∉ t.unknowns := fun h => disjoint h hv
                rw [hb.unique (ha.congr (unitAt_of_notMem notHere))]
                refine fun same => ih (fun u hu => hts u (List.mem_cons_of_mem _ hu)) nodup' hv
                  has hbs (add_left_cancel same)

/-- A term with the values of a sum of tidy terms that share no variables is tidy, if it has only
their variables and there are some. -/
theorem isTidy_of_sum (hts : ∀ t ∈ ts, t.IsTidy) (total : ∀ t ∈ ts, t.IsTotal)
    (nodup : (allUnknowns ts).Nodup) (some : allUnknowns ts ≠ [])
    (values : ∀ (ρ : Assignment ℚ) a, Chain.sum.Total ρ ts a → u.HasValue ρ a)
    (fewer : u.unknowns.Sublist (allUnknowns ts)) : u.IsTidy := by
  have sum (ρ : Assignment ℚ) : ∃ a, Chain.sum.Total ρ ts a :=
    Chain.Total.of_forall fun t ht => total t ht ρ
  have everywhere : u.IsTotal := fun ρ => by
    obtain ⟨a, ha⟩ := sum ρ
    exact ⟨a, values ρ a ha⟩
  have needs (v : Unknown) (hv : v ∈ allUnknowns ts) : u.Needs v := by
    obtain ⟨x, hx⟩ := sum (unitAt v)
    obtain ⟨y, hy⟩ := sum origin
    intro a b ha hb
    rw [ha.unique (values _ _ hx), hb.unique (values _ _ hy)]
    exact sum_needs (fun t ht => (hts t ht).needed) nodup hv hx hy
  refine ⟨nodup.sublist fewer, fun v hv => needs v (fewer.subset hv), fun none => ?_⟩
  obtain ⟨v, hv⟩ := List.exists_mem_of_ne_nil _ some
  have mem := (needs v hv).mem everywhere
  rw [none] at mem
  cases mem

end Term

end AlgebraicTerms
