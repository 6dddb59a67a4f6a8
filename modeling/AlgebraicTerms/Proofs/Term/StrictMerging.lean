import AlgebraicTerms.Proofs.Term.StrictLikeTerms

/-!
# Merged factors with strict values

Two powers may be merged into one, or cancel.  That keeps their product if both have values and neither
is a power of zero.  Otherwise it can make a value where there was none: `0^(-1)*0^2` becomes `0^1`.
-/

namespace AlgebraicTerms

open PartialFunctions

namespace PartialFunctions

variable {K : Type} [Field K] [PartialFunctions K] {x y i p q : K}

/-- The power of a quotient. -/
theorem div_power (hx : x ≠ 0) (hy : y ≠ 0) (hp : power x i = some p)
    (hq : power y (-i) = some q) : power (x / y) i = some (p * q) := by
  rw [← inv_power i hy] at hq
  rw [div_eq_mul_inv]
  exact mul_power hx (inv_ne_zero hy) hp hq

end PartialFunctions

namespace Term

variable {α : Type} [Scalar α] {K : Type} [Field K] [DecidableEq K] [PartialFunctions K]
  [Scalar.Partial α K]

/-! ## One merge -/

/-- What two powers may be merged into.  Sums of exponents and products of bases are numbers by
then. -/
inductive Merges : Term α → Term α → List (Term α) → Prop
  | cancelled {base base' m n} : base.text = base'.text → (bin .add m n).value? = some 0 →
    Merges (bin .pow base m) (bin .pow base' n) []
  | sameBase {base base' m n e} : base.text = base'.text → e.isNumber = true →
    (bin .add m n).value? = e.value? →
    Merges (bin .pow base m) (bin .pow base' n) [bin .pow base e]
  | identity {a b t} : identityProduct? a b = some t → Merges a b [t]
  | sameExponent {base base' m n p} : m.text = n.text → p.isNumber = true →
    (bin .mul base base').value? = p.value? →
    Merges (bin .pow base m) (bin .pow base' n) [bin .pow p m]
  | opposite {base base' m n} : m.text = (inv .neg n).text →
    Merges (bin .pow base m) (bin .pow base' n) [bin .pow (bin .div base' base) n]
  | opposite' {base base' m n} : n.text = (inv .neg m).text →
    Merges (bin .pow base m) (bin .pow base' n) [bin .pow (bin .div base base') m]

/-- A term with a value that is no power of zero. -/
structure Firm (t : Term α) : Prop where
  defined : t.value? ≠ none
  base : ∀ b m, t = bin .pow b m → b.value? ≠ some 0
  clear : t.ClearRemainders

variable {t u a b base base' m n : Term α} {ts us vs rest : List (Term α)} {x y : K}

theorem Firm.exists_power (h : (bin .pow base m).Firm) : ∃ x i p, base.value? = some x ∧ x ≠ 0 ∧
    m.value? = some i ∧ power x i = some p ∧ (bin .pow base m).value? = some p := by
  obtain ⟨p, hp⟩ := Option.ne_none_iff_exists'.1 h.defined
  obtain ⟨x, i, hx, hi, power⟩ := value?_power_iff.1 hp
  refine ⟨x, i, p, hx, fun zero => ?_, hi, power, hp⟩
  exact h.base base m rfl (zero ▸ hx)

theorem value?_eq_of_defined [Scalar.Legible α] (ht : t.value? = some x) (hu : u.value? = some y)
    (clear : t.ClearRemainders) (clear' : u.ClearRemainders) (h : t.text = u.text) : x = y := by
  have same := value?_eq_of_text_eq (ne_of_eq_of_ne ht (Option.some_ne_none x))
    (ne_of_eq_of_ne hu (Option.some_ne_none y)) clear clear' h
  rw [ht, hu] at same
  exact Option.some.inj same

theorem value?_quotient (hx : base.value? = some x) (hy : base'.value? = some y) (hne : y ≠ 0) :
    (bin .div base base').value? = some (x / y) := by
  show (base.value?.bind fun a => base'.value?.bind (quotient? a)) = _
  rw [hx, hy]
  exact if_neg hne

theorem negated_clear (h : t.ClearRemainders) : t.negated.ClearRemainders := by
  unfold negated
  split
  · exact h
  · split
    · trivial
    · exact h

/-- What a sine and a cosine of one argument merge into. -/
theorem sineOverCosine?_eq_some (h : sineOverCosine? a b = some t) : ∃ x m y n,
    a = bin .pow (call .sin x) m ∧ b = bin .pow (call .cos y) n ∧
      t = bin .pow (call .tan x) m ∧ x.text = y.text ∧ m.text = n.negated.text := by
  simp only [sineOverCosine?, Option.bind_eq_bind, Option.bind_eq_some_iff] at h
  obtain ⟨⟨x, m⟩, hsin, ⟨y, n⟩, hcos, h⟩ := h
  split at h
  · rename_i same
    simp only [Bool.and_eq_true] at same
    cases h
    exact ⟨x, m, y, n, eq_of_poweredCall? hsin, eq_of_poweredCall? hcos, rfl, beq_iff.1 same.1,
      beq_iff.1 same.2⟩
  · cases h

variable [Scalar.Legible α]

theorem sineOverCosine?_value (ha : a.Firm) (hb : b.Firm) (h : sineOverCosine? a b = some t) :
    t.value? = Chain.product.combine? a.value? b.value? := by
  obtain ⟨v, m, w, n, rfl, rfl, rfl, same, opposite⟩ := sineOverCosine?_eq_some h
  obtain ⟨s, i, p, hs, sne, hi, hp, ap⟩ := ha.exists_power
  obtain ⟨c, j, q, hc, cne, hj, hq, bq⟩ := hb.exists_power
  obtain ⟨x, hx, sin⟩ := value?_call_iff.1 hs
  obtain ⟨y, hy, cos⟩ := value?_call_iff.1 hc
  have negated : n.negated.value? = some (-j) := by
    rw [negated_value?, hj]
    rfl
  obtain rfl := value?_eq_of_defined hx hy ha.clear.1 hb.clear.1 same
  obtain rfl := value?_eq_of_defined hi negated ha.clear.2.1 (negated_clear hb.clear.2.1) opposite
  have tan : (call .tan v).value? = some (s / c) := value?_call_iff.2 ⟨x, hx, tangent sin cos cne⟩
  rw [ap, bq]
  refine value?_power_iff.2 ⟨s / c, -j, tan, hi, div_power sne cne hp ?_⟩
  rw [neg_neg]
  exact hq

/-- Powers with opposite exponents are merged into the power of a quotient. -/
theorem opposite_value (ha : (bin .pow base m).Firm) (hb : (bin .pow base' n).Firm)
    (h : m.text = (inv .neg n).text) : (bin .pow (bin .div base' base) n).value? =
      Chain.product.combine? (bin .pow base m).value? (bin .pow base' n).value? := by
  obtain ⟨x, i, p, hx, xne, hi, hp, ap⟩ := ha.exists_power
  obtain ⟨y, j, q, hy, yne, hj, hq, bq⟩ := hb.exists_power
  have negated : (inv .neg n).value? = some (-j) := by
    show n.value?.map (-·) = _
    rw [hj]
    rfl
  obtain rfl := value?_eq_of_defined hi negated ha.clear.2.1 hb.clear.2.1 h
  rw [ap, bq, Chain.combine?_comm]
  exact value?_power_iff.2 ⟨y / x, j, value?_quotient hy hx xne, hj, div_power yne xne hq hp⟩

/-- Merging keeps the product of powers that have values and no zero as their base. -/
theorem Merges.total? (h : Merges a b vs) (ha : a.Firm) (hb : b.Firm) :
    Chain.product.total? vs = Chain.product.combine? a.value? b.value? := by
  have exponents {m n : Term α} {i j : K} (hi : m.value? = some i) (hj : n.value? = some j) :
      (bin .add m n).value? = some (i + j) := by
    show Option.map₂ (· + ·) m.value? n.value? = _
    rw [hi, hj]
    rfl
  cases h with
  | @cancelled base base' m n same cancels =>
      obtain ⟨x, i, p, hx, xne, hi, hp, ap⟩ := ha.exists_power
      obtain ⟨y, j, q, hy, yne, hj, hq, bq⟩ := hb.exists_power
      obtain rfl := value?_eq_of_defined hx hy ha.clear.1 hb.clear.1 same
      have none := Option.some.inj ((exponents hi hj).symm.trans cancels)
      have unit := power_add xne hp hq
      rw [none, power_zero] at unit
      rw [ap, bq]
      exact unit
  | @sameBase base base' m n e same he sum =>
      obtain ⟨x, i, p, hx, xne, hi, hp, ap⟩ := ha.exists_power
      obtain ⟨y, j, q, hy, yne, hj, hq, bq⟩ := hb.exists_power
      obtain rfl := value?_eq_of_defined hx hy ha.clear.1 hb.clear.1 same
      rw [exponents hi hj] at sum
      rw [Chain.total?_singleton, ap, bq]
      exact value?_power_iff.2 ⟨x, i + j, hx, sum.symm, power_add xne hp hq⟩
  | identity joined =>
      rw [Chain.total?_singleton]
      rcases sineOverCosine?_of_identityProduct? joined with h | h
      · exact sineOverCosine?_value ha hb h
      · rw [Chain.combine?_comm]
        exact sineOverCosine?_value hb ha h
  | @sameExponent base base' m n p same hp product =>
      obtain ⟨x, i, a, hx, xne, hi, ha', ap⟩ := ha.exists_power
      obtain ⟨y, j, b, hy, yne, hj, hb', bq⟩ := hb.exists_power
      obtain rfl := value?_eq_of_defined hi hj ha.clear.2.1 hb.clear.2.1 same
      have base : (bin .mul base base').value? = some (x * y) := by
        show Option.map₂ (· * ·) base.value? base'.value? = _
        rw [hx, hy]
        rfl
      rw [base] at product
      rw [Chain.total?_singleton, ap, bq]
      exact value?_power_iff.2 ⟨x * y, i, product.symm, hi, mul_power xne yne ha' hb'⟩
  | opposite h =>
      rw [Chain.total?_singleton]
      exact opposite_value ha hb h
  | opposite' h =>
      rw [Chain.total?_singleton, Chain.combine?_comm]
      exact opposite_value hb ha h

omit [Scalar.Legible α] in
/-- Powers are merged into powers. -/
theorem Merges.powers (h : Merges a b vs) (ha : a.IsGround) (hb : b.IsGround) :
    ∀ v ∈ vs, v.IsGround ∧ v.isNumber = false := by
  have single {t : Term α} (h : t.IsGround ∧ t.isNumber = false) :
      ∀ v ∈ [t], v.IsGround ∧ v.isNumber = false := fun v hv => List.eq_of_mem_singleton hv ▸ h
  cases h with
  | cancelled => exact fun v hv => absurd hv List.not_mem_nil
  | sameBase _ he => exact single ⟨⟨ha.1, isNumber_ground he⟩, rfl⟩
  | identity joined =>
      apply single
      rcases sineOverCosine?_of_identityProduct? joined with h | h
      · obtain ⟨x, m, y, n, rfl, rfl, rfl, _⟩ := sineOverCosine?_eq_some h
        exact ⟨ha, rfl⟩
      · obtain ⟨x, m, y, n, rfl, rfl, rfl, _⟩ := sineOverCosine?_eq_some h
        exact ⟨hb, rfl⟩
  | sameExponent _ hp => exact single ⟨⟨isNumber_ground hp, ha.2⟩, rfl⟩
  | opposite => exact single ⟨⟨⟨hb.1, ha.1⟩, hb.2⟩, rfl⟩
  | opposite' => exact single ⟨⟨⟨ha.1, hb.1⟩, ha.2⟩, rfl⟩

/-! ## Merging the factors of a product -/

/-- What factors may become when powers among them are merged, two at a time. -/
inductive Reaches : List (Term α) → List (Term α) → Prop
  | done {ts us : List (Term α)} : ts.Perm us → Reaches ts us
  | step {ts us vs rest : List (Term α)} {a b : Term α} : ts.Perm (a :: b :: rest) →
    Merges a b vs → Reaches (vs ++ rest) us → Reaches ts us

/-- Whether only powers with values and without a zero as their base are ever merged. -/
def Mergeable (ts : List (Term α)) : Prop :=
  ∀ a b rest vs, Reaches ts (a :: b :: rest) → Merges a b vs → a.Firm ∧ b.Firm

omit [Scalar.Legible α]

namespace Reaches

theorem perm_left (h : Reaches ts us) (perm : vs.Perm ts) : Reaches vs us := by
  cases h with
  | done perm' => exact .done (perm.trans perm')
  | step perm' merges rest => exact .step (perm.trans perm') merges rest

theorem perm_right (h : Reaches ts us) (perm : us.Perm vs) : Reaches ts vs := by
  induction h with
  | done perm' => exact .done (perm'.trans perm)
  | step perm' merges _ ih => exact .step perm' merges (ih perm)

theorem trans (h : Reaches ts us) (h' : Reaches us vs) : Reaches ts vs := by
  induction h with
  | done perm => exact h'.perm_left perm
  | step perm merges _ ih => exact .step perm merges (ih h')

/-- Other factors stand by. -/
theorem append_left (h : Reaches ts us) (ws : List (Term α)) : Reaches (ws ++ ts) (ws ++ us) := by
  induction h with
  | done perm => exact .done (perm.append_left ws)
  | @step ts us vs rest a b perm merges _ ih =>
      have front : (ws ++ ts).Perm (a :: b :: (ws ++ rest)) :=
        ((perm.append_left ws).trans List.perm_middle).trans (List.perm_middle.cons a)
      refine .step front merges (ih.perm_left ?_)
      rw [← List.append_assoc, ← List.append_assoc]
      exact List.perm_append_comm.append_right rest

theorem powers (h : Reaches ts us) (hts : ∀ t ∈ ts, t.IsGround ∧ t.isNumber = false) :
    ∀ u ∈ us, u.IsGround ∧ u.isNumber = false := by
  induction h with
  | done perm => exact fun u hu => hts u (perm.mem_iff.2 hu)
  | @step ts us vs rest a b perm merges _ ih =>
      have inside {t : Term α} (ht : t ∈ a :: b :: rest) := hts t (perm.mem_iff.2 ht)
      refine ih fun t ht => ?_
      rcases List.mem_append.1 ht with ht | ht
      · exact merges.powers (inside List.mem_cons_self).1
          (inside (List.mem_cons_of_mem _ List.mem_cons_self)).1 t ht
      · exact inside (List.mem_cons_of_mem _ (List.mem_cons_of_mem _ ht))

/-- Factors keep their product if only powers with values are merged. -/
theorem total? [Scalar.Legible α] (h : Reaches ts us) (mergeable : Mergeable ts) :
    Chain.product.total? us = Chain.product.total? ts := by
  induction h with
  | done perm => exact (Chain.total?_perm perm).symm
  | @step ts us vs rest a b perm merges _ ih =>
      obtain ⟨ha, hb⟩ := mergeable a b rest vs (.done perm) merges
      have later : Mergeable (vs ++ rest) := fun a' b' rest' vs' reaches =>
        mergeable a' b' rest' vs' (.step perm merges reaches)
      rw [ih later, Chain.total?_append, merges.total? ha hb, Chain.total?_perm perm,
        Chain.total?_cons, Chain.total?_cons, Chain.combine?_assoc]

end Reaches

end Term

end AlgebraicTerms
