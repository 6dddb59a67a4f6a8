import AlgebraicTerms.Proofs.Term.Replacement
import AlgebraicTerms.Proofs.Term.Value

/-!
# Totals of chains

The total of a list of operands is their sum or product, as the chain has it.  Taking a term apart
into operands, joining them and putting them in order all keep the total.
-/

namespace AlgebraicTerms

variable {α : Type} [Scalar α] [Scalar.Exact α] {K : Type*} [Field K]

namespace Chain

/-- The value of a chain without operands. -/
def unit : Chain → K
  | sum => 0
  | product => 1

def combine : Chain → K → K → K
  | sum, a, b => a + b
  | product, a, b => a * b

/-- The value of the inverse of an operand. -/
def inverted : Chain → K → K
  | sum, a => -a
  | product, a => a⁻¹

/-- Whether an operand with the given value has an inverse. -/
def Invertible : Chain → K → Prop
  | sum, _ => True
  | product, a => a ≠ 0

theorem combine_unit (c : Chain) (a : K) : c.combine a c.unit = a := by
  cases c with
  | sum => exact add_zero a
  | product => exact mul_one a

theorem unit_combine (c : Chain) (a : K) : c.combine c.unit a = a := by
  cases c with
  | sum => exact zero_add a
  | product => exact one_mul a

theorem combine_assoc (c : Chain) (a b d : K) :
    c.combine (c.combine a b) d = c.combine a (c.combine b d) := by
  cases c with
  | sum => exact add_assoc a b d
  | product => exact mul_assoc a b d

theorem combine_left_comm (c : Chain) (a b d : K) :
    c.combine a (c.combine b d) = c.combine b (c.combine a d) := by
  cases c with
  | sum => exact add_left_comm a b d
  | product => exact mul_left_comm a b d

theorem combine_comm (c : Chain) (a b : K) : c.combine a b = c.combine b a := by
  cases c with
  | sum => exact add_comm a b
  | product => exact mul_comm a b

theorem inverted_combine (c : Chain) (a b : K) :
    c.inverted (c.combine a b) = c.combine (c.inverted a) (c.inverted b) := by
  cases c with
  | sum => exact neg_add a b
  | product => exact mul_inv a b

theorem Invertible.of_combine {c : Chain} {a b : K} (h : c.Invertible (c.combine a b)) :
    c.Invertible a ∧ c.Invertible b := by
  cases c with
  | sum => exact ⟨trivial, trivial⟩
  | product => exact mul_ne_zero_iff.1 h

/-- Whether the operands have values, with the given total. -/
inductive Total (c : Chain) (ρ : Assignment K) : List (Term α) → K → Prop
  | nil : Total c ρ [] c.unit
  | cons {t ts a b} : t.HasValue ρ a → Total c ρ ts b → Total c ρ (t :: ts) (c.combine a b)

namespace Total

variable {c : Chain} {ρ : Assignment K} {ts us : List (Term α)} {a b : K}

theorem singleton {t : Term α} (h : t.HasValue ρ a) : c.Total ρ [t] a := by
  have total := Total.cons h (Total.nil (c := c))
  rwa [combine_unit] at total

theorem append (hts : c.Total ρ ts a) (hus : c.Total ρ us b) :
    c.Total ρ (ts ++ us) (c.combine a b) := by
  induction hts with
  | nil => rwa [unit_combine]
  | cons ht _ ih =>
      rw [combine_assoc]
      exact .cons ht ih

theorem exists_append (h : c.Total ρ (ts ++ us) a) :
    ∃ b d, c.Total ρ ts b ∧ c.Total ρ us d ∧ a = c.combine b d := by
  induction ts generalizing a with
  | nil => exact ⟨_, a, .nil, h, (unit_combine c a).symm⟩
  | cons t ts ih =>
      cases h with
      | cons ht hts =>
          obtain ⟨b, d, hb, hd, rfl⟩ := ih hts
          exact ⟨_, d, .cons ht hb, hd, (combine_assoc ..).symm⟩

theorem perm (h : ts.Perm us) (hts : c.Total ρ ts a) : c.Total ρ us a := by
  induction h generalizing a with
  | nil => exact hts
  | cons t _ ih =>
      cases hts with
      | cons ht hts => exact .cons ht (ih hts)
  | swap t u ts =>
      cases hts with
      | cons hu hts =>
          cases hts with
          | cons ht hts =>
              rw [combine_left_comm]
              exact .cons ht (.cons hu hts)
  | trans _ _ ih ih' => exact ih' (ih hts)

/-- Operands may be replaced by others of the same values. -/
theorem map {f : Term α → Term α} (hf : ∀ t ∈ ts, ∀ a, t.HasValue ρ a → (f t).HasValue ρ a)
    (h : c.Total ρ ts a) : c.Total ρ (ts.map f) a := by
  induction h with
  | nil => exact .nil
  | cons ht _ ih =>
      exact .cons (hf _ List.mem_cons_self _ ht)
        (ih fun t ht => hf t (List.mem_cons_of_mem _ ht))

theorem replace (hus : List.Forall₂ (fun t u => ∀ a, t.HasValue ρ a → u.HasValue ρ a) ts us)
    (h : c.Total ρ ts a) : c.Total ρ us a := by
  induction hus generalizing a with
  | nil => exact h
  | cons htu _ ih =>
      cases h with
      | cons ht hts => exact .cons (htu _ ht) (ih hts)

/-- All operands have values. -/
theorem exists_value (h : c.Total ρ ts a) {t : Term α} (ht : t ∈ ts) : ∃ b, t.HasValue ρ b := by
  induction h with
  | nil => cases ht
  | cons hu _ ih =>
      rcases List.mem_cons.1 ht with rfl | ht
      · exact ⟨_, hu⟩
      · exact ih ht

theorem of_forall (h : ∀ t ∈ ts, ∃ b, t.HasValue ρ b) : ∃ a, c.Total ρ ts a := by
  induction ts with
  | nil => exact ⟨_, .nil⟩
  | cons t ts ih =>
      obtain ⟨b, hb⟩ := h t List.mem_cons_self
      obtain ⟨a, ha⟩ := ih fun u hu => h u (List.mem_cons_of_mem _ hu)
      exact ⟨_, .cons hb ha⟩

end Total

end Chain

namespace Term

variable {ρ : Assignment K} {t u l r l' r' : Term α} {ts us : List (Term α)} {a b : K}

/-! ## Numbers -/

theorem hasValue_one : (num (Scalar.one : α)).HasValue ρ (1 : K) := by
  have h : (num (Scalar.one : α)).HasValue ρ (Scalar.toField (Scalar.one : α) : K) := .num _
  rwa [Scalar.toField_one] at h

theorem hasValue_zero : (num (Scalar.zero : α)).HasValue ρ (0 : K) := by
  have h : (num (Scalar.zero : α)).HasValue ρ (Scalar.toField (Scalar.zero : α) : K) := .num _
  rwa [Scalar.toField_zero] at h

theorem hasValue_negOne : (num (Scalar.negOne : α)).HasValue ρ (-1 : K) := by
  have h : (num (Scalar.negOne : α)).HasValue ρ (Scalar.toField (Scalar.negOne : α) : K) := .num _
  rwa [Scalar.toField_negOne] at h

theorem hasValue_opposite (n : α) : (num (-n)).HasValue ρ (-(Scalar.toField n : K)) := by
  have h : (num (-n)).HasValue ρ (Scalar.toField (-n) : K) := .num _
  rwa [Scalar.toField_neg] at h

/-! ## Terms that may take the place of others -/

/-- The operands of an operation may be replaced by others of the same value, if an exponent stays a
positive number. -/
theorem HasValue.congr_bin {op : Operator} (h : (bin op l r).HasValue ρ a)
    (hl : ∀ b, l.HasValue ρ b → l'.HasValue ρ b) (hr : ∀ b, r.HasValue ρ b → r'.HasValue ρ b)
    (hlit : r.shape = .literal → r'.shape = .literal) : (bin op l' r').HasValue ρ a := by
  cases h with
  | add h h' => exact .add (hl _ h) (hr _ h')
  | sub h h' => exact .sub (hl _ h) (hr _ h')
  | mul h h' => exact .mul (hl _ h) (hr _ h')
  | div h h' hne => exact .div (hl _ h) (hr _ h') hne
  | pow h h' hne => exact .pow (hl _ h) (hr _ h') hne
  | zeroPow h h' literal => exact .zeroPow (hl _ h) (hr _ h') (hlit literal)

theorem HasValue.congr_inv {i : Inverse} (h : (inv i t).HasValue ρ a)
    (ht : ∀ b, t.HasValue ρ b → u.HasValue ρ b) : (inv i u).HasValue ρ a := by
  cases h with
  | neg h => exact .neg (ht _ h)
  | recip h hne => exact .recip (ht _ h) hne

omit [Scalar.Exact α] in
theorem shape_bin_ne_literal (op : Operator) (l r : Term α) : (bin op l r).shape ≠ .literal := by
  cases op with
  | add | mul => exact Shape.join_ne_literal _ _
  | sub | div | mod | pow => exact nofun

/-- Whether a term has the values of another, and is a positive number if the other is one. -/
def KeepsValue (ρ : Assignment K) (t u : Term α) : Prop :=
  (∀ a, t.HasValue ρ a → u.HasValue ρ a) ∧ (t.shape = .literal → u.shape = .literal)

theorem keepsValue_of_bin {op : Operator} (h : ∀ a, (bin op l r).HasValue ρ a → u.HasValue ρ a) :
    (bin op l r).KeepsValue ρ u :=
  ⟨h, fun literal => absurd literal (shape_bin_ne_literal op l r)⟩

theorem keepsValue_of_inv {i : Inverse} (h : ∀ a, (inv i t).HasValue ρ a → u.HasValue ρ a) :
    (inv i t).KeepsValue ρ u := ⟨h, nofun⟩

theorem keepsValue_replacement : Replacement (KeepsValue (α := α) ρ) where
  refl _ := ⟨fun _ => id, id⟩
  trans htu huv := ⟨fun a => huv.1 a ∘ htu.1 a, huv.2 ∘ htu.2⟩
  call _ _ _ _ := ⟨nofun, nofun⟩
  inv _ _ _ h := keepsValue_of_inv fun _ ht => ht.congr_inv h.1
  bin _ _ _ _ _ hl hr := keepsValue_of_bin fun _ h => h.congr_bin hl.1 hr.1 hr.2

theorem hasValue_op_iff {c : Chain} : (bin c.op l r).HasValue ρ a ↔
    ∃ x y, l.HasValue ρ x ∧ r.HasValue ρ y ∧ a = c.combine x y := by
  constructor
  · intro h
    cases c with
    | sum =>
        cases h with
        | add hl hr => exact ⟨_, _, hl, hr, rfl⟩
    | product =>
        cases h with
        | mul hl hr => exact ⟨_, _, hl, hr, rfl⟩
  · rintro ⟨x, y, hl, hr, rfl⟩
    cases c with
    | sum => exact .add hl hr
    | product => exact .mul hl hr

theorem hasValue_inverse_iff {c : Chain} : (inv c.inverse t).HasValue ρ a ↔
    ∃ x, t.HasValue ρ x ∧ c.Invertible x ∧ a = c.inverted x := by
  constructor
  · intro h
    cases c with
    | sum =>
        cases h with
        | neg h => exact ⟨_, h, trivial, rfl⟩
    | product =>
        cases h with
        | recip h hne => exact ⟨_, h, hne, rfl⟩
  · rintro ⟨x, h, hx, rfl⟩
    cases c with
    | sum => exact .neg h
    | product => exact .recip h hx

theorem hasValue_inverseOp_iff {c : Chain} : (bin c.inverseOp l r).HasValue ρ a ↔
    (bin c.op l (inv c.inverse r)).HasValue ρ a := by
  simp only [hasValue_op_iff, hasValue_inverse_iff]
  constructor
  · intro h
    cases c with
    | sum =>
        cases h with
        | sub hl hr => exact ⟨_, _, hl, ⟨_, hr, trivial, rfl⟩, sub_eq_add_neg _ _⟩
    | product =>
        cases h with
        | div hl hr hne => exact ⟨_, _, hl, ⟨_, hr, hne, rfl⟩, div_eq_mul_inv _ _⟩
  · rintro ⟨x, _, hl, ⟨y, hr, hy, rfl⟩, rfl⟩
    cases c with
    | sum =>
        rw [Chain.combine, Chain.inverted, ← sub_eq_add_neg]
        exact .sub hl hr
    | product =>
        rw [Chain.combine, Chain.inverted, ← div_eq_mul_inv]
        exact .div hl hr hy

theorem keepsValue_chainLaws (c : Chain) : ChainLaws c (KeepsValue (α := α) ρ) where
  toReplacement := keepsValue_replacement
  swap _ _ := keepsValue_of_bin fun _ h => by
    obtain ⟨x, y, ht, hu, rfl⟩ := hasValue_op_iff.1 h
    exact hasValue_op_iff.2 ⟨y, x, hu, ht, c.combine_comm x y⟩
  assoc _ _ _ := keepsValue_of_bin fun _ h => by
    obtain ⟨_, z, htu, hv, rfl⟩ := hasValue_op_iff.1 h
    obtain ⟨x, y, ht, hu, rfl⟩ := hasValue_op_iff.1 htu
    exact hasValue_op_iff.2 ⟨x, _, ht, hasValue_op_iff.2 ⟨y, z, hu, hv, rfl⟩, c.combine_assoc x y z⟩
  of_inverseOp _ _ := keepsValue_of_bin fun _ h => hasValue_inverseOp_iff.1 h
  inverse _ _ := keepsValue_of_inv fun _ h => by
    obtain ⟨_, htu, hinv, rfl⟩ := hasValue_inverse_iff.1 h
    obtain ⟨x, y, ht, hu, rfl⟩ := hasValue_op_iff.1 htu
    obtain ⟨hx, hy⟩ := hinv.of_combine
    exact hasValue_op_iff.2 ⟨_, _, hasValue_inverse_iff.2 ⟨x, ht, hx, rfl⟩,
      hasValue_inverse_iff.2 ⟨y, hu, hy, rfl⟩, c.inverted_combine x y⟩

/-- The total of operands is the value of the operands as one term. -/
theorem whole_hasValue_iff {c : Chain} (hts : ts ≠ []) :
    (c.whole ts).HasValue ρ a ↔ c.Total ρ ts a := by
  induction ts generalizing a with
  | nil => exact absurd rfl hts
  | cons t ts ih =>
      cases ts with
      | nil =>
          refine ⟨.singleton, fun h => ?_⟩
          cases h with
          | cons ht hnil =>
              cases hnil
              rwa [Chain.combine_unit]
      | cons u ts =>
          rw [Chain.whole, hasValue_op_iff]
          constructor
          · rintro ⟨x, y, ht, hts, rfl⟩
            exact .cons ht ((ih (List.cons_ne_nil u ts)).1 hts)
          · intro h
            cases h with
            | cons ht hts => exact ⟨_, _, ht, (ih (List.cons_ne_nil u ts)).2 hts, rfl⟩

/-- The operands of a term in a chain have its value as their total. -/
theorem operandsIn_total {c : Chain} (h : t.HasValue ρ a) : c.Total ρ (t.operandsIn c) a :=
  (whole_hasValue_iff (operandsIn_ne_nil c t)).1 (((keepsValue_chainLaws c).operandsIn t).1 a h)

variable [Scalar.Legible α] [CharZero K]

theorem keepsValue_joinLaws (c : Chain) : JoinLaws c (KeepsValue (α := α) ρ) fun _ => True where
  toChainLaws := keepsValue_chainLaws c
  unit _ hs := keepsValue_of_bin fun _ h => by
    obtain ⟨x, y, ht, hu, rfl⟩ := hasValue_op_iff.1 h
    have unit : y = c.unit := by
      cases c with
      | sum => exact hu.eq_zero hs
      | product => exact hu.eq_one hs
    rwa [unit, Chain.combine_unit]
  inverseOp _ _ := keepsValue_of_bin fun _ h => hasValue_inverseOp_iff.2 h
  opposite _ _ := keepsValue_of_bin fun _ h => by
    cases h with
    | add ht hn =>
        cases hn with
        | num =>
            rw [← sub_neg_eq_add]
            exact .sub ht (hasValue_opposite _)

/-- The operands of a chain, joined, have the value of their total. -/
theorem join_hasValue {c : Chain} (h : c.Total ρ ts a) : (c.join ts).HasValue ρ a := by
  by_cases none : ts = []
  · subst none
    cases h with
    | nil =>
        have unit : (c.unit : K) = Scalar.toField (Scalar.ofNat c.identity : α) := by
          rw [Scalar.toField_ofNat]
          cases c with
          | sum => exact Nat.cast_zero.symm
          | product => exact Nat.cast_one.symm
        rw [Chain.join, unit]
        exact .num _
  · have joined : (c.whole ts).KeepsValue ρ (c.join ts) :=
      (keepsValue_joinLaws c).join (fun _ _ => trivial) fun _ _ => trivial
    exact joined.1 a ((whole_hasValue_iff none).2 h)

/-! ## Canonical order -/

/-- Canonical order keeps the value. -/
theorem sorted_hasValue (h : t.HasValue ρ a) : t.sorted.HasValue ρ a :=
  (Replacement.sorted keepsValue_joinLaws arrangeable_all trivial).1 a h

omit [Scalar.Exact α] [Scalar.Legible α] in
theorem join_shape {c : Chain} (length : ts.length = 2) (h : ∀ t ∈ ts, t.shape = .literal) :
    (c.join ts).shape ≠ .other := by
  obtain ⟨t, u, rfl⟩ := List.length_eq_two.1 length
  have ht : t.shape = .literal := h t List.mem_cons_self
  have hu : u.shape = .literal := h u (List.mem_cons_of_mem _ List.mem_cons_self)
  have both : (bin c.op t u).shape ≠ .other := by
    cases c <;> simp [Chain.op, shape, ht, hu, Shape.join]
  have inverse {i : Inverse} {t : Term α} : (inv i t).shape ≠ .literal := fun h => by cases h
  show (c.append t u).shape ≠ .other
  unfold Chain.append
  split
  · simp [ht]
  · split
    · simp [hu]
    · split
      · exact absurd hu inverse
      · rename_i n
        split
        · rename_i negative
          rw [shape, negative.2] at hu
          cases hu
        · exact both
      · exact both

omit [Scalar.Exact α] [Scalar.Legible α] in
/-- Canonical order keeps what is seen to be positive. -/
theorem sorted_shape (h : t.shape ≠ .other) : t.sorted.shape ≠ .other := by
  cases t with
  | bin op l r =>
      have chain {c : Chain} {op : Operator} (hop : op = c.op) (hl : l.shape = .literal)
          (hr : r.shape = .literal) : (bin op l r).sorted.shape ≠ .other := by
        have leaf {t : Term α} (ht : t.shape = .literal) : t.sortedOperands c = [t] := by
          cases t with
          | num n => rfl
          | bin op l r =>
              cases op with
              | add | mul => exact absurd ht (Shape.join_ne_literal _ _)
              | sub | div | mod | pow => cases ht
          | _ => cases ht
        have split : (bin op l r).sorted = c.join (sortByKey [l, r]) := by
          subst hop
          rw [sorted, Chain.of?_op]
          simp only [leaf hl, leaf hr, Chain.splice, if_pos, List.cons_append, List.nil_append]
        have perm := sortByKey_perm [l, r]
        rw [split]
        refine join_shape perm.length_eq.symm fun t ht => ?_
        rcases List.mem_pair.1 (perm.mem_iff.2 ht) with rfl | rfl
        · exact hl
        · exact hr
      cases op with
      | add =>
          obtain ⟨hl, hr⟩ := Shape.join_ne_other h
          exact chain (c := .sum) rfl hl hr
      | mul =>
          obtain ⟨hl, hr⟩ := Shape.join_ne_other h
          exact chain (c := .product) rfl hl hr
      | sub | div | mod | pow => exact absurd rfl h
  | num n => exact h
  | _ => exact absurd rfl h

end Term

end AlgebraicTerms
