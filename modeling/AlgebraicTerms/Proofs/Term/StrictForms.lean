import AlgebraicTerms.Proofs.Term.StandIn
import AlgebraicTerms.Proofs.Term.Strict

/-!
# Forms of one strict value

Joining operands, canonical order, exponents, products with `-1` and expansion neither drop an operand
nor add one that has no value.  Writing a reciprocal as a power can drop a division by zero: `1/(1/0)`
becomes `0`.
-/

namespace AlgebraicTerms

open Scalar.Partial (value)

variable {α : Type} [Scalar α] {K : Type} [Field K] [DecidableEq K] [PartialFunctions K]
  [Scalar.Partial α K]

namespace Term

variable {c : Chain} {t u l r : Term α} {ts us : List (Term α)}

/-! ## Operands that are written `0` or `1` -/

/-- Only numbers and names are as small as a number. -/
theorem isNumber_of_size (ht : t.IsGround) (hd : t.size.depth = 0) (hs : t.size.sums = 0)
    (hw : t.size.weight = 13) : t.isNumber = true := by
  cases t with
  | empty => exact ht.elim
  | var name index => exact ht.elim
  | num n => rfl
  | const d => rfl
  | call k t =>
      have deeper : (call k t).size.depth = max t.size.depth 1 := rfl
      omega
  | inv i t =>
      cases i with
      | neg =>
          have heavier : (inv .neg t).size.weight = t.size.weight + 1 + 0 := rfl
          have heavy := thirteen_le_weight t
          omega
      | recip =>
          have deeper : (inv .recip t).size.depth = max t.size.depth 1 := rfl
          omega
  | bin op l r =>
      have heavy := thirteen_le_weight l
      have heavy' := thirteen_le_weight r
      cases op with
      | add | sub =>
          have more : l.size.sums + r.size.sums + 1 = 0 := hs
          omega
      | mul | mod =>
          have heavier : l.size.weight + r.size.weight + 0 = 13 := hw
          omega
      | div =>
          have deeper : max (max l.size.depth r.size.depth) 1 = 0 := hd
          omega
      | pow =>
          have deeper : max l.size.depth (r.size.depth + 1) = 0 := hd
          omega

section

variable [Scalar.Legible α] [Scalar.Worded α]

omit [DecidableEq K] in
/-- What is written as digits has the value of the number that is read from them. -/
theorem value_of_text {n : α} {s : String} (hzero : Scalar.isZero n = false)
    (h : Scalar.text n = s) (hs : Token.IsNumeral s.toList) :
    value n = value (Scalar.literal s : α) := by
  have hneg : Scalar.isNegative n = false := Bool.eq_false_iff.2 fun hneg => by
    have minus : '-' ∈ s.toList := by
      rw [← h, Scalar.Worded.text_of_isNegative hneg, String.toList_append]
      exact List.mem_cons_self
    exact absurd ((Rational.isPlainWord_of_isNumeral hs).chars '-' minus) (by decide)
  have finite : Scalar.isFinite n = true := Scalar.Partial.isFinite_of_isNumeral (h ▸ hs)
  rw [← h, Scalar.Legible.literal_text finite hzero hneg]

omit [DecidableEq K] in
theorem value_of_numberText_zero {n : α} (h : numberText n = "0") : value n = some 0 := by
  cases hzero : Scalar.isZero n with
  | true => exact Scalar.Partial.isZero_iff.1 hzero
  | false =>
      rw [numberText, hzero, if_neg Bool.false_ne_true] at h
      rw [value_of_text hzero h (.inl (by decide)), Scalar.Legible.literal_zero]
      exact Scalar.Partial.value_zero

omit [DecidableEq K] in
theorem value_of_numberText_one {n : α} (h : numberText n = "1") : value n = some 1 := by
  have nonzero : Scalar.isZero n = false := Bool.eq_false_iff.2 fun zero => by
    rw [numberText, zero, if_pos rfl] at h
    exact absurd h (by decide)
  rw [numberText, nonzero, if_neg Bool.false_ne_true] at h
  have one := value_of_text Scalar.Legible.not_isZero_one (Scalar.Legible.text_one (α := α))
    (.inl (by decide))
  rw [value_of_text nonzero h (.inl (by decide)), ← one]
  exact Scalar.Partial.value_one

theorem isNumber_of_text_eq {n : α} (ht : t.IsGround) (hn : Scalar.isNegative n = false)
    (h : t.text = (num n).text) : t.isNumber = true := by
  have size : t.size = ofNumber n := size_eq_of_text_eq (u := num n) ht trivial h
  rw [ofNumber, hn, if_neg Bool.false_ne_true] at size
  exact isNumber_of_size ht (by rw [size]) (by rw [size]) (by rw [size]; rfl)

/-- An operand that is written like the identity of the chain has its value. -/
theorem value?_of_reads_identity (ht : t.IsGround) (h : t.reads c.identityText = true) :
    t.value? = some c.unit := by
  have text := reads_iff.1 h
  have number : t.isNumber = true := by
    cases c with
    | sum =>
        have nonneg : Scalar.isNegative (Scalar.ofNat 0 : α) = false :=
          Bool.eq_false_iff.2 fun h => absurd Scalar.Legible.isZero_zero
            (ne_true_of_eq_false (Scalar.Legible.not_isZero_of_isNegative h))
        exact isNumber_of_text_eq ht nonneg (text.trans text_zero.symm)
    | product =>
        have one : (num (Scalar.ofNat 1 : α)).text = "1" := by
          rw [Term.text, numberText, Scalar.Legible.not_isZero_one, if_neg Bool.false_ne_true,
            Scalar.Legible.text_one]
        exact isNumber_of_text_eq ht Scalar.Legible.not_isNegative_one (text.trans one.symm)
  cases t with
  | num n =>
      cases c with
      | sum => exact value_of_numberText_zero text
      | product => exact value_of_numberText_one text
  | const d =>
      have name : d.name = c.identityText := text
      cases c <;> cases d <;> exact absurd name (by decide)
  | _ => cases number

/-! ## Conversions -/

theorem value?_joinLaws (c : Chain) :
    JoinLaws c (fun t u : Term α => (t.value? : Option K) = u.value?) IsGround where
  toChainLaws := value?_chainLaws c
  unit hu hs := by rw [Chain.value?_op, value?_of_reads_identity hu hs, Chain.combine?_unit]
  inverseOp t u := by rw [Chain.value?_op, Chain.value?_inverseOp, Chain.value?_inverse]
  opposite {t n} _ _ := by
    show Option.map₂ (· + ·) t.value? (value n) = Option.map₂ (· - ·) t.value? (value (-n))
    rw [Scalar.Partial.value_neg]
    cases t.value? <;> cases value n <;>
      first | rfl | exact congrArg some (sub_neg_eq_add _ _).symm

theorem join_value? (h : ∀ t ∈ ts, t.IsGround) : (c.join ts).value? = c.total? ts := by
  rw [← whole_value?]
  exact ((value?_joinLaws c).join arrangeable_ground.append h).symm

/-- Canonical order keeps the value. -/
theorem sorted_value? (ht : t.IsGround) : t.sorted.value? = t.value? :=
  (Replacement.sorted value?_joinLaws arrangeable_ground ht).symm

end

theorem value?_power_one : (bin .pow t (num Scalar.one)).value? = t.value? := by
  show (t.value?.bind fun a => (value (Scalar.one : α)).bind (PartialFunctions.power a)) = t.value?
  rw [Scalar.Partial.value_one]
  cases t.value? with
  | none => rfl
  | some x => exact PartialFunctions.power_one x

theorem withExponents_value? (t : Term α) : t.withExponents.value? = t.value? :=
  (value?_replacement.withExponents (fun _ => value?_power_one.symm) t).symm

theorem value?_neg_product (t : Term α) :
    (bin .mul (num Scalar.negOne) t).value? = (inv .neg t).value? := by
  show Option.map₂ (· * ·) (value (Scalar.negOne : α)) t.value? = t.value?.map (-·)
  rw [Scalar.Partial.value_negOne]
  cases t.value? with
  | none => rfl
  | some x => exact congrArg some (neg_one_mul x)

theorem value?_negations : Negations fun t u : Term α => (t.value? : Option K) = u.value? where
  toReplacement := value?_replacement
  neg_neg t := by
    show (t.value?.map (-·)).map (-·) = t.value?
    cases t.value? with
    | none => rfl
    | some x => exact congrArg some (neg_neg x)
  neg_product t := (value?_neg_product t).symm

theorem negationsAsProducts_value? (t : Term α) : t.negationsAsProducts.value? = t.value? :=
  (value?_negations.negationsAsProducts t).symm

theorem value?_neg_number {n : α} (h : t.number? = some n) :
    (inv .neg t).value? = (num (-n)).value? := by
  show t.value?.map (-·) = value (-n)
  rw [value?_of_number? h, Scalar.Partial.value_neg]

theorem negated_value? (t : Term α) : t.negated.value? = t.value?.map (-·) :=
  (value?_negations.negated value?_neg_number t).symm

theorem expanded_value? [Scalar.Legible α] [Scalar.Worded α] (ht : t.IsGround) :
    t.expanded.value? = t.value? := by
  have laws : Distributes (fun t u : Term α => (t.value? : Option K) = u.value?) IsGround := {
    toNegations := value?_negations
    chains := value?_joinLaws
    distrib := fun t u v => by
      show Option.map₂ (· * ·) (Option.map₂ (· + ·) t.value? u.value?) v.value? =
        Option.map₂ (· + ·) (Option.map₂ (· * ·) t.value? v.value?)
          (Option.map₂ (· * ·) u.value? v.value?)
      cases t.value? <;> cases u.value? <;> cases v.value? <;>
        first | rfl | exact congrArg some (add_mul _ _ _) }
  exact (laws.expanded arrangeable_ground inherited_ground trivial ht).symm

/-! ## Parts of terms with values -/

theorem value?_sides {op : Operator} (h : (bin op l r).value? ≠ none) :
    l.value? ≠ none ∧ r.value? ≠ none := by
  have left : l.value? = none → (bin op l r).value? = none := by
    intro none
    show (strictly α).bin op l.value? r.value? = _
    rw [none]
    cases op <;> rfl
  have right : r.value? = none → (bin op l r).value? = none := by
    intro none
    show (strictly α).bin op l.value? r.value? = _
    rw [none]
    cases op <;> cases l.value? <;> rfl
  exact ⟨fun none => h (left none), fun none => h (right none)⟩

theorem value?_operand {i : Inverse} (h : (inv i t).value? ≠ none) : t.value? ≠ none := by
  intro none
  apply h
  show (strictly α).inv i t.value? = _
  rw [none]
  cases i <;> rfl

theorem value?_argument {k : Keyword} (h : (call k t).value? ≠ none) : t.value? ≠ none := by
  intro none
  apply h
  show t.value?.bind _ = _
  rw [none]
  rfl

/-- A term with a value has only finite numbers. -/
theorem legible_of_value? (h : t.value? ≠ none) : t.Legible := by
  induction t with
  | empty => exact h rfl
  | var name index => exact absurd rfl h
  | num n => exact Scalar.Partial.isFinite_iff.2 (Option.isSome_iff_ne_none.2 h)
  | const d => trivial
  | call k t ih => exact ih (value?_argument h)
  | inv i t ih => exact ih (value?_operand h)
  | bin op l r ihl ihr => exact ⟨ihl (value?_sides h).1, ihr (value?_sides h).2⟩

/-- Terms with values that are written alike have the same value, if no product hides a
remainder. -/
theorem value?_eq_of_text_eq [Scalar.Legible α] (ht : t.value? ≠ none) (hu : u.value? ≠ none)
    (clear : t.ClearRemainders) (clear' : u.ClearRemainders) (h : t.text = u.text) :
    t.value? = u.value? :=
  eval_eq_of_text_eq strictly_lawful (legible_of_value? ht) (legible_of_value? hu) clear clear' h

/-! ## Reciprocals -/

/-- The value of a reciprocal. -/
theorem value?_recip {x : K} (h : (inv .recip t).value? = some x) :
    ∃ y, t.value? = some y ∧ y ≠ 0 ∧ x = y⁻¹ := by
  obtain ⟨y, hy, hx⟩ := Option.bind_eq_some_iff.1 (h : t.value?.bind reciprocal? = some x)
  rw [reciprocal?] at hx
  split at hx
  · cases hx
  · exact ⟨y, hy, ‹_›, (Option.some.inj hx).symm⟩

theorem value?_call_iff {k : Keyword} {y : K} : (call k t).value? = some y ↔
    ∃ x, t.value? = some x ∧ PartialFunctions.keyword k x = some y := Option.bind_eq_some_iff

theorem value?_power_iff {z : K} : (bin .pow l r).value? = some z ↔
    ∃ x y, l.value? = some x ∧ r.value? = some y ∧ PartialFunctions.power x y = some z := by
  have split : (bin .pow l r).value? =
      l.value?.bind fun x => r.value?.bind (PartialFunctions.power x) := rfl
  simp only [split, Option.bind_eq_some_iff]
  constructor
  · rintro ⟨x, hx, y, hy, hz⟩
    exact ⟨x, y, hx, hy, hz⟩
  · rintro ⟨x, y, hx, hy, hz⟩
    exact ⟨x, hx, y, hy, hz⟩

theorem value?_refinement :
    Replacement fun t u : Term α => ∀ x : K, t.value? = some x → u.value? = some x := by
  have same {t u : Term α} (h : ∀ x : K, t.value? = some x → u.value? = some x)
      (ht : (t.value? : Option K) ≠ none) : t.value? = u.value? := by
    obtain ⟨x, hx⟩ := Option.ne_none_iff_exists'.1 ht
    rw [hx, h x hx]
  exact {
    refl := fun _ _ => id
    trans := fun htu huv x ht => huv x (htu x ht)
    call := fun k t u h x ht => by
      have hne : t.value? ≠ none := value?_argument (ht ▸ Option.some_ne_none x)
      rw [← ht]
      exact (value?_replacement.call k (same h hne)).symm
    inv := fun i t u h x ht => by
      have hne : t.value? ≠ none := value?_operand (ht ▸ Option.some_ne_none x)
      rw [← ht]
      exact (value?_replacement.inv i (same h hne)).symm
    bin := fun op l r l' r' hl hr x h => by
      obtain ⟨hne, hne'⟩ := value?_sides (h ▸ Option.some_ne_none x)
      rw [← h]
      exact (value?_replacement.bin op (same hl hne) (same hr hne')).symm }

/-- The inverse of an inverse has more values than the operand only where the operand is zero. -/
theorem value?_reciprocals : Reciprocals fun t u : Term α =>
    ∀ x : K, t.value? = some x → u.value? = some x where
  toReplacement := value?_refinement
  neg_neg t _ h := (value?_negations.neg_neg t).symm.trans h
  neg_product t _ h := (value?_negations.neg_product t).symm.trans h
  neg_number hn _ h := (value?_neg_number hn).symm.trans h
  recip_recip _ x h := by
    obtain ⟨y, hy, _, rfl⟩ := value?_recip h
    obtain ⟨z, hz, _, rfl⟩ := value?_recip hy
    rw [inv_inv, hz]
  recip_number {t n} hn _ x h := by
    obtain ⟨y, hy, hne, rfl⟩ := value?_recip h
    rw [value?_of_number? hn] at hy
    show value (Scalar.one / n) = some y⁻¹
    rw [Scalar.Partial.value_div Scalar.Partial.value_one hy hne, one_div]
  recip_power _ r x h := by
    obtain ⟨y, hy, hne, rfl⟩ := value?_recip h
    obtain ⟨a, b, ha, hb, hy⟩ := value?_power_iff.1 hy
    refine value?_power_iff.2 ⟨a, -b, ha, ?_, PartialFunctions.power_neg hy hne⟩
    show r.value?.map (-·) = some (-b)
    rw [hb]
    rfl
  recip _ x h := by
    obtain ⟨y, hy, hne, rfl⟩ := value?_recip h
    exact value?_power_iff.2 ⟨y, -1, hy, Scalar.Partial.value_negOne,
      PartialFunctions.power_neg (PartialFunctions.power_one y) hne⟩

/-- Writing a reciprocal as a power keeps its value, if it has one. -/
theorem reciprocalAsPower_value? {x : K} (h : t.value? = some x)
    (hu : t.reciprocalAsPower = .ok u) : u.value? = some x :=
  value?_reciprocals.reciprocalAsPower hu x h

end Term

end AlgebraicTerms
