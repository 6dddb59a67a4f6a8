import AlgebraicTerms.Proofs.Term.FormLaws
import AlgebraicTerms.Proofs.Term.Total
import AlgebraicTerms.Term.Expansion

/-!
# Forms of one value

Every conversion between forms keeps the value of a term, or changes it as its name says.
-/

namespace AlgebraicTerms

variable {α : Type} [Scalar α]

/-- What the numbers among the operands of a chain make together. -/
def Chain.number (c : Chain) (ts : List (Term α)) : α :=
  match c with
  | sum => Term.sumOfNumbers ts
  | product => Term.productOfNumbers ts

theorem Chain.number_cons_none {c : Chain} {t : Term α} (hn : t.number? = none)
    (ts : List (Term α)) : c.number (t :: ts) = c.number ts := by
  have numbers : Term.numbers (t :: ts) = Term.numbers ts := List.filterMap_cons_none hn
  cases c with
  | sum => rw [number, Term.sumOfNumbers, numbers]; rfl
  | product => rw [number, Term.productOfNumbers, numbers]; rfl

variable [Scalar.Exact α] {K : Type*} [Field K] {ρ : Assignment K} {t u l r l' r' : Term α}
  {ts : List (Term α)} {a b : K}

/-! ## Numbers and other operands -/

theorem Term.HasValue.of_number? {n : α} (h : t.HasValue ρ a) (hn : t.number? = some n) :
    a = Scalar.toField n := by
  cases h with
  | num m =>
      cases hn
      rfl
  | _ => cases hn

theorem Chain.number_nil (c : Chain) :
    (Scalar.toField (c.number ([] : List (Term α))) : K) = c.unit := by
  cases c with
  | sum =>
      rw [Scalar.toField, number, Term.sumOfNumbers, Scalar.value_sum]
      exact Rat.cast_zero
  | product =>
      rw [Scalar.toField, number, Term.productOfNumbers, Scalar.value_product]
      exact Rat.cast_one

theorem Chain.number_cons [CharZero K] {c : Chain} {n : α} (hn : t.number? = some n)
    (ts : List (Term α)) :
    (Scalar.toField (c.number (t :: ts)) : K) =
      c.combine (Scalar.toField n) (Scalar.toField (c.number ts)) := by
  have numbers : Term.numbers (t :: ts) = n :: Term.numbers ts := List.filterMap_cons_some hn
  cases c with
  | sum =>
      rw [number, number, combine, ← Scalar.toField_add]
      refine Scalar.toField_congr ?_
      rw [Term.sumOfNumbers, Term.sumOfNumbers, numbers, Scalar.value_sum, List.map_cons,
        List.sum_cons, Scalar.Exact.value_add, Scalar.value_sum]
  | product =>
      rw [number, number, combine, ← Scalar.toField_mul]
      refine Scalar.toField_congr ?_
      rw [Term.productOfNumbers, Term.productOfNumbers, numbers, Scalar.value_product,
        List.map_cons, List.prod_cons, Scalar.Exact.value_mul, Scalar.value_product]

/-- The numbers among the operands can be taken together. -/
theorem Chain.Total.others [CharZero K] {c : Chain} (h : c.Total ρ ts a) :
    ∃ b, c.Total ρ (Term.others ts) b ∧ a = c.combine (Scalar.toField (c.number ts)) b := by
  induction h with
  | nil => exact ⟨_, .nil, by rw [number_nil, combine_unit]⟩
  | @cons t ts a b ht hts ih =>
      obtain ⟨d, hd, rfl⟩ := ih
      cases hn : t.number? with
      | some n =>
          have skipped : Term.others (t :: ts) = Term.others ts :=
            List.filter_cons_of_neg (by rw [Term.isNumber, hn]; exact Bool.false_ne_true)
          rw [skipped]
          refine ⟨d, hd, ?_⟩
          rw [number_cons hn, ht.of_number? hn, combine_assoc]
      | none =>
          have kept : Term.others (t :: ts) = t :: Term.others ts :=
            List.filter_cons_of_pos (by rw [Term.isNumber, hn]; rfl)
          rw [kept]
          refine ⟨_, .cons ht hd, ?_⟩
          rw [number_cons_none hn, combine_left_comm]

namespace Term

/-! ## Powers -/

theorem exists_of_shape_literal (h : t.shape = .literal) :
    ∃ n, t = num n ∧ 0 < Scalar.Exact.value n := by
  cases t with
  | num n =>
      refine ⟨n, rfl, ?_⟩
      rw [shape] at h
      split at h
      · cases h
      · rename_i hn
        rw [Bool.or_eq_true_iff, Scalar.isNegative_iff, Scalar.isZero_iff, not_or] at hn
        exact lt_of_le_of_ne (not_lt.1 hn.1) (Ne.symm hn.2)
  | bin op l r =>
      cases op with
      | add | mul => exact absurd h (Shape.join_ne_literal _ _)
      | sub | div | mod | pow => cases h
  | _ => cases h

theorem value_pos_of_literal {n : α} (h : (num n).shape = .literal) : 0 < Scalar.Exact.value n := by
  obtain ⟨m, same, hm⟩ := exists_of_shape_literal h
  cases same
  exact hm

theorem shape_literal {n : α} (h : 0 < Scalar.Exact.value n) : (num n).shape = .literal := by
  have plain : (Scalar.isNegative n || Scalar.isZero n) = false := by
    rw [Bool.or_eq_false_iff, Bool.eq_false_iff, Bool.eq_false_iff, Ne, Ne, Scalar.isNegative_iff,
      Scalar.isZero_iff]
    exact ⟨not_lt.2 h.le, h.ne'⟩
  rw [shape, plain]
  rfl

/-- Numbers with the value of a term that is seen to be positive are positive. -/
theorem HasValue.num_literal [CharZero K] {n : α} (h : t.HasValue ρ a) (hs : t.shape ≠ .other)
    (hn : (Term.num n).HasValue ρ a) : (Term.num n).shape = .literal := by
  have positive : ∃ q : ℚ, 0 < q ∧ a = q := by
    have leaf {t : Term α} {a : K} (h : t.HasValue ρ a) (hs : t.shape = .literal) :
        ∃ q : ℚ, 0 < q ∧ a = q := by
      obtain ⟨m, rfl, hm⟩ := exists_of_shape_literal hs
      exact ⟨_, hm, h.of_number? rfl⟩
    cases h with
    | num m =>
        rw [shape] at hs
        split at hs
        · exact absurd rfl hs
        · rename_i plain
          exact leaf (.num m) (if_neg plain)
    | add hl hr =>
        obtain ⟨literal, literal'⟩ := Shape.join_ne_other hs
        obtain ⟨p, hp, rfl⟩ := leaf hl literal
        obtain ⟨q, hq, rfl⟩ := leaf hr literal'
        exact ⟨p + q, add_pos hp hq, (Rat.cast_add p q).symm⟩
    | mul hl hr =>
        obtain ⟨literal, literal'⟩ := Shape.join_ne_other hs
        obtain ⟨p, hp, rfl⟩ := leaf hl literal
        obtain ⟨q, hq, rfl⟩ := leaf hr literal'
        exact ⟨p * q, mul_pos hp hq, (Rat.cast_mul p q).symm⟩
    | _ => exact absurd rfl hs
  obtain ⟨q, hq, rfl⟩ := positive
  have value : Scalar.Exact.value n = q := Rat.cast_injective (hn.of_number? rfl).symm
  exact shape_literal (by rw [value]; exact hq)

theorem HasValue.of_neg (h : (inv .neg t).HasValue ρ a) : t.HasValue ρ (-a) := by
  cases h with
  | neg h => rwa [neg_neg]

/-- A power with a positive number as its exponent has a value whatever its base. -/
theorem HasValue.pow_literal {n : α} {k : ℕ} (h : t.HasValue ρ a) (hn : Scalar.Exact.value n = k)
    (hk : 0 < k) : (bin .pow t (Term.num n)).HasValue ρ (a ^ k) := by
  have exponent : (Term.num n).HasValue ρ (((k : ℤ) : K)) := by
    have h : (Term.num n).HasValue ρ (Scalar.toField n : K) := .num n
    rw [Scalar.toField, hn] at h
    exact_mod_cast h
  by_cases hne : a = 0
  · subst hne
    rw [zero_pow hk.ne']
    exact .zeroPow h exponent (shape_literal (by rw [hn]; exact_mod_cast hk))
  · rw [← zpow_natCast]
    exact .pow h exponent hne

theorem HasValue.pow_one (h : t.HasValue ρ a) :
    (bin .pow t (Term.num Scalar.one)).HasValue ρ a := by
  have power := h.pow_literal (k := 1) (Scalar.value_one.trans Nat.cast_one.symm) Nat.one_pos
  rwa [pow_succ, pow_zero, one_mul] at power

/-- The base of a power is not zero unless the exponent is written as a positive number. -/
theorem HasValue.of_pow (h : (bin .pow l r).HasValue ρ a) (hr : r.shape ≠ .literal) :
    ∃ (x : K) (k : ℤ), l.HasValue ρ x ∧ r.HasValue ρ k ∧ x ≠ 0 ∧ a = x ^ k := by
  cases h with
  | pow hl hr hne => exact ⟨_, _, hl, hr, hne, rfl⟩
  | zeroPow _ _ literal => exact absurd literal hr

theorem HasValue.literal_pos [CharZero K] {k : ℤ} (h : t.HasValue ρ (k : K)) (hs : t.shape = .literal) :
    0 < k := by
  obtain ⟨n, rfl, hn⟩ := exists_of_shape_literal hs
  have value : Scalar.Exact.value n = k := by
    have same := h.of_number? rfl
    rw [Scalar.toField] at same
    exact_mod_cast same.symm
  rw [value] at hn
  exact_mod_cast hn

theorem HasValue.exists_of_pow [CharZero K] (h : (bin .pow l r).HasValue ρ a) :
    ∃ (x : K) (k : ℤ), l.HasValue ρ x ∧ r.HasValue ρ k ∧ (x = 0 → r.shape = .literal) ∧
      a = x ^ k := by
  cases h with
  | pow hl hr hne => exact ⟨_, _, hl, hr, fun zero => absurd zero hne, rfl⟩
  | zeroPow hl hr literal =>
      exact ⟨_, _, hl, hr, fun _ => literal, (zero_zpow _ (hr.literal_pos literal).ne').symm⟩

theorem HasValue.power [CharZero K] {x : K} {k : ℤ} (hl : l.HasValue ρ x) (hr : r.HasValue ρ k)
    (literal : x = 0 → r.shape = .literal) : (bin .pow l r).HasValue ρ (x ^ k) := by
  by_cases zero : x = 0
  · subst zero
    rw [zero_zpow _ (hr.literal_pos (literal rfl)).ne']
    exact .zeroPow hl hr (literal rfl)
  · exact .pow hl hr zero

theorem HasValue.recip_pow {k : ℤ} {x : K} (hl : l.HasValue ρ x) (hne : x ≠ 0)
    (hr : r.HasValue ρ (-(k : K))) : (inv .recip (bin .pow l r)).HasValue ρ (x ^ k) := by
  have power : (bin .pow l r).HasValue ρ (x ^ (-k)) := by
    refine .pow hl ?_ hne
    rwa [Int.cast_neg]
  have inverse := HasValue.recip power (zpow_ne_zero _ hne)
  rwa [zpow_neg, inv_inv] at inverse

/-! ## Conversions -/

theorem keepsValue_negations : Negations (KeepsValue (α := α) ρ) where
  toReplacement := keepsValue_replacement
  neg_neg _ := keepsValue_of_inv fun _ h => by
    cases h with
    | neg h =>
        cases h with
        | neg h => rwa [neg_neg]
  neg_product _ := keepsValue_of_inv fun _ h => by
    cases h with
    | neg h =>
        rw [← neg_one_mul]
        exact hasValue_negOne.mul h

theorem keepsValue_neg_number {n : α} (hn : t.number? = some n) :
    (inv .neg t).KeepsValue ρ (num (-n)) :=
  keepsValue_of_inv fun _ h => by
    cases h with
    | neg h =>
        rw [h.of_number? hn]
        exact hasValue_opposite _

/-- A reciprocal that has a value is the power with exponent `-1`. -/
theorem keepsValue_reciprocals [CharZero K] : Reciprocals (KeepsValue (α := α) ρ) where
  toNegations := keepsValue_negations
  neg_number := keepsValue_neg_number
  recip_recip _ := keepsValue_of_inv fun _ h => by
    cases h with
    | recip h _ =>
        cases h with
        | recip h _ => rwa [inv_inv]
  recip_number hn _ := keepsValue_of_inv fun _ h => by
    cases h with
    | recip h hne =>
        rw [h.of_number? hn] at hne ⊢
        rw [← Scalar.toField_inv hne]
        exact .num _
  recip_power _ _ := keepsValue_of_inv fun _ h => by
    cases h with
    | recip h hne =>
        cases h with
        | pow hl hr nonzero =>
            rw [← zpow_neg]
            refine .pow hl ?_ nonzero
            rw [Int.cast_neg]
            exact .neg hr
        | zeroPow => exact absurd rfl hne
  recip _ := keepsValue_of_inv fun _ h => by
    cases h with
    | recip h hne =>
        rw [← zpow_neg_one]
        refine .pow h ?_ hne
        rw [Int.cast_neg, Int.cast_one]
        exact hasValue_negOne

theorem keepsValue_negativePowers [CharZero K] : NegativePowers (KeepsValue (α := α) ρ) := by
  have negative {r : Term α} {n : α} (hn : r.number? = some n) (hneg : Scalar.Exact.value n < 0) :
      r.shape ≠ .literal := fun literal => by
    obtain ⟨m, rfl, hm⟩ := exists_of_shape_literal literal
    cases hn
    exact absurd hm (not_lt.2 hneg.le)
  exact {
    toReplacement := keepsValue_replacement
    power_negOne := fun {l r n} hn minus => keepsValue_of_bin fun a h => by
      have value : Scalar.Exact.value n = -1 := by
        rw [Scalar.Exact.beq_iff.1 minus, Scalar.value_negOne]
      obtain ⟨x, k, hx, hk, hne, rfl⟩ := h.of_pow (negative hn (by rw [value]; decide))
      have exponent : k = -1 := by
        have same := hk.of_number? hn
        rw [Scalar.toField, value] at same
        exact_mod_cast same
      rw [exponent, zpow_neg_one]
      exact .recip hx hne
    power_negative := fun {l r n} hn hneg => keepsValue_of_bin fun a h => by
      obtain ⟨x, k, hx, hk, hne, rfl⟩ := h.of_pow (negative hn (Scalar.isNegative_iff.1 hneg))
      refine hx.recip_pow hne ?_
      rw [hk.of_number? hn]
      exact hasValue_opposite n
    power_neg := fun l r => keepsValue_of_bin fun a h => by
      obtain ⟨x, k, hx, hk, hne, rfl⟩ := h.of_pow (fun literal => by cases literal)
      exact hx.recip_pow hne hk.of_neg }

theorem keepsValue_trivialPowers [Scalar.Legible α] [CharZero K] :
    TrivialPowers (KeepsValue (α := α) ρ) fun _ => True where
  toReplacement := keepsValue_replacement
  power_one _ one := keepsValue_of_bin fun _ h => by
    cases h with
    | @pow _ _ x n hl hr hne =>
        have exponent : n = 1 := by exact_mod_cast hr.eq_one one
        rwa [exponent, zpow_one]
    | zeroPow hl => exact hl
  power_zero _ zero := keepsValue_of_bin fun _ h => by
    cases h with
    | @pow _ _ x n hl hr hne =>
        have exponent : n = 0 := by exact_mod_cast hr.eq_zero zero
        rw [exponent, zpow_zero]
        exact hasValue_one
    | zeroPow hl hr literal =>
        obtain ⟨m, rfl, hm⟩ := exists_of_shape_literal literal
        have value := hr.eq_zero zero
        rw [hr.of_number? rfl, Scalar.toField_eq_zero] at value
        exact absurd value hm.ne'

theorem keepsValue_coefficients [Scalar.Legible α] [CharZero K] :
    Coefficients (KeepsValue (α := α) ρ) fun _ => True where
  toJoinLaws := keepsValue_joinLaws .product
  neg_mul _ _ := keepsValue_of_bin fun _ h => by
    cases h with
    | mul ht hu =>
        cases ht with
        | neg ht =>
            rw [neg_mul]
            exact .neg (.mul ht hu)
  mul_number _ _ hn := keepsValue_of_bin fun _ h => by
    cases h with
    | mul hm ht =>
        rw [hm.of_number? rfl, ht.of_number? hn, ← Scalar.toField_mul]
        exact .num _
  mul_neg _ _ := keepsValue_of_bin fun _ h => by
    cases h with
    | mul hn ht =>
        cases ht with
        | neg ht =>
            rw [hn.of_number? rfl, mul_neg, ← neg_mul]
            exact .mul (hasValue_opposite _) ht
  one_mul _ := keepsValue_of_bin fun _ h => by
    cases h with
    | mul one ht => rwa [one.of_number? rfl, Scalar.toField_one, one_mul]
  of_one_mul _ _ := keepsValue_of_bin fun a h => by
    rw [← one_mul a]
    exact hasValue_one.mul h
  zero_mul _ := keepsValue_of_bin fun _ h => by
    cases h with
    | mul zero ht =>
        rw [zero.of_number? rfl, Scalar.toField_zero, zero_mul]
        exact hasValue_zero
  negOne {n} minus := by
    have value : Scalar.Exact.value n = Scalar.Exact.value Scalar.negOne := Scalar.Exact.beq_iff.1 minus
    refine ⟨fun a h => ?_, fun literal => ?_⟩
    · rw [h.of_number? rfl, Scalar.toField_congr value, Scalar.toField_negOne]
      exact .neg hasValue_one
    · have positive := value_pos_of_literal literal
      rw [value, Scalar.value_negOne] at positive
      exact absurd positive (by norm_num)
  one {n} isOne := by
    have value : Scalar.Exact.value n = 1 := Scalar.isOne_iff.1 isOne
    refine ⟨fun a h => ?_, fun _ => shape_literal (by rw [Scalar.value_one]; exact one_pos)⟩
    rw [h.of_number? rfl, Scalar.toField, value, Rat.cast_one]
    exact hasValue_one
  zero {n} isZero := by
    have value : Scalar.Exact.value n = 0 := Scalar.isZero_iff.1 isZero
    refine ⟨fun a h => ?_, fun literal => absurd value (value_pos_of_literal literal).ne'⟩
    rw [h.of_number? rfl, Scalar.toField_eq_zero.2 value]
    exact hasValue_zero
  negative {n} negative := by
    refine ⟨fun a h => ?_, fun literal => ?_⟩
    · rw [h.of_number? rfl, ← neg_neg (Scalar.toField n)]
      exact .neg (hasValue_opposite n)
    · exact absurd (value_pos_of_literal literal) (not_lt.2 (Scalar.isNegative_iff.1 negative).le)

theorem keepsValue_distributes [Scalar.Legible α] [CharZero K] :
    Distributes (KeepsValue (α := α) ρ) fun _ => True where
  toNegations := keepsValue_negations
  chains := keepsValue_joinLaws
  distrib _ _ _ := keepsValue_of_bin fun _ h => by
    cases h with
    | mul htu hv =>
        cases htu with
        | add ht hu =>
            rw [add_mul]
            exact .add (.mul ht hv) (.mul hu hv)

theorem withExponents_hasValue (h : t.HasValue ρ a) : t.withExponents.HasValue ρ a := by
  refine (keepsValue_replacement.withExponents (fun {t} hn => ?_) t).1 a h
  refine ⟨fun a h => h.pow_one, fun literal => ?_⟩
  obtain ⟨n, rfl, _⟩ := exists_of_shape_literal literal
  cases hn

theorem negationsAsProducts_hasValue (h : t.HasValue ρ a) : t.negationsAsProducts.HasValue ρ a :=
  (keepsValue_negations.negationsAsProducts t).1 a h

theorem negated_hasValue (h : t.HasValue ρ a) : t.negated.HasValue ρ (-a) :=
  (keepsValue_negations.negated keepsValue_neg_number t).1 _ (.neg h)

variable [CharZero K]

/-- The inverse of a candidate of the operand has the value of the inverse. -/
theorem inverted_hasValue {i : Inverse} (h : (inv i t).HasValue ρ a)
    (hu : ∀ b, t.HasValue ρ b → u.HasValue ρ b) {v : Term α} (hv : u.inverted i = .ok v) :
    v.HasValue ρ a :=
  (keepsValue_reciprocals.inverted hv).1 a (h.congr_inv hu)

theorem reciprocalAsPower_hasValue (h : t.HasValue ρ a) (hu : t.reciprocalAsPower = .ok u) :
    u.HasValue ρ a :=
  (keepsValue_reciprocals.reciprocalAsPower hu).1 a h

theorem powerAsReciprocal_hasValue (h : t.HasValue ρ a) : t.powerAsReciprocal.HasValue ρ a :=
  (keepsValue_negativePowers.powerAsReciprocal t).1 a h

variable [Scalar.Legible α]

theorem withCoefficient_hasValue (h : t.HasValue ρ a) : t.withCoefficient.HasValue ρ a :=
  (keepsValue_coefficients.withCoefficient arrangeable_all (fun _ => trivial) trivial).1 a h

theorem withSummandsNegated_hasValue (h : t.HasValue ρ a) :
    t.withSummandsNegated.HasValue ρ (-a) :=
  (keepsValue_negations.withSummandsNegated keepsValue_neg_number
    (keepsValue_joinLaws .sum) arrangeable_all (fun _ => trivial) trivial).1 _ (.neg h)

theorem withoutTrivialPowers_hasValue (h : t.HasValue ρ a) :
    t.withoutTrivialPowers.HasValue ρ a :=
  (keepsValue_trivialPowers.withoutTrivialPowers arrangeable_all inherited_all trivial).1 a h

theorem expanded_hasValue (h : t.HasValue ρ a) : t.expanded.HasValue ρ a :=
  (keepsValue_distributes.expanded arrangeable_all inherited_all trivial trivial).1 a h

end Term

end AlgebraicTerms
