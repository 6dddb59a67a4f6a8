import AlgebraicTerms.Proofs.Term.Conversions
import AlgebraicTerms.Proofs.Term.StrictMerging

/-!
# Terms with integer exponents

Where every exponent is an integer and neither a base nor a divisor is zero, all laws of exponents hold
in a field.  A factor can then be turned from a reciprocal into a power with a negative exponent and back
(`reciprocalAsPower_regular`, `powerAsReciprocal_regular`).
-/

namespace AlgebraicTerms

namespace Interpretation

variable {α : Type} {F : Type*} [Scalar α] [Field F]

/-- Whether powers with integer exponents are those of the field, and those of numbers are computed
exactly. -/
structure IntegerPowers (I : Interpretation α F) : Prop where
  power {x : F} {n : ℤ} : x ≠ 0 ∨ 0 ≤ n → I.power x n = x ^ n
  number {b e : α} {n : ℤ} : I.number b ≠ 0 → I.number e = n →
    I.number (Scalar.power b e) = I.number b ^ n

theorem IntegerPowers.power_one {I : Interpretation α F} (powers : I.IntegerPowers) (x : F) :
    I.power x 1 = x := by
  have h := powers.power (x := x) (n := 1) (.inr Int.one_nonneg)
  rwa [Int.cast_one, zpow_one] at h

theorem reals_integerPowers (var : String → ℝ) (call : Keyword → ℝ → ℝ) :
    (reals var call).IntegerPowers where
  power {x n} _ := Real.rpow_intCast x n
  number {b e n} _ he := by
    have whole : e = n := by
      have same : (e : ℝ) = ((n : ℚ) : ℝ) := by rw [Rat.cast_intCast]; exact he
      exact Rat.cast_injective same
    show ((Rational.power b e : ℚ) : ℝ) = (b : ℝ) ^ n
    rw [Rational.power_of_isInteger whole, Rat.cast_zpow]

end Interpretation

namespace Term

variable {α : Type} {F : Type*} [Scalar α] [Field F]

/-- Whether all exponents are integers and no base and no divisor is zero. -/
def Integral (I : Interpretation α F) : Term α → Prop
  | call _ t => t.Integral I
  | inv i t => t.Integral I ∧ (i = .recip → t.eval I.meaning ≠ 0)
  | bin op l r => l.Integral I ∧ r.Integral I ∧
      (op = .pow → l.eval I.meaning ≠ 0 ∧ ∃ n : ℤ, r.eval I.meaning = n) ∧
      (op = .div → r.eval I.meaning ≠ 0)
  | _ => True

/-- A class of terms in which those that are written alike have one value.  It holds what the search
makes of its members, other than remainders. -/
structure Readable (I : Interpretation α F) (C : Term α → Prop) : Prop where
  faithful : Faithful I C
  inherited : Inherited C
  num (n : α) : C (num n)
  argument {k : Keyword} {t : Term α} : C (call k t) → C t
  call {k k' : Keyword} {t : Term α} : C (call k t) → C (Term.call k' t)
  bin {op : Operator} {l r : Term α} : op ≠ .mod → C l → C r → C (bin op l r)

/-- Whether no remainder is taken. -/
def Remainderless : Term α → Prop
  | call _ t | inv _ t => t.Remainderless
  | bin op l r => op ≠ .mod ∧ l.Remainderless ∧ r.Remainderless
  | _ => True

theorem Remainderless.clear {t : Term α} (h : t.Remainderless) :
    t.ClearRemainders ∧ t.startsRemainder = false := by
  induction t with
  | call k t ih => exact ⟨(ih h).1, rfl⟩
  | inv i t ih => exact ⟨(ih h).1, rfl⟩
  | bin op l r ihl ihr =>
      obtain ⟨hop, hl, hr⟩ := h
      refine ⟨⟨(ihl hl).1, (ihr hr).1, fun _ _ => (ihr hr).2⟩, ?_⟩
      cases op with
      | mul | div => exact (ihl hl).2
      | mod => exact absurd rfl hop
      | add | sub | pow => rfl
  | _ => exact ⟨trivial, rfl⟩

/-- Terms that can be read again from their texts are such a class, without remainders. -/
theorem readable_of_remainderless [Scalar.Legible α] {I : Interpretation α F} (exact : I.Exact) :
    Readable I fun t => t.Legible ∧ t.Remainderless where
  faithful := (Faithful.of_legible I).mono fun _ h => ⟨h.1, h.2.clear.1⟩
  inherited := ⟨fun h => ⟨h.1.1, h.2.2.1⟩, fun h => ⟨h.1.2, h.2.2.2⟩, id, id⟩
  num n := ⟨exact.finite n, trivial⟩
  argument h := h
  call h := h
  bin hop hl hr := ⟨⟨hl.1, hr.1⟩, hop, hl.2, hr.2⟩

/-- A term of the class with integer exponents. -/
structure Regular (I : Interpretation α F) (C : Term α → Prop) (t : Term α) : Prop where
  readable : C t
  integral : t.Integral I

variable {I : Interpretation α F} {C : Term α → Prop} {t u v l r base base' exponent m n : Term α}
  {k : ℤ}

namespace Regular

theorem eval_eq (readable : Readable I C) (ht : t.Regular I C) (hu : u.Regular I C)
    (h : t.text = u.text) : t.eval I.meaning = u.eval I.meaning :=
  readable.faithful t u ht.readable hu.readable h

theorem number (readable : Readable I C) (n : α) : (num n).Regular I C :=
  ⟨readable.num n, trivial⟩

theorem left {op : Operator} (readable : Readable I C) (h : (bin op l r).Regular I C) :
    l.Regular I C := ⟨readable.inherited.left h.readable, h.integral.1⟩

theorem right {op : Operator} (readable : Readable I C) (h : (bin op l r).Regular I C) :
    r.Regular I C := ⟨readable.inherited.right h.readable, h.integral.2.1⟩

theorem operand {i : Inverse} (readable : Readable I C) (h : (inv i t).Regular I C) :
    t.Regular I C := ⟨readable.inherited.operand h.readable, h.integral.1⟩

theorem neg (readable : Readable I C) (h : t.Regular I C) : (inv .neg t).Regular I C :=
  ⟨readable.inherited.inverse h.readable, h.integral, nofun⟩

theorem recip (readable : Readable I C) (h : t.Regular I C) (hne : t.eval I.meaning ≠ 0) :
    (inv .recip t).Regular I C :=
  ⟨readable.inherited.inverse h.readable, h.integral, fun _ => hne⟩

theorem sum (readable : Readable I C) (hl : l.Regular I C) (hr : r.Regular I C) :
    (bin .add l r).Regular I C :=
  ⟨readable.bin nofun hl.readable hr.readable, hl.integral, hr.integral, nofun, nofun⟩

theorem product (readable : Readable I C) (hl : l.Regular I C) (hr : r.Regular I C) :
    (bin .mul l r).Regular I C :=
  ⟨readable.bin nofun hl.readable hr.readable, hl.integral, hr.integral, nofun, nofun⟩

theorem quotient (readable : Readable I C) (hl : l.Regular I C) (hr : r.Regular I C)
    (hne : r.eval I.meaning ≠ 0) : (bin .div l r).Regular I C :=
  ⟨readable.bin nofun hl.readable hr.readable, hl.integral, hr.integral, nofun, fun _ => hne⟩

/-- A power whose base is not zero and whose exponent is an integer is that power of the base. -/
theorem power (readable : Readable I C) (powers : I.IntegerPowers) (hbase : base.Regular I C)
    (hexponent : exponent.Regular I C) (hne : base.eval I.meaning ≠ 0)
    (integer : exponent.eval I.meaning = k) : (bin .pow base exponent).Regular I C ∧
      (bin .pow base exponent).eval I.meaning = base.eval I.meaning ^ k := by
  refine ⟨⟨readable.bin nofun hbase.readable hexponent.readable, hbase.integral,
    hexponent.integral, fun _ => ⟨hne, k, integer⟩, nofun⟩, ?_⟩
  show I.power _ (exponent.eval I.meaning) = _
  rw [integer, powers.power (.inl hne)]

theorem exists_power (powers : I.IntegerPowers) (h : (bin .pow base exponent).Regular I C) :
    ∃ n : ℤ, base.eval I.meaning ≠ 0 ∧ exponent.eval I.meaning = n ∧
      (bin .pow base exponent).eval I.meaning = base.eval I.meaning ^ n := by
  obtain ⟨hne, n, integer⟩ := h.integral.2.2.1 rfl
  refine ⟨n, hne, integer, ?_⟩
  show I.power _ (exponent.eval I.meaning) = _
  rw [integer, powers.power (.inl hne)]

theorem unitAsRead [Scalar.Legible α] (readable : Readable I C) (h : t.Regular I C) :
    t.UnitAsRead I .product :=
  readable.faithful.eval_of_reads_one (readable.num _) h.readable

/-- The factors of a product or quotient. -/
theorem operandsIn (readable : Readable I C) (h : t.Regular I C) :
    ∀ u ∈ t.operandsIn .product, u.Regular I C := by
  induction t with
  | bin op l r ihl ihr =>
      have single : ∀ u ∈ [bin op l r], u.Regular I C := List.forall_mem_singleton.2 h
      have hl := ihl (h.left readable)
      have hr := ihr (h.right readable)
      cases op with
      | mul =>
          show ∀ u ∈ l.operandsIn .product ++ r.operandsIn .product, u.Regular I C
          exact List.forall_mem_append.2 ⟨hl, hr⟩
      | div =>
          show ∀ u ∈ l.operandsIn .product ++ (r.operandsIn .product).map (inv .recip),
            u.Regular I C
          refine List.forall_mem_append.2 ⟨hl, fun u hu => ?_⟩
          obtain ⟨v, hv, rfl⟩ := List.mem_map.1 hu
          refine (hr v hv).recip readable fun zero => h.integral.2.2.2 rfl ?_
          rw [← prod_operandsIn]
          exact List.prod_eq_zero (List.mem_map.2 ⟨v, hv, zero⟩)
      | add | sub | mod | pow => exact single
  | _ => exact List.forall_mem_singleton.2 h

theorem negated (exact : I.FullyExact) (readable : Readable I C) (h : t.Regular I C) :
    t.negated.Regular I C ∧ t.negated.eval I.meaning = -t.eval I.meaning := by
  refine ⟨?_, negated_eval exact t⟩
  unfold Term.negated
  split
  · exact h.operand readable
  · split
    · exact .number readable _
    · exact h.neg readable

end Regular

/-! ## Reciprocals and negative powers -/

theorem reciprocalAsPower_regular (exact : I.FullyExact) (powers : I.IntegerPowers)
    (readable : Readable I C) (ht : t.Regular I C) (h : t.reciprocalAsPower = .ok u) :
    u.Regular I C ∧ u.eval I.meaning = t.eval I.meaning := by
  rcases reciprocalAsPower_cases h with rfl | rfl | ⟨b, e, rfl, rfl⟩ | ⟨x, n, rfl, hx, _, rfl⟩ |
    ⟨x, rfl, rfl⟩
  · exact ⟨ht, rfl⟩
  · exact ⟨(ht.operand readable).operand readable, (one_div_one_div _).symm⟩
  · have power := ht.operand readable
    obtain ⟨k, hne, integer, value⟩ := power.exists_power powers
    obtain ⟨hnegated, opposite⟩ := (power.right readable).negated exact readable
    rw [integer, ← Int.cast_neg] at opposite
    obtain ⟨regular, result⟩ := (power.left readable).power readable powers hnegated hne opposite
    refine ⟨regular, ?_⟩
    show _ = 1 / (bin .pow b e).eval I.meaning
    rw [result, value, zpow_neg, one_div]
  · refine ⟨.number readable _, ?_⟩
    have value := eval_of_number? exact.toExact hx
    have nonzero : I.number n ≠ 0 := by
      rw [← value]
      exact ht.integral.2 rfl
    show I.number (Scalar.one / n) = 1 / x.eval I.meaning
    rw [value, exact.div _ nonzero, Scalar.one, I.number_one]
  · have hx := ht.operand readable
    have hne : x.eval I.meaning ≠ 0 := ht.integral.2 rfl
    have opposite : (num (Scalar.negOne : α)).eval I.meaning = ((-1 : ℤ) : F) := by
      rw [Int.cast_neg, Int.cast_one]
      exact exact.negOne
    obtain ⟨regular, result⟩ := hx.power readable powers (.number readable _) hne opposite
    refine ⟨regular, ?_⟩
    rw [result, zpow_neg_one]
    exact (one_div _).symm

theorem powerAsReciprocal_regular (exact : I.FullyExact) (powers : I.IntegerPowers)
    (readable : Readable I C) (ht : t.Regular I C) : t.powerAsReciprocal.Regular I C ∧
      t.powerAsReciprocal.eval I.meaning = t.eval I.meaning := by
  unfold powerAsReciprocal
  split
  · exact ⟨ht, rfl⟩
  · rename_i base exponent hp
    obtain rfl := eq_pow_of_power? hp
    obtain ⟨k, hne, integer, value⟩ := ht.exists_power powers
    have hbase := ht.left readable
    -- The reciprocal of the power with the opposite exponent
    have opposite {e : Term α} (he : e.Regular I C) (h : e.eval I.meaning = ((-k : ℤ) : F)) :
        (inv .recip (bin .pow base e)).Regular I C ∧
          (inv .recip (bin .pow base e)).eval I.meaning =
            (bin .pow base exponent).eval I.meaning := by
      obtain ⟨regular, result⟩ := hbase.power readable powers he hne h
      refine ⟨regular.recip readable ?_, ?_⟩
      · rw [result]
        exact zpow_ne_zero _ hne
      · show 1 / (bin .pow base e).eval I.meaning = _
        rw [result, value, zpow_neg, one_div, inv_inv]
    split
    · rename_i n hn
      split
      · rename_i one
        have minus : exponent.eval I.meaning = ((-1 : ℤ) : F) := by
          rw [eval_of_number? exact.toExact hn, exact.beq one, exact.negOne, Int.cast_neg,
            Int.cast_one]
        obtain ⟨_, result⟩ := hbase.power readable powers (ht.right readable) hne minus
        refine ⟨hbase.recip readable hne, ?_⟩
        rw [result, zpow_neg_one]
        exact one_div _
      · split
        · refine opposite (.number readable _) ?_
          show I.number (-n) = _
          rw [exact.neg, ← eval_of_number? exact.toExact hn, integer, Int.cast_neg]
        · exact ⟨ht, rfl⟩
    · split
      · rename_i positive hpositive
        cases exponent with
        | inv i operand =>
            cases i with
            | neg =>
                cases hpositive
                refine opposite ((ht.right readable).operand readable) ?_
                rw [Int.cast_neg, ← integer]
                exact (neg_neg _).symm
            | recip => cases hpositive
        | _ => cases hpositive
      · exact ⟨ht, rfl⟩

/-! ## Merged powers -/

theorem sineOverCosine?_regular (exact : I.FullyExact) (powers : I.IntegerPowers)
    (readable : Readable I C) (tangent : ∀ x, I.call .tan x = I.call .sin x / I.call .cos x)
    (ht : t.Regular I C) (hu : u.Regular I C)
    (h : sineOverCosine? t u = some v) :
    v.Regular I C ∧ v.eval I.meaning = t.eval I.meaning * u.eval I.meaning := by
  obtain ⟨a, m, b, n, rfl, rfl, rfl, same, opposite⟩ := sineOverCosine?_eq_some h
  obtain ⟨k, sine, hm, power⟩ := ht.exists_power powers
  obtain ⟨l, cosine, hn, power'⟩ := hu.exists_power powers
  have argument : a.eval I.meaning = b.eval I.meaning :=
    readable.faithful a b (readable.argument (ht.left readable).readable)
      (readable.argument (hu.left readable).readable) same
  obtain ⟨hnegated, minus⟩ := (hu.right readable).negated exact readable
  have exponent := (ht.right readable).eval_eq readable hnegated opposite
  rw [minus, hn] at exponent
  have value : (call .tan a).eval I.meaning =
      (call .sin a).eval I.meaning / (call .cos b).eval I.meaning := by
    show I.call .tan (a.eval I.meaning) = I.call .sin _ / I.call .cos (b.eval I.meaning)
    rw [tangent, argument]
  have regular : (call .tan a).Regular I C :=
    ⟨readable.call (ht.left readable).readable, (ht.left readable).integral⟩
  have nonzero : (call .tan a).eval I.meaning ≠ 0 := by
    rw [value]
    exact div_ne_zero sine cosine
  have integer : m.eval I.meaning = ((-l : ℤ) : F) := by rw [exponent, Int.cast_neg]
  obtain ⟨hpower, tan⟩ := regular.power readable powers (ht.right readable) nonzero integer
  obtain ⟨_, sin⟩ :=
    (ht.left readable).power readable powers (ht.right readable) sine integer
  refine ⟨hpower, ?_⟩
  rw [tan, sin, power', value, div_zpow, zpow_neg, zpow_neg, div_inv_eq_mul]

/-- Powers with opposite exponents are a power of the quotient. -/
theorem opposite_regular (powers : I.IntegerPowers) (readable : Readable I C)
    (ht : (bin .pow base m).Regular I C)
    (hu : (bin .pow base' n).Regular I C) (h : m.text = (inv .neg n).text) :
    (bin .pow (bin .div base' base) n).Regular I C ∧
      (bin .pow (bin .div base' base) n).eval I.meaning =
        (bin .pow base m).eval I.meaning * (bin .pow base' n).eval I.meaning := by
  obtain ⟨k, hne, hm, _⟩ := ht.exists_power powers
  obtain ⟨l, hne', hn, power'⟩ := hu.exists_power powers
  have integer : m.eval I.meaning = ((-l : ℤ) : F) := by
    rw [(ht.right readable).eval_eq readable ((hu.right readable).neg readable) h, Int.cast_neg,
      ← hn]
    rfl
  obtain ⟨_, power⟩ := (ht.left readable).power readable powers (ht.right readable) hne integer
  obtain ⟨regular, value⟩ :=
    ((hu.left readable).quotient readable (ht.left readable) hne).power readable powers
      (hu.right readable) (div_ne_zero hne' hne) hn
  refine ⟨regular, ?_⟩
  rw [value, power, power', zpow_neg, inv_mul_eq_div]
  exact div_zpow _ _ _

end Term

end AlgebraicTerms
