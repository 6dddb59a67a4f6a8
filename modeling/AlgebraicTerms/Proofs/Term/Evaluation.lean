import AlgebraicTerms.Proofs.Term.Exposed
import AlgebraicTerms.Proofs.Term.Grade
import AlgebraicTerms.Proofs.Term.Rearranged
import Mathlib.Analysis.SpecialFunctions.Pow.Real

/-!
# Exact evaluation

An interpretation is exact if numbers are computed with as their values are.  Then the operands of a
term multiply to it, wherever they are taken apart as those of a product, and operands that are joined
to a product multiply to it.  What the program takes for the number one, because it is written `1`, is
the number one.
-/

namespace AlgebraicTerms

namespace Interpretation

variable {α : Type} {F : Type*} [Scalar α] [Field F]

/-- Whether numbers are computed with exactly. -/
structure Exact (I : Interpretation α F) : Prop where
  finite (n : α) : Scalar.isFinite n = true
  const (c : Constant) : I.const c = I.number (Scalar.constant c)
  mul (m n : α) : I.number (m * n) = I.number m * I.number n
  sub (m n : α) : I.number (m - n) = I.number m - I.number n
  div (m : α) {n : α} : I.number n ≠ 0 → I.number (m / n) = I.number m / I.number n
  isZero {n : α} : I.number n = 0 → Scalar.isZero n = true
  isOne {n : α} : Scalar.isOne n = true → I.number n = 1

/-- The exponents at which powers of a base are defined, and the laws that powers have there.  A
positive base may admit every exponent, and another one only integers. -/
structure PowerLaws (I : Interpretation α F) where
  Admits : (base exponent : F) → Prop
  admits_sub {x a b : F} : x ≠ 0 → Admits x a → Admits x b → Admits x (a - b)
  power_zero (x : F) : I.power x 0 = 1
  power_one (x : F) : I.power x 1 = x
  power_add {x a b : F} : x ≠ 0 → Admits x a → Admits x b →
    I.power x (a + b) = I.power x a * I.power x b
  zero_power {a : F} : Admits 0 a → a ≠ 0 → I.power 0 a = 0

namespace PowerLaws

variable {I : Interpretation α F} {x a b : F}

theorem admits_zero (P : I.PowerLaws) (hx : x ≠ 0) (ha : P.Admits x a) : P.Admits x 0 := by
  have h := P.admits_sub hx ha ha
  rwa [sub_self] at h

theorem admits_add (P : I.PowerLaws) (hx : x ≠ 0) (ha : P.Admits x a) (hb : P.Admits x b) :
    P.Admits x (a + b) := by
  have opposite := P.admits_sub hx (P.admits_zero hx hb) hb
  have h := P.admits_sub hx ha opposite
  rwa [zero_sub, sub_neg_eq_add] at h

/-- Only a power of zero is zero. -/
theorem power_ne_zero (P : I.PowerLaws) (hx : x ≠ 0) (ha : P.Admits x a) : I.power x a ≠ 0 := by
  have opposite := P.admits_sub hx (P.admits_zero hx ha) ha
  have inverse := P.power_add hx ha opposite
  rw [zero_sub, add_neg_cancel, P.power_zero] at inverse
  exact left_ne_zero_of_mul_eq_one inverse.symm

/-- A power that is not zero divides the other powers of its base. -/
theorem quotient (P : I.PowerLaws) (ha : P.Admits x a) (hb : P.Admits x b)
    (nonzero : I.power x b ≠ 0) :
    P.Admits x (a - b) ∧ I.power x a = I.power x b * I.power x (a - b) := by
  by_cases hx : x = 0
  · subst hx
    obtain rfl : b = 0 := by
      by_contra hne
      exact nonzero (P.zero_power hb hne)
    rw [sub_zero, P.power_zero, one_mul]
    exact ⟨ha, rfl⟩
  · have left := P.admits_sub hx ha hb
    refine ⟨left, ?_⟩
    rw [← P.power_add hx hb left, add_sub_cancel]

end PowerLaws

/-! ## Rational numbers in a field -/

section Rationals

variable {K : Type*} [Field K] [CharZero K] (var : String → K) (call : Keyword → K → K)
  (rem power : K → K → K)

/-- Rationals stand for themselves, and constants for zero. -/
def ofRationals : Interpretation ℚ K where
  number q := q
  const _ := 0
  var name _ := var name
  call := call
  rem := rem
  power := power
  number_zero h := by rw [Rational.isZero_iff.1 h, Rat.cast_zero]
  number_one := by
    show (((1 : ℕ) : ℚ) : K) = 1
    rw [Rat.cast_natCast, Nat.cast_one]
  number_neg _ := Rat.cast_neg _

theorem ofRationals_exact : (ofRationals var call rem power).Exact where
  finite _ := rfl
  const _ := Rat.cast_zero.symm
  mul := Rat.cast_mul
  sub := Rat.cast_sub
  div m n _ := Rat.cast_div m n
  isZero h := Rational.isZero_iff.2 (Rat.cast_eq_zero.1 h)
  isOne {n} h := by
    have one : n = ((1 : ℕ) : ℚ) := eq_of_beq h
    show (n : K) = 1
    rw [one, Rat.cast_natCast, Nat.cast_one]

end Rationals

/-! ## Real numbers -/

/-- The real numbers, with remainders that have the sign of the divisor. -/
noncomputable def reals (var : String → ℝ) (call : Keyword → ℝ → ℝ) : Interpretation ℚ ℝ where
  number q := q
  const _ := 0
  var name _ := var name
  call := call
  rem x y := x - y * ⌊x / y⌋
  power x a := x ^ a
  number_zero h := by rw [Rational.isZero_iff.1 h, Rat.cast_zero]
  number_one := by
    show (((1 : ℕ) : ℚ) : ℝ) = 1
    rw [Rat.cast_natCast, Nat.cast_one]
  number_neg _ := Rat.cast_neg _

variable (var : String → ℝ) (call : Keyword → ℝ → ℝ)

theorem reals_exact : (reals var call).Exact := ofRationals_exact var call _ _

/-- A positive real has every power, and another one has integer powers. -/
def realPowers : (reals var call).PowerLaws where
  Admits x a := 0 < x ∨ (∃ n : ℤ, a = n) ∧ (x = 0 → 0 ≤ a)
  admits_sub {x a b} hx ha hb := by
    refine ha.elim .inl fun ⟨⟨m, hm⟩, _⟩ => hb.elim .inl fun ⟨⟨n, hn⟩, _⟩ => .inr ?_
    exact ⟨⟨m - n, by rw [hm, hn, Int.cast_sub]⟩, fun h => absurd h hx⟩
  power_zero := Real.rpow_zero
  power_one := Real.rpow_one
  power_add {x a b} hx ha hb := by
    show x ^ (a + b) = x ^ a * x ^ b
    rcases ha with positive | ⟨⟨m, rfl⟩, _⟩
    · exact Real.rpow_add positive a b
    · rcases hb with positive | ⟨⟨n, rfl⟩, _⟩
      · exact Real.rpow_add positive m b
      · rw [← Int.cast_add, Real.rpow_intCast, Real.rpow_intCast, Real.rpow_intCast, zpow_add₀ hx]
  zero_power _ ha := Real.zero_rpow ha

end Interpretation

namespace Term

variable {α : Type} {F : Type*} [Scalar α] [Field F] {I : Interpretation α F}
  {t u : Term α} {ts us : List (Term α)}

/-! ## Numbers -/

theorem eval_of_number? (exact : I.Exact) {n : α} (h : t.number? = some n) :
    t.eval I.meaning = I.number n := by
  cases t with
  | num m =>
      cases h
      rfl
  | const c =>
      cases h
      exact exact.const c
  | _ => cases h

/-- Numbers that are combined one after the other, as in the chain, and the other operands have the total
of all operands. -/
theorem foldl_numbers_others {c : Chain} (exact : I.Exact) {f : α → α → α}
    (combines : ∀ m n, I.number (f m n) = c.combine (I.number m) (I.number n))
    (ts : List (Term α)) (n : α) :
    c.combine (I.number ((numbers ts).foldl f n))
        (((others ts).map (eval I.meaning)).foldr c.combine c.unit) =
      c.combine (I.number n) ((ts.map (eval I.meaning)).foldr c.combine c.unit) := by
  induction ts generalizing n with
  | nil => rfl
  | cons t ts ih =>
      rw [List.map_cons, List.foldr_cons]
      cases h : t.number? with
      | none =>
          have number : numbers (t :: ts) = numbers ts := List.filterMap_cons_none h
          have other : others (t :: ts) = t :: others ts :=
            List.filter_cons_of_pos (by rw [isNumber, h]; rfl)
          rw [number, other, List.map_cons, List.foldr_cons, Chain.combine_left_comm, ih,
            Chain.combine_left_comm]
      | some m =>
          have number : numbers (t :: ts) = m :: numbers ts := List.filterMap_cons_some h
          have other : others (t :: ts) = others ts :=
            List.filter_cons_of_neg (by simp [isNumber, h])
          rw [number, other, List.foldl_cons, ih, combines, Chain.combine_assoc,
            eval_of_number? exact h]

/-- The numbers among the operands and the others multiply to all of them. -/
theorem prod_others (exact : I.Exact) (ts : List (Term α)) :
    I.number (productOfNumbers ts) * ((others ts).map (eval I.meaning)).prod =
      (ts.map (eval I.meaning)).prod := by
  have all := foldl_numbers_others (c := .product) exact exact.mul ts (Scalar.ofNat 1)
  rw [I.number_one] at all
  exact all.trans (one_mul _)

/-- Only a number is graded like one. -/
theorem exists_num_of_grade (h : t.grade = 4) : ∃ n, t = num n := by
  cases t with
  | num n => exact ⟨n, rfl⟩
  | bin op l r =>
      rw [grade_bin] at h
      cases op <;> cases h
  | inv i t => cases i <;> cases h
  | _ => cases h

section Reads

variable [Scalar.Legible α]

/-- What is written like a number without a sign has its value. -/
theorem eval_of_reads {n : α} (ht : t.Legible) (hn : (num n).Legible) (grade : (num n).grade = 4)
    (h : t.text = (num n).text) : t.eval I.meaning = I.number n := by
  obtain ⟨m, rfl⟩ := exists_num_of_grade ((grade_eq_of_text_eq ht hn h).trans grade)
  exact eval_eq_of_text_eq I.lawful ht hn trivial trivial h

theorem grade_one : (num (Scalar.ofNat 1 : α)).grade = 4 := by
  rw [Term.grade, formula, Scalar.Legible.not_isZero_one, Scalar.Legible.not_isNegative_one]
  rfl

theorem text_eq_of_reads_one (h : t.reads "1" = true) :
    t.text = (num (Scalar.ofNat 1 : α)).text := (reads_iff.1 h).trans (reads_iff.1 reads_one).symm

theorem exists_num_of_reads_one (ht : t.Legible) (h : t.reads "1" = true) : ∃ n, t = num n :=
  exists_num_of_grade ((grade_eq_of_text_eq (u := num (Scalar.ofNat 1)) ht
    Scalar.Legible.isFinite_one (text_eq_of_reads_one h)).trans grade_one)

theorem eval_of_reads_one (ht : t.Legible) (h : t.reads "1" = true) : t.eval I.meaning = 1 := by
  rw [eval_of_reads ht Scalar.Legible.isFinite_one grade_one (text_eq_of_reads_one h), I.number_one]

theorem eval_of_reads_zero (exact : I.Exact) (ht : t.Legible) (h : t.reads "0" = true) :
    t.eval I.meaning = 0 := by
  have grade : (num (Scalar.ofNat 0 : α)).grade = 4 := by
    rw [Term.grade, formula, Scalar.Legible.isZero_zero]
    rfl
  rw [eval_of_reads ht (exact.finite _) grade ((reads_iff.1 h).trans text_zero.symm),
    I.number_zero Scalar.Legible.isZero_zero]

end Reads

/-! ## Operands of a chain -/

theorem prod_map_neg (ts : List (Term α)) :
    ((ts.map (inv .neg)).map (eval I.meaning)).prod =
      (-1) ^ ts.length * (ts.map (eval I.meaning)).prod := by
  induction ts with
  | nil => simp
  | cons t ts ih =>
      rw [List.map_cons, List.map_cons, List.prod_cons, ih, List.map_cons, List.prod_cons,
        List.length_cons, pow_succ]
      show -(t.eval I.meaning) * _ = _
      ring

/-- The sum or product of the operands, as the chain has it. -/
def total (I : Interpretation α F) (c : Chain) (ts : List (Term α)) : F :=
  (ts.map (eval I.meaning)).foldr c.combine c.unit

theorem total_cons (c : Chain) (t : Term α) (ts : List (Term α)) :
    total I c (t :: ts) = c.combine (t.eval I.meaning) (total I c ts) := rfl

theorem total_singleton (c : Chain) (t : Term α) : total I c [t] = t.eval I.meaning :=
  Chain.combine_unit c _

/-! ## Operands that are taken apart -/

theorem eval_op {c : Chain} : (bin c.op t u).eval I.meaning =
    c.combine (t.eval I.meaning) (u.eval I.meaning) := by
  cases c <;> rfl

theorem eval_inverse {c : Chain} : (inv c.inverse t).eval I.meaning =
    c.inverted (t.eval I.meaning) := by
  cases c with
  | sum => rfl
  | product => exact one_div _

theorem eval_inverseOp {c : Chain} : (bin c.inverseOp t u).eval I.meaning =
    (bin c.op t (inv c.inverse u)).eval I.meaning := by
  cases c with
  | sum => exact sub_eq_add_neg _ _
  | product => exact (mul_one_div _ _).symm

theorem eval_replacement (I : Interpretation α F) :
    Replacement fun t u : Term α => t.eval I.meaning = u.eval I.meaning where
  refl _ := rfl
  trans := Eq.trans
  call k _ _ h := congrArg (I.meaning.call k) h
  inv i _ _ h := congrArg (I.meaning.inv i) h
  bin op _ _ _ _ hl hr := congrArg₂ (I.meaning.bin op) hl hr

theorem eval_chainLaws (I : Interpretation α F) (c : Chain) :
    ChainLaws c fun t u : Term α => t.eval I.meaning = u.eval I.meaning where
  toReplacement := eval_replacement I
  swap t u := by rw [eval_op, eval_op, Chain.combine_comm]
  assoc t u v := by simp only [eval_op, Chain.combine_assoc]
  of_inverseOp t u := eval_inverseOp
  inverse t u := by simp only [eval_op, eval_inverse, Chain.inverted_combine]

theorem whole_eval {c : Chain} (hts : ts ≠ []) :
    (c.whole ts).eval I.meaning = total I c ts := by
  induction ts with
  | nil => exact absurd rfl hts
  | cons t ts ih =>
      cases ts with
      | nil => exact (total_singleton c t).symm
      | cons u ts =>
          rw [Chain.whole, eval_op, ih (List.cons_ne_nil u ts)]
          rfl

/-- The inverses of operands have the inverse of their total. -/
theorem total_inverses (c : Chain) (ts : List (Term α)) :
    total I c (ts.map (inv c.inverse)) = c.inverted (total I c ts) := by
  induction ts with
  | nil =>
      cases c with
      | sum => exact neg_zero.symm
      | product => exact inv_one.symm
  | cons t ts ih =>
      rw [List.map_cons, total_cons, ih, eval_inverse, ← Chain.inverted_combine, total_cons]

theorem prod_map_recip (ts : List (Term α)) :
    ((ts.map (inv .recip)).map (eval I.meaning)).prod = 1 / (ts.map (eval I.meaning)).prod :=
  (total_inverses .product ts).trans (one_div _).symm

/-- The operands of a term in a chain have its value as their total. -/
theorem total_operandsIn (c : Chain) (t : Term α) :
    total I c (t.operandsIn c) = t.eval I.meaning := by
  rw [← whole_eval (operandsIn_ne_nil c t)]
  exact ((eval_chainLaws I c).operandsIn t).symm

/-- The operands of a product multiply to it. -/
theorem prod_operandsIn (t : Term α) :
    ((t.operandsIn .product).map (eval I.meaning)).prod = t.eval I.meaning :=
  total_operandsIn .product t

/-! ## Operands that are joined -/

/-- Whether the term has the value of the chain's identity if it is written as the identity. -/
def UnitAsRead (I : Interpretation α F) (c : Chain) (t : Term α) : Prop :=
  t.reads c.identityText = true → t.eval I.meaning = c.unit

theorem eval_joinLaws (I : Interpretation α F) (c : Chain) :
    JoinLaws c (fun t u : Term α => t.eval I.meaning = u.eval I.meaning) (UnitAsRead I c) where
  toChainLaws := eval_chainLaws I c
  unit hu hs := by rw [eval_op, hu hs, Chain.combine_unit]
  inverseOp t u := eval_inverseOp.symm
  opposite {t n} _ negative := by
    show t.eval I.meaning + I.number n = t.eval I.meaning - I.number (-n)
    rw [I.number_neg negative, sub_neg_eq_add]

theorem UnitAsRead.append {c : Chain} (ht : t.UnitAsRead I c) (hu : u.UnitAsRead I c) :
    (c.append t u).UnitAsRead I c := by
  rcases Chain.append_cases c t u with ⟨_, same⟩ | ⟨_, _, same⟩ | ⟨_, _, same⟩
  · rwa [same]
  · rwa [same]
  · intro h
    rw [same, Chain.attach_reads] at h
    cases h

/-- Operands that are joined have the total of the operands. -/
theorem join_eval_of_units {c : Chain} (unit : I.number (Scalar.ofNat c.identity) = c.unit)
    (h : ∀ t ∈ ts, t.UnitAsRead I c) :
    (c.join ts).eval I.meaning = total I c ts := by
  by_cases none : ts = []
  · subst none
    exact unit
  · rw [← whole_eval none]
    exact ((eval_joinLaws I c).join .append h).symm

section Join

variable [Scalar.Legible α]

/-- Factors that are joined multiply to the product. -/
theorem join_eval (h : ∀ t ∈ ts, t.Legible) :
    (Chain.product.join ts).eval I.meaning = (ts.map (eval I.meaning)).prod :=
  join_eval_of_units I.number_one fun t ht => eval_of_reads_one (h t ht)

/-- A coefficient and the factors that are not numbers, joined, are the product of all factors. -/
theorem join_others_eval (exact : I.Exact) (h : ∀ t ∈ ts, t.Legible) :
    (Chain.product.join (num (productOfNumbers ts) :: others ts)).eval I.meaning =
      (ts.map (eval I.meaning)).prod := by
  have legible : ∀ t ∈ num (productOfNumbers ts) :: others ts, t.Legible :=
    List.forall_mem_cons.2 ⟨exact.finite _, fun t ht => h t (List.mem_filter.1 ht).1⟩
  rw [join_eval legible, List.map_cons, List.prod_cons]
  exact prod_others exact ts

end Join

end Term

end AlgebraicTerms
