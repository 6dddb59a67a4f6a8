import AlgebraicTerms.Proofs.Scalar.Partial
import AlgebraicTerms.Proofs.Term.Forms
import AlgebraicTerms.Proofs.Term.Size

/-!
# Strict evaluation

The value of a term without variables, if it and every part of it have one: no keyword is called where
it has no value, nothing is divided by zero, and every power and remainder has a value.  The
conversions between forms of a term neither lose a part without a value nor make one, so the value
before and after is the same also if there is none.
-/

namespace AlgebraicTerms

open Scalar.Partial (value)

variable {α : Type} [Scalar α] {K : Type} [Field K] [DecidableEq K] [PartialFunctions K]
  [Scalar.Partial α K]

/-! ## Values -/

/-- The reciprocal of anything but zero. -/
def reciprocal? (x : K) : Option K := if x = 0 then none else some x⁻¹

def quotient? (x y : K) : Option K := if y = 0 then none else some (x / y)

/-- Evaluation that fails if the evaluation of any part does. -/
def strictly (α : Type) [Scalar α] [Scalar.Partial α K] : Meaning α (Option K) where
  empty := none
  number := value
  const c := value (Scalar.constant c : α)
  var _ _ := none
  call k x := x.bind (PartialFunctions.keyword k)
  inv
    | .neg, x => x.map (-·)
    | .recip, x => x.bind reciprocal?
  bin
    | .add, x, y => Option.map₂ (· + ·) x y
    | .sub, x, y => Option.map₂ (· - ·) x y
    | .mul, x, y => Option.map₂ (· * ·) x y
    | .div, x, y => x.bind fun a => y.bind (quotient? a)
    | .mod, x, y => x.bind fun a => y.bind (PartialFunctions.remainder a)
    | .pow, x, y => x.bind fun a => y.bind (PartialFunctions.power a)

theorem strictly_lawful : (strictly α).Lawful where
  zero {n} h := (Scalar.Partial.isZero_iff.1 h).trans Scalar.Partial.value_zero.symm
  negative {n} _ := by
    show value n = (value (-n)).map (-·)
    rw [Scalar.Partial.value_neg, Option.map_map]
    cases value n with
    | none => rfl
    | some x => exact congrArg some (neg_neg x).symm
  recip x := by
    show x.bind reciprocal? = (value (Scalar.ofNat 1)).bind fun a => x.bind (quotient? a)
    rw [Scalar.Partial.value_ofNat, Nat.cast_one, Option.bind_some]
    cases x with
    | none => rfl
    | some x =>
        show reciprocal? x = quotient? 1 x
        rw [reciprocal?, quotient?, one_div]
  add_neg x y := by
    cases x <;> cases y <;> first | rfl | exact congrArg some (sub_eq_add_neg _ _).symm
  add_add x y z := by
    cases x <;> cases y <;> cases z <;> first | rfl | exact congrArg some (add_assoc _ _ _).symm
  add_sub x y z := by
    cases x <;> cases y <;> cases z <;> first | rfl | exact congrArg some (add_sub_assoc _ _ _).symm
  mul_mul x y z := by
    cases x <;> cases y <;> cases z <;> first | rfl | exact congrArg some (mul_assoc _ _ _).symm
  mul_div x y z := by
    rcases x with _ | x
    · rfl
    · rcases y with _ | y
      · rfl
      · rcases z with _ | z
        · rfl
        · show Option.map₂ _ (some x) (quotient? y z) = quotient? (x * y) z
          rw [quotient?, quotient?]
          split
          · rfl
          · exact congrArg some (mul_div_assoc x y z).symm
  neg_mul x y := by
    cases x <;> cases y <;> first | rfl | exact congrArg some (neg_mul _ _)
  neg_div x y := by
    rcases x with _ | x
    · rfl
    · rcases y with _ | y
      · rfl
      · show quotient? (-x) y = (quotient? x y).map (-·)
        rw [quotient?, quotient?]
        split
        · rfl
        · exact congrArg some (neg_div y x)

/-- The value of a term, if every part of it has one. -/
def Term.value? (t : Term α) : Option K := t.eval (strictly α)

/-! ## Chains -/

namespace Chain

def combine? (c : Chain) : Option K → Option K → Option K := Option.map₂ c.combine

/-- The value of the inverse of an operand. -/
def invert? : Chain → Option K → Option K
  | sum, x => x.map (-·)
  | product, x => x.bind reciprocal?

/-- What the operands make together, if all of them have values. -/
def total? (c : Chain) (ts : List (Term α)) : Option K :=
  ts.foldr (fun t x => c.combine? t.value? x) (some c.unit)

section

omit [DecidableEq K] [PartialFunctions K]

theorem combine?_unit (c : Chain) (x : Option K) : c.combine? x (some c.unit) = x := by
  cases x with
  | none => rfl
  | some x => exact congrArg some (c.combine_unit x)

theorem unit_combine? (c : Chain) (x : Option K) : c.combine? (some c.unit) x = x := by
  cases x with
  | none => rfl
  | some x => exact congrArg some (c.unit_combine x)

theorem combine?_assoc (c : Chain) (x y z : Option K) :
    c.combine? (c.combine? x y) z = c.combine? x (c.combine? y z) :=
  Option.map₂_assoc c.combine_assoc

theorem combine?_comm (c : Chain) (x y : Option K) : c.combine? x y = c.combine? y x :=
  Option.map₂_comm c.combine_comm

theorem combine?_left_comm (c : Chain) (x y z : Option K) :
    c.combine? x (c.combine? y z) = c.combine? y (c.combine? x z) :=
  Option.map₂_left_comm c.combine_left_comm

end

omit [PartialFunctions K] in
theorem invert?_combine? (c : Chain) (x y : Option K) :
    c.invert? (c.combine? x y) = c.combine? (c.invert? x) (c.invert? y) := by
  rcases x with _ | x
  · cases c <;> rfl
  · rcases y with _ | y
    · cases c with
      | sum => rfl
      | product => exact (Option.map₂_none_right _ _).symm
    · cases c with
      | sum => exact congrArg some (neg_add x y)
      | product =>
          show reciprocal? (x * y) = Option.map₂ (· * ·) (reciprocal? x) (reciprocal? y)
          simp only [reciprocal?, mul_eq_zero]
          by_cases hx : x = 0
          · simp [hx]
          · by_cases hy : y = 0
            · simp [hy]
            · simp [hx, hy, mul_comm]

variable {c : Chain} {t u l r : Term α} {ts us : List (Term α)}

theorem value?_op : (Term.bin c.op l r).value? = c.combine? l.value? r.value? := by
  cases c <;> rfl

theorem value?_inverse : (Term.inv c.inverse t).value? = c.invert? t.value? := by
  cases c <;> rfl

theorem value?_inverseOp :
    (Term.bin c.inverseOp l r).value? = c.combine? l.value? (c.invert? r.value?) := by
  cases c with
  | sum =>
      show Option.map₂ (· - ·) l.value? r.value? = Option.map₂ (· + ·) l.value? (r.value?.map (-·))
      cases l.value? <;> cases r.value? <;>
        first | rfl | exact congrArg some (sub_eq_add_neg _ _)
  | product =>
      show (l.value?.bind fun a => r.value?.bind (quotient? a)) =
        Option.map₂ (· * ·) l.value? (r.value?.bind reciprocal?)
      rcases l.value? with _ | x
      · rfl
      · rcases r.value? with _ | y
        · rfl
        · show quotient? x y = Option.map₂ (· * ·) (some x) (reciprocal? y)
          rw [quotient?, reciprocal?]
          split
          · rfl
          · exact congrArg some (div_eq_mul_inv x y)

theorem total?_singleton : c.total? [t] = t.value? := c.combine?_unit _

theorem total?_cons : c.total? (t :: ts) = c.combine? t.value? (c.total? ts) := rfl

theorem total?_append : c.total? (ts ++ us) = c.combine? (c.total? ts) (c.total? us) := by
  induction ts with
  | nil => exact (c.unit_combine? _).symm
  | cons t ts ih => rw [List.cons_append, total?_cons, total?_cons, ih, combine?_assoc]

theorem total?_perm (h : ts.Perm us) : c.total? ts = c.total? us := by
  induction h with
  | nil => rfl
  | cons t _ ih => rw [total?_cons, total?_cons, ih]
  | swap t u ts => rw [total?_cons, total?_cons, total?_cons, total?_cons, combine?_left_comm]
  | trans _ _ ih ih' => exact ih.trans ih'

/-- Operands may be replaced by others of the same values. -/
theorem total?_congr (h : List.Forall₂ (fun t u => t.value? = u.value?) ts us) :
    c.total? ts = c.total? us := by
  induction h with
  | nil => rfl
  | cons htu _ ih => rw [total?_cons, total?_cons, htu, ih]

theorem total?_eq_none_iff : c.total? ts = none ↔ ∃ t ∈ ts, t.value? = none := by
  induction ts with
  | nil => exact iff_of_false (Option.some_ne_none _) fun ⟨_, h, _⟩ => absurd h List.not_mem_nil
  | cons t ts ih =>
      rw [total?_cons, combine?, Option.map₂_eq_none_iff, ih]
      simp only [List.mem_cons, exists_eq_or_imp]

end Chain

namespace Term

variable {c : Chain} {t u : Term α} {ts : List (Term α)}

theorem value?_replacement : Replacement fun t u : Term α => (t.value? : Option K) = u.value? where
  refl _ := rfl
  trans := Eq.trans
  call k _ _ h := congrArg (Option.bind · (PartialFunctions.keyword k)) h
  inv i _ _ h := congrArg ((strictly α).inv i) h
  bin op _ _ _ _ hl hr := congrArg₂ ((strictly α).bin op) hl hr

theorem value?_chainLaws (c : Chain) :
    ChainLaws c fun t u : Term α => (t.value? : Option K) = u.value? where
  toReplacement := value?_replacement
  swap t u := by rw [Chain.value?_op, Chain.value?_op, Chain.combine?_comm]
  assoc t u v := by simp only [Chain.value?_op, Chain.combine?_assoc]
  of_inverseOp t u := by rw [Chain.value?_op, Chain.value?_inverseOp, Chain.value?_inverse]
  inverse t u := by simp only [Chain.value?_op, Chain.value?_inverse, Chain.invert?_combine?]

/-- The operands as one term have what they make together as their value. -/
theorem whole_value? (c : Chain) (ts : List (Term α)) : (c.whole ts).value? = c.total? ts := by
  induction ts with
  | nil =>
      show value (Scalar.ofNat c.identity : α) = some c.unit
      rw [Scalar.Partial.value_ofNat]
      cases c with
      | sum => exact congrArg some Nat.cast_zero
      | product => exact congrArg some Nat.cast_one
  | cons t ts ih =>
      cases ts with
      | nil => exact Chain.total?_singleton.symm
      | cons u ts =>
          rw [Chain.whole, Chain.value?_op, ih]
          rfl

/-- The operands of a term in a chain make its value. -/
theorem operandsIn_total? : c.total? (t.operandsIn c) = t.value? := by
  rw [← whole_value?]
  exact ((value?_chainLaws c).operandsIn t).symm

theorem value?_of_number? {n : α} (h : t.number? = some n) : t.value? = value n := by
  cases t with
  | num m =>
      cases h
      rfl
  | const d =>
      cases h
      rfl
  | _ => cases h

/-! ## Numbers among the operands -/

omit [DecidableEq K] in
theorem value_number_nil (c : Chain) : value (c.number ([] : List (Term α))) = some c.unit := by
  cases c with
  | sum => exact Scalar.Partial.value_emptySum
  | product => exact Scalar.Partial.value_one

omit [DecidableEq K] in
theorem value_number_cons {n : α} (h : t.number? = some n) (ts : List (Term α)) :
    value (c.number (t :: ts)) = c.combine? (value n) (value (c.number ts)) := by
  have numbers : numbers (t :: ts) = n :: numbers ts := List.filterMap_cons_some h
  cases c with
  | sum =>
      rw [Chain.number, sumOfNumbers, numbers]
      exact Scalar.Partial.value_foldl_cons Scalar.Partial.value_add add_assoc
        Scalar.Partial.value_emptySum zero_add add_zero n _
  | product =>
      rw [Chain.number, productOfNumbers, numbers]
      exact Scalar.Partial.value_foldl_cons Scalar.Partial.value_mul mul_assoc
        Scalar.Partial.value_one one_mul mul_one n _

/-- The numbers among the operands can be taken together. -/
theorem total?_others (ts : List (Term α)) :
    c.total? ts = c.combine? (value (c.number ts)) (c.total? (others ts)) := by
  induction ts with
  | nil =>
      rw [value_number_nil]
      exact (c.unit_combine? _).symm
  | cons t ts ih =>
      cases h : t.number? with
      | some n =>
          have skipped : others (t :: ts) = others ts :=
            List.filter_cons_of_neg (by rw [isNumber, h]; exact Bool.false_ne_true)
          rw [Chain.total?_cons, ih, skipped, value_number_cons h, value?_of_number? h,
            Chain.combine?_assoc]
      | none =>
          have kept : others (t :: ts) = t :: others ts :=
            List.filter_cons_of_pos (by rw [isNumber, h]; rfl)
          rw [Chain.total?_cons, ih, kept, Chain.number_cons_none h, Chain.total?_cons,
            Chain.combine?_left_comm]

/-- Numbers have the values of their sum or product. -/
theorem total?_of_numbers (h : ∀ t ∈ ts, t.isNumber = true) :
    c.total? ts = value (c.number ts) := by
  have none : others ts = [] := List.filter_eq_nil_iff.2 fun t ht => by rw [h t ht]; decide
  rw [total?_others, none]
  exact c.combine?_unit _

end Term

end AlgebraicTerms
