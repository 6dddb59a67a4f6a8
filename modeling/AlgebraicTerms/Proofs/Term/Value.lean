import AlgebraicTerms.Proofs.Scalar.Exact
import AlgebraicTerms.Proofs.Term.Equality
import Mathlib.Algebra.Field.Basic
import Mathlib.Algebra.GroupWithZero.Basic
import Mathlib.Data.Rat.Cast.CharZero
import Mathlib.Data.Option.NAry

/-!
# Values of terms

The value of a term at an assignment of its variables into a field.  A term may have none: nothing is
divided by zero, and exponents are integers.  A power of zero has a value only if its exponent is
written as a positive number, since an exponent of another form may be turned into its opposite below
`1 / ` by the search.  Remainders, constants and keywords have no value.
-/

namespace AlgebraicTerms

/-- What is seen of a term without its variables: a positive number, the sum or product of two
positive numbers, or anything else. -/
inductive Shape where
  | literal
  | pair
  | other
  deriving DecidableEq

abbrev Assignment (K : Type*) := String → Option String → K

namespace Shape

def join (s s' : Shape) : Shape := if s = literal ∧ s' = literal then pair else other

theorem join_ne_literal (s s' : Shape) : s.join s' ≠ literal := by
  cases s <;> cases s' <;> decide

theorem join_ne_other {s s' : Shape} (h : s.join s' ≠ other) : s = literal ∧ s' = literal := by
  by_contra hne
  exact h (if_neg hne)

theorem join_other (s : Shape) : s.join other = other := if_neg fun h => nomatch h.2

theorem other_join (s : Shape) : other.join s = other := if_neg fun h => nomatch h.1

theorem join_join (s s' s'' : Shape) : s.join (s'.join s'') = (s.join s').join s'' := by
  cases s <;> cases s' <;> cases s'' <;> rfl

end Shape

namespace Scalar

variable {α : Type} [Scalar α] [Exact α] {K : Type*} [Field K]

/-- The value of a number in a field. -/
def toField (n : α) : K := (Exact.value n : ℚ)

theorem toField_zero : toField (zero : α) = (0 : K) := by rw [toField, value_zero, Rat.cast_zero]

theorem toField_one : toField (one : α) = (1 : K) := by rw [toField, value_one, Rat.cast_one]

theorem toField_negOne : toField (negOne : α) = (-1 : K) := by
  rw [toField, value_negOne, Rat.cast_neg, Rat.cast_one]

theorem toField_ofNat (n : ℕ) : toField (ofNat n : α) = (n : K) := by
  rw [toField, Exact.value_ofNat, Rat.cast_natCast]

theorem toField_neg (n : α) : toField (-n) = -(toField n : K) := by
  rw [toField, Exact.value_neg, Rat.cast_neg, toField]

theorem toField_congr {m n : α} (h : Exact.value m = Exact.value n) :
    (toField m : K) = toField n := by
  rw [toField, h, toField]

variable [CharZero K]

theorem toField_add (m n : α) : toField (m + n) = (toField m + toField n : K) := by
  rw [toField, Exact.value_add, Rat.cast_add, toField, toField]

theorem toField_mul (m n : α) : toField (m * n) = (toField m * toField n : K) := by
  rw [toField, Exact.value_mul, Rat.cast_mul, toField, toField]

theorem toField_eq_zero {n : α} : (toField n : K) = 0 ↔ Exact.value n = 0 := Rat.cast_eq_zero

theorem toField_inv {n : α} (h : (toField n : K) ≠ 0) : toField (one / n) = (toField n : K)⁻¹ := by
  have nonzero : Exact.value n ≠ 0 := fun h' => h (toField_eq_zero.2 h')
  rw [toField, Exact.value_div _ _ nonzero, value_one, one_div, Rat.cast_inv, toField]

end Scalar

namespace Term

variable {α : Type} [Scalar α]

def shape : Term α → Shape
  | num n => if Scalar.isNegative n || Scalar.isZero n then .other else .literal
  | bin .add l r | bin .mul l r => l.shape.join r.shape
  | _ => .other

variable [Scalar.Exact α] {K : Type*} [Field K]

/-- Whether a term has a value. -/
inductive HasValue (ρ : Assignment K) : Term α → K → Prop
  | num (n : α) : HasValue ρ (num n) (Scalar.toField n)
  | var {name index} : (var (α := α) name index).Legible → HasValue ρ (var name index) (ρ name index)
  | neg {t a} : HasValue ρ t a → HasValue ρ (inv .neg t) (-a)
  | recip {t a} : HasValue ρ t a → a ≠ 0 → HasValue ρ (inv .recip t) a⁻¹
  | add {l r a b} : HasValue ρ l a → HasValue ρ r b → HasValue ρ (bin .add l r) (a + b)
  | sub {l r a b} : HasValue ρ l a → HasValue ρ r b → HasValue ρ (bin .sub l r) (a - b)
  | mul {l r a b} : HasValue ρ l a → HasValue ρ r b → HasValue ρ (bin .mul l r) (a * b)
  | div {l r a b} : HasValue ρ l a → HasValue ρ r b → b ≠ 0 → HasValue ρ (bin .div l r) (a / b)
  | pow {l r a} {n : ℤ} : HasValue ρ l a → HasValue ρ r n → a ≠ 0 → HasValue ρ (bin .pow l r) (a ^ n)
  | zeroPow {l r} {n : ℤ} : HasValue ρ l 0 → HasValue ρ r n → r.shape = .literal →
    HasValue ρ (bin .pow l r) 0

theorem HasValue.legible {ρ : Assignment K} {t : Term α} {a : K} (h : t.HasValue ρ a) :
    t.Legible := by
  induction h with
  | num n => exact Scalar.Exact.finite n
  | var legible => exact legible
  | neg _ ih | recip _ _ ih => exact ih
  | add _ _ ihl ihr | sub _ _ ihl ihr | mul _ _ ihl ihr => exact ⟨ihl, ihr⟩
  | div _ _ _ ihl ihr | pow _ _ _ ihl ihr | zeroPow _ _ _ ihl ihr => exact ⟨ihl, ihr⟩

theorem HasValue.clear {ρ : Assignment K} {t : Term α} {a : K} (h : t.HasValue ρ a) :
    t.ClearRemainders := by
  have starts {t : Term α} {a : K} (h : t.HasValue ρ a) : t.startsRemainder = false := by
    induction h with
    | mul _ _ ihl _ | div _ _ _ ihl _ => exact ihl
    | _ => rfl
  induction h with
  | num n | var _ => trivial
  | neg _ ih | recip _ _ ih => exact ih
  | add _ _ ihl ihr | sub _ _ ihl ihr => exact ⟨ihl, ihr, fun h => nomatch h⟩
  | mul _ hr ihl ihr => exact ⟨ihl, ihr, fun _ _ => starts hr⟩
  | div _ _ _ ihl ihr | pow _ _ _ ihl ihr | zeroPow _ _ _ ihl ihr =>
      exact ⟨ihl, ihr, fun h => nomatch h⟩

/-- The value of an inverse. -/
noncomputable def inverse? (i : Inverse) (a : K) : Option K :=
  match i with
  | .neg => some (-a)
  | .recip => open Classical in if a = 0 then none else some a⁻¹

/-- The value of an operation, whose right operand has the given shape. -/
noncomputable def operation? (op : Operator) (a b : K) (s : Shape) : Option K :=
  open Classical in
  match op with
  | .add => some (a + b)
  | .sub => some (a - b)
  | .mul => some (a * b)
  | .div => if b = 0 then none else some (a / b)
  | .mod => none
  | .pow =>
    if h : ∃ n : ℤ, b = n then
      if a = 0 then if s = .literal then some 0 else none else some (a ^ h.choose)
    else none

/-- The values and shapes of terms as a meaning, so that terms with one text have one value. -/
noncomputable def meaning (α : Type) [Scalar α] [Scalar.Exact α] (ρ : Assignment K) :
    Meaning α (Option K × Shape) where
  empty := (none, .other)
  number n := (some (Scalar.toField n), (num n).shape)
  const _ := (none, .other)
  var name index :=
    (open Classical in if (var (α := α) name index).Legible then some (ρ name index) else none,
      .other)
  call _ _ := (none, .other)
  inv i x := (x.1.bind (inverse? i), .other)
  bin op x y :=
    (x.1.bind fun a => y.1.bind fun b => operation? op a b y.2,
      if op = .add ∨ op = .mul then x.2.join y.2 else .other)

theorem lawful [Scalar.Legible α] (ρ : Assignment K) : (meaning α ρ).Lawful where
  zero {n} h := by
    have value : Scalar.Exact.value n = Scalar.Exact.value (Scalar.ofNat 0 : α) := by
      rw [Scalar.isZero_iff.1 h, Scalar.Exact.value_ofNat, Nat.cast_zero]
    have shape : (num n).shape = (num (Scalar.ofNat 0 : α)).shape := by
      rw [Term.shape, Term.shape, h, Scalar.Legible.isZero_zero, Bool.or_true, Bool.or_true]
    show (some (Scalar.toField n), _) = (some (Scalar.toField _), _)
    rw [Scalar.toField_congr value, shape]
  negative {n} h := by
    have shape : (num n).shape = .other := by rw [Term.shape, h]; rfl
    show (some (Scalar.toField n), _) = (some (-Scalar.toField (-n)), _)
    rw [shape, Scalar.toField_neg, neg_neg]
  recip x := by
    refine Prod.ext ?_ rfl
    obtain ⟨_ | a, s⟩ := x
    · rfl
    · show inverse? .recip a = operation? .div (Scalar.toField (Scalar.ofNat 1 : α)) a s
      rw [inverse?, operation?, Scalar.toField_ofNat, Nat.cast_one, one_div]
  add_neg x y := by
    refine Prod.ext ?_ (Shape.join_other x.2)
    obtain ⟨_ | a, s⟩ := x
    · rfl
    · obtain ⟨_ | b, s'⟩ := y
      · rfl
      · exact congrArg some (sub_eq_add_neg a b).symm
  add_add x y z := by
    refine Prod.ext ?_ (Shape.join_join ..)
    obtain ⟨_ | a, s⟩ := x
    · rfl
    · obtain ⟨_ | b, s'⟩ := y
      · rfl
      · obtain ⟨_ | c, s''⟩ := z
        · rfl
        · exact congrArg some (add_assoc a b c).symm
  add_sub x y z := by
    refine Prod.ext ?_ (Shape.join_other x.2)
    obtain ⟨_ | a, s⟩ := x
    · rfl
    · obtain ⟨_ | b, s'⟩ := y
      · rfl
      · obtain ⟨_ | c, s''⟩ := z
        · rfl
        · exact congrArg some (add_sub_assoc a b c).symm
  mul_mul x y z := by
    refine Prod.ext ?_ (Shape.join_join ..)
    obtain ⟨_ | a, s⟩ := x
    · rfl
    · obtain ⟨_ | b, s'⟩ := y
      · rfl
      · obtain ⟨_ | c, s''⟩ := z
        · rfl
        · exact congrArg some (mul_assoc a b c).symm
  mul_div x y z := by
    refine Prod.ext ?_ (Shape.join_other x.2)
    obtain ⟨_ | a, s⟩ := x
    · rfl
    · obtain ⟨_ | b, s'⟩ := y
      · rfl
      · obtain ⟨_ | c, s''⟩ := z
        · rfl
        · show (operation? .div b c s'').bind _ = operation? .div (a * b) c s''
          simp only [operation?]
          split
          · rfl
          · exact congrArg some (mul_div_assoc a b c).symm
  neg_mul x y := by
    refine Prod.ext ?_ (Shape.other_join y.2)
    obtain ⟨_ | a, s⟩ := x
    · rfl
    · obtain ⟨_ | b, s'⟩ := y
      · rfl
      · exact congrArg some (neg_mul a b)
  neg_div x y := by
    refine Prod.ext ?_ rfl
    obtain ⟨_ | a, s⟩ := x
    · rfl
    · obtain ⟨_ | b, s'⟩ := y
      · rfl
      · show operation? .div (-a) b s' = (operation? .div a b s').bind (inverse? .neg)
        simp only [operation?]
        split
        · rfl
        · exact congrArg some (neg_div b a)

theorem eval_shape (ρ : Assignment K) (t : Term α) : (t.eval (meaning α ρ)).2 = t.shape := by
  induction t with
  | bin op l r ihl ihr =>
      have both : ((bin op l r).eval (meaning α ρ)).2 =
          if op = .add ∨ op = .mul then l.shape.join r.shape else .other := by
        rw [← ihl, ← ihr]
        rfl
      rw [both]
      cases op <;> rfl
  | _ => rfl

/-- Evaluation finds the value of a term. -/
theorem HasValue.eval [CharZero K] {ρ : Assignment K} {t : Term α} {a : K} (h : t.HasValue ρ a) :
    (t.eval (meaning α ρ)).1 = some a := by
  have both {op : Operator} {l r : Term α} {a b : K} (hl : (l.eval (meaning α ρ)).1 = some a)
      (hr : (r.eval (meaning α ρ)).1 = some b) :
      ((bin op l r).eval (meaning α ρ)).1 = operation? op a b r.shape := by
    rw [← eval_shape ρ r]
    show (l.eval (meaning α ρ)).1.bind _ = _
    rw [hl, Option.bind_some, hr, Option.bind_some]
  have one {i : Inverse} {t : Term α} {a : K} (ht : (t.eval (meaning α ρ)).1 = some a) :
      ((inv i t).eval (meaning α ρ)).1 = inverse? i a := by
    show (t.eval (meaning α ρ)).1.bind _ = _
    rw [ht, Option.bind_some]
  induction h with
  | num n => rfl
  | var legible => exact if_pos legible
  | neg _ ih => exact one ih
  | recip _ hne ih => exact (one ih).trans (if_neg hne)
  | add _ _ ihl ihr | sub _ _ ihl ihr | mul _ _ ihl ihr => exact both ihl ihr
  | div _ _ hne ihl ihr => exact (both ihl ihr).trans (if_neg hne)
  | @pow l r a n _ _ hne ihl ihr =>
      have integer : ∃ m : ℤ, (n : K) = m := ⟨n, rfl⟩
      have same : integer.choose = n := (Int.cast_inj.1 integer.choose_spec).symm
      rw [both ihl ihr, operation?, dif_pos integer, if_neg hne, same]
  | @zeroPow l r n _ _ literal ihl ihr =>
      have integer : ∃ m : ℤ, (n : K) = m := ⟨n, rfl⟩
      rw [both ihl ihr, operation?, dif_pos integer, if_pos rfl, if_pos literal]

variable [Scalar.Legible α] {ρ : Assignment K} {t u : Term α} {a b : K}

/-- Terms with values that are written alike are alike. -/
theorem HasValue.eval_eq (ht : t.HasValue ρ a) (hu : u.HasValue ρ b) (h : t.text = u.text) :
    t.eval (meaning α ρ) = u.eval (meaning α ρ) :=
  eval_eq_of_text_eq (lawful ρ) ht.legible hu.legible ht.clear hu.clear h

theorem HasValue.shape_eq (ht : t.HasValue ρ a) (hu : u.HasValue ρ b) (h : t.text = u.text) :
    t.shape = u.shape := by
  have same := congrArg Prod.snd (ht.eval_eq hu h)
  rwa [eval_shape, eval_shape] at same

variable [CharZero K]

theorem HasValue.eq_of_text_eq (ht : t.HasValue ρ a) (hu : u.HasValue ρ b)
    (h : t.text = u.text) : a = b := by
  have same := congrArg Prod.fst (ht.eval_eq hu h)
  rw [ht.eval, hu.eval] at same
  exact Option.some.inj same

theorem HasValue.unique (h : t.HasValue ρ a) (h' : t.HasValue ρ b) : a = b :=
  h.eq_of_text_eq h' rfl

/-! ## Numbers that are read off texts -/

theorem HasValue.eq_of_reads {n : ℕ} {s : String} (h : t.HasValue ρ a) (hs : t.reads s = true)
    (text : (Term.num (Scalar.ofNat n : α)).text = s) : a = n := by
  have same := h.eq_of_text_eq (HasValue.num (Scalar.ofNat n)) ((reads_iff.1 hs).trans text.symm)
  rw [same, Scalar.toField_ofNat]

omit [Scalar.Exact α] in
theorem text_zero : (num (Scalar.ofNat 0 : α)).text = "0" := by
  rw [Term.text, numberText, Scalar.Legible.isZero_zero, if_pos rfl]

theorem HasValue.eq_zero (h : t.HasValue ρ a) (hs : t.reads "0" = true) : a = 0 := by
  rw [h.eq_of_reads hs text_zero, Nat.cast_zero]

theorem HasValue.eq_one (h : t.HasValue ρ a) (hs : t.reads "1" = true) : a = 1 := by
  have text : (Term.num (Scalar.ofNat 1 : α)).text = "1" := by
    rw [Term.text, numberText, Scalar.Legible.not_isZero_one, if_neg (by decide),
      Scalar.Legible.text_one]
  rw [h.eq_of_reads hs text, Nat.cast_one]

theorem HasValue.eq_two (h : t.HasValue ρ a) (hs : t.reads "2" = true) : a = 2 := by
  have nonzero : Scalar.isZero (Scalar.ofNat 2 : α) = false := Bool.eq_false_iff.2 fun h => by
    rw [Scalar.isZero_iff, Scalar.Exact.value_ofNat] at h
    exact absurd h (by norm_num)
  have text : (Term.num (Scalar.ofNat 2 : α)).text = "2" := by
    rw [Term.text, numberText, nonzero, if_neg (by decide), Scalar.Legible.text_two]
  exact h.eq_of_reads hs text

end Term

end AlgebraicTerms
