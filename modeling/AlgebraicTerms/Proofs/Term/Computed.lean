import AlgebraicTerms.Proofs.Term.Strict

/-!
# Strict computation

The number that a term without variables is computed to on the scalars themselves, if every part of it
has a finite one.  Where the scalars compute exactly it stands for the value, and there is none if there
is no value (`computed?_stands`).  Where they round, it need not be what the exact value is rounded to.
-/

namespace AlgebraicTerms

variable {α : Type} [Scalar α]

def Scalar.finite? (n : α) : Option α := if isFinite n then some n else none

/-- What an operation is computed to, if it has a finite value at the numbers.  A difference is computed
as the program does, by adding the opposite. -/
def Operator.computed? (op : Operator) (a b : α) : Option α :=
  match op with
  | add => Scalar.finite? (a + b)
  | sub => Scalar.finite? (a + -b)
  | mul => Scalar.finite? (a * b)
  | div => if Scalar.isZero b then none else Scalar.finite? (a / b)
  | mod =>
    if Scalar.isInteger a && Scalar.isInteger b && !Scalar.isZero b then
      Scalar.finite? (Scalar.floorRem a b)
    else none
  | pow => Scalar.finite? (Scalar.power a b)

/-- The number that a term without variables is computed to, if every part of it has a finite one. -/
def Term.computed? : Term α → Option α
  | num n => Scalar.finite? n
  | const c => Scalar.finite? (Scalar.constant c)
  | call k t => t.computed?.bind fun n => (k.evaluate n).toOption
  | inv .neg t => t.computed?.bind fun n => some (-n)
  | inv .recip t => t.computed?.bind (Operator.div.computed? Scalar.one)
  | bin op l r => l.computed?.bind fun a => r.computed?.bind (op.computed? a)
  | _ => none

/-! ## Exact computation -/

open Scalar.Partial (value)

variable {K : Type} [Field K] [PartialFunctions K] [Scalar.Partial α K] {n a b : α} {x y : K}

/-- Whether a number was computed that stands for a value, or neither is there. -/
def Stands (computed : Option α) (x : Option K) : Prop := Option.Rel (value · = some ·) computed x

theorem Stands.bind {m : Option α} {z : Option K} {f : α → Option α} {g : K → Option K}
    (h : Stands m z) (hfg : ∀ n x, value n = some x → Stands (f n) (g x)) :
    Stands (m.bind f) (z.bind g) := by
  cases h with
  | none => exact .none
  | some h => exact hfg _ _ h

theorem stands_finite? (n : α) : Stands (Scalar.finite? n) (value n) := by
  rw [Scalar.finite?]
  split
  · rename_i finite
    obtain ⟨x, hx⟩ := Option.isSome_iff_exists.1 (Scalar.Partial.isFinite_iff.1 finite)
    rw [hx]
    exact .some hx
  · rename_i infinite
    rw [Scalar.Partial.isFinite_iff, Option.not_isSome_iff_eq_none] at infinite
    rw [infinite]
    exact .none

theorem stands_evaluate {k : Keyword} (h : value n = some x) :
    Stands (k.evaluate n).toOption (PartialFunctions.keyword k x) := by
  rw [← Scalar.Partial.value_evaluate h]
  cases hv : (k.evaluate n).toOption with
  | none => exact .none
  | some v =>
      have finite : Scalar.isFinite v = true := by
        rw [Keyword.evaluate, Keyword.outcome] at hv
        split_ifs at hv with refused
        · cases hv
        · dsimp only at hv
          split_ifs at hv with finite
          · cases hv
            exact finite
          · cases hv
      have stands := stands_finite? v
      rwa [Scalar.finite?, if_pos finite] at stands

variable [DecidableEq K]

theorem stands_quotient (ha : value a = some x) (hb : value b = some y) :
    Stands (Operator.div.computed? a b) (quotient? x y) := by
  have zero : Scalar.isZero b = true ↔ y = 0 := by
    rw [Scalar.Partial.isZero_iff, hb, Option.some.injEq]
  rw [Operator.computed?, quotient?]
  by_cases hy : y = 0
  · rw [if_pos (zero.2 hy), if_pos hy]
    exact .none
  · rw [if_neg (mt zero.1 hy), if_neg hy, ← Scalar.Partial.value_div ha hb hy]
    exact stands_finite? _

theorem stands_operation (op : Operator) (ha : value a = some x) (hb : value b = some y) :
    Stands (op.computed? a b) ((strictly α).bin op (some x) (some y)) := by
  have finite {n : α} {z : Option K} (h : value n = z) : Stands (Scalar.finite? n) z :=
    h ▸ stands_finite? n
  cases op with
  | add => exact finite (by rw [Scalar.Partial.value_add, ha, hb]; rfl)
  | sub =>
      refine finite ?_
      rw [Scalar.Partial.value_add, Scalar.Partial.value_neg, ha, hb]
      exact congrArg some (sub_eq_add_neg x y).symm
  | mul => exact finite (by rw [Scalar.Partial.value_mul, ha, hb]; rfl)
  | div => exact stands_quotient ha hb
  | mod =>
      show Stands _ (PartialFunctions.remainder x y)
      rw [Operator.computed?, Scalar.Partial.value_floorRem ha hb]
      split
      · exact stands_finite? _
      · exact .none
  | pow => exact finite (Scalar.Partial.value_power ha hb)

namespace Term

/-- Where numbers are computed with exactly, the one that is computed stands for the value. -/
theorem computed?_stands (t : Term α) : Stands t.computed? t.value? := by
  induction t with
  | num n => exact stands_finite? n
  | const c => exact stands_finite? _
  | var | empty => exact .none
  | call k t ih => exact ih.bind fun _ _ => stands_evaluate
  | inv i t ih =>
      cases i with
      | neg =>
          have opposite : t.value?.map (-·) = t.value?.bind fun x => some (-x) := by
            cases t.value? <;> rfl
          show Stands (t.computed?.bind fun n => some (-n)) (t.value?.map (-·))
          rw [opposite]
          refine ih.bind fun n x h => .some ?_
          rw [Scalar.Partial.value_neg, h]
          rfl
      | recip =>
          refine ih.bind fun n x h => ?_
          have quotient := stands_quotient Scalar.Partial.value_one h
          rwa [quotient?, one_div] at quotient
  | bin op l r ihl ihr =>
      have sides : (bin op l r).value? = l.value?.bind fun x => r.value?.bind fun y =>
          (strictly α).bin op (some x) (some y) := by
        show (strictly α).bin op l.value? r.value? = _
        cases op <;> cases l.value? <;> cases r.value? <;> rfl
      rw [sides]
      exact ihl.bind fun a x ha => ihr.bind fun b y hb => stands_operation op ha hb

theorem computed?_eq_none_iff {t : Term α} : t.computed? = none ↔ t.value? = none := by
  have stands := computed?_stands t
  constructor
  · intro none
    rw [none] at stands
    cases h : t.value? with
    | none => rfl
    | some x =>
        rw [h] at stands
        cases stands
  · intro none
    rw [none] at stands
    cases h : t.computed? with
    | none => rfl
    | some n =>
        rw [h] at stands
        cases stands

end Term

end AlgebraicTerms
