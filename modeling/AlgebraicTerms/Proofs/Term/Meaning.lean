import AlgebraicTerms.Proofs.Term.Spelling
import Mathlib.Algebra.Field.Basic

/-!
# The meaning of terms

A meaning gives values to the numbers, names and operators of terms.  It is lawful if sums and
products can be regrouped to the left and a minus can be moved over a product, as it is in a field.
Then a term and the formula of its text have the same value, unless regrouping moves an operand into
a remainder.  So terms that are written alike have the same value (`eval_eq_of_text_eq`).
-/

namespace AlgebraicTerms

/-- What the parts of a term stand for. -/
structure Meaning (α : Type) (M : Type*) where
  empty : M
  number : α → M
  const : Constant → M
  var : String → Option String → M
  call : Keyword → M → M
  inv : Inverse → M → M
  bin : Operator → M → M → M

namespace Meaning

variable {α : Type} {M : Type*} [Scalar α]

/-- The laws by which parentheses can be left out of a text. -/
structure Lawful (I : Meaning α M) : Prop where
  zero {n : α} : Scalar.isZero n = true → I.number n = I.number (Scalar.ofNat 0)
  negative {n : α} : Scalar.isNegative n = true → I.number n = I.inv .neg (I.number (-n))
  recip (x : M) : I.inv .recip x = I.bin .div (I.number (Scalar.ofNat 1)) x
  add_neg (x y : M) : I.bin .add x (I.inv .neg y) = I.bin .sub x y
  add_add (x y z : M) : I.bin .add x (I.bin .add y z) = I.bin .add (I.bin .add x y) z
  add_sub (x y z : M) : I.bin .add x (I.bin .sub y z) = I.bin .sub (I.bin .add x y) z
  mul_mul (x y z : M) : I.bin .mul x (I.bin .mul y z) = I.bin .mul (I.bin .mul x y) z
  mul_div (x y z : M) : I.bin .mul x (I.bin .div y z) = I.bin .div (I.bin .mul x y) z
  neg_mul (x y : M) : I.bin .mul (I.inv .neg x) y = I.inv .neg (I.bin .mul x y)
  neg_div (x y : M) : I.bin .div (I.inv .neg x) y = I.inv .neg (I.bin .div x y)

/-- The law that regrouping moves operands into remainders.  It does not hold in a field. -/
def PassesRemainders (I : Meaning α M) : Prop :=
  ∀ x y z, I.bin .mul x (I.bin .mod y z) = I.bin .mod (I.bin .mul x y) z

end Meaning

/-- An assignment of the variables into a field, with any functions for remainders, powers and
keywords.  A number has its own value, which is all that is known of it. -/
structure Interpretation (α : Type) (F : Type*) [Scalar α] [Field F] where
  number : α → F
  const : Constant → F
  var : String → Option String → F
  call : Keyword → F → F
  rem : F → F → F
  power : F → F → F
  number_zero {n : α} : Scalar.isZero n = true → number n = 0
  number_one : number (Scalar.ofNat 1) = 1
  number_neg {n : α} : Scalar.isNegative n = true → number (-n) = -number n

namespace Interpretation

variable {α : Type} {F : Type*} [Scalar α] [Field F]

def meaning (I : Interpretation α F) : Meaning α F where
  empty := 0
  number := I.number
  const := I.const
  var := I.var
  call := I.call
  inv
    | .neg, x => -x
    | .recip, x => 1 / x
  bin
    | .add, x, y => x + y
    | .sub, x, y => x - y
    | .mul, x, y => x * y
    | .div, x, y => x / y
    | .mod, x, y => I.rem x y
    | .pow, x, y => I.power x y

theorem lawful [Scalar.Legible α] (I : Interpretation α F) : I.meaning.Lawful where
  zero h := (I.number_zero h).trans (I.number_zero Scalar.Legible.isZero_zero).symm
  negative {n} h := by
    show I.number n = -I.number (-n)
    rw [I.number_neg h, neg_neg]
  recip x := by
    show 1 / x = I.number (Scalar.ofNat 1) / x
    rw [I.number_one]
  add_neg x y := (sub_eq_add_neg x y).symm
  add_add x y z := (add_assoc x y z).symm
  add_sub x y z := (add_sub_assoc x y z).symm
  mul_mul x y z := (mul_assoc x y z).symm
  mul_div x y z := (mul_div_assoc x y z).symm
  neg_mul x y := neg_mul x y
  neg_div x y := neg_div y x

end Interpretation

namespace Formula

variable {α : Type}

/-- The term of a formula whose keywords can be called. -/
def term : Formula α → Term α
  | empty _ => .empty
  | number _ n => .num n
  | var _ name index => .var name index
  | const _ name =>
    match Constant.ofName? name with
    | some c => .const c
    | none => .var name none
  | paren _ f => f.term
  | call name _ _ f =>
    match Keyword.ofName? name with
    | some k => .call k f.term
    | none => f.term
  | minus _ f => .inv .neg f.term
  | binary op _ l r => .bin op l.term r.term

/-- Whether a chain of products and quotients begins with a remainder. -/
def startsRemainder : Formula α → Bool
  | binary .mod .. => true
  | binary .mul _ l _ | binary .div _ l _ => l.startsRemainder
  | _ => false

theorem graft_startsRemainder {op : Operator} (hop : op ≠ .mod) {f g : Formula α}
    (hf : f.startsRemainder = false) (hg : g.startsRemainder = false) :
    (f.graft op g).startsRemainder = false := by
  have direct (l r : Formula α) (hl : l.startsRemainder = false) :
      (binary op .nowhere l r).startsRemainder = false := by
    cases op <;> first | rfl | exact hl | exact absurd rfl hop
  induction g with
  | binary op' s l r ihl _ =>
      by_cases same : op'.precedence = op.precedence
      · rw [graft, if_pos same]
        cases op' <;> first | rfl | exact ihl hg | cases hg
      · rw [graft, if_neg same]
        exact direct _ _ hf
  | _ => exact direct _ _ hf

theorem startsRemainder_of_tight {f : Formula α} (h : Precedence.factor.rank < f.tightness) :
    f.startsRemainder = false := by
  cases f with
  | binary op s l r => cases op <;> first | rfl | exact absurd h (Nat.lt_irrefl _)
  | _ => rfl

/-- A term does not begin with a remainder if its left operand does not. -/
theorem combine_startsRemainder {op : Operator} (hop : op ≠ .mod) {f g : Formula α}
    (hf : op.isProduct = true → f.startsRemainder = false)
    (hg : op.isProduct = true → g.startsRemainder = false) :
    (f.combine op g).startsRemainder = false := by
  by_cases hproduct : op.isProduct = true
  · have hadd : op ≠ .add := by rintro rfl; cases hproduct
    rw [combine, if_neg hadd]
    cases f with
    | minus s f =>
        rw [glue_of_isMinus hproduct]
        rfl
    | _ => exact graft_startsRemainder hop (hf hproduct) (hg hproduct)
  · have grafted (f g : Formula α) : (f.graft op g).startsRemainder = false := by
      have direct (l r : Formula α) : (binary op .nowhere l r).startsRemainder = false := by
        cases op <;> first | rfl | exact absurd rfl hproduct
      cases g with
      | binary op' s l r =>
          by_cases same : op'.precedence = op.precedence
          · rw [graft, if_pos same]
            revert same hproduct
            cases op <;> cases op' <;> first | exact fun _ _ => rfl | exact fun h => absurd rfl h |
              exact fun _ h => by cases h
          · rw [graft, if_neg same]
            exact direct _ _
      | _ => exact direct _ _
    rw [combine]
    split
    · cases g with
      | minus s g => rfl
      | _ => simp_all [plus]
    · rw [glue_of_not_isProduct hproduct]
      exact grafted f g

theorem term_enclosed (needed : Bool) (f : Formula α) : (f.enclosed needed).term = f.term := by
  cases needed <;> rfl

end Formula

namespace Term

variable {α : Type} {M : Type*}

def eval (I : Meaning α M) : Term α → M
  | empty => I.empty
  | num n => I.number n
  | const c => I.const c
  | var name index => I.var name index
  | call k t => I.call k (t.eval I)
  | inv i t => I.inv i (t.eval I)
  | bin op l r => I.bin op (l.eval I) (r.eval I)

/-- Whether a chain of products and quotients begins with a remainder. -/
def startsRemainder : Term α → Bool
  | bin .mod _ _ => true
  | bin .mul l _ | bin .div l _ => l.startsRemainder
  | _ => false

/-- Whether no product has a chain that begins with a remainder on its right side without
parentheses.  The text of `a*(b%c*d)` is `a*b%c*d`, which is read as `((a*b)%c)*d`. -/
def ClearRemainders [Scalar α] : Term α → Prop
  | call _ t | inv _ t => t.ClearRemainders
  | bin op l r =>
    l.ClearRemainders ∧ r.ClearRemainders ∧
      (op = .mul → r.rightEnclosed .mul = false → r.startsRemainder = false)
  | _ => True

end Term

namespace Formula

variable {α : Type} {M : Type*} [Scalar α] {I : Meaning α M}

theorem graft_add_eval (hI : I.Lawful) (f g : Formula α) :
    (f.graft .add g).term.eval I = I.bin .add (f.term.eval I) (g.term.eval I) := by
  induction g with
  | binary op s l r ihl _ =>
      by_cases same : op.precedence = Operator.add.precedence
      · rw [graft, if_pos same]
        simp only [term, Term.eval]
        rw [ihl]
        cases op with
        | add => exact (hI.add_add _ _ _).symm
        | sub => exact (hI.add_sub _ _ _).symm
        | _ => cases same
      · rw [graft, if_neg same]
        rfl
  | _ => rfl

theorem graft_mul_eval (hI : I.Lawful) (f : Formula α) {g : Formula α}
    (hg : I.PassesRemainders ∨ g.startsRemainder = false) :
    (f.graft .mul g).term.eval I = I.bin .mul (f.term.eval I) (g.term.eval I) := by
  induction g with
  | binary op s l r ihl _ =>
      by_cases same : op.precedence = Operator.mul.precedence
      · rw [graft, if_pos same]
        simp only [term, Term.eval]
        cases op with
        | mul =>
            rw [ihl hg]
            exact (hI.mul_mul _ _ _).symm
        | div =>
            rw [ihl hg]
            exact (hI.mul_div _ _ _).symm
        | mod =>
            have passes := hg.resolve_right (Bool.noConfusion ·)
            rw [ihl (.inl passes)]
            exact (passes _ _ _).symm
        | _ => cases same
      · rw [graft, if_neg same]
        rfl
  | _ => rfl

theorem plus_eval (hI : I.Lawful) (f g : Formula α) :
    (f.plus g).term.eval I = I.bin .add (f.term.eval I) (g.term.eval I) := by
  cases g with
  | minus s g => exact (hI.add_neg _ _).symm
  | _ => exact graft_add_eval hI f _

/-- A minus moves over a product. -/
theorem glue_mul_eval (hI : I.Lawful) (f : Formula α) {g : Formula α}
    (hg : I.PassesRemainders ∨ g.startsRemainder = false) :
    (f.glue .mul g).term.eval I = I.bin .mul (f.term.eval I) (g.term.eval I) := by
  cases f with
  | minus s f =>
      rw [glue_of_isMinus rfl]
      simp only [term, Term.eval]
      rw [graft_mul_eval hI f hg]
      exact (hI.neg_mul _ _).symm
  | _ => exact graft_mul_eval hI _ hg

theorem glue_eval_of_tight (hI : I.Lawful) {op : Operator} {f g : Formula α}
    (tight : op.precedence.rank < g.tightness) (hf : op = .mod → f.isMinus = false) :
    (f.glue op g).term.eval I = I.bin op (f.term.eval I) (g.term.eval I) := by
  cases f with
  | minus s f =>
      cases op with
      | mul =>
          rw [glue_of_isMinus rfl, graft_of_tight tight]
          exact (hI.neg_mul _ _).symm
      | div =>
          rw [glue_of_isMinus rfl, graft_of_tight tight]
          exact (hI.neg_div _ _).symm
      | mod => cases hf rfl
      | _ =>
          rw [glue_of_not_isProduct (by decide), graft_of_tight tight]
          rfl
  | _ =>
      rw [glue_of_not_isMinus rfl, graft_of_tight tight]
      rfl

end Formula

namespace Term

variable {α : Type} {M : Type*} [Scalar α] {I : Meaning α M}

theorem combine_eval (hI : I.Lawful) {op : Operator} {l r : Term α} {f g : Formula α}
    (hl : Fits f l) (hr : Fits g r)
    (clear : op = .mul →
      I.PassesRemainders ∨ (g.enclosed (r.rightEnclosed .mul)).startsRemainder = false) :
    ((f.enclosed (l.leftEnclosed op)).combine op (g.enclosed (r.rightEnclosed op))).term.eval I =
      I.bin op (f.term.eval I) (g.term.eval I) := by
  have left : (f.enclosed (l.leftEnclosed op)).term = f.term := Formula.term_enclosed _ _
  have right : (g.enclosed (r.rightEnclosed op)).term = g.term := Formula.term_enclosed _ _
  rw [Formula.combine, ← left, ← right]
  by_cases hadd : op = .add
  · subst hadd
    exact Formula.plus_eval hI _ _
  · rw [if_neg hadd]
    by_cases hmul : op = .mul
    · subst hmul
      exact Formula.glue_mul_eval hI _ (clear rfl)
    · have tight := (rightEnclosed_tight hr hadd).resolve_right fun h => hmul h.1
      refine Formula.glue_eval_of_tight hI tight fun hmod => ?_
      subst hmod
      have starts : (f.enclosed (l.leftEnclosed .mod)).startsMinus = false :=
        startsMinus_leftEnclosed _ r hl
      cases hf : f.enclosed (l.leftEnclosed .mod) with
      | minus s f =>
          rw [hf] at starts
          cases starts
      | _ => rfl

variable [Scalar.Legible α]

theorem startsRemainder_formula {t : Term α} (ht : t.Legible) (clear : t.ClearRemainders)
    (h : t.startsRemainder = false) : t.formula.startsRemainder = false := by
  induction t with
  | num n =>
      rw [formula]
      cases Scalar.isZero n <;> cases Scalar.isNegative n <;> rfl
  | inv i t => cases i <;> rfl
  | bin op l r ihl ihr =>
      have hop : op ≠ .mod := by rintro rfl; cases h
      have fits := formula_fits ht.2
      refine Formula.combine_startsRemainder hop (fun hproduct => ?_) (fun hproduct => ?_)
      · cases hl : l.leftEnclosed op with
        | true => rfl
        | false =>
            refine ihl ht.1 clear.1 ?_
            cases op with
            | mul | div => exact h
            | mod => exact absurd rfl hop
            | add | sub | pow => cases hproduct
      · cases hr : r.rightEnclosed op with
        | true => rfl
        | false =>
            by_cases hmul : op = .mul
            · subst hmul
              exact ihr ht.2 clear.2.1 (clear.2.2 rfl hr)
            · have hadd : op ≠ .add := by rintro rfl; cases hproduct
              have tight := (rightEnclosed_tight fits hadd).resolve_right fun h => hmul h.1
              rw [hr, (Operator.rank_of_isProduct hproduct).1] at tight
              exact Formula.startsRemainder_of_tight tight
  | _ => rfl

/-- The formula of a term stands for the same value. -/
theorem formula_eval (hI : I.Lawful) {t : Term α} (ht : t.Legible)
    (clear : I.PassesRemainders ∨ t.ClearRemainders) : t.formula.term.eval I = t.eval I := by
  induction t with
  | empty => rfl
  | num n =>
      rw [formula]
      cases hzero : Scalar.isZero n with
      | true => exact (hI.zero hzero).symm
      | false =>
          cases hneg : Scalar.isNegative n with
          | true => exact (hI.negative hneg).symm
          | false => rfl
  | const c => simp only [formula, Formula.term, Constant.ofName?_name]
  | var name index => rfl
  | call k t ih =>
      simp only [formula, Formula.term, Keyword.ofName?_name, eval]
      rw [ih ht clear]
  | inv i t ih =>
      cases i with
      | neg =>
          simp only [formula, Formula.term, Formula.term_enclosed, eval]
          rw [ih ht clear]
      | recip =>
          simp only [formula, Formula.term, Formula.term_enclosed, eval]
          rw [ih ht clear, hI.recip]
  | bin op l r ihl ihr =>
      have hr := formula_fits ht.2
      have plain (hmul : op = .mul) : I.PassesRemainders ∨
          (r.formula.enclosed (r.rightEnclosed .mul)).startsRemainder = false := by
        refine clear.imp_right fun clear => ?_
        cases h : r.rightEnclosed .mul with
        | true => rfl
        | false => exact startsRemainder_formula ht.2 clear.2.1 (clear.2.2 hmul h)
      rw [formula, combine_eval hI (formula_fits ht.1) hr plain,
        ihl ht.1 (clear.imp_right (·.1)), ihr ht.2 (clear.imp_right (·.2.1))]
      rfl

end Term

end AlgebraicTerms
