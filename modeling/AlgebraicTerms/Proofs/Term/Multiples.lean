import AlgebraicTerms.Proofs.Formula.Enclosures
import AlgebraicTerms.Proofs.Scalar.Unital
import AlgebraicTerms.Proofs.Term.Joined
import AlgebraicTerms.Proofs.Term.Reread

/-!
# Multiples of variables

A row of multiples is a sum that nests to the left.  What goes through sums goes through a row
summand by summand (`row_map`), as the conversions do that a search begins and ends with.  The text
of a row is read as the same row, but its first summand may be read differently (`term_row`).
-/

namespace AlgebraicTerms

variable {α : Type}

/-- A variable as it is searched for. -/
def Term.firstPower [Scalar α] (name : String) (index : Option String) : Term α :=
  .bin .pow (.var name index) (.num Scalar.one)

/-- A variable, maybe with a number before it and a minus before both. -/
structure Multiple (α : Type) where
  negative : Bool
  factor : Option α
  name : String
  index : Option String

namespace Multiple

/-- The variable itself. -/
def base (m : Multiple α) : Term α := .var m.name m.index

def power [Scalar α] (m : Multiple α) : Term α := .firstPower m.name m.index

/-- The operator that joins the multiple to a sum. -/
def op (m : Multiple α) : Operator := if m.negative then .sub else .add

/-- The multiple without its minus, of what is put in the place of the variable. -/
def unsigned (m : Multiple α) (t : Term α) : Term α :=
  match m.factor with
  | none => t
  | some n => .bin .mul (.num n) t

def signed (m : Multiple α) (t : Term α) : Term α :=
  if m.negative then .inv .neg (m.unsigned t) else m.unsigned t

/-- The sum of a term and multiples, of what is put in the places of their variables. -/
def row (x : Multiple α → Term α) (first : Term α) (ms : List (Multiple α)) : Term α :=
  ms.foldl (fun chain m => .bin m.op chain (m.unsigned (x m))) first

/-- Whether the variable can be read again, and the number is positive and not one. -/
structure IsProper [Scalar α] (m : Multiple α) : Prop where
  legible : m.base.Legible
  factor : ∀ n ∈ m.factor, Scalar.IsPositive n
  notOne : ∀ n ∈ m.factor, Scalar.isOne n = false

open Term

variable {m : Multiple α} {ms : List (Multiple α)} {x y : Multiple α → Term α} {first t : Term α}

theorem of?_op (m : Multiple α) : Chain.of? m.op = some .sum := by
  rw [op]
  split <;> rfl

theorem operand_unsigned (m : Multiple α) (t : Term α) :
    Chain.sum.operand m.op (m.unsigned t) = m.signed t := by
  rw [op, signed]
  cases m.negative <;> rfl

/-- What goes through sums goes through a row. -/
theorem row_map (g : Term α → Term α) (h : ∀ m ∈ ms, ∀ chain,
    g (.bin m.op chain (m.unsigned (x m))) = .bin m.op (g chain) (m.unsigned (y m))) :
    g (row x first ms) = row y (g first) ms := by
  induction ms generalizing first with
  | nil => rfl
  | cons m ms ih =>
      refine (ih fun n hn => h n (List.mem_cons_of_mem m hn)).trans ?_
      rw [h m List.mem_cons_self]
      rfl

theorem row_concat (x : Multiple α → Term α) (first : Term α) (ms : List (Multiple α))
    (m : Multiple α) : row x first (ms ++ [m]) = .bin m.op (row x first ms) (m.unsigned (x m)) :=
  List.foldl_concat _ _ _ _

theorem operandsIn_row (hx : ∀ m ∈ ms, (m.unsigned (x m)).isIn .sum = false) :
    (row x first ms).operandsIn .sum = first.operandsIn .sum ++ ms.map fun m => m.signed (x m) := by
  induction ms generalizing first with
  | nil => exact (List.append_nil _).symm
  | cons m ms ih =>
      refine (ih fun n hn => hx n (List.mem_cons_of_mem m hn)).trans ?_
      rw [operandsIn_concat m.of?_op (hx m List.mem_cons_self), operand_unsigned, List.append_assoc]
      rfl

variable [Scalar α]

/-- Whether a variable or its first power is put in the place of every variable. -/
def Places (x : Multiple α → Term α) : Prop := x = base ∨ x = power

namespace Places

variable (hx : Places x)

include hx

theorem not_isIn (m : Multiple α) : (m.unsigned (x m)).isIn .sum = false := by
  rw [unsigned]
  rcases hx with rfl | rfl <;> cases m.factor <;> rfl

theorem not_isNumber (m : Multiple α) : (m.signed (x m)).isNumber = false := by
  rw [signed, unsigned]
  rcases hx with rfl | rfl <;> cases m.negative <;> cases m.factor <;> rfl

theorem attach_signed (m : Multiple α) (chain : Term α) :
    Chain.sum.attach chain (m.signed (x m)) = .bin m.op chain (m.unsigned (x m)) := by
  rw [signed, op, unsigned]
  rcases hx with rfl | rfl <;> cases m.negative <;> cases m.factor <;> rfl

theorem operandsIn_signed (m : Multiple α) :
    (m.signed (x m)).operandsIn .sum = [m.signed (x m)] := by
  rw [signed]
  split
  · rfl
  · exact operandsIn_of_not_isIn (hx.not_isIn m)

theorem sortKey (m : Multiple α) : (x m).sortKey = ⟨Scalar.one, m.base.weight⟩ := by
  rcases hx with rfl | rfl <;> rfl

end Places

/-! ## First powers -/

theorem withExponents_row (hx : Places x) :
    (row x first ms).withExponents = row power first.withExponents ms := by
  refine row_map withExponents fun m _ chain => ?_
  rw [op, unsigned, unsigned]
  rcases hx with rfl | rfl <;> cases m.negative <;> cases m.factor <;> rfl

theorem withExponents_signed (hx : Places x) (m : Multiple α) :
    (m.signed (x m)).withExponents = m.signed m.power := by
  rw [signed, unsigned, signed, unsigned]
  rcases hx with rfl | rfl <;> cases m.negative <;> cases m.factor <;> rfl

/-! ## Reading -/

theorem formula_unsigned (proper : m.IsProper) : (m.unsigned m.base).formula =
    match m.factor with
    | none => .var .nowhere m.name m.index
    | some n => .binary .mul .nowhere (.number .nowhere n) (.var .nowhere m.name m.index) := by
  rw [Multiple.unsigned]
  cases h : m.factor with
  | none => rfl
  | some n =>
      have number : (Term.num n).formula = .number .nowhere n := by
        rw [formula, (proper.factor n h).nonzero, (proper.factor n h).unsigned]
        rfl
      show ((Term.num n).formula.enclosed false).combine .mul (m.base.formula.enclosed false) = _
      rw [number]
      rfl

/-- A multiple is written without parentheses behind a sum. -/
theorem formula_concat (proper : m.IsProper) (chain : Term α) :
    (Term.bin m.op chain (m.unsigned m.base)).formula =
      .binary m.op .nowhere chain.formula (m.unsigned m.base).formula := by
  have tight : Precedence.term.rank < (m.unsigned m.base).formula.tightness := by
    rw [formula_unsigned proper]
    cases m.factor <;> exact Nat.le_of_ble_eq_true rfl
  have bare : (m.unsigned m.base).leadsMinus = false ∧ (m.unsigned m.base).isSum = false := by
    rw [Multiple.unsigned]
    cases h : m.factor with
    | none => exact ⟨rfl, rfl⟩
    | some n => exact ⟨(proper.factor n h).unsigned, rfl⟩
  have unsigned : (m.unsigned m.base).formula.isMinus = false := by
    rw [formula_unsigned proper]
    cases m.factor <;> rfl
  rw [formula, op]
  cases m.negative with
  | true =>
      simp only [leftEnclosed, rightEnclosed, bare, if_true, Bool.or_false]
      exact (Formula.glue_of_not_isProduct (by decide) _ _).trans (Formula.graft_of_tight tight)
  | false =>
      simp only [leftEnclosed, rightEnclosed, bare, Bool.false_eq_true, if_false, Bool.and_false]
      exact (Formula.plus_of_not_isMinus unsigned).trans (Formula.graft_of_tight tight)

theorem term_unsigned (proper : m.IsProper) :
    (m.unsigned m.base).formula.term = m.unsigned m.base := by
  rw [formula_unsigned proper, Multiple.unsigned]
  cases m.factor <;> rfl

/-- Only the first summand of a row may be read differently. -/
theorem term_row (hms : ∀ m ∈ ms, m.IsProper) :
    (row base first ms).formula.term = row base first.formula.term ms := by
  refine row_map (fun t => t.formula.term) fun m hm chain => ?_
  rw [formula_concat (hms m hm), Formula.term, term_unsigned (hms m hm)]

/-- In a row no more than a product waits for the sum. -/
theorem deepest_row (hms : ∀ m ∈ ms, m.IsProper)
    (hfirst : first.formula.deepest (Formula.Place.first 0) ≤ 1) :
    (row base first ms).formula.deepest (Formula.Place.first 0) ≤ 1 := by
  induction ms generalizing first with
  | nil => exact hfirst
  | cons m ms ih =>
      obtain ⟨hm, hms⟩ := List.forall_mem_cons.1 hms
      refine ih hms ?_
      have sum : m.op.isSum = true := by
        rw [op]
        cases m.negative <;> rfl
      rw [formula_concat hm, Formula.deepest, Formula.placeAfter_after_of_isSum sum,
        formula_unsigned hm]
      refine max_le hfirst ?_
      cases m.factor <;> exact Nat.le_of_ble_eq_true rfl

theorem formula_signed (proper : m.IsProper) : (m.signed m.base).formula =
    if m.negative then .minus .nowhere (m.unsigned m.base).formula
    else (m.unsigned m.base).formula := by
  have bare : ((m.unsigned m.base).isSum || (m.unsigned m.base).leadsMinus) = false := by
    rw [Multiple.unsigned]
    cases h : m.factor with
    | none => rfl
    | some n => exact (proper.factor n h).unsigned
  rw [signed]
  split
  · rw [formula, bare]
    rfl
  · rfl

theorem term_signed (proper : m.IsProper) :
    (m.signed m.base).formula.term = m.signed m.base := by
  have unsigned := term_unsigned proper
  rw [formula_signed proper, signed]
  split
  · exact congrArg (Term.inv .neg) unsigned
  · exact unsigned

theorem deepest_signed (proper : m.IsProper) :
    (m.signed m.base).formula.deepest (Formula.Place.first 0) ≤ 1 := by
  rw [formula_signed proper, formula_unsigned proper]
  cases m.negative <;> cases m.factor <;> exact Nat.le_of_ble_eq_true rfl

end Multiple

end AlgebraicTerms
