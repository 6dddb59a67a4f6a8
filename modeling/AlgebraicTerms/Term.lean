import AlgebraicTerms.Chain
import AlgebraicTerms.Scalar

/-!
# Terms

Expressions as they are computed with: binary trees without parentheses or places, in which constants
and keywords are resolved.  Two unary nodes, the inverses, let a difference be read as a sum and a
quotient as a product.

Two terms are equal iff they read the same as text.  Every comparison of the simplifier means this
equality, so the number one is equal to any other term that is written `1`.
-/

namespace AlgebraicTerms

inductive Term (α : Type) where
  | empty
  | num (n : α)
  | const (c : Constant)
  | var (name : String) (index : Option String)
  | call (k : Keyword) (argument : Term α)
  | inv (i : Inverse) (operand : Term α)
  | bin (op : Operator) (lhs rhs : Term α)
  deriving DecidableEq

namespace Term

variable {α : Type}

/-! ## Views -/

def isBinary (ops : List Operator) : Term α → Bool
  | bin op _ _ => ops.contains op
  | _ => false

def isSum (t : Term α) : Bool := t.isBinary [.add, .sub]

def isNegation : Term α → Bool
  | inv .neg _ => true
  | _ => false

def isInverse : Term α → Bool
  | inv .. => true
  | _ => false

/-- Whether the term applies an operator or an inverse. -/
def isOperation : Term α → Bool
  | bin .. | inv .. => true
  | _ => false

/-- The operand of the given inverse. -/
def operandOf? (i : Inverse) : Term α → Option (Term α)
  | inv j operand => if i = j then some operand else none
  | _ => none

/-- The operands of a binary operation. -/
def sides? : Term α → Option (Term α × Term α)
  | bin _ lhs rhs => some (lhs, rhs)
  | _ => none

/-- The base and exponent of a power. -/
def power? : Term α → Option (Term α × Term α)
  | bin .pow base exponent => some (base, exponent)
  | _ => none

def isPower (t : Term α) : Bool := t.power?.isSome

def call? : Term α → Option (Keyword × Term α)
  | call k argument => some (k, argument)
  | _ => none

/-- The keyword called by the left side of a binary operation. -/
def leftKeyword? (t : Term α) : Option Keyword := do
  let (lhs, _) ← t.sides?
  let (k, _) ← lhs.call?
  return k

/-- The number of nodes of the tree. -/
def nodeCount : Term α → Nat
  | empty | num _ | const _ | var _ _ => 1
  | call _ t | inv _ t => t.nodeCount + 1
  | bin _ lhs rhs => lhs.nodeCount + rhs.nodeCount + 1

variable [Scalar α]

/-- The value of a number or constant. -/
def number? : Term α → Option α
  | num n => some n
  | const c => some (Scalar.constant c)
  | _ => none

def isNumber (t : Term α) : Bool := t.number?.isSome

/-! ## Text -/

/-- A number as a term is written.  Zero has no sign. -/
def numberText (n : α) : String := if Scalar.isZero n then "0" else Scalar.text n

/-- Whether the text of the term starts with a minus. -/
def leadsMinus : Term α → Bool
  | inv .neg _ => true
  | num n => Scalar.isNegative n
  | bin .add lhs _ | bin .sub lhs _ => lhs.leadsMinus
  | bin .mul lhs _ | bin .div lhs _ => !lhs.isSum && !lhs.isNegation && lhs.leadsMinus
  | _ => false

/-- Whether the term can follow a summand without an operator, since it brings a minus of its own. -/
def bringsMinus : Term α → Bool
  | inv .neg _ => true
  | num n => Scalar.isNegative n
  | _ => false

def parenthesized (needed : Bool) (text : String) : String :=
  if needed then "(" ++ text ++ ")" else text

/-- The term as text, with the parentheses that its operators need. -/
def text : Term α → String
  | empty => ""
  | num n => numberText n
  | const c => c.name
  | var name index => name ++ index.getD ""
  | call k t => k.name ++ "(" ++ t.text ++ ")"
  | inv .neg t => "-" ++ parenthesized (t.isSum || t.leadsMinus) t.text
  | inv .recip t => "1 / " ++ parenthesized (t.isOperation || t.leadsMinus) t.text
  | bin .add l r =>
    l.text ++ if r.bringsMinus then r.text else "+" ++ parenthesized r.leadsMinus r.text
  | bin .sub l r => l.text ++ "-" ++ parenthesized (r.isSum || r.leadsMinus) r.text
  | bin .mul l r =>
    parenthesized (l.isSum || l.isNegation) l.text ++ "*" ++
      parenthesized (r.isBinary [.add, .sub, .mod] || r.leadsMinus) r.text
  | bin .pow l r =>
    parenthesized (l.isOperation || l.leadsMinus) l.text ++ "^" ++
      parenthesized (r.isOperation || r.leadsMinus) r.text
  | bin op l r =>
    parenthesized (l.isSum || l.isNegation || op = .mod && l.leadsMinus) l.text ++ op.symbol ++
      parenthesized
        (r.isBinary [.add, .sub, .mul, .div, .mod] || r.isInverse || r.leadsMinus) r.text

/-- Whether the term is written as the given text. -/
def reads (t : Term α) (s : String) : Bool := t.text == s

instance : BEq (Term α) := ⟨fun a b => a.text == b.text⟩

theorem beq_iff {a b : Term α} : (a == b) = true ↔ a.text = b.text := by
  show (a.text == b.text) = true ↔ a.text = b.text
  exact beq_iff_eq

theorem reads_iff {t : Term α} {s : String} : t.reads s = true ↔ t.text = s := by
  show (t.text == s) = true ↔ t.text = s
  exact beq_iff_eq

end Term

end AlgebraicTerms
