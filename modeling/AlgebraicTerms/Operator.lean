/-!
# Operators

The six binary operators of an expression, how tightly each binds and which way it nests.
-/

namespace AlgebraicTerms

inductive Operator where
  | add
  | sub
  | mul
  | div
  | mod
  | pow
  deriving DecidableEq

/-- How tightly an operator binds, loosest first.  `any` is looser than every operator. -/
inductive Precedence where
  | any
  | term
  | factor
  | power
  deriving DecidableEq

def Precedence.rank : Precedence → Nat
  | .any => 0
  | .term => 1
  | .factor => 2
  | .power => 3

/-- The side on which a chain of one operator nests. -/
inductive Associativity where
  | left
  | right
  deriving DecidableEq

namespace Operator

def ofChar? : Char → Option Operator
  | '+' => some .add
  | '-' => some .sub
  | '*' => some .mul
  | '/' => some .div
  | '%' => some .mod
  | '^' => some .pow
  | _ => none

def toChar : Operator → Char
  | .add => '+'
  | .sub => '-'
  | .mul => '*'
  | .div => '/'
  | .mod => '%'
  | .pow => '^'

/-- The operator as it is written. -/
def symbol (op : Operator) : String := op.toChar.toString

def precedence : Operator → Precedence
  | .add | .sub => .term
  | .mul | .div | .mod => .factor
  | .pow => .power

def associativity : Operator → Associativity
  | .pow => .right
  | _ => .left

/-- Whether the operator joins the terms of a sum. -/
def isSum (op : Operator) : Bool := op.precedence = .term

/-- Whether the operator joins the factors of a term. -/
def isProduct (op : Operator) : Bool := op.precedence = .factor

theorem ofChar?_toChar (op : Operator) : ofChar? op.toChar = some op := by cases op <;> rfl

end Operator

/-- A leading minus binds like a product, so it covers the whole first term of a sum. -/
def negationPrecedence : Precedence := .factor

end AlgebraicTerms
