import AlgebraicTerms.Simplify
import AlgebraicTerms.Term.OfFormula

/-!
# Expressions

Values that hold the simplest form of a term.  Combining two of them builds a term from both and
simplifies it again.  Two expressions are equal iff their simplest forms read the same.
-/

namespace AlgebraicTerms

/-- Why an expression cannot be made: its text is no formula, or it has no simplest form. -/
inductive ExpressionError (α : Type) where
  | parse (e : ParseError)
  | search (e : SearchFailure α)

structure Expression (α : Type) where
  term : Term α

/-- The right side of an operation on an expression.  A text is read but not simplified on its
own. -/
inductive Operand (α : Type) where
  | expression (e : Expression α)
  | term (t : Term α)
  | number (n : α)
  | text (source : String)

variable {α : Type} [Scalar α]

/-- The error as a line of text. -/
def ExpressionError.display : ExpressionError α → String
  | .parse e => "parse error: " ++ e.fault.record
  | .search (.domain e) => "domain error: " ++ e.record
  | .search .tooDeep => "search error: nested too deeply"

def readTerm (source : String) : Except (ExpressionError α) (Term α) :=
  (Term.parse .registry source).mapError .parse

def Operand.toTerm : Operand α → Except (ExpressionError α) (Term α)
  | expression e => .ok e.term
  | term t => .ok t
  | number n => .ok (.num n)
  | text source => readTerm source

namespace Expression

instance : BEq (Expression α) := ⟨fun a b => a.term == b.term⟩

def ofTerm (t : Term α) : Except (ExpressionError α) (Expression α) :=
  match t.simplify {} with
  | .ok t => .ok ⟨t⟩
  | .error e => .error (.search e)

/-- Reads and simplifies a text. -/
def parse (source : String) : Except (ExpressionError α) (Expression α) :=
  readTerm source >>= ofTerm

/-- An expression that holds a term as it is. -/
def unsimplified (t : Term α) : Expression α := ⟨t⟩

def text (e : Expression α) : String := e.term.text

/-- Combines an expression with an operand. -/
def apply (op : Operator) (e : Expression α) (operand : Operand α) :
    Except (ExpressionError α) (Expression α) := do
  ofTerm (.bin op e.term (← operand.toTerm))

def neg (e : Expression α) : Except (ExpressionError α) (Expression α) :=
  ofTerm (.inv .neg e.term)

def abs (e : Expression α) : Except (ExpressionError α) (Expression α) :=
  ofTerm (.call .abs e.term)

end Expression

end AlgebraicTerms
