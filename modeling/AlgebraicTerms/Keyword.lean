/-!
# Keywords

The functions that an expression may call, each with one argument.
-/

namespace AlgebraicTerms

inductive Keyword where
  | fac
  | log
  | abs
  | sin
  | cos
  | tan
  | hypot
  | round
  | trunc
  | int
  | float
  deriving DecidableEq

namespace Keyword

def name : Keyword → String
  | .fac => "fac"
  | .log => "log"
  | .abs => "abs"
  | .sin => "sin"
  | .cos => "cos"
  | .tan => "tan"
  | .hypot => "hypot"
  | .round => "round"
  | .trunc => "trunc"
  | .int => "int"
  | .float => "float"

def all : List Keyword :=
  [.fac, .log, .abs, .sin, .cos, .tan, .hypot, .round, .trunc, .int, .float]

def ofName? (name : String) : Option Keyword := all.find? (·.name == name)

/-- Whether calls of the keyword obey the trigonometric identities. -/
def isTrigonometric : Keyword → Bool
  | .sin | .cos | .tan => true
  | _ => false

theorem ofName?_name (k : Keyword) : ofName? k.name = some k := by cases k <;> decide

end Keyword

end AlgebraicTerms
