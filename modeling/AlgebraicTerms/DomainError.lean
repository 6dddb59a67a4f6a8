import AlgebraicTerms.Scalar
import AlgebraicTerms.Text.Quoted
import AlgebraicTerms.Text.Record

/-!
# Domain errors

Why a well-formed term has no value.  These errors have no place in the source text, since
simplification no longer knows where a term came from.
-/

namespace AlgebraicTerms

inductive DomainError (α : Type) where
  | invalidFactorial (value : α)
  /-- An operand of the remainder, which is given as text, is a number with a fraction. -/
  | nonIntegerRemainder (expr : String)
  | remainderByZero (expr : String)
  | divisionByZero
  | keywordUndefined (keyword : Keyword) (value : α)
  | powerUndefined (base exponent : α)

namespace DomainError

variable {α : Type} [Scalar α]

def name : DomainError α → String
  | invalidFactorial _ => "InvalidFactorial"
  | nonIntegerRemainder _ => "NonIntegerModulo"
  | remainderByZero _ => "ModuloByZero"
  | divisionByZero => "DivisionByZero"
  | keywordUndefined .. => "KeywordDomain"
  | powerUndefined .. => "UndefinedPower"

def message : DomainError α → String
  | invalidFactorial n => "cannot take the factorial of `" ++ Scalar.text n ++ "`"
  | nonIntegerRemainder expr => "modulo requires integer operands: `" ++ expr ++ "`"
  | remainderByZero expr => "modulo by zero: `" ++ expr ++ "`"
  | divisionByZero => "division by zero"
  | keywordUndefined k n => "`" ++ k.name ++ "` is undefined for `" ++ Scalar.text n ++ "`"
  | powerUndefined b e => "`" ++ Scalar.text b ++ "^" ++ Scalar.text e ++ "` is undefined"

def help? : DomainError α → Option String
  | invalidFactorial _ => some "fac is only defined for non-negative integers"
  | nonIntegerRemainder _ => some "both operands of `%` must evaluate to integers"
  | remainderByZero _ | divisionByZero => none
  | keywordUndefined k n =>
    some ("the result of " ++ k.name ++ "(" ++ Scalar.text n ++ ") is not a finite real number")
  | powerUndefined .. => some "the result is not a finite real number"

/-- The error as a record. -/
def record (e : DomainError α) : String :=
  Text.record e.name <| match e with
    | invalidFactorial n => [("value", Scalar.recordText n)]
    | nonIntegerRemainder expr | remainderByZero expr => [("expr", Text.quotedString expr)]
    | divisionByZero => []
    | keywordUndefined k n =>
      [("keyword", Text.quotedString k.name), ("value", Scalar.recordText n)]
    | powerUndefined b e => [("base", Scalar.recordText b), ("exponent", Scalar.recordText e)]

end DomainError

end AlgebraicTerms
