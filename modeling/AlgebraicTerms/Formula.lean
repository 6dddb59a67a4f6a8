import AlgebraicTerms.Operator
import AlgebraicTerms.Scalar
import AlgebraicTerms.Span

/-!
# Formulas

Expressions as they are written: with their parentheses, and with the place of every part in the
source text.
-/

namespace AlgebraicTerms

inductive Formula (α : Type) where
  /-- A source without tokens. -/
  | empty (span : Span)
  | number (span : Span) (value : α)
  | var (span : Span) (name : String) (index : Option String)
  | const (span : Span) (name : String)
  | paren (span : Span) (inner : Formula α)
  | call (name : String) (nameSpan parenSpan : Span) (argument : Formula α)
  | minus (opSpan : Span) (operand : Formula α)
  | binary (op : Operator) (opSpan : Span) (lhs rhs : Formula α)

namespace Formula

variable {α : Type}

/-- The part of the source that a formula was read from. -/
def span : Formula α → Span
  | empty span | number span _ | var span _ _ | const span _ | paren span _ => span
  | call _ nameSpan parenSpan _ => nameSpan.through parenSpan
  | minus opSpan operand => opSpan.through operand.span
  | binary _ _ lhs rhs => lhs.span.through rhs.span

/-- The formula inside all parentheses around it. -/
def innermost : Formula α → Formula α
  | paren _ inner => inner.innermost
  | f => f

/-- The formula as text, without blanks. -/
def text [Scalar α] : Formula α → String
  | empty _ => ""
  | number _ value => Scalar.text value
  | var _ name index => name ++ index.getD ""
  | const _ name => name
  | paren _ inner => "(" ++ inner.text ++ ")"
  | call name _ _ argument => name ++ "(" ++ argument.text ++ ")"
  | minus _ operand => "-" ++ operand.text
  | binary op _ lhs rhs => lhs.text ++ op.symbol ++ rhs.text

end Formula

end AlgebraicTerms
