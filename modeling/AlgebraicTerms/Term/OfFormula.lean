import AlgebraicTerms.Formula.Fault
import AlgebraicTerms.Formula.Reading
import AlgebraicTerms.Term

/-!
# The term of a formula

Parentheses fall away, and names are resolved: a constant without a value is a variable, and a call
of something that cannot be evaluated is a fault.
-/

namespace AlgebraicTerms

namespace Term

variable {α : Type}

def ofFormula : Formula α → Except ParseError (Term α)
  | .empty _ => .ok empty
  | .number _ n => .ok (num n)
  | .var _ name index => .ok (var name index)
  | .const _ name =>
    match Constant.ofName? name with
    | some c => .ok (const c)
    | none => .ok (var name none)
  | .paren _ inner => ofFormula inner
  | .call name nameSpan _ argument =>
    match Keyword.ofName? name with
    | some k => call k <$> ofFormula argument
    | none => .error ⟨nameSpan, .unexpectedToken name⟩
  | .minus _ operand => inv .neg <$> ofFormula operand
  | .binary op _ lhs rhs => do
    let l ← ofFormula lhs
    let r ← ofFormula rhs
    return bin op l r

/-- The term that a source text stands for. -/
def parse [Scalar α] (vocabulary : Vocabulary) (text : String) : Except ParseError (Term α) :=
  Formula.parse vocabulary text >>= ofFormula

end Term

end AlgebraicTerms
