import AlgebraicTerms.DomainError

/-!
# Evaluating keywords

A keyword has a value at a number unless it refuses the number or the value is not finite.
-/

namespace AlgebraicTerms

/-- What comes of a keyword at a number. -/
inductive KeywordOutcome (α : Type) where
  | value (n : α)
  | refused (e : DomainError α)
  | notFinite (n : α)

namespace Keyword

variable {α : Type} [Scalar α]

/-- Whether a keyword refuses a number before it computes anything.  Only factorials do, outside the
whole numbers. -/
def refuses : Keyword → α → Bool
  | .fac, n => Scalar.isNegative n || !Scalar.isInteger n
  | _, _ => false

def outcome (k : Keyword) (n : α) : KeywordOutcome α :=
  if k.refuses n then .refused (.invalidFactorial n)
  else
    let value := Scalar.call k n
    if Scalar.isFinite value then .value value else .notFinite value

def evaluate (k : Keyword) (n : α) : Except (DomainError α) α :=
  match k.outcome n with
  | .value v => .ok v
  | .refused e => .error e
  | .notFinite _ => .error (.keywordUndefined k n)

end Keyword

end AlgebraicTerms
