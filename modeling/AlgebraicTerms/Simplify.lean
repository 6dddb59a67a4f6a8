import AlgebraicTerms.Search.Candidates

/-!
# Simplification

A term is expanded, its candidates are searched for, and the simplest one is put in canonical order.
-/

namespace AlgebraicTerms

namespace Term

variable {α : Type} [Scalar α]

/-- Simplifies a term with the given rule for common factors, and tells what happened on the way. -/
def simplifyLoggedBy (rule : FactoringRule α) (options : SearchOptions) (t : Term α) :
    Except (SearchFailure α) (Term α) × List (SearchEvent α) :=
  let (result, state) :=
    (Search.simplified (Search.candidates options rule) t).run SearchState.start
  (result, state.log.reverse)

def simplifyLogged (options : SearchOptions) (t : Term α) :
    Except (SearchFailure α) (Term α) × List (SearchEvent α) :=
  t.simplifyLoggedBy factorings options

/-- The simplest term found for a term with the given rule for common factors. -/
def simplifyBy (rule : FactoringRule α) (options : SearchOptions) (t : Term α) :
    Except (SearchFailure α) (Term α) :=
  (t.simplifyLoggedBy rule options).1

/-- The simplest term found for a term, in canonical order. -/
def simplify (options : SearchOptions) (t : Term α) : Except (SearchFailure α) (Term α) :=
  (t.simplifyLogged options).1

end Term

end AlgebraicTerms
