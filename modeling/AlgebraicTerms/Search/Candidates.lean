import AlgebraicTerms.Search.Power
import AlgebraicTerms.Search.Remainder
import AlgebraicTerms.Search.Sum
import AlgebraicTerms.Term.Choice
import AlgebraicTerms.Term.Expansion
import AlgebraicTerms.Term.Order

/-!
# Candidates

The search itself: a term in canonical order is looked up in the cache, and otherwise handed to the
rule of its operation, whose candidates are kept without repetitions.  The rules get the search, one
level deeper, as an argument, so that each can be understood for any search.
-/

namespace AlgebraicTerms

namespace Search

variable {α : Type} [Scalar α]

/-- Simplifies a term, with a search of its own.  The empty term is its own simplest form. -/
def simplified (find : Finder α) (t : Term α) : Search α (Term α) :=
  match t with
  | .empty => return .empty
  | t => afresh do
    let input := t.expanded.withExponents
    let found := (← find input).map Term.withoutTrivialPowers
    let best := ((Term.simplest? found).getD input.withoutTrivialPowers).sorted
    note (.simplified t.text best.text found.length (← get).cache.length)
    return best

/-- The candidates that a term's operation gives. -/
def candidatesByRule (rule : Term.FactoringRule α) (find : Finder α) (t : Term α) : Search α (List (Term α)) :=
  match t with
  | .bin .add _ _ => sum rule find (simplified find) t
  | .bin .sub l r => difference rule find (simplified find) l r
  | .bin .mul _ _ => product find t
  | .bin .div l r => quotient find l r
  | .bin .mod l r => remainder find t l r
  | .bin .pow l r => power find l r
  | .call k argument => do (← find argument).mapM (call k)
  | t => return [t]

/-- The terms that read differently from all before them, of which the texts are given. -/
def distinct (seen : List String) : List (Term α) → List (Term α)
  | [] => []
  | t :: ts =>
    let text := t.text
    if seen.contains text then distinct seen ts else t :: distinct (text :: seen) ts

/-- The given candidates without repetitions, and no more than are kept. -/
def kept (options : SearchOptions) (ts : List (Term α)) : Search α (List (Term α)) :=
  let unique := distinct [] ts
  match options.mostCandidates with
  | none => return unique
  | some most =>
    let most := max most 1
    if unique.length > most then do
      note (.dropped (unique.length - most))
      return unique.take most
    else return unique

/-- The candidates of a term in canonical order that is not at work yet.  Those of an inverse are the
inverses of its operand's, and are not remembered. -/
def compute (options : SearchOptions) (rule : Term.FactoringRule α) (find : Finder α) (t : Term α)
    (key : String) : Search α (List (Term α)) :=
  match t with
  | .inv i operand => do (← find operand).mapM fun c => ofExcept (c.inverted i)
  | t => do
    let found ← kept options (← candidatesByRule rule find t)
    note (.found found.length key)
    modify fun s => { s with cache := (key, found) :: s.cache }
    return found

/-- The candidates of a term, with the given search for those of other terms.  The term is put in
order first, so that equal sums and products are found in the cache.  A term that is already at work
has only itself as a candidate. -/
def candidatesVia (options : SearchOptions) (rule : Term.FactoringRule α) (find : Finder α)
    (t : Term α) : Search α (List (Term α)) := do
  let t := t.sorted
  let key := t.text
  let state ← get
  match state.cache.lookup key with
  | some found => return found
  | none =>
    if state.active.contains key then do
      note (.cycle key)
      return [t]
    else working key (compute options rule find t key)

/-- The candidates of a term, found with calls nested at most so deep. -/
def candidatesWithin (options : SearchOptions) (rule : Term.FactoringRule α) : Nat → Finder α
  | 0, _ => throw .tooDeep
  | depth + 1, t => candidatesVia options rule (candidatesWithin options rule depth) t

/-- The candidates of a term. -/
def candidates (options : SearchOptions) (rule : Term.FactoringRule α) : Finder α :=
  candidatesWithin options rule options.depth

end Search

end AlgebraicTerms
