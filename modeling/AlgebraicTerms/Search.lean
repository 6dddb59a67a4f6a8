import AlgebraicTerms.Evaluation
import AlgebraicTerms.Term

/-!
# The search for equivalent terms

Simplification searches: every subterm is turned into a list of candidates, terms of the same value.
The search remembers the candidates it has found, by the text of the subterm, and knows which
subterms it is at work on, so that a subterm reached again inside itself ends there.  It also keeps
a log.

The rules of the search call it back on smaller problems, which need not be smaller terms.  Nothing
bounds how deep such calls go, so a depth is given, and going below it is a failure of its own.
-/

namespace AlgebraicTerms

/-- How the search is limited. -/
structure SearchOptions where
  /-- The number of candidates kept of each subterm.  At least one is kept. -/
  mostCandidates : Option Nat := none
  /-- The deepest nesting of calls. -/
  depth : Nat := 10000

/-- Why a search ends without an answer. -/
inductive SearchFailure (α : Type) where
  | domain (e : DomainError α)
  | tooDeep

/-- What the log of a search tells. -/
inductive SearchEvent (α : Type) where
  | cycle (key : String)
  | found (count : Nat) (key : String)
  | dropped (count : Nat)
  | simplified (input output : String) (candidates cached : Nat)
  | keywordRefused (k : Keyword) (n : α) (e : DomainError α)
  | keywordNotFinite (k : Keyword) (n value : α)

inductive LogLevel where
  | debug
  | trace

namespace SearchEvent

variable {α : Type}

def level : SearchEvent α → LogLevel
  | cycle _ | found .. | dropped _ => .trace
  | simplified .. | keywordRefused .. | keywordNotFinite .. => .debug

/-- The event as a line of the log. -/
def message [Scalar α] : SearchEvent α → String
  | cycle key => "cycle on `" ++ key ++ "`"
  | found count key => toString count ++ " candidate(s) for `" ++ key ++ "`"
  | dropped count => "dropping " ++ toString count ++ " candidate(s)"
  | simplified input output candidates cached =>
    "simplified `" ++ input ++ "` to `" ++ output ++ "` (" ++ toString candidates ++
      " candidate(s), " ++ toString cached ++ " cached subexpression(s))"
  | keywordRefused k n e =>
    "`" ++ k.name ++ "` failed on " ++ Scalar.text n ++ ": " ++ e.record
  | keywordNotFinite k n value =>
    "`" ++ k.name ++ "` produced " ++ Scalar.text value ++ " from " ++ Scalar.text n

end SearchEvent

structure SearchState (α : Type) where
  /-- The candidates of every subterm that is done, by its text, last done first. -/
  cache : List (String × List (Term α))
  /-- The texts of the subterms at work, innermost first. -/
  active : List String
  /-- What happened, last first. -/
  log : List (SearchEvent α)

def SearchState.start {α : Type} : SearchState α := ⟨[], [], []⟩

/-- A step of the search.  The state outlives a failure. -/
abbrev Search (α : Type) := ExceptT (SearchFailure α) (StateM (SearchState α))

/-- What finds the candidates of a term. -/
abbrev Finder (α : Type) := Term α → Search α (List (Term α))

namespace Search

variable {α β : Type}

def note (e : SearchEvent α) : Search α Unit := modify fun s => { s with log := e :: s.log }

/-- A result that may be a domain error. -/
def ofExcept (r : Except (DomainError α) β) : Search α β :=
  match r with
  | .ok b => pure b
  | .error e => throw (.domain e)

/-- Marks a subterm as being worked on, until its search succeeds or fails. -/
def working (key : String) (search : Search α β) : Search α β :=
  let run : StateM (SearchState α) (Except (SearchFailure α) β) := do
    modify fun s => { s with active := key :: s.active }
    let result ← search.run
    modify fun s => { s with active := s.active.erase key }
    return result
  ExceptT.mk run

/-- Searches with an empty memory, and leaves nothing behind but the log. -/
def afresh (search : Search α β) : Search α β := do
  let outer ← get
  let run : StateM (SearchState α) (Except (SearchFailure α) β) := do
    set { SearchState.start with log := outer.log }
    let result ← search.run
    modify fun s => { outer with log := s.log }
    return result
  ExceptT.mk run

/-- The first candidate of a term. -/
def first (find : Finder α) (t : Term α) : Search α (Term α) := do
  return (← find t).head?.getD t

/-- The results of a step on every element, one list after the other. -/
def gather {γ : Type} (f : γ → Search α (List β)) (xs : List γ) : Search α (List β) := do
  return (← xs.mapM f).flatten

/-- A keyword call with one candidate of its argument.  Calls on numbers are evaluated. -/
def call [Scalar α] (k : Keyword) (argument : Term α) : Search α (Term α) :=
  match argument.number? with
  | none => return .call k argument
  | some n =>
    match k.outcome n with
    | .value v => return .num v
    | .refused e => do
      note (.keywordRefused k n e)
      throw (.domain e)
    | .notFinite v => do
      note (.keywordNotFinite k n v)
      throw (.domain (.keywordUndefined k n))

end Search

/-- Every combination of one element of each list.  The first list varies fastest. -/
def combinations {α : Type} (lists : List (List α)) : List (List α) :=
  lists.foldl (fun combos list => list.flatMap fun x => combos.map fun combo => combo ++ [x]) [[]]

/-- What is left of the operands of a sum or product after merging: a number, and other operands.  If
that leaves at most one operand, the candidates are settled. -/
structure Merged (α : Type) where
  number : α
  rest : List (Term α)
  settled : Option (List (Term α))

/-- The candidates that the combinations of the operands' candidates give.  One combination may settle
them all. -/
inductive Combined (α : Type) where
  | settled (ts : List (Term α))
  | collected (ts : List (Term α))

end AlgebraicTerms
