import AlgebraicTerms.Term.Operands

/-!
# The simplest of several terms

A term is simpler than another if it has fewer nodes, or as many and a shorter text, or all the same
and more operands.  Of terms that are still tied, the first is chosen.
-/

namespace AlgebraicTerms

namespace Term

variable {α : Type} [Scalar α]

/-- The simplest term so far, with the measures that a simpler one has to beat. -/
structure Champion (α : Type) where
  term : Term α
  nodes : Nat
  bytes : Nat
  operands : Nat

/-- The length of the term's text in bytes. -/
def textBytes (t : Term α) : Nat := t.text.utf8ByteSize

def Champion.of (t : Term α) : Champion α := ⟨t, t.nodeCount, t.textBytes, t.operands.length⟩

/-- The champion after another term was looked at. -/
def Champion.meet (c : Champion α) (t : Term α) : Champion α :=
  let other := Champion.of t
  if other.nodes < c.nodes then other
  else if c.nodes < other.nodes then c
  else if other.bytes < c.bytes then other
  else if c.bytes < other.bytes then c
  else if c.operands < other.operands then other
  else c

/-- The simplest of the given terms.  The first one starts without operands, so that a later term
with the same size and length replaces it. -/
def simplest? : List (Term α) → Option (Term α)
  | [] => none
  | t :: ts => some (ts.foldl Champion.meet { Champion.of t with operands := 0 }).term

end Term

end AlgebraicTerms
