/-!
# Spans

Regions of a source text.  Offsets count the bytes of its UTF-8 form, and the end is exclusive, so
the spans of neighbouring tokens meet.
-/

namespace AlgebraicTerms

structure Span where
  start : Nat
  stop : Nat
  deriving DecidableEq

namespace Span

/-- The place between two characters. -/
def point (offset : Nat) : Span := ⟨offset, offset⟩

/-- From the start of `a` to the end of `b`. -/
def through (a b : Span) : Span := ⟨a.start, b.stop⟩

/-- The last byte, which for a parenthesized group is its closing parenthesis. -/
def lastByte (s : Span) : Span := ⟨s.stop - 1, s.stop⟩

end Span

/-- The number of bytes of a text in UTF-8. -/
def byteLength : List Char → Nat
  | [] => 0
  | c :: cs => c.utf8Size + byteLength cs

theorem byteLength_append (s t : List Char) : byteLength (s ++ t) = byteLength s + byteLength t := by
  induction s with
  | nil => exact (Nat.zero_add _).symm
  | cons c s ih => rw [List.cons_append, byteLength, ih, byteLength, Nat.add_assoc]

/-- What is left of a text after its first `n` bytes.  A character that `n` cuts through is kept. -/
def dropBytes : Nat → List Char → List Char
  | _, [] => []
  | n, c :: cs => if n < c.utf8Size then c :: cs else dropBytes (n - c.utf8Size) cs

/-- The first `n` bytes of a text, less a last character that `n` cuts through. -/
def takeBytes : Nat → List Char → List Char
  | _, [] => []
  | n, c :: cs => if n < c.utf8Size then [] else c :: takeBytes (n - c.utf8Size) cs

/-- The part of a text that a span covers. -/
def Span.slice (s : Span) (text : List Char) : List Char :=
  takeBytes (s.stop - s.start) (dropBytes s.start text)

end AlgebraicTerms
