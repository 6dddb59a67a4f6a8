import AlgebraicTerms.Span
import AlgebraicTerms.Text.Blank

/-!
# Tokens

A source text is cut into tokens from left to right, each as long as possible: a run of blanks, a
number, a name, an operator, a parenthesis, or any other single character.  Every beginning of a
token is itself a token, so the longest one is found without looking back: a token ends where the
next character cannot extend it.  Names and digits are ASCII.
-/

namespace AlgebraicTerms

inductive TokenKind where
  | blank
  | add
  | sub
  | mul
  | div
  | mod
  | pow
  | openParen
  | closeParen
  | number
  | name
  | symbol
  deriving DecidableEq

structure Token where
  kind : TokenKind
  span : Span
  lexeme : List Char

namespace Token

/-- What has been read of a token, as far as it decides what may follow. -/
inductive Reading where
  | blanks
  | whole
  | fraction
  | letters
  | index
  | single (kind : TokenKind)

namespace Reading

def kind : Reading → TokenKind
  | blanks => .blank
  | whole | fraction => .number
  | letters | index => .name
  | single kind => kind

/-- The kind of a character that is a token of its own. -/
def singleKind : Char → TokenKind
  | '+' => .add
  | '-' => .sub
  | '*' => .mul
  | '/' => .div
  | '%' => .mod
  | '^' => .pow
  | '(' => .openParen
  | ')' => .closeParen
  | _ => .symbol

/-- The reading after the first character of a token. -/
def start (c : Char) : Reading :=
  if Text.isBlank c then blanks
  else if c.isDigit then whole
  else if c.isAlpha then letters
  else single (singleKind c)

/-- The reading after one more character, if that belongs to the same token. -/
def extend? : Reading → Char → Option Reading
  | blanks, c => if Text.isBlank c then some blanks else none
  | whole, c => if c.isDigit then some whole else if c = '.' then some fraction else none
  | fraction, c => if c.isDigit then some fraction else none
  | letters, c => if c.isAlpha then some letters else if c.isDigit then some index else none
  | index, c => if c.isDigit then some index else none
  | single _, _ => none

end Reading

/-- The kinds and lexemes of a text that goes on with the given characters, after a token of which
`seen` was read last character first. -/
def pieces (reading : Reading) (seen : List Char) : List Char → List (TokenKind × List Char)
  | [] => [(reading.kind, seen.reverse)]
  | c :: cs =>
    match reading.extend? c with
    | some next => pieces next (c :: seen) cs
    | none => (reading.kind, seen.reverse) :: pieces (.start c) [c] cs

/-- Lays lexemes side by side from an offset. -/
def place (offset : Nat) : List (TokenKind × List Char) → List Token
  | [] => []
  | (kind, lexeme) :: rest =>
    let stop := offset + byteLength lexeme
    ⟨kind, ⟨offset, stop⟩, lexeme⟩ :: place stop rest

/-- All tokens of a text, blanks included. -/
def scan : List Char → List Token
  | [] => []
  | c :: cs => place 0 (pieces (.start c) [c] cs)

end Token

end AlgebraicTerms
