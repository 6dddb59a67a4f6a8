import AlgebraicTerms.Text.Combining
import AlgebraicTerms.Text.Unprintable

/-!
# Quoted text

Strings and characters between quotes, with an escape for everything that would not show as itself:
`\n`, `\t`, `\r`, `\0` and `\\` by name, the enclosing quote after a backslash, and controls,
unprintable and combining characters by their code point.
-/

namespace AlgebraicTerms.Text

def hexDigits (n : Nat) : List Char := Nat.toDigits 16 n

/-- The escape of a character by its code point, in lower-case digits without padding. -/
def codePointEscape (c : Char) : List Char :=
  ['\\', 'u', '\x7b'] ++ hexDigits c.toNat ++ ['\x7d']

/-- A character as it stands between two copies of `quote`. -/
def escape (quote c : Char) : List Char :=
  match c with
  | '\x00' => ['\\', '0']
  | '\t' => ['\\', 't']
  | '\n' => ['\\', 'n']
  | '\r' => ['\\', 'r']
  | '\\' => ['\\', '\\']
  | c =>
    if c = quote then ['\\', c]
    else if isUnprintable c || isCombining c then codePointEscape c
    else [c]

/-- A text between two copies of `quote`. -/
def between (quote : Char) (cs : List Char) : String :=
  String.ofList (quote :: cs.flatMap (escape quote) ++ [quote])

def quotedString (s : String) : String := between '"' s.toList

def quotedChar (c : Char) : String := between '\'' [c]

end AlgebraicTerms.Text
