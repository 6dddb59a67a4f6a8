import AlgebraicTerms.Operator
import AlgebraicTerms.Token
import AlgebraicTerms.Vocabulary

/-!
# Token trees

Tokens grouped by their parentheses, with the names told apart by a vocabulary and the blanks left
out.  Grouping never fails.  A parenthesis without a partner stays a single character, so no group
holds one.
-/

namespace AlgebraicTerms

inductive TokenTree where
  | number (span : Span) (lexeme : String)
  /-- A variable, with the digits after its letters as its index. -/
  | var (span : Span) (name : String) (index : Option String)
  | const (span : Span) (name : String)
  | keyword (span : Span) (name : String)
  /-- The trees between two parentheses.  The span covers the parentheses too. -/
  | group (span : Span) (items : List TokenTree)
  | char (span : Span) (c : Char)

namespace TokenTree

def span : TokenTree → Span
  | number span _ | var span _ _ | const span _ | keyword span _ | group span _ | char span _ => span

def isGroup : TokenTree → Bool
  | group .. => true
  | _ => false

/-- The operator that a single character stands for. -/
def operator? : TokenTree → Option Operator
  | char _ c => Operator.ofChar? c
  | _ => none

/-- The trees of a name.  Keywords and constants have no index, so digits after one are a number. -/
def ofName (vocabulary : Vocabulary) (t : Token) : List TokenTree :=
  let letters := t.lexeme.takeWhile (!·.isDigit)
  let digits := t.lexeme.dropWhile (!·.isDigit)
  let name := String.ofList letters
  let middle := t.span.start + byteLength letters
  let number : List TokenTree :=
    if digits.isEmpty then [] else [.number ⟨middle, t.span.stop⟩ (String.ofList digits)]
  let nameSpan : Span := ⟨t.span.start, middle⟩
  if vocabulary.isKeyword name then .keyword nameSpan name :: number
  else if vocabulary.isConstant name then .const nameSpan name :: number
  else [.var t.span name (if digits.isEmpty then none else some (String.ofList digits))]

/-- The trees of a token that is no parenthesis. -/
def ofToken (vocabulary : Vocabulary) (t : Token) : List TokenTree :=
  match t.kind with
  | .blank => []
  | .number => [.number t.span (String.ofList t.lexeme)]
  | .name => ofName vocabulary t
  | _ => t.lexeme.map (.char t.span)

/-- A group whose closing parenthesis is still to come, with its items last first. -/
structure OpenGroup where
  span : Span
  items : List TokenTree

/-- The trees read so far, last first: those at the top, and the open groups, innermost first. -/
structure Forest where
  top : List TokenTree
  groups : List OpenGroup

namespace Forest

/-- Adds trees after all others.  They are given last first. -/
def add (f : Forest) (trees : List TokenTree) : Forest :=
  match f.groups with
  | [] => { f with top := trees ++ f.top }
  | g :: outer => { f with groups := { g with items := trees ++ g.items } :: outer }

def openGroup (f : Forest) (span : Span) : Forest :=
  { f with groups := ⟨span, []⟩ :: f.groups }

def closeGroup (f : Forest) (span : Span) : Forest :=
  match f.groups with
  | [] => f.add [.char span ')']
  | g :: outer =>
    { f with groups := outer }.add [.group (g.span.through span) g.items.reverse]

def read (vocabulary : Vocabulary) (f : Forest) (t : Token) : Forest :=
  match t.kind with
  | .openParen => f.openGroup t.span
  | .closeParen => f.closeGroup t.span
  | _ => f.add (ofToken vocabulary t).reverse

/-- The trees of groups that were never closed, innermost first, as the lone parentheses that they
turned out to be, each followed by its items.  The result is last first. -/
def spilled : List OpenGroup → List TokenTree
  | [] => []
  | g :: outer => g.items ++ .char g.span '(' :: spilled outer

def close (f : Forest) : List TokenTree := (spilled f.groups ++ f.top).reverse

end Forest

/-- The token trees of a text. -/
def ofSource (vocabulary : Vocabulary) (source : List Char) : List TokenTree :=
  ((Token.scan source).foldl (Forest.read vocabulary) ⟨[], []⟩).close

end TokenTree

end AlgebraicTerms
