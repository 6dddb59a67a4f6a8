import AlgebraicTerms.Formula
import AlgebraicTerms.Formula.Fault
import AlgebraicTerms.Token.Tree

/-!
# Reading formulas

A level of the token tree, the whole source or the inside of a group, is read in two steps.  First
it is taken apart into a possible leading minus and operands with operators between them, each group
on the way being read as a level of its own.  Then the operators are applied, tightest first: powers
nest to the right, products and sums to the left, and the minus covers the whole first term.

Nesting is limited.  The limit counts the groups around an operand and, inside a level, the operators
that a reader has to hold back before it reaches the operand.
-/

namespace AlgebraicTerms

namespace Formula

/-- The deepest nesting that is read. -/
def mostNesting : Nat := 64

/-- The place of an operand among the operators before it in its level. -/
structure Place where
  /-- The nesting of the level. -/
  level : Nat
  /-- Whether an operator of a sum came before. -/
  afterSum : Bool
  /-- Whether an operator of a product came before in the same term. -/
  afterProduct : Bool
  /-- The number of powers that the operand is a chained exponent of. -/
  powers : Nat

namespace Place

def first (level : Nat) : Place := ⟨level, false, false, 0⟩

/-- The place of the operand after an operator. -/
def after (p : Place) (op : Operator) : Place :=
  if op.isSum then { p with afterSum := true, afterProduct := false, powers := 0 }
  else if op.isProduct then { p with afterProduct := true, powers := 0 }
  else { p with powers := p.powers + 1 }

/-- How deep an operand is nested: a product waits for the sum before it, a power for the sum and the
product before it, and a chained power for the powers before it. -/
def nesting (p : Place) : Nat :=
  if p.powers = 0 then
    if p.afterProduct then p.level + p.afterSum.toNat else p.level
  else p.level + p.afterSum.toNat + p.afterProduct.toNat + (p.powers - 1)

end Place

/-- A level taken apart: a leading minus, an operand, and operators with an operand each. -/
structure Level (α : Type) where
  minus : Option Span
  first : Formula α
  rest : List (Operator × Span × Formula α)

variable {α : Type}

/-- Applies the powers of a level. -/
def joinPowers (f : Formula α) :
    List (Operator × Span × Formula α) → Formula α × List (Operator × Span × Formula α)
  | [] => (f, [])
  | (op, s, g) :: rest =>
    let (g, rest) := joinPowers g rest
    if op = .pow then (.binary op s f g, rest) else (f, (op, s, g) :: rest)

/-- Applies the products of a level without powers. -/
def joinProducts (f : Formula α) :
    List (Operator × Span × Formula α) → Formula α × List (Operator × Span × Formula α)
  | [] => (f, [])
  | (op, s, g) :: rest =>
    if op.isProduct then joinProducts (.binary op s f g) rest
    else
      let (g, rest) := joinProducts g rest
      (f, (op, s, g) :: rest)

/-- Applies the operators of a level without powers and products. -/
def joinSums (f : Formula α) (rest : List (Operator × Span × Formula α)) : Formula α :=
  rest.foldl (fun f (op, s, g) => .binary op s f g) f

/-- The formula of a level. -/
def Level.join (level : Level α) : Formula α :=
  let (f, rest) := joinPowers level.first level.rest
  let (f, rest) := joinProducts f rest
  joinSums (level.minus.elim f fun s => .minus s f) rest

/-- The error for an operand that is nested too deeply. -/
def tooDeep (span : Span) : ParseError := ⟨span, .nestedTooDeeply mostNesting⟩

/-- The error for a token where it cannot be used. -/
def unexpected (source : List Char) (t : TokenTree) : ParseError :=
  ⟨t.span, match t with
    | .char _ '(' => .unclosedParenthesis true
    | .char _ ')' => .unclosedParenthesis false
    | .char span c =>
      if (Operator.ofChar? c).isSome then .missingOperand c
      else .unexpectedToken (String.ofList (span.slice source))
    | t => .unexpectedToken (String.ofList (t.span.slice source))⟩

variable [Scalar α]

mutual

/-- Reads an operand, and all that follows it in its level.  At the start of a level a minus may come
before it. -/
def readOperand (source : List Char) (stop : Span) (place : Place) (atStart : Bool) :
    List TokenTree → Except ParseError (Level α)
  | [] => .error ⟨stop, .unexpectedEnd⟩
  | .number span lexeme :: rest =>
    readOperators source stop place (.number span (Scalar.literal lexeme)) rest
  | .var span name index :: rest => readOperators source stop place (.var span name index) rest
  | .const span name :: rest => readOperators source stop place (.const span name) rest
  | [.keyword span name] => .error ⟨span, .missingArgument name⟩
  | .keyword span name :: t :: rest =>
    if t.isGroup then do
      let argument ← readGroup source place t
      readOperators source stop place (.call name span t.span argument) rest
    else .error ⟨span, .missingArgument name⟩
  | .group span items :: rest => do
    let inner ← readGroup source place (.group span items)
    readOperators source stop place (.paren span inner) rest
  | .char span c :: rest =>
    if atStart && c == '-' then do
      let level ← readOperand source stop place false rest
      .ok { level with minus := some span }
    else .error (unexpected source (.char span c))

/-- Reads what follows an operand in its level. -/
def readOperators (source : List Char) (stop : Span) (place : Place) (operand : Formula α) :
    List TokenTree → Except ParseError (Level α)
  | [] => .ok ⟨none, operand, []⟩
  | t :: rest =>
    match t.operator? with
    | some op =>
      let place := place.after op
      if place.nesting > mostNesting then .error (tooDeep t.span)
      else do
        let level ← readOperand source stop place false rest
        .ok ⟨none, operand, (op, t.span, level.first) :: level.rest⟩
    | none => .error (unexpected source t)

/-- Reads the inside of a group. -/
def readGroup (source : List Char) (place : Place) : TokenTree → Except ParseError (Formula α)
  | .group span items =>
    if items.isEmpty then .error ⟨span, .emptyParenthesis⟩
    else
      let inner := Place.first (place.nesting + 1)
      if inner.nesting > mostNesting then .error (tooDeep span)
      else Level.join <$> readOperand source span.lastByte inner true items
  | t => .error (unexpected source t)

end

/-- The span of the first opening parenthesis that is nested too deeply, where a closing one without
a partner counts for nothing. -/
def deepParenthesis? (offset nesting : Nat) : List Char → Option Span
  | [] => none
  | c :: cs =>
    let next := offset + c.utf8Size
    if c = '(' then
      if nesting + 1 > mostNesting then some ⟨offset, next⟩
      else deepParenthesis? next (nesting + 1) cs
    else if c = ')' then deepParenthesis? next (nesting - 1) cs
    else deepParenthesis? next nesting cs

/-- Reads a source text.  Parentheses nested too deeply are found before any other fault. -/
def parse (vocabulary : Vocabulary) (text : String) : Except ParseError (Formula α) :=
  let source := text.toList
  let stop := Span.point (byteLength source)
  match deepParenthesis? 0 0 source with
  | some span => .error (tooDeep span)
  | none =>
    match TokenTree.ofSource vocabulary source with
    | [] => .ok (.empty stop)
    | items => Level.join <$> readOperand source stop (Place.first 0) true items

end Formula

end AlgebraicTerms
