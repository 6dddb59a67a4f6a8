import AlgebraicTerms.Span
import AlgebraicTerms.Text.Quoted
import AlgebraicTerms.Text.Record

/-!
# Faults of a source text

Why a text is no formula, where, and what its writer is told.
-/

namespace AlgebraicTerms

inductive ParseFault where
  /-- The source or a group ended where an operand was expected. -/
  | unexpectedEnd
  | missingOperand (op : Char)
  | unexpectedToken (lexeme : String)
  | unclosedParenthesis (opening : Bool)
  | emptyParenthesis
  | missingArgument (keyword : String)
  | nestedTooDeeply (most : Nat)

structure ParseError where
  span : Span
  fault : ParseFault

namespace ParseFault

def name : ParseFault → String
  | unexpectedEnd => "UnexpectedEof"
  | missingOperand _ => "MissingOperand"
  | unexpectedToken _ => "UnexpectedToken"
  | unclosedParenthesis _ => "UnclosedParenthesis"
  | emptyParenthesis => "EmptyParenthesis"
  | missingArgument _ => "MissingKeywordArgument"
  | nestedTooDeeply _ => "NestingTooDeep"

def message : ParseFault → String
  | unexpectedEnd => "unexpected end of expression"
  | missingOperand op => "missing operand before `" ++ op.toString ++ "`"
  | unexpectedToken lexeme => "unexpected token `" ++ lexeme ++ "`"
  | unclosedParenthesis _ => "unclosed parenthesis"
  | emptyParenthesis => "missing expression inside parenthesis"
  | missingArgument keyword => "missing argument for `" ++ keyword ++ "`"
  | nestedTooDeeply _ => "expression is nested too deeply"

/-- What is written at the place of the fault. -/
def label : ParseFault → String
  | unexpectedEnd => "you might need to add another expression here"
  | missingOperand _ => "this operator needs an operand on its left"
  | unexpectedToken _ => "I could not understand this"
  | unclosedParenthesis _ => "this parenthesis is not closed"
  | emptyParenthesis => "add an expression here"
  | missingArgument _ => "this keyword must be followed by a parenthesized argument"
  | nestedTooDeeply _ => "this is nested too deeply"

def help? : ParseFault → Option String
  | unexpectedEnd | emptyParenthesis => none
  | missingOperand _ => some "add an expression before the operator"
  | unexpectedToken _ =>
    some ("expressions are made of numbers, names, keyword calls, parentheses and the operators " ++
      "`+ - * / % ^`")
  | unclosedParenthesis true => some "add a closing parenthesis `)` somewhere after this"
  | unclosedParenthesis false => some "add an opening parenthesis `(` somewhere before this"
  | missingArgument keyword => some ("write it as `" ++ keyword ++ "(expression)`")
  | nestedTooDeeply most =>
    some ("at most " ++ toString most ++ " levels of parentheses or chained powers are allowed")

/-- The fault as a record. -/
def record (f : ParseFault) : String :=
  Text.record f.name <| match f with
    | unexpectedEnd | emptyParenthesis => []
    | missingOperand op => [("op", Text.quotedChar op)]
    | unexpectedToken lexeme => [("lexeme", Text.quotedString lexeme)]
    | unclosedParenthesis opening => [("opening", toString opening)]
    | missingArgument keyword => [("keyword", Text.quotedString keyword)]
    | nestedTooDeeply most => [("max", toString most)]

end ParseFault

end AlgebraicTerms
