/-!
# Constants

Named numbers.  A constant has the value of a number but is written by its name.
-/

namespace AlgebraicTerms

inductive Constant where
  | pi
  | e
  | gold
  deriving DecidableEq

namespace Constant

def name : Constant → String
  | .pi => "pi"
  | .e => "e"
  | .gold => "gold"

def all : List Constant := [.pi, .e, .gold]

def ofName? (name : String) : Option Constant := all.find? (·.name == name)

theorem ofName?_name (c : Constant) : ofName? c.name = some c := by cases c <;> decide

end Constant

end AlgebraicTerms
