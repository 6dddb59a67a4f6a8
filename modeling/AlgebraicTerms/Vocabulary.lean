import AlgebraicTerms.Constant
import AlgebraicTerms.Keyword

/-!
# Vocabularies

Which names a reader takes for keywords and which for constants.  All others are variables.  A name
in both classes is a keyword.
-/

namespace AlgebraicTerms

structure Vocabulary where
  isKeyword : String → Bool
  isConstant : String → Bool

namespace Vocabulary

/-- The names that can be evaluated. -/
def registry : Vocabulary where
  isKeyword name := (Keyword.ofName? name).isSome
  isConstant name := (Constant.ofName? name).isSome

/-- Every name is a variable. -/
def bare : Vocabulary where
  isKeyword _ := false
  isConstant _ := false

def ofLists (keywords constants : List String) : Vocabulary where
  isKeyword name := keywords.contains name
  isConstant name := constants.contains name

end Vocabulary

end AlgebraicTerms
