import AlgebraicTerms.Chain
import AlgebraicTerms.Constant
import AlgebraicTerms.Decimal.Binary
import AlgebraicTerms.Decimal.Layout
import AlgebraicTerms.Decimal.Reading
import AlgebraicTerms.Decimal.Shortest
import AlgebraicTerms.DomainError
import AlgebraicTerms.Evaluation
import AlgebraicTerms.Expression
import AlgebraicTerms.Formula
import AlgebraicTerms.Formula.Fault
import AlgebraicTerms.Formula.Reading
import AlgebraicTerms.Keyword
import AlgebraicTerms.Operator
import AlgebraicTerms.Scalar
import AlgebraicTerms.Scalar.Double
import AlgebraicTerms.Search
import AlgebraicTerms.Search.Binomial
import AlgebraicTerms.Search.Candidates
import AlgebraicTerms.Search.Power
import AlgebraicTerms.Search.Product
import AlgebraicTerms.Search.Remainder
import AlgebraicTerms.Search.Sum
import AlgebraicTerms.Simplify
import AlgebraicTerms.Span
import AlgebraicTerms.Term
import AlgebraicTerms.Term.Choice
import AlgebraicTerms.Term.Expansion
import AlgebraicTerms.Term.Factoring
import AlgebraicTerms.Term.Forms
import AlgebraicTerms.Term.Identities
import AlgebraicTerms.Term.LikeTerms
import AlgebraicTerms.Term.OfFormula
import AlgebraicTerms.Term.Operands
import AlgebraicTerms.Term.Order
import AlgebraicTerms.Term.Traversal
import AlgebraicTerms.Text.Blank
import AlgebraicTerms.Text.Combining
import AlgebraicTerms.Text.Quoted
import AlgebraicTerms.Text.Record
import AlgebraicTerms.Text.Unprintable
import AlgebraicTerms.Token
import AlgebraicTerms.Token.Tree
import AlgebraicTerms.Vocabulary
import AlgebraicTerms.Proofs.Formula.Grammar
import AlgebraicTerms.Proofs.Formula.Levels
import AlgebraicTerms.Proofs.Formula.Acceptance
import AlgebraicTerms.Proofs.Formula.Unambiguity
import AlgebraicTerms.Proofs.Token.Written
import AlgebraicTerms.Proofs.Scalar.Legible
import AlgebraicTerms.Proofs.Term.Spelling
import AlgebraicTerms.Proofs.Term.Meaning
import AlgebraicTerms.Proofs.Term.Parsing
import AlgebraicTerms.Proofs.Scalar.Rational
import AlgebraicTerms.Proofs.Term.Equality
import AlgebraicTerms.Proofs.Term.Reread
import AlgebraicTerms.Proofs.Term.Display
import AlgebraicTerms.Proofs.Scalar.Exact
import AlgebraicTerms.Proofs.Term.Value
import AlgebraicTerms.Proofs.Term.Operands
import AlgebraicTerms.Proofs.Term.Products
import AlgebraicTerms.Proofs.Term.Sorted
import AlgebraicTerms.Proofs.Term.Arrangeable
import AlgebraicTerms.Proofs.Term.Replacement
import AlgebraicTerms.Proofs.Term.FormLaws
import AlgebraicTerms.Proofs.Term.Total
import AlgebraicTerms.Proofs.Term.Forms
import AlgebraicTerms.Proofs.Term.LikeTerms
import AlgebraicTerms.Proofs.Search.Run
import AlgebraicTerms.Proofs.Search.Sequential
import AlgebraicTerms.Proofs.Search.State
import AlgebraicTerms.Proofs.Search.Combinations
import AlgebraicTerms.Proofs.Search.Sound
import AlgebraicTerms.Proofs.Search.Product
import AlgebraicTerms.Proofs.Search.Power
import AlgebraicTerms.Proofs.Search.Binomial
import AlgebraicTerms.Proofs.Search.Sum
import AlgebraicTerms.Proofs.Search.Candidates
import AlgebraicTerms.Proofs.Term.Generic
import AlgebraicTerms.Proofs.Simplify
import AlgebraicTerms.Proofs.Scalar.Ordered
import AlgebraicTerms.Proofs.Term.Order
import AlgebraicTerms.Proofs.Term.Ranking
import AlgebraicTerms.Proofs.Term.Rearranged
import AlgebraicTerms.Proofs.Term.Joined
import AlgebraicTerms.Proofs.Term.Regrouping
import AlgebraicTerms.Proofs.Term.Resorting
import AlgebraicTerms.Proofs.Search.Fruitful
import AlgebraicTerms.Proofs.Search.Budget
import AlgebraicTerms.Proofs.Search.Memory
import AlgebraicTerms.Proofs.Commutativity
import AlgebraicTerms.Proofs.Scalar.Worded
import AlgebraicTerms.Proofs.Search.Settling
import AlgebraicTerms.Proofs.Term.Ground
import AlgebraicTerms.Proofs.Term.Size
import AlgebraicTerms.Proofs.Term.StandIn
import AlgebraicTerms.Proofs.Term.Merging
import AlgebraicTerms.Proofs.Search.Folding
import AlgebraicTerms.Proofs.ConstantFolding
import AlgebraicTerms.Proofs.LinearForms
import AlgebraicTerms.Proofs.Scalar.Unital
import AlgebraicTerms.Proofs.Term.Multiples
import AlgebraicTerms.Proofs.Term.LinearForm
import AlgebraicTerms.Proofs.Search.Delivery
import AlgebraicTerms.Proofs.Search.Multiples
import AlgebraicTerms.Proofs.Search.Rows
import AlgebraicTerms.Proofs.LinearSums
import AlgebraicTerms.Proofs.Idempotence
import AlgebraicTerms.Proofs.Scalar.Partial
import AlgebraicTerms.Proofs.Scalar.PartialRational
import AlgebraicTerms.Proofs.Search.Quiet
import AlgebraicTerms.Proofs.Search.Strict
import AlgebraicTerms.Proofs.DomainErrors
import AlgebraicTerms.Proofs.Search.Limits
import AlgebraicTerms.Proofs.Token.Pieces
import AlgebraicTerms.Proofs.Token.Grouping
import AlgebraicTerms.Proofs.Formula.Nesting
import AlgebraicTerms.Proofs.Formula.Enclosures
import AlgebraicTerms.Proofs.Token.Places
import AlgebraicTerms.Proofs.Formula.Spans
import AlgebraicTerms.Proofs.Token.Balance
import AlgebraicTerms.Proofs.Formula.Faults
import AlgebraicTerms.Proofs.Formula.Printing
import AlgebraicTerms.Proofs.Term.Evaluation
import AlgebraicTerms.Proofs.Term.Division
import AlgebraicTerms.Proofs.Term.Scaling
import AlgebraicTerms.Proofs.Term.Conversions
import AlgebraicTerms.Proofs.Search.Groups
import AlgebraicTerms.Proofs.Search.SameBase
import AlgebraicTerms.Proofs.Term.Integral
import AlgebraicTerms.Proofs.Search.IntegerPowers
import AlgebraicTerms.Proofs.Term.Names
import AlgebraicTerms.Proofs.Term.Definite
import AlgebraicTerms.Proofs.Term.Distribution
import AlgebraicTerms.Proofs.Search.CompletedSquares
import AlgebraicTerms.Proofs.Token.Longest
import AlgebraicTerms.Proofs.Token.Lossless
import AlgebraicTerms.Proofs.Term.Choice
import AlgebraicTerms.Proofs.Scalar.Rounded
import AlgebraicTerms.Proofs.Search.Remainder
import AlgebraicTerms.Proofs.Formula.Blanks
import AlgebraicTerms.Proofs.Term.Walk
import AlgebraicTerms.Proofs.Term.EquivalentForms
import AlgebraicTerms.Proofs.Scalar.Euclidean
import AlgebraicTerms.Proofs.Term.SharedFactors
import AlgebraicTerms.Proofs.Term.TrivialPowers
