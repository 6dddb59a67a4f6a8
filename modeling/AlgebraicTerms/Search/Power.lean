import AlgebraicTerms.Search

/-!
# Powers

A power has a candidate for each combination of those of its base and exponent.  A power of a power
multiplies the exponents, a zero exponent gives one, and numbers are evaluated.
-/

namespace AlgebraicTerms.Search

variable {α : Type} [Scalar α]

/-- The candidates of a power of a power. -/
def nestedPower (find : Finder α) (base inner outer : Term α) : Search α (List (Term α)) := do
  let exponent := Term.bin .mul inner outer
  let powers ← gather (fun e => find (.bin .pow base e)) (← find exponent)
  return if powers.isEmpty then [.bin .pow base exponent] else powers

/-- The candidates of a power whose base and exponent are as simple as they get. -/
def powerOf (find : Finder α) (base exponent : Term α) : Search α (List (Term α)) :=
  match base.power? with
  | some (innerBase, inner) => nestedPower find innerBase inner exponent
  | none =>
    if exponent.reads "0" then return [.num Scalar.one]
    else
      match base.number?, exponent.number? with
      | some b, some e =>
        let value := Scalar.power b e
        if Scalar.isFinite value then return [.num value]
        else throw (.domain (.powerUndefined b e))
      | _, _ => return [.bin .pow base exponent]

/-- The candidates of a power.  The base varies fastest. -/
def power (find : Finder α) (base exponent : Term α) : Search α (List (Term α)) := do
  let bases ← find base
  let exponents ← find exponent
  gather (fun e => gather (fun b => powerOf find b e) bases) exponents

end AlgebraicTerms.Search
