import AlgebraicTerms.Search.Candidates

/-!
# Searches made of steps

The rules do not look at the state of the search.  They ask the finder for candidates, fail with a
domain error, write to the log, and do one after the other.  So a property that these steps have and
that sequencing keeps is a property of every rule (`Sequential.candidatesByRule`), for which none of
the rules need be known.

A property may relate searches that call different finders: it is one of families of searches, whose
members differ only in the finder they call.
-/

namespace AlgebraicTerms

namespace Search

variable {α ι : Type}

/-- Whether a property of families of searches holds of the steps that do not call the finder, and of
a sequence of searches if it holds of each. -/
structure Sequential (P : (β : Type) → (ι → Search α β) → Prop) : Prop where
  pure : ∀ {β : Type} (b : β), P β fun _ => Pure.pure b
  bind : ∀ {β γ : Type} {m : ι → Search α β} {f : ι → β → Search α γ},
    P β m → (∀ b, P γ fun i => f i b) → P γ fun i => m i >>= f i
  fail : ∀ {β : Type} (e : DomainError α), P β fun _ => throw (.domain e)
  note : ∀ e, P Unit fun _ => Search.note e

namespace Sequential

variable {P : (β : Type) → (ι → Search α β) → Prop} {β γ : Type}

theorem ite {c : Prop} [Decidable c] {m m' : ι → Search α β} (h : P β m) (h' : P β m') :
    P β fun i => if c then m i else m' i := by
  by_cases hc : c
  · simp only [if_pos hc]
    exact h
  · simp only [if_neg hc]
    exact h'

variable (hP : Sequential P)

include hP

theorem ofExcept (r : Except (DomainError α) β) : P β fun _ => Search.ofExcept r := by
  cases r with
  | ok b => exact hP.pure b
  | error e => exact hP.fail e

theorem mapM {f : ι → γ → Search α β} (h : ∀ x, P β fun i => f i x) (xs : List γ) :
    P (List β) fun i => xs.mapM (f i) := by
  induction xs with
  | nil =>
      simp only [List.mapM_nil]
      exact hP.pure []
  | cons x xs ih =>
      simp only [List.mapM_cons]
      apply hP.bind (h x)
      intro y
      apply hP.bind ih
      intro ys
      exact hP.pure (y :: ys)

theorem gather {f : ι → γ → Search α (List β)} (h : ∀ x, P (List β) fun i => f i x)
    (xs : List γ) : P (List β) fun i => Search.gather (f i) xs :=
  hP.bind (hP.mapM h xs) fun yss => hP.pure yss.flatten

variable [Scalar α]

theorem call (k : Keyword) (argument : Term α) :
    P (Term α) fun _ => Search.call k argument := by
  simp only [Search.call]
  cases argument.number? with
  | none => exact hP.pure _
  | some n =>
      dsimp only
      cases k.outcome n with
      | value v => exact hP.pure _
      | refused e => exact hP.bind (hP.note _) fun _ => hP.fail e
      | notFinite v => exact hP.bind (hP.note _) fun _ => hP.fail _

variable {find : ι → Finder α} (hfind : ∀ t, P (List (Term α)) fun i => find i t)

include hfind

omit [Scalar α] in
theorem first (t : Term α) : P (Term α) fun i => Search.first (find i) t :=
  hP.bind (hfind t) fun found => hP.pure (found.head?.getD t)

/-! ## Products and powers -/

theorem mergeBases (a b base m base' n : Term α) :
    P (PairOutcome α) fun i => Search.mergeBases (find i) a b base m base' n := by
  simp only [Search.mergeBases]
  cases Term.identityProduct? a b with
  | some t => exact hP.pure _
  | none =>
      apply ite (hP.pure _)
      apply ite
      · exact hP.bind (hP.first hfind _) fun product => hP.pure _
      · exact ite (hP.pure _) (ite (hP.pure _) (hP.pure _))

theorem mergePair (sameBase : Bool) (a b : Term α) :
    P (PairOutcome α) fun i => Search.mergePair (find i) sameBase a b := by
  simp only [Search.mergePair]
  cases a.power? with
  | none => exact hP.pure _
  | some p =>
      cases b.power? with
      | none => exact hP.pure _
      | some q =>
          apply ite
          · exact hP.bind (hP.first hfind _) fun exponent => hP.pure _
          · exact ite (hP.pure _) (hP.mergeBases hfind _ _ _ _ _ _)

theorem absorb (sameBase : Bool) (a : Term α) (ts : List (Term α)) :
    P (Option (Term α) × List (Term α)) fun i => Search.absorb (find i) sameBase a ts := by
  induction ts generalizing a with
  | nil => exact hP.pure _
  | cons b ts ih =>
      simp only [Search.absorb]
      apply hP.bind (hP.mergePair hfind sameBase a b)
      intro outcome
      cases outcome with
      | apart => exact hP.bind (ih a) fun left => hP.pure _
      | cancelled => exact hP.pure _
      | merged t => exact ite (ih t) (hP.pure _)

theorem mergePowers (sameBase : Bool) (ts : List (Term α)) :
    P (List (Term α)) fun i => Search.mergePowers (find i) sameBase ts := by
  simp only [Search.mergePowers]
  generalize ts.length = rounds
  induction rounds generalizing ts with
  | zero => exact hP.pure ts
  | succ rounds ih =>
      cases ts with
      | nil => exact hP.pure []
      | cons t ts =>
          simp only [Search.mergePowersWithin]
          apply ite
          · apply hP.bind (hP.absorb hfind sameBase t ts)
            intro left
            exact hP.bind (ih left.2) fun merged => hP.pure _
          · exact hP.bind (ih ts) fun merged => hP.pure _

theorem scale (n : α) (t : Term α) : P (List (Term α)) fun i => Search.scale (find i) n t := by
  simp only [Search.scale]
  apply ite (hfind t)
  cases t.number? with
  | some m => exact hP.pure _
  | none =>
      apply hP.bind (hfind t)
      intro found
      cases found.findSome? Term.number? with
      | some m => exact hP.pure _
      | none => exact hP.pure _

theorem mergeFactors (ts : List (Term α)) :
    P (Merged α) fun i => Search.mergeFactors (find i) ts := by
  simp only [Search.mergeFactors]
  apply ite (hP.pure _)
  apply ite (hP.pure _)
  apply hP.bind (hP.mergePowers hfind true _)
  intro once
  apply hP.bind (hP.mergePowers hfind false once)
  intro rest
  cases rest with
  | nil => exact hP.pure _
  | cons only more =>
      cases more with
      | nil => exact hP.bind (hP.scale hfind _ only) fun settled => hP.pure _
      | cons second more => exact hP.pure _

theorem combineFactors (n : α) (combos : List (List (Term α))) :
    P (Combined α) fun i => Search.combineFactors (find i) n combos := by
  induction combos with
  | nil => exact hP.pure _
  | cons combo combos ih =>
      simp only [Search.combineFactors]
      apply hP.bind (hP.mergeFactors hfind _)
      intro merged
      cases merged.settled with
      | some settled => exact hP.pure _
      | none =>
          apply hP.bind ih
          intro combined
          cases combined with
          | settled settled => exact hP.pure _
          | collected found => exact hP.pure _

theorem product (t : Term α) : P (List (Term α)) fun i => Search.product (find i) t := by
  simp only [Search.product]
  apply hP.bind (hP.mapM (fun f : Term α => hP.ofExcept f.reciprocalAsPower) _)
  intro factors
  apply hP.bind (hP.mergeFactors hfind factors)
  intro merged
  cases merged.settled with
  | some settled => exact hP.pure _
  | none =>
      apply hP.bind (hP.mapM hfind merged.rest)
      intro found
      apply hP.bind (hP.combineFactors hfind _ _)
      intro combined
      cases combined with
      | settled settled => exact hP.pure _
      | collected products => exact hP.pure _

theorem powerOf (base exponent : Term α) :
    P (List (Term α)) fun i => Search.powerOf (find i) base exponent := by
  simp only [Search.powerOf]
  cases base.power? with
  | some p =>
      simp only [nestedPower]
      apply hP.bind (hfind _)
      intro exponents
      exact hP.bind (hP.gather (fun e => hfind _) exponents) fun powers => hP.pure _
  | none =>
      apply ite (hP.pure _)
      cases base.number? with
      | none => exact hP.pure _
      | some b =>
          cases exponent.number? with
          | none => exact hP.pure _
          | some e => exact ite (hP.pure _) (hP.fail _)

theorem power (base exponent : Term α) :
    P (List (Term α)) fun i => Search.power (find i) base exponent := by
  apply hP.bind (hfind base)
  intro bases
  apply hP.bind (hfind exponent)
  intro exponents
  exact hP.gather (fun e => hP.gather (fun b => hP.powerOf hfind b e) bases) exponents

theorem remainder (whole l r : Term α) :
    P (List (Term α)) fun i => Search.remainder (find i) whole l r := by
  apply hP.bind (hP.first hfind l)
  intro l'
  apply hP.bind (hP.first hfind r)
  intro r'
  exact hP.bind (hP.ofExcept _) fun t => hP.pure [t]

/-! ## Sums -/

theorem offset (n : α) (t : Term α) : P (List (Term α)) fun i => Search.offset (find i) n t := by
  simp only [Search.offset]
  apply ite (hfind t)
  cases t.number? with
  | some m => exact hP.pure _
  | none =>
      apply hP.bind (hfind t)
      intro found
      cases found.findSome? Term.number? with
      | some m => exact hP.pure _
      | none => exact hP.pure _

theorem mergeSummands (ts : List (Term α)) :
    P (Merged α) fun i => Search.mergeSummands (find i) ts := by
  simp only [Search.mergeSummands]
  cases Term.others ts with
  | nil => exact hP.pure _
  | cons other others =>
      dsimp only
      cases Term.collectOrZero (other :: others) with
      | nil => exact hP.pure _
      | cons only more =>
          cases more with
          | nil => exact hP.bind (hP.offset hfind _ only) fun settled => hP.pure _
          | cons second more => exact hP.pure _

theorem factored (f : Term.Factoring α) :
    P (List (Term α)) fun i => Search.factored (find i) f := by
  apply hP.gather
  intro signed
  apply hP.bind (hfind _)
  intro found
  apply ite (hP.pure _)
  exact hP.gather (fun t => hfind _) found

theorem doubleProduct (a b : Square α) : P (Term α) fun i => Search.doubleProduct (find i) a b := by
  apply hP.bind (hP.mergeFactors hfind _)
  intro merged
  cases merged.settled with
  | some settled => exact hP.pure _
  | none => exact hP.pure _

variable {simplify : ι → Term α → Search α (Term α)} (hsimplify : ∀ t, P (Term α) fun i => simplify i t)

include hsimplify

omit hfind in
theorem completeSquare (summands : List (Term α)) (a b : Square α) (mixed : Term α)
    (summand : List (Term α) × Nat) :
    P (List (Term α)) fun i => Search.completeSquare (simplify i) summands a b mixed summand := by
  apply ite (hP.pure _)
  apply hP.bind (hsimplify _)
  intro left
  exact ite (hP.pure _) (hP.pure _)

theorem binomials (summands : List (Term α)) (products : List (List (Term α))) :
    P (List (Term α)) fun i => Search.binomials (find i) (simplify i) summands products := by
  apply hP.gather
  intro pair
  apply hP.bind (hP.doubleProduct hfind pair.1 pair.2)
  intro mixed
  exact hP.gather (fun summand => hP.completeSquare hsimplify summands _ _ mixed summand) _

theorem combineSummands (rule : Term.FactoringRule α) (n : α) (found : List (Term α))
    (combos : List (List (Term α))) : P (Combined α) fun i =>
      Search.combineSummands rule (find i) (simplify i) n found combos := by
  induction combos generalizing found with
  | nil => exact hP.pure _
  | cons combo combos ih =>
      simp only [Search.combineSummands]
      apply hP.bind (hP.mergeSummands hfind _)
      intro merged
      cases merged.settled with
      | some settled => exact hP.pure _
      | none =>
          have rest (byFactors : List (Term α)) (summands : List (Term α)) :=
            hP.bind (hP.binomials hfind hsimplify summands (summands.map Term.factors))
              fun bySquares => ih (found ++ byFactors ++ bySquares)
          apply ite
          · exact hP.bind (hP.gather (hP.factored hfind) _) fun byFactors => rest byFactors _
          · exact hP.bind (hP.pure []) fun byFactors => rest byFactors _

theorem sum (rule : Term.FactoringRule α) (t : Term α) :
    P (List (Term α)) fun i => Search.sum rule (find i) (simplify i) t := by
  simp only [Search.sum]
  apply hP.bind (hP.mergeSummands hfind _)
  intro merged
  cases merged.settled with
  | some settled => exact hP.pure _
  | none =>
      apply hP.bind (hP.mapM hfind merged.rest)
      intro found
      apply hP.bind (hP.combineSummands hfind hsimplify rule _ _ _)
      intro combined
      cases combined with
      | settled settled => exact hP.pure _
      | collected sums => exact hP.pure _

/-! ## All rules -/

variable (find)

omit hsimplify in
/-- The inverses of the candidates of an operand. -/
theorem inverses (inverse : Inverse) (operand : Term α) : P (List (Term α)) fun i =>
    find i operand >>= List.mapM fun c => Search.ofExcept (c.inverted inverse) :=
  hP.bind (hfind operand) fun found => hP.mapM (fun c => hP.ofExcept (c.inverted inverse)) found

omit hsimplify in
/-- What holds of every call of the finder holds of the rule of a term's operation. -/
theorem candidatesByRule (hsimplified : ∀ t, P (Term α) fun i => simplified (find i) t)
    (rule : Term.FactoringRule α) (t : Term α) :
    P (List (Term α)) fun i => Search.candidatesByRule rule (find i) t := by
  cases t with
  | bin op l r =>
      cases op with
      | add => exact hP.sum hfind hsimplified rule _
      | sub => exact hP.sum hfind hsimplified rule _
      | mul => exact hP.product hfind _
      | div => exact hP.product hfind _
      | mod => exact hP.remainder hfind _ l r
      | pow => exact hP.power hfind l r
  | call k argument => exact hP.bind (hfind argument) fun found => hP.mapM (hP.call k) found
  | _ => exact hP.pure _

end Sequential

end Search

end AlgebraicTerms
