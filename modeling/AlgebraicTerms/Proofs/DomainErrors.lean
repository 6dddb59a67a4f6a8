import AlgebraicTerms.Proofs.ConstantFolding
import AlgebraicTerms.Proofs.Scalar.PartialRational
import AlgebraicTerms.Proofs.Search.Budget
import AlgebraicTerms.Proofs.Search.Quiet
import AlgebraicTerms.Proofs.Search.Strict
import AlgebraicTerms.Proofs.Term.Computed
import AlgebraicTerms.Scalar.Double

/-!
# Domain errors

A term without variables that has no value is simplified to an error, if numbers are computed with
exactly and every term that the search asks for is exposed (`simplify_error_of_undefined`).  Every list
that is remembered or returned then stands for the value of its term, and so there is none for a term
without a value.  A term that is not exposed may lose what has no value: `0*log(0)` becomes `0`
(`zero_hides_error`).  On doubles rounding can make such a `0`, and it can make a divisor zero in one
order of the summands that is not zero in another (`rounding_hides_error`).
-/

namespace AlgebraicTerms

open Term

variable {α : Type} [Scalar α] {K : Type} [Field K] [DecidableEq K] [PartialFunctions K]
  [Scalar.Partial α K]

/-- Exposed terms that are written alike have the same value, or none. -/
theorem Term.Exposed.value?_eq [Scalar.Legible α] {t u : Term α} (ht : t.Exposed) (hu : u.Exposed)
    (h : t.text = u.text) : t.value? = u.value? :=
  eval_eq_of_text_eq strictly_lawful ht.legible hu.legible ht.clear hu.clear h

namespace Search

/-- Whether every remembered list stands for the value of an exposed term. -/
def Reckoned (cache : Cache α) : Prop :=
  ∀ key found, cache.lookup key = some found →
    ∃ t : Term α, t.Exposed ∧ t.text = key ∧ Evaluated t.value? found

theorem Reckoned.empty : Reckoned ([] : Cache α) := nofun

variable {options : SearchOptions} {rule : FactoringRule α} {find : Finder α} {s u : SearchState α}
  {t : Term α} {found : List (Term α)}

theorem Reckoned.cons {cache : Cache α} (h : Reckoned cache) (ht : t.Exposed)
    (hfound : Evaluated t.value? found) : Reckoned ((t.text, found) :: cache) := by
  intro key found' known
  by_cases same : key = t.text
  · rw [same] at known ⊢
    cases List.lookup_cons_self.symm.trans known
    exact ⟨t, ht, rfl, hfound⟩
  · rw [List.lookup_cons, beq_eq_false_iff_ne.2 same] at known
    exact h key found' known

theorem pruned_evaluated {x : Option K} {all : List (Term α)} (h : Evaluated x all) :
    Evaluated x (pruned options all) := by
  refine h.mono (pruned_fits h.1).nonempty fun t ht => ?_
  rw [pruned] at ht
  cases hmost : options.mostCandidates with
  | none =>
      rw [hmost] at ht
      exact (distinct_sublist [] all).subset ht
  | some most =>
      rw [hmost] at ht
      exact (distinct_sublist [] all).subset (List.mem_of_mem_take ht)

variable [Scalar.Legible α] [Scalar.Worded α] [CharZero K]

/-- A call for an exposed term that meets no term at work evaluates it, if those nested in it do. -/
theorem candidatesVia_evaluates (hfind : ∀ A, Evaluates Reckoned A find) (ht : t.sorted.Exposed)
    (hs : Reckoned s.cache) (hrun : (candidatesVia options rule find t).run s = (.ok found, u))
    (quiet : Acyclic u.log) :
    Evaluated t.sorted.value? found ∧ u.active = s.active ∧ Reckoned u.cache := by
  have call := candidatesVia_call options rule find s t
  rw [hrun] at call
  cases call with
  | known known =>
      obtain ⟨v, hv, same, stands⟩ := hs _ _ known
      rw [hv.value?_eq ht same] at stands
      exact ⟨stands, rfl, hs⟩
  | busy => cases quiet _ List.mem_cons_self
  | @inverse i operand r v inverse new idle ran =>
      have ground : operand.IsGround := by
        have inside := ht.ground
        rw [inverse] at inside
        exact inside
      have evaluates : Ensures Reckoned (t.sorted.text :: s.active)
          (find operand >>= List.mapM fun c => ofExcept (c.inverted i))
          (Evaluated (inv i operand).value?) := by
        refine (hfind _ operand ground).bind fun cs hcs => ?_
        refine (Ensures.mapM_all fun c hc => .ofExcept fun w hw =>
          inverted_denotes (hcs.2 c hc) hw).mono fun ws hws => ⟨fun empty => hcs.1 ?_, hws.2⟩
        exact List.length_eq_zero_iff.1 (by rw [← hws.1, empty, List.length_nil])
      obtain ⟨stands, active, reckoned⟩ := evaluates (s.enter t.sorted.text) rfl hs _ v ran
      rw [← inverse] at stands
      refine ⟨stands, ?_, reckoned⟩
      show v.active.erase t.sorted.text = s.active
      rw [active, List.erase_cons_head]
  | @found all v w hinv new idle ran active cache log =>
      have evaluates := candidatesByRule_evaluates (hfind (t.sorted.text :: s.active)) rule ht hinv
      obtain ⟨stands, active', reckoned⟩ := evaluates (s.enter t.sorted.text) rfl hs all v ran
      have stands : Evaluated t.sorted.value? (pruned options all) := pruned_evaluated stands
      rw [← cache] at reckoned
      refine ⟨stands, ?_, reckoned.cons ht stands⟩
      show w.active.erase t.sorted.text = s.active
      rw [active, active', List.erase_cons_head]

variable {D : Term α → Prop} [DecidablePred D]

/-- A quiet search among exposed terms evaluates every ground term, or fails. -/
theorem candidatesQuietly_evaluates (exposed : ∀ u, D u → u.Exposed) (depth : ℕ) (A : List String) :
    Evaluates Reckoned A (candidatesQuietly D options rule depth) := by
  induction depth generalizing A with
  | zero => exact fun t _ => .throw _
  | succ depth ih =>
      intro t ground s active hs found u hrun
      have asked : (candidatesQuietly D options rule (depth + 1) t) = if D t.sorted then
          quietly (candidatesVia options rule (candidatesQuietly D options rule depth) t)
          else throw .tooDeep := rfl
      rw [asked] at hrun
      by_cases inside : D t.sorted
      · rw [if_pos inside] at hrun
        obtain ⟨hrun, quiet⟩ := run_of_quietly hrun
        obtain ⟨stands, kept, reckoned⟩ :=
          candidatesVia_evaluates ih (exposed t.sorted inside) hs hrun quiet
        rw [sorted_value? ground] at stands
        exact ⟨stands, kept.trans active, reckoned⟩
      · rw [if_neg inside] at hrun
        cases hrun

/-- A new search that finds candidates of a ground term finds numbers that stand for its value. -/
theorem candidates_evaluated (exposed : ∀ u, D u → u.Exposed) (ground : t.IsGround)
    (asks : AsksOnly D options rule t .start)
    (hrun : (candidates options rule t).run .start = (.ok found, u)) : Evaluated t.value? found := by
  have folds : Settles Folded [] (fun depth => candidatesWithin options rule depth t) AllNumbers :=
    candidatesWithin_folds ground nofun
  have quiet := folds.acyclic options.depth .start rfl .empty nofun
  change Acyclic ((candidates options rule t).run .start).2.log at quiet
  have among : (candidatesAmong D options rule options.depth t).run .start = (.ok found, u) :=
    asks.trans hrun
  have quietly : (candidatesQuietly D options rule options.depth t).run .start = (.ok found, u) := by
    rw [← among]
    apply candidatesQuietly_run
    rw [among, ← hrun]
    exact quiet
  exact (candidatesQuietly_evaluates exposed options.depth [] t ground .start rfl .empty found u
    quietly).1

end Search

namespace Term

variable [Scalar.Legible α] [Scalar.Worded α] [CharZero K] {D : Term α → Prop} [DecidablePred D]
  {t : Term α} {options : SearchOptions}

set_option maxRecDepth 100000 in
/-- On doubles the product of the numbers in `1e-200*1e-200*fac(-1)` is zero.  The divisor of
`1/(10000000000000000-1-1-10000000000000000)` is zero if its numbers are added from the left, but `-2`
in the order in which the search adds them. -/
theorem rounding_hides_error : ∃ t u r v : Term Float, t.IsGround ∧ t.Legible ∧ t.computed? = none ∧
    t.simplify {} = .ok r ∧ u.IsGround ∧ u.Legible ∧ u.computed? = none ∧ u.simplify {} = .ok v := by
  let tiny : Term Float := num 1e-200
  let one : Term Float := num 1
  let large : Term Float := num 10000000000000000
  let t := bin .mul (bin .mul tiny tiny) (call .fac (inv .neg one))
  let u := bin .div one (bin .sub (bin .sub (bin .sub large one) one) large)
  have product : t.simplify {} = .ok (num 0) := ok_of_toOption (by decide +kernel)
  have quotient : u.simplify {} = .ok (num (-0.5)) := ok_of_toOption (by decide +kernel)
  have small : tiny.Legible := show Scalar.isFinite (1e-200 : Float) = true by decide +kernel
  have unit : one.Legible := show Scalar.isFinite (1 : Float) = true by decide +kernel
  have big : large.Legible :=
    show Scalar.isFinite (10000000000000000 : Float) = true by decide +kernel
  exact ⟨t, u, num 0, num (-0.5), ⟨⟨trivial, trivial⟩, trivial⟩, ⟨⟨small, small⟩, unit⟩,
    by decide +kernel, product, ⟨trivial, ⟨⟨trivial, trivial⟩, trivial⟩, trivial⟩,
    ⟨unit, ⟨⟨big, unit⟩, unit⟩, big⟩, by decide +kernel, quotient⟩

end Term

end AlgebraicTerms
