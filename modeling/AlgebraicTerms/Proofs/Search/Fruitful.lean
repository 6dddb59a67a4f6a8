import AlgebraicTerms.Proofs.Search.Candidates

/-!
# Every term has a candidate

Each rule gives a term at least one candidate if the finder it calls does, and what is remembered are
never no candidates.  So a search never falls back on the term it started with
(`candidatesWithin_ne_nil`).
-/

namespace AlgebraicTerms

/-- Whether merging settled the candidates only with at least one. -/
def Merged.Fruitful {α : Type} (m : Merged α) : Prop := ∀ ts, m.settled = some ts → ts ≠ []

def Combined.Fruitful {α : Type} (c : Combined α) : Prop := ∀ ts, c = .settled ts → ts ≠ []

theorem Merged.Fruitful.of_unsettled {α : Type} {m : Merged α} (h : m.settled = none) :
    m.Fruitful := by
  intro ts hts
  rw [h] at hts
  cases hts

theorem Combined.Fruitful.collected {α : Type} (ts : List (Term α)) :
    (Combined.collected ts).Fruitful := by
  intro us hus
  cases hus

namespace Search

variable {α : Type}

/-- Whether every remembered term has a candidate. -/
def Fruitful (cache : Cache α) : Prop :=
  ∀ key found, cache.lookup key = some found → found ≠ []

theorem Fruitful.empty : Fruitful ([] : Cache α) := nofun

theorem Fruitful.cons {cache : Cache α} {key : String} {found : List (Term α)}
    (hcache : Fruitful cache) (h : found ≠ []) : Fruitful ((key, found) :: cache) := by
  intro key' found' hfound
  rw [List.lookup_cons] at hfound
  split at hfound
  · cases hfound
    exact h
  · exact hcache key' found' hfound

variable [Scalar α] {J : Cache α → Prop} {A : List String} {find : Finder α}
  {simplify : Term α → Search α (Term α)}

section Rules

variable (hfind : ∀ t, Ensures J A (find t) (· ≠ []))

include hfind

omit [Scalar α] in
theorem first_keeps (t : Term α) : Ensures J A (first find t) fun _ => True :=
  (hfind t).bind fun _ _ => .pure trivial

/-! ## Products and powers -/

theorem mergePair_keeps (sameBase : Bool) (a b : Term α) :
    Ensures J A (mergePair find sameBase a b) fun _ => True := by
  have apart : Ensures J A (pure .apart : Search α (PairOutcome α)) fun _ => True := .pure trivial
  have merged (t : Term α) : Ensures J A (pure (.merged t) : Search α (PairOutcome α))
      fun _ => True := .pure trivial
  rw [mergePair]
  split
  · split
    · exact (first_keeps hfind _).bind fun _ _ => .pure trivial
    · split
      · exact apart
      · rw [mergeBases]
        split
        · exact merged _
        · split
          · exact apart
          · split
            · exact (first_keeps hfind _).bind fun _ _ => merged _
            · split
              · exact merged _
              · split
                · exact merged _
                · exact apart
  · exact apart

theorem absorb_keeps (sameBase : Bool) (a : Term α) (ts : List (Term α)) :
    Ensures J A (absorb find sameBase a ts) fun _ => True := by
  induction ts generalizing a with
  | nil => exact .pure trivial
  | cons b ts ih =>
      rw [absorb]
      refine (mergePair_keeps hfind sameBase a b).bind fun outcome _ => ?_
      cases outcome with
      | apart => exact (ih a).bind fun _ _ => .pure trivial
      | cancelled => exact .pure trivial
      | merged t =>
          simp only
          split
          · exact ih t
          · exact .pure trivial

theorem mergePowers_keeps (sameBase : Bool) (ts : List (Term α)) :
    Ensures J A (mergePowers find sameBase ts) fun _ => True := by
  rw [mergePowers]
  generalize ts.length = rounds
  induction rounds generalizing ts with
  | zero => exact .pure trivial
  | succ rounds ih =>
      cases ts with
      | nil => exact .pure trivial
      | cons t ts =>
          rw [mergePowersWithin]
          split
          · refine (absorb_keeps hfind sameBase t ts).bind fun r _ => ?_
            exact (ih r.2).bind fun _ _ => .pure trivial
          · exact (ih ts).bind fun _ _ => .pure trivial

theorem scale_ne_nil (n : α) (t : Term α) : Ensures J A (scale find n t) (· ≠ []) := by
  rw [scale]
  split
  · exact hfind t
  · split
    · exact .pure (List.cons_ne_nil _ _)
    · refine (hfind t).bind fun found hfound => ?_
      split
      · exact .pure (List.cons_ne_nil _ _)
      · exact .pure fun empty => hfound (List.map_eq_nil_iff.1 empty)

theorem mergeFactors_fruitful (ts : List (Term α)) :
    Ensures J A (mergeFactors find ts) Merged.Fruitful := by
  have number (m : Merged α) (n : α) (hm : m.settled = some [.num n]) : m.Fruitful := by
    intro us hus
    obtain rfl := Option.some.inj (hm.symm.trans hus)
    exact List.cons_ne_nil _ _
  rw [mergeFactors]
  split
  · exact .pure (number _ _ rfl)
  · split
    · exact .pure (number _ _ rfl)
    · refine (mergePowers_keeps hfind _ _).bind fun once _ => ?_
      refine (mergePowers_keeps hfind _ _).bind fun rest _ => ?_
      split
      · exact .pure (number _ _ rfl)
      · refine (scale_ne_nil hfind _ _).bind fun us hus => .pure ?_
        rintro _ ⟨⟩
        exact hus
      · exact .pure (.of_unsettled rfl)

theorem combineFactors_fruitful (n : α) (combos : List (List (Term α))) :
    Ensures J A (combineFactors find n combos) Combined.Fruitful := by
  induction combos with
  | nil => exact .pure (.collected _)
  | cons combo combos ih =>
      refine (mergeFactors_fruitful hfind _).bind fun merged hmerged => ?_
      split
      · rename_i settled hsettled
        refine .pure ?_
        rintro _ ⟨⟩
        exact hmerged _ hsettled
      · refine ih.bind fun rest hrest => ?_
        cases rest with
        | settled ts => exact .pure hrest
        | collected ts => exact .pure (.collected _)

theorem product_ne_nil (t : Term α) : Ensures J A (product find t) (· ≠ []) := by
  have factors : Ensures J A
      (t.withExponents.operands.mapM fun f => ofExcept f.reciprocalAsPower) fun _ => True :=
    (Ensures.mapM (R := fun _ _ => True) fun _ _ => .ofExcept fun _ _ => trivial).mono
      fun _ _ => trivial
  rw [product]
  refine factors.bind fun ts _ => (mergeFactors_fruitful hfind ts).bind fun merged hmerged => ?_
  split
  · rename_i settled hsettled
    exact .pure (hmerged _ hsettled)
  · refine (Ensures.mapM fun t _ => hfind t).bind fun found _ => ?_
    refine (combineFactors_fruitful hfind _ _).bind fun combined hcombined => ?_
    cases combined with
    | settled ts => exact .pure (hcombined ts rfl)
    | collected ts => exact .pure (List.append_ne_nil_of_right_ne_nil ts (List.cons_ne_nil _ _))

theorem powerOf_ne_nil (base exponent : Term α) :
    Ensures J A (powerOf find base exponent) (· ≠ []) := by
  have single (t : Term α) : Ensures J A (pure [t] : Search α (List (Term α))) (· ≠ []) :=
    .pure (List.cons_ne_nil _ _)
  rw [powerOf]
  split
  · rename_i innerBase _ _
    rw [nestedPower]
    refine (hfind _).bind fun exponents _ => ?_
    have powers : Ensures J A (gather (fun e => find (.bin .pow innerBase e)) exponents) fun _ => True :=
      (Ensures.mapM fun e _ => hfind _).bind fun _ _ => .pure trivial
    refine powers.bind fun found _ => .pure ?_
    split
    · exact List.cons_ne_nil _ _
    · rename_i some
      exact fun empty => some (List.isEmpty_iff.2 empty)
  · split
    · exact single _
    · split
      · dsimp only
        split
        · exact single _
        · exact .throw _
      · exact single _

theorem power_ne_nil (base exponent : Term α) :
    Ensures J A (power find base exponent) (· ≠ []) := by
  refine (hfind base).bind fun bases hbases => (hfind exponent).bind fun exponents hexponents => ?_
  have all : Ensures J A (gather (fun e => gather (fun b => powerOf find b e) bases) exponents)
      fun ts => ts ≠ [] ∧ ∀ t ∈ ts, True :=
    .gather_ne_nil hexponents fun e _ => .gather_ne_nil hbases fun b _ =>
      (powerOf_ne_nil hfind b e).mono fun _ h => ⟨h, fun _ _ => trivial⟩
  exact all.mono fun _ h => h.1

/-! ## Sums -/

theorem offset_ne_nil (n : α) (t : Term α) : Ensures J A (offset find n t) (· ≠ []) := by
  rw [offset]
  split
  · exact hfind t
  · split
    · exact .pure (List.cons_ne_nil _ _)
    · refine (hfind t).bind fun found hfound => ?_
      split
      · exact .pure (List.cons_ne_nil _ _)
      · exact .pure fun empty => hfound (List.map_eq_nil_iff.1 empty)

theorem mergeSummands_fruitful (ts : List (Term α)) :
    Ensures J A (mergeSummands find ts) Merged.Fruitful := by
  rw [mergeSummands]
  split
  · refine .pure ?_
    rintro _ ⟨⟩
    exact List.cons_ne_nil _ _
  · split
    · refine (offset_ne_nil hfind _ _).bind fun us hus => .pure ?_
      rintro _ ⟨⟩
      exact hus
    · exact .pure (.of_unsettled rfl)

theorem factored_keeps (f : Term.Factoring α) : Ensures J A (factored find f) fun _ => True := by
  have all : Ensures J A (factored find f) fun ts => ∀ t ∈ ts, True := by
    refine .gather fun p _ => (hfind _).bind fun found _ => ?_
    split
    · exact .pure fun _ _ => trivial
    · exact .gather fun t _ => (hfind _).mono fun _ _ _ _ => trivial
  exact all.mono fun _ _ => trivial

theorem binomials_keeps (hsimplify : ∀ t, Ensures J A (simplify t) fun _ => True)
    (summands : List (Term α)) (products : List (List (Term α))) :
    Ensures J A (binomials find simplify summands products) fun _ => True := by
  have all : Ensures J A (binomials find simplify summands products) fun ts => ∀ t ∈ ts, True := by
    refine .gather fun p _ => ?_
    have mixed : Ensures J A (doubleProduct find p.1 p.2) fun _ => True := by
      refine (mergeFactors_fruitful hfind _).bind fun merged _ => ?_
      split <;> exact .pure trivial
    refine mixed.bind fun t _ => .gather fun summand _ => ?_
    rw [completeSquare]
    split
    · exact .pure fun _ _ => trivial
    · refine (hsimplify _).bind fun left _ => ?_
      split <;> exact .pure fun _ _ => trivial
  exact all.mono fun _ _ => trivial

theorem combineSummands_fruitful (rule : Term.FactoringRule α)
    (hsimplify : ∀ t, Ensures J A (simplify t) fun _ => True) (n : α) (found : List (Term α))
    (combos : List (List (Term α))) :
    Ensures J A (combineSummands rule find simplify n found combos) Combined.Fruitful := by
  induction combos generalizing found with
  | nil => exact .pure (.collected _)
  | cons combo combos ih =>
      rw [combineSummands]
      refine (mergeSummands_fruitful hfind _).bind fun merged hmerged => ?_
      split
      · rename_i settled hsettled
        refine .pure ?_
        rintro _ ⟨⟩
        exact fun empty => hmerged _ hsettled (List.map_eq_nil_iff.1 empty)
      · dsimp only
        split
        · have byFactors (fs : List (Term.Factoring α)) :
              Ensures J A (gather (factored find) fs) fun ts => ∀ t ∈ ts, True :=
            .gather fun f _ => (factored_keeps hfind f).mono fun _ _ _ _ => trivial
          refine (byFactors _).bind fun _ _ => ?_
          exact (binomials_keeps hfind hsimplify _ _).bind fun _ _ => ih _
        · refine Ensures.bind (P := fun _ => True) (.pure trivial) fun _ _ => ?_
          exact (binomials_keeps hfind hsimplify _ _).bind fun _ _ => ih _

theorem sum_ne_nil (rule : Term.FactoringRule α)
    (hsimplify : ∀ t, Ensures J A (simplify t) fun _ => True) (t : Term α) :
    Ensures J A (sum rule find simplify t) (· ≠ []) := by
  rw [sum]
  refine (mergeSummands_fruitful hfind _).bind fun merged hmerged => ?_
  split
  · rename_i settled hsettled
    exact .pure fun empty => hmerged _ hsettled (List.map_eq_nil_iff.1 empty)
  · refine (Ensures.mapM fun t _ => hfind t).bind fun found _ => ?_
    refine (combineSummands_fruitful hfind rule hsimplify _ _ _).bind fun combined hcombined => ?_
    cases combined with
    | settled ts => exact .pure (hcombined ts rfl)
    | collected ts => exact .pure (List.append_ne_nil_of_right_ne_nil ts (List.cons_ne_nil _ _))

/-! ## All rules -/

theorem candidatesByRule_ne_nil (rule : Term.FactoringRule α)
    (hsimplify : ∀ t, Ensures J A (simplified find t) fun _ => True) (t : Term α) :
    Ensures J A (candidatesByRule rule find t) (· ≠ []) := by
  have own : Ensures J A (pure [t] : Search α (List (Term α))) (· ≠ []) :=
    .pure (List.cons_ne_nil _ _)
  cases t with
  | bin op l r =>
      cases op with
      | add | sub => exact sum_ne_nil hfind rule hsimplify _
      | mul | div => exact product_ne_nil hfind _
      | mod =>
          refine (first_keeps hfind l).bind fun l' _ => (first_keeps hfind r).bind fun r' _ => ?_
          refine Ensures.bind (P := fun _ => True) (.ofExcept fun _ _ => trivial) fun _ _ => ?_
          exact .pure (List.cons_ne_nil _ _)
      | pow => exact power_ne_nil hfind l r
  | call k argument =>
      refine (hfind argument).bind fun found hfound => ?_
      have calls : Ensures J A (found.mapM (call k)) fun ts =>
          ts.length = found.length ∧ ∀ t ∈ ts, True := by
        refine .mapM_all fun c _ => ?_
        rw [call]
        split
        · exact .pure trivial
        · split
          · exact .pure trivial
          · exact (Ensures.note _).bind fun _ _ => .throw _
          · exact (Ensures.note _).bind fun _ _ => .throw _
      refine calls.mono fun ts hts empty => hfound ?_
      rw [← List.length_eq_zero_iff, ← hts.1, empty, List.length_nil]
  | _ => exact own

end Rules

variable {options : SearchOptions} {rule : Term.FactoringRule α}

theorem kept_ne_nil {ts : List (Term α)} (h : ts ≠ []) : Ensures J A (kept options ts) (· ≠ []) := by
  have unique := distinct_ne_nil h
  rw [kept]
  split
  · exact .pure unique
  · dsimp only
    split
    · refine (Ensures.note _).bind fun _ _ => .pure fun empty => ?_
      rcases List.take_eq_nil_iff.1 empty with zero | empty
      · omega
      · exact unique empty
    · exact .pure unique

theorem simplified_keeps (hfind : ∀ t, Ensures Fruitful [] (find t) (· ≠ [])) (t : Term α) :
    Ensures Fruitful A (simplified find t) fun _ => True := by
  have search : Ensures Fruitful A (afresh do
      let input := t.expanded.withExponents
      let found := (← find input).map Term.withoutTrivialPowers
      let best := ((Term.simplest? found).getD input.withoutTrivialPowers).sorted
      note (.simplified t.text best.text found.length (← get).cache.length)
      return best) fun _ => True := by
    refine .afresh ?_ .empty
    refine (hfind _).bind fun found _ => ?_
    exact .get fun s _ _ => (Ensures.note _).bind fun _ _ => .pure trivial
  cases t with
  | empty => exact .pure trivial
  | _ => exact search

theorem compute_ne_nil (hfind : ∀ t, Ensures Fruitful A (find t) (· ≠ []))
    (hsimplify : ∀ t, Ensures Fruitful A (simplified find t) fun _ => True) (t : Term α)
    (key : String) : Ensures Fruitful A (compute options rule find t key) (· ≠ []) := by
  have byRule : Ensures Fruitful A (do
      let found ← kept options (← candidatesByRule rule find t)
      note (.found found.length key)
      modify fun s => { s with cache := (key, found) :: s.cache }
      return found) (· ≠ []) := by
    refine (candidatesByRule_ne_nil hfind rule hsimplify t).bind fun all hall => ?_
    refine (kept_ne_nil hall).bind fun found hfound => (Ensures.note _).bind fun _ _ => ?_
    exact (Ensures.remember fun cache hcache => hcache.cons hfound).bind fun _ _ => .pure hfound
  cases t with
  | inv i operand =>
      refine (hfind operand).bind fun found hfound => ?_
      have inverses : Ensures Fruitful A (found.mapM fun c => ofExcept (c.inverted i)) fun ts =>
          ts.length = found.length ∧ ∀ t ∈ ts, True :=
        .mapM_all fun _ _ => .ofExcept fun _ _ => trivial
      refine inverses.mono fun ts hts empty => hfound ?_
      rw [← List.length_eq_zero_iff, ← hts.1, empty, List.length_nil]
  | _ => exact byRule

/-- Every term has a candidate, whatever is at work. -/
theorem candidatesWithin_ne_nil (options : SearchOptions) (rule : Term.FactoringRule α) (depth : ℕ)
    (A : List String) (t : Term α) :
    Ensures Fruitful A (candidatesWithin options rule depth t) (· ≠ []) := by
  induction depth generalizing A t with
  | zero => exact .throw _
  | succ depth ih =>
      refine .get fun s _ hcache => ?_
      split
      · rename_i found hfound
        exact .pure (hcache _ _ hfound)
      · split
        · exact (Ensures.note _).bind fun _ _ => .pure (List.cons_ne_nil _ _)
        · exact .working (compute_ne_nil (ih _) (simplified_keeps (ih [])) _ _)

end Search

end AlgebraicTerms
