import AlgebraicTerms.Proofs.Search.Fruitful
import AlgebraicTerms.Proofs.Search.State

/-!
# Lists of candidates

Every list of candidates that a search returns or remembers has a candidate and no more than are
kept, and those it remembers have no repetitions (`candidates_fit`).  This holds in every state that
a call can start in.  Those are the states of a new search, those that a call leaves, whether it
succeeded or failed, and those inside a call that has marked its term (`Reached`); calls nested in a
call start in no others (`candidatesVia_reached`).
-/

namespace AlgebraicTerms

namespace Search

variable {α : Type}

/-- Whether there is a candidate, and no more than are kept. -/
structure Fits (options : SearchOptions) (ts : List (Term α)) : Prop where
  nonempty : ts ≠ []
  few : ∀ most, options.mostCandidates = some most → ts.length ≤ max 1 most

theorem Fits.single (options : SearchOptions) (t : Term α) : Fits options [t] :=
  ⟨List.cons_ne_nil t [], fun most _ => Nat.le_max_left 1 most⟩

theorem Fits.of_length {options : SearchOptions} {ts us : List (Term α)} (h : Fits options ts)
    (same : us.length = ts.length) : Fits options us := by
  refine ⟨fun empty => h.nonempty ?_, fun most hmost => ?_⟩
  · rw [← List.length_eq_zero_iff, ← same, empty, List.length_nil]
  · rw [same]
    exact h.few most hmost

variable [Scalar α]

/-- Whether every remembered list fits, and no term in it reads like another. -/
def Stocked (options : SearchOptions) (s : SearchState α) : Prop :=
  ∀ entry ∈ s.cache, Fits options entry.2 ∧ entry.2.Pairwise fun t u => t.text ≠ u.text

variable {options : SearchOptions} {rule : Term.FactoringRule α} {find : Finder α}
  {s u : SearchState α} {t : Term α} {key : String} {found : List (Term α)} {depth : ℕ}

theorem Stocked.start : Stocked options (SearchState.start : SearchState α) :=
  fun _ hentry => absurd hentry List.not_mem_nil

theorem Stocked.congr (h : Stocked options s) (same : u.cache = s.cache) : Stocked options u := by
  intro entry hentry
  exact h entry (same ▸ hentry)

theorem Stocked.remember (h : Stocked options s) (fits : Fits options found)
    (apart : found.Pairwise fun t u => t.text ≠ u.text) : Stocked options (s.remember key found) := by
  intro entry hentry
  rcases List.mem_cons.1 hentry with rfl | hentry
  · exact ⟨fits, apart⟩
  · exact h entry hentry

theorem Stocked.known (h : Stocked options s) (known : s.cache.lookup key = some found) :
    Fits options found := by
  obtain ⟨before, after, split, _⟩ := List.lookup_eq_some_iff.1 known
  have entry : (key, found) ∈ s.cache := by simp [split]
  exact (h (key, found) entry).1

theorem Stocked.fruitful (h : Stocked options s) : Fruitful s.cache :=
  fun _ _ hknown => (h.known hknown).nonempty

/-! ## Pruning -/

theorem distinct_pairwise (seen : List String) (ts : List (Term α)) :
    (∀ t ∈ distinct seen ts, t.text ∉ seen) ∧
      (distinct seen ts).Pairwise fun t u => t.text ≠ u.text := by
  induction ts generalizing seen with
  | nil => exact ⟨fun t ht => absurd ht List.not_mem_nil, .nil⟩
  | cons t ts ih =>
      rw [distinct]
      by_cases known : seen.contains t.text
      · rw [if_pos known]
        exact ih seen
      · rw [if_neg known]
        obtain ⟨new, apart⟩ := ih (t.text :: seen)
        constructor
        · intro u hu
          rcases List.mem_cons.1 hu with rfl | hu
          · exact fun h => known (List.contains_iff_mem.2 h)
          · exact fun h => new u hu (List.mem_cons_of_mem _ h)
        · apply List.Pairwise.cons ?_ apart
          intro u hu same
          exact new u hu (same ▸ List.mem_cons_self)

theorem pruned_apart (options : SearchOptions) (ts : List (Term α)) :
    (pruned options ts).Pairwise fun t u => t.text ≠ u.text := by
  have apart := (distinct_pairwise [] ts).2
  rw [pruned]
  cases options.mostCandidates with
  | none => exact apart
  | some most => exact apart.sublist (List.take_sublist _ _)

theorem pruned_fits {ts : List (Term α)} (h : ts ≠ []) : Fits options (pruned options ts) := by
  have unique := distinct_ne_nil h
  rw [pruned]
  cases hmost : options.mostCandidates with
  | none =>
      refine ⟨unique, fun most h => ?_⟩
      rw [hmost] at h
      cases h
  | some most =>
      constructor
      · intro empty
        rcases List.take_eq_nil_iff.1 empty with zero | empty
        · omega
        · exact unique empty
      · intro most' h
        obtain rfl := Option.some.inj (hmost.symm.trans h)
        rw [Nat.max_comm]
        exact List.length_take_le _ _

/-! ## Calls -/

/-- Steps that leave only lists that fit, whether they succeed or fail, can be done one after the
other. -/
theorem stocked_sequential (options : SearchOptions) : Sequential (ι := Unit) fun _ m =>
    ∀ s : SearchState α, Stocked options s → Stocked options ((m ()).run s).2 where
  pure b s hs := hs
  bind := by
    intro β γ m f hm hf s hs
    have first := hm s hs
    rw [run_bind]
    cases hrun : (m ()).run s with
    | mk r u =>
        rw [hrun] at first
        cases r with
        | ok b => exact hf b u first
        | error e => exact first
  fail e s hs := hs
  note e s hs := hs

/-- The candidates of an inverse are as many as those of its operand. -/
theorem inverses_fit {i : Inverse} (hfits : ∀ us, ((find t).run s).1 = .ok us → Fits options us)
    (hrun : ((find t >>= List.mapM fun c => ofExcept (c.inverted i)).run s).1 = .ok found) :
    Fits options found := by
  rw [run_bind] at hrun
  cases operands : (find t).run s with
  | mk r v =>
      rw [operands] at hrun hfits
      cases r with
      | error e => cases hrun
      | ok us =>
          have lengths : Ensures (fun _ => True) v.active
              (us.mapM fun c => ofExcept (c.inverted i)) fun ts =>
                ts.length = us.length ∧ ∀ t ∈ ts, True :=
            .mapM_all fun _ _ => .ofExcept fun _ _ => trivial
          have same := lengths v rfl trivial found _ (Prod.ext hrun rfl)
          exact (hfits us rfl).of_length same.1.1

/-- A call leaves only lists that fit, and returns one if it succeeds. -/
theorem candidatesWithin_stocked (rule : Term.FactoringRule α) (depth : ℕ) (t : Term α) (hs : Stocked options s) :
    Stocked options ((candidatesWithin options rule depth t).run s).2 ∧
      ∀ found, ((candidatesWithin options rule depth t).run s).1 = .ok found →
        Fits options found := by
  induction depth generalizing s t with
  | zero =>
      refine ⟨hs, fun found hrun => ?_⟩
      cases hrun
  | succ depth ih =>
      have hfind (t : Term α) (s : SearchState α) (hs : Stocked options s) :=
        (ih (s := s) hs (t := t)).1
      have byRule (t : Term α) {s u : SearchState α} {r : Except (SearchFailure α) (List (Term α))}
          (hs : Stocked options s)
          (hrun : (candidatesByRule rule (candidatesWithin options rule depth) t).run s = (r, u)) :
          Stocked options u := by
        have stocked := (stocked_sequential options).candidatesByRule
          (fun _ => candidatesWithin options rule depth) hfind
          (fun t s hs => by cases t <;> exact hs) rule t s hs
        rw [hrun] at stocked
        exact stocked
      have call := candidatesVia_call options rule (candidatesWithin options rule depth) s t
      rw [candidatesWithin]
      generalize (candidatesVia options rule _ t).run s = result at call ⊢
      cases call with
      | known known =>
          refine ⟨hs, fun found h => ?_⟩
          cases h
          exact hs.known known
      | busy =>
          refine ⟨hs, fun found h => ?_⟩
          cases h
          exact .single options t.sorted
      | @inverse i operand r u inverse new idle hrun =>
          have stocked := (stocked_sequential options).inverses
            (fun _ => candidatesWithin options rule depth) hfind i operand
            (s.enter t.sorted.text) hs
          rw [hrun] at stocked
          refine ⟨stocked, fun found h => ?_⟩
          apply inverses_fit (ih (s := s.enter t.sorted.text) hs (t := operand)).2
          rw [hrun]
          exact h
      | failed hinv new idle hrun =>
          have stocked := byRule t.sorted (s := s.enter t.sorted.text) hs hrun
          refine ⟨stocked, fun found h => ?_⟩
          cases h
      | @found all u v hinv new idle hrun active cache _ =>
          have some := candidatesByRule_ne_nil (candidatesWithin_ne_nil _ _ depth _) rule
            (simplified_keeps (candidatesWithin_ne_nil _ _ depth [])) t.sorted
            (s.enter t.sorted.text) rfl (Stocked.fruitful hs) all u hrun
          have fits : Fits options (pruned options all) := pruned_fits some.1
          have stocked := byRule t.sorted (s := s.enter t.sorted.text) hs hrun
          refine ⟨(stocked.congr cache).remember fits (pruned_apart options all), fun found h => ?_⟩
          cases h
          exact fits

/-! ## States that calls start in -/

/-- The states that calls can start in.  What is in the log does not matter. -/
inductive Reached (options : SearchOptions) (rule : Term.FactoringRule α) : SearchState α → Prop
  | start : Reached options rule SearchState.start
  | call {s : SearchState α} (hs : Reached options rule s) (depth : ℕ) (t : Term α) :
      Reached options rule ((candidatesWithin options rule depth t).run s).2
  | enter {s : SearchState α} (hs : Reached options rule s) {key : String}
      (new : s.cache.lookup key = none) (idle : key ∉ s.active) : Reached options rule (s.enter key)
  | log {s : SearchState α} (hs : Reached options rule s) (events : List (SearchEvent α)) :
      Reached options rule { s with log := events }

theorem Reached.stocked (h : Reached options rule s) : Stocked options s := by
  induction h with
  | start => exact .start
  | call _ depth t ih => exact (candidatesWithin_stocked rule depth t ih).1
  | enter _ _ _ ih => exact ih
  | log _ _ ih => exact ih

theorem Reached.consistent (h : Reached options rule s) : s.Consistent := by
  induction h with
  | start => exact SearchState.start_consistent
  | call _ depth t ih => exact (candidatesWithin_keeps options rule depth t ih).consistent
  | enter _ new _ ih => exact ih.enter new
  | log _ _ ih => exact ih

/-- Steps that do the same in every reached state and reach one can be done one after the other. -/
theorem reached_sequential (options : SearchOptions) (rule : Term.FactoringRule α) :
    Sequential (ι := Bool) fun _ m => ∀ s : SearchState α, Reached options rule s →
      (m false).run s = (m true).run s ∧ Reached options rule ((m true).run s).2 where
  pure b s hs := ⟨rfl, hs⟩
  bind := by
    intro β γ m f hm hf s hs
    obtain ⟨same, reached⟩ := hm s hs
    rw [run_bind, run_bind, same]
    cases hrun : (m true).run s with
    | mk r u =>
        rw [hrun] at reached
        cases r with
        | ok b => exact hf b u reached
        | error e => exact ⟨rfl, reached⟩
  fail e s hs := ⟨rfl, hs⟩
  note e s hs := ⟨rfl, hs.log _⟩

/-- A call depends on the calls nested in it only as far as those start in reached states. -/
theorem candidatesVia_reached (hs : Reached options rule s)
    (hfind : ∀ t, ∀ s : SearchState α, Reached options rule s →
      (find t).run s = (candidatesWithin options rule depth t).run s) (t : Term α) :
    (candidatesVia options rule find t).run s =
      (candidatesWithin options rule (depth + 1) t).run s := by
  let finder (own : Bool) : Finder α := if own then candidatesWithin options rule depth else find
  have same (t : Term α) (s : SearchState α) (hs : Reached options rule s) :
      (finder false t).run s = (finder true t).run s ∧
        Reached options rule ((finder true t).run s).2 :=
    ⟨hfind t s hs, hs.call depth t⟩
  have simplified (t : Term α) (s : SearchState α) (hs : Reached options rule s) :
      (Search.simplified (finder false) t).run s = (Search.simplified (finder true) t).run s ∧
        Reached options rule ((Search.simplified (finder true) t).run s).2 := by
    have input := (same t.expanded.withExponents _ (Reached.start.log s.log)).1
    refine ⟨simplified_congr input, ?_⟩
    cases t with
    | empty => exact hs
    | _ => exact hs.log _
  have computed (t : Term α) (key : String) (s : SearchState α) (hs : Reached options rule s) :
      (compute options rule (finder false) t key).run s =
        (compute options rule (finder true) t key).run s := by
    by_cases inverse : ∃ i operand, t = .inv i operand
    · obtain ⟨i, operand, rfl⟩ := inverse
      exact ((reached_sequential options rule).inverses finder same i operand s hs).1
    · have hinv : ∀ i operand, t ≠ .inv i operand := fun i operand h => inverse ⟨i, operand, h⟩
      rw [compute_by_rule hinv, compute_by_rule hinv, run_bind, run_bind,
        ((reached_sequential options rule).candidatesByRule finder same simplified rule t s hs).1]
  show (candidatesVia options rule (finder false) t).run s =
    (candidatesVia options rule (finder true) t).run s
  exact candidatesVia_congr fun new idle => computed _ _ _ (hs.enter new idle)

/-! ## Fallbacks -/

theorem first_run {c : Term α} (hs : Reached options rule s)
    (hrun : (first (candidatesWithin options rule depth) t).run s = (.ok c, u)) :
    ∃ cs, (candidatesWithin options rule depth t).run s = (.ok (c :: cs), u) := by
  rw [first, run_bind] at hrun
  cases hfind : (candidatesWithin options rule depth t).run s with
  | mk r v =>
      rw [hfind] at hrun
      cases r with
      | error e => cases hrun
      | ok found =>
          have fits := (candidatesWithin_stocked rule depth t hs.stocked).2 found (by rw [hfind])
          cases found with
          | nil => exact absurd rfl fits.nonempty
          | cons c' cs =>
              cases hrun
              exact ⟨cs, rfl⟩

theorem nestedPower_run (hs : Reached options rule s) (base inner outer : Term α) :
    (nestedPower (candidatesWithin options rule depth) base inner outer).run s =
      (candidatesWithin options rule depth (.bin .mul inner outer) >>=
        gather fun e => candidatesWithin options rule depth (.bin .pow base e)).run s := by
  rw [nestedPower, run_bind, run_bind]
  have exponents := candidatesWithin_ne_nil options rule depth s.active
    (.bin .mul inner outer) s rfl hs.stocked.fruitful
  cases hfind : (candidatesWithin options rule depth (.bin .mul inner outer)).run s with
  | mk r v =>
      cases r with
      | error e => rfl
      | ok es =>
          obtain ⟨some, _, fruitful⟩ := exponents es v hfind
          have powers : Ensures Fruitful v.active
              (gather (fun e => candidatesWithin options rule depth (.bin .pow base e)) es)
              fun ts => ts ≠ [] ∧ ∀ t ∈ ts, True :=
            .gather_ne_nil some fun e _ => (candidatesWithin_ne_nil _ _ depth v.active _).mono
              fun ts hts => ⟨hts, fun _ _ => trivial⟩
          dsimp only
          rw [run_bind]
          cases hgather : (gather
              (fun e => candidatesWithin options rule depth (.bin .pow base e)) es).run v with
          | mk r w =>
              cases r with
              | error e => rfl
              | ok ts =>
                  obtain ⟨⟨some, _⟩, _⟩ := powers v rfl fruitful ts w hgather
                  cases ts with
                  | nil => exact absurd rfl some
                  | cons t ts => rfl

theorem simplified_chooses {r : Term α} (ht : t ≠ .empty)
    (hrun : ((simplified (candidatesWithin options rule depth) t).run s).1 = .ok r) :
    ∃ found best, ((candidatesWithin options rule depth t.expanded.withExponents).run
        { SearchState.start with log := s.log }).1 = .ok found ∧
      Term.simplest? (found.map Term.withoutTrivialPowers) = some best ∧ r = best.sorted := by
  have fresh : Reached options rule SearchState.start := .start
  have fits := (candidatesWithin_stocked rule depth t.expanded.withExponents
    (fresh.log s.log).stocked).2
  rw [simplified_run _ ht] at hrun
  cases hfind : ((candidatesWithin options rule depth t.expanded.withExponents).run
      { SearchState.start with log := s.log }).1 with
  | error e =>
      rw [hfind] at hrun
      cases hrun
  | ok found =>
      rw [hfind] at hrun
      cases found with
      | nil => exact absurd rfl (fits [] hfind).nonempty
      | cons c cs =>
          cases hrun
          exact ⟨c :: cs, _, rfl, rfl, rfl⟩

/-! ## All lists -/

/-- In every reached state, a call that succeeds returns a candidate, and no more than are kept; so
does every list in the cache, which has no repetitions either.  So a first candidate is one that was
found, a power of a power has the candidates that were found for it, and the simplest form is chosen
from what was found. -/
theorem candidates_fit (depth : ℕ) (hs : Reached options rule s) (t : Term α) :
    (∀ found, ((candidatesWithin options rule depth t).run s).1 = .ok found →
      found ≠ [] ∧ ∀ most, options.mostCandidates = some most → found.length ≤ max 1 most) ∧
    (∀ entry ∈ s.cache, entry.2 ≠ [] ∧
      (∀ most, options.mostCandidates = some most → entry.2.length ≤ max 1 most) ∧
        entry.2.Pairwise fun t u => t.text ≠ u.text) ∧
    (∀ c u, (first (candidatesWithin options rule depth) t).run s = (.ok c, u) →
      ∃ cs, (candidatesWithin options rule depth t).run s = (.ok (c :: cs), u)) ∧
    (∀ inner outer, (nestedPower (candidatesWithin options rule depth) t inner outer).run s =
      (candidatesWithin options rule depth (.bin .mul inner outer) >>=
        gather fun e => candidatesWithin options rule depth (.bin .pow t e)).run s) ∧
    ∀ r, t ≠ .empty → ((simplified (candidatesWithin options rule depth) t).run s).1 = .ok r →
      ∃ found best, ((candidatesWithin options rule depth t.expanded.withExponents).run
          { SearchState.start with log := s.log }).1 = .ok found ∧
        Term.simplest? (found.map Term.withoutTrivialPowers) = some best ∧ r = best.sorted := by
  refine ⟨fun found hrun => ?_, fun entry hentry => ?_, fun c u hrun => first_run hs hrun,
    fun inner outer => nestedPower_run hs t inner outer, fun r ht hrun => simplified_chooses ht hrun⟩
  · have fits := (candidatesWithin_stocked rule depth t hs.stocked).2 found hrun
    exact ⟨fits.nonempty, fits.few⟩
  · obtain ⟨fits, apart⟩ := hs.stocked entry hentry
    exact ⟨fits.nonempty, fits.few, apart⟩

set_option maxRecDepth 100000 in
/-- If one candidate is kept, `(x^2)^y` has one, also inside of another search that has failed
before. -/
theorem candidates_fit_one :
    let options : SearchOptions := { mostCandidates := some 1 }
    let find : Finder ℚ := candidates options Term.factorings
    let s := ((find (.bin .div (.num 1) (.num 0))).run SearchState.start).2.enter "z"
    let tower : Term ℚ := .bin .pow (.bin .pow (.var "x" none) (.num 2)) (.var "y" none)
    Reached options Term.factorings s ∧
      ∃ found, ((find tower).run s).1 = .ok found ∧ found ≠ [] ∧ found.length ≤ 1 := by
  intro options find s tower
  have failed : Reached options Term.factorings
      ((find (.bin .div (.num 1) (.num 0))).run SearchState.start).2 :=
    Reached.start.call options.depth (.bin .div (.num 1) (.num 0))
  have reached : Reached options Term.factorings s :=
    failed.enter (by decide +kernel) (by decide +kernel)
  have succeeds : ((find tower).run s).1.toOption.isSome = true := by decide +kernel
  cases hrun : ((find tower).run s).1 with
  | error e =>
      rw [hrun] at succeeds
      cases succeeds
  | ok found =>
      obtain ⟨some, few⟩ := (candidates_fit options.depth reached tower).1 found hrun
      exact ⟨reached, found, rfl, some, few 1 rfl⟩

end Search

end AlgebraicTerms
