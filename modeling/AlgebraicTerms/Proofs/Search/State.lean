import AlgebraicTerms.Proofs.Search.Run
import AlgebraicTerms.Proofs.Search.Sequential
import AlgebraicTerms.Proofs.Scalar.Rational

/-!
# The state of a search

A call of the search marks its term as being at work, may fail in any of the calls nested in it, and
takes the mark off again.  It remembers the candidates of its term before that, when the term is
still marked, so that the state is not consistent throughout a call.  It is at every nested call, and
so a call can be judged by the state before and after it alone (`candidatesWithin_keeps`).
-/

namespace AlgebraicTerms

variable {α : Type}

namespace SearchState

/-- The state with one more term at work. -/
def enter (s : SearchState α) (key : String) : SearchState α :=
  { s with active := key :: s.active }

/-- The state with a term no longer at work. -/
def leave (s : SearchState α) (key : String) : SearchState α :=
  { s with active := s.active.erase key }

/-- The state with the candidates of one more term. -/
def remember (s : SearchState α) (key : String) (found : List (Term α)) : SearchState α :=
  { s with cache := (key, found) :: s.cache }

/-- Whether no term is at work and remembered. -/
def Consistent (s : SearchState α) : Prop := ∀ key ∈ s.active, s.cache.lookup key = none

/-- What a search may do to the state.  The terms at work are as before, what was remembered still
is, and what is remembered now was not at work before. -/
structure Keeps (s u : SearchState α) : Prop where
  active : u.active = s.active
  remembered : ∀ key found, s.cache.lookup key = some found → u.cache.lookup key = some found
  idle : ∀ key found, u.cache.lookup key = some found → s.cache.lookup key = none → key ∉ s.active
  consistent : u.Consistent

variable {s u v : SearchState α} {key : String} {found : List (Term α)}

theorem start_consistent : (start : SearchState α).Consistent :=
  fun _ hkey => absurd hkey List.not_mem_nil

/-- Writing to the log keeps the state. -/
theorem Consistent.keeps (hs : s.Consistent) (active : u.active = s.active)
    (cache : u.cache = s.cache) : s.Keeps u := by
  refine ⟨active, fun key found h => ?_, fun key found h none => ?_, fun key hkey => ?_⟩
  · rw [cache]
    exact h
  · rw [cache, none] at h
    cases h
  · rw [cache]
    exact hs key (active ▸ hkey)

theorem Keeps.trans (h : s.Keeps u) (h' : u.Keeps v) : s.Keeps v := by
  refine ⟨h'.active.trans h.active, fun key found hkey => ?_, fun key found hkey none => ?_,
    h'.consistent⟩
  · exact h'.remembered key found (h.remembered key found hkey)
  · cases hu : u.cache.lookup key with
    | none =>
        rw [← h.active]
        exact h'.idle key found hkey hu
    | some found' => exact h.idle key found' hu none

theorem Consistent.enter (hs : s.Consistent) (new : s.cache.lookup key = none) :
    (s.enter key).Consistent := by
  intro other hother
  rcases List.mem_cons.1 hother with rfl | hother
  · exact new
  · exact hs other hother

/-- A term that was not remembered may be while it is at work. -/
theorem Keeps.leave (h : (s.enter key).Keeps u) : s.Keeps (u.leave key) := by
  have active : (u.leave key).active = s.active := by
    show u.active.erase key = s.active
    rw [h.active]
    exact List.erase_cons_head key s.active
  refine ⟨active, h.remembered, fun other found hother none => ?_, fun other hother => ?_⟩
  · intro busy
    exact h.idle other found hother none (List.mem_cons_of_mem key busy)
  · apply h.consistent other
    rw [h.active]
    rw [active] at hother
    exact List.mem_cons_of_mem key hother

theorem Keeps.leave_remember (h : (s.enter key).Keeps u) (new : s.cache.lookup key = none)
    (idle : key ∉ s.active) : s.Keeps ((u.remember key found).leave key) := by
  have left := h.leave
  have lookup (other : String) (hother : other ≠ key) :
      ((u.remember key found).leave key).cache.lookup other = u.cache.lookup other := by
    show List.lookup other ((key, found) :: u.cache) = _
    rw [List.lookup_cons, beq_eq_false_iff_ne.2 hother]
  refine ⟨left.active, fun other found' hother => ?_, fun other found' hother none => ?_,
    fun other hother => ?_⟩
  · rw [lookup]
    · exact h.remembered other found' hother
    · intro same
      rw [same, new] at hother
      cases hother
  · by_cases same : other = key
    · rw [same]
      exact idle
    · rw [lookup other same] at hother
      exact left.idle other found' hother none
  · have busy : other ∈ s.active := left.active ▸ hother
    rw [lookup]
    · exact left.consistent other hother
    · intro same
      exact idle (same ▸ busy)

end SearchState

namespace Search

section Runs

variable {β : Type} {options : SearchOptions} {rule : Term.FactoringRule α} {find : Finder α}
  {s u : SearchState α} {t : Term α} {key : String}

theorem working_run (m : Search α β) (s : SearchState α) : (working key m).run s =
    ((m.run (s.enter key)).1, (m.run (s.enter key)).2.leave key) := rfl

theorem afresh_run (m : Search α β) (s : SearchState α) : (afresh m).run s =
    ((m.run { SearchState.start with log := s.log }).1,
      { s with log := (m.run { SearchState.start with log := s.log }).2.log }) := rfl

variable [Scalar α]

/-- The given candidates without repetitions, as many as are kept. -/
def pruned (options : SearchOptions) (ts : List (Term α)) : List (Term α) :=
  match options.mostCandidates with
  | none => distinct [] ts
  | some most => (distinct [] ts).take (max most 1)

/-- Prunes the candidates that a rule found, and remembers them. -/
def store (options : SearchOptions) (key : String) (all : List (Term α)) :
    Search α (List (Term α)) := do
  let found ← kept options all
  note (.found found.length key)
  modify fun s => { s with cache := (key, found) :: s.cache }
  return found

theorem compute_by_rule (hinv : ∀ i operand, t ≠ .inv i operand) :
    compute options rule find t key = candidatesByRule rule find t >>= store options key := by
  cases t with
  | inv i operand => exact absurd rfl (hinv i operand)
  | _ => rfl

theorem kept_run (options : SearchOptions) (ts : List (Term α)) (s : SearchState α) : ∃ events,
    (kept options ts).run s = (.ok (pruned options ts), { s with log := events ++ s.log }) := by
  rw [kept, pruned]
  cases options.mostCandidates with
  | none => exact ⟨[], rfl⟩
  | some most =>
      dsimp only
      by_cases more : (distinct [] ts).length > max most 1
      · rw [if_pos more]
        exact ⟨[_], rfl⟩
      · rw [if_neg more, List.take_of_length_le (Nat.le_of_not_lt more)]
        exact ⟨[], rfl⟩

omit [Scalar α] in
theorem get_run (f : SearchState α → Search α β) (s : SearchState α) :
    (MonadState.get >>= f).run s = (f s).run s := rfl

/-- A term that is neither remembered nor at work is put to work. -/
theorem candidatesVia_run (new : s.cache.lookup t.sorted.text = none)
    (idle : t.sorted.text ∉ s.active) : (candidatesVia options rule find t).run s =
      (working t.sorted.text (compute options rule find t.sorted t.sorted.text)).run s := by
  rw [candidatesVia, get_run, new]
  dsimp only
  rw [if_neg fun busy => idle (List.contains_iff_mem.1 busy)]

/-- Only a term that is put to work depends on the options and on the search for other terms. -/
theorem candidatesVia_congr {options' : SearchOptions} {find' : Finder α}
    (h : s.cache.lookup t.sorted.text = none → t.sorted.text ∉ s.active →
      (compute options rule find t.sorted t.sorted.text).run (s.enter t.sorted.text) =
        (compute options' rule find' t.sorted t.sorted.text).run (s.enter t.sorted.text)) :
    (candidatesVia options rule find t).run s = (candidatesVia options' rule find' t).run s := by
  cases new : s.cache.lookup t.sorted.text with
  | some found =>
      rw [candidatesVia, candidatesVia, get_run, get_run, new]
  | none =>
      by_cases idle : t.sorted.text ∉ s.active
      · rw [candidatesVia_run new idle, candidatesVia_run new idle, working_run, working_run,
          h new idle]
      · have busy := List.contains_iff_mem.2 (not_not.1 idle)
        rw [candidatesVia, candidatesVia, get_run, get_run, new]
        dsimp only
        rw [if_pos busy, if_pos busy]

/-- The depth is not looked at by the search itself. -/
theorem candidatesWithin_congr (most : Option ℕ) (d d' depth : ℕ) :
    candidatesWithin ⟨most, d⟩ rule depth = candidatesWithin ⟨most, d'⟩ rule depth := by
  have same (ts : List (Term α)) : kept ⟨most, d⟩ ts = kept ⟨most, d'⟩ ts := rfl
  induction depth with
  | zero => rfl
  | succ depth ih =>
      funext t
      have step (finds : Finder α) (t : Term α) (key : String) :
          compute ⟨most, d⟩ rule finds t key = compute ⟨most, d'⟩ rule finds t key := by
        unfold compute
        simp only [same]
      rw [candidatesWithin, candidatesWithin, ih]
      unfold candidatesVia
      simp only [step]

/-- The candidates that a rule finds are pruned and remembered. -/
theorem compute_run (options : SearchOptions) (hinv : ∀ i operand, t ≠ .inv i operand) {all : List (Term α)}
    (hrun : (candidatesByRule rule find t).run s = (.ok all, u)) :
    ∃ v : SearchState α, v.active = u.active ∧ v.cache = u.cache ∧ u.log <:+ v.log ∧
      (compute options rule find t key).run s =
        (.ok (pruned options all), v.remember key (pruned options all)) := by
  obtain ⟨events, hkept⟩ := kept_run options all u
  refine ⟨{ u with log := .found (pruned options all).length key :: (events ++ u.log) }, rfl, rfl,
    ⟨_ :: events, rfl⟩, ?_⟩
  rw [compute_by_rule hinv, run_bind, hrun]
  dsimp only
  rw [store, run_bind, hkept]
  rfl

/-- A rule that fails leaves nothing to remember. -/
theorem compute_run_error (hinv : ∀ i operand, t ≠ .inv i operand) {e : SearchFailure α}
    (hrun : (candidatesByRule rule find t).run s = (.error e, u)) :
    (compute options rule find t key).run s = (.error e, u) := by
  rw [compute_by_rule hinv, run_bind, hrun]

/-- What comes of a call: a remembered list, the term itself if it is at work, the inverses of the
operand's candidates, the failure of a rule, or its candidates, which are pruned and remembered. -/
inductive Call (options : SearchOptions) (rule : Term.FactoringRule α) (find : Finder α)
    (s : SearchState α) (t : Term α) :
    Except (SearchFailure α) (List (Term α)) × SearchState α → Prop
  | known {found : List (Term α)} (known : s.cache.lookup t.text = some found) :
      Call options rule find s t (.ok found, s)
  | busy (new : s.cache.lookup t.text = none) (busy : t.text ∈ s.active) :
      Call options rule find s t (.ok [t], { s with log := .cycle t.text :: s.log })
  | inverse {i : Inverse} {operand : Term α} {r : Except (SearchFailure α) (List (Term α))}
      {u : SearchState α} (inverse : t = .inv i operand) (new : s.cache.lookup t.text = none)
      (idle : t.text ∉ s.active)
      (hrun : (find operand >>= List.mapM fun c => ofExcept (c.inverted i)).run (s.enter t.text) =
        (r, u)) :
      Call options rule find s t (r, u.leave t.text)
  | failed {e : SearchFailure α} {u : SearchState α} (hinv : ∀ i operand, t ≠ .inv i operand)
      (new : s.cache.lookup t.text = none) (idle : t.text ∉ s.active)
      (hrun : (candidatesByRule rule find t).run (s.enter t.text) = (.error e, u)) :
      Call options rule find s t (.error e, u.leave t.text)
  | found {all : List (Term α)} {u v : SearchState α} (hinv : ∀ i operand, t ≠ .inv i operand)
      (new : s.cache.lookup t.text = none) (idle : t.text ∉ s.active)
      (hrun : (candidatesByRule rule find t).run (s.enter t.text) = (.ok all, u))
      (active : v.active = u.active) (cache : v.cache = u.cache) (log : u.log <:+ v.log) :
      Call options rule find s t
        (.ok (pruned options all), (v.remember t.text (pruned options all)).leave t.text)

/-- A call is made for the term in canonical order. -/
theorem candidatesVia_call (options : SearchOptions) (rule : Term.FactoringRule α)
    (find : Finder α) (s : SearchState α) (t : Term α) :
    Call options rule find s t.sorted ((candidatesVia options rule find t).run s) := by
  cases new : s.cache.lookup t.sorted.text with
  | some found =>
      rw [candidatesVia, get_run, new]
      exact .known new
  | none =>
      by_cases busy : t.sorted.text ∈ s.active
      · rw [candidatesVia, get_run, new]
        dsimp only
        rw [if_pos (List.contains_iff_mem.2 busy)]
        exact .busy new busy
      · rw [candidatesVia_run new busy, working_run]
        generalize t.sorted = t at new busy
        by_cases inverse : ∃ i operand, t = .inv i operand
        · obtain ⟨i, operand, rfl⟩ := inverse
          exact .inverse rfl new busy rfl
        · have hinv : ∀ i operand, t ≠ .inv i operand :=
            fun i operand same => inverse ⟨i, operand, same⟩
          cases hrun : (candidatesByRule rule find t).run (s.enter t.text) with
          | mk r u =>
              cases r with
              | error e =>
                  rw [compute_run_error hinv hrun]
                  exact .failed hinv new busy hrun
              | ok all =>
                  obtain ⟨v, active, cache, log, hcompute⟩ := compute_run options hinv hrun
                  rw [hcompute]
                  exact .found hinv new busy hrun active cache log

/-- The simplest candidate of a term, in canonical order. -/
theorem simplified_run (find : Finder α) (ht : t ≠ .empty) (s : SearchState α) :
    ((simplified find t).run s).1 =
      ((find t.expanded.withExponents).run { SearchState.start with log := s.log }).1.map
        fun found => ((Term.simplest? (found.map Term.withoutTrivialPowers)).getD
          t.expanded.withExponents.withoutTrivialPowers).sorted := by
  have search : ((afresh do
      let input := t.expanded.withExponents
      let found := (← find input).map Term.withoutTrivialPowers
      let best := ((Term.simplest? found).getD input.withoutTrivialPowers).sorted
      note (.simplified t.text best.text found.length (← get).cache.length)
      return best).run s).1 =
      ((find t.expanded.withExponents).run { SearchState.start with log := s.log }).1.map
        fun found => ((Term.simplest? (found.map Term.withoutTrivialPowers)).getD
          t.expanded.withExponents.withoutTrivialPowers).sorted := by
    simp only [afresh_run, run_bind]
    cases (find t.expanded.withExponents).run { SearchState.start with log := s.log } with
    | mk r s' => cases r <;> rfl
  cases t with
  | empty => exact absurd rfl ht
  | _ => exact search

/-- Simplification depends on the search for other terms only where it starts. -/
theorem simplified_congr {find' : Finder α}
    (h : (find t.expanded.withExponents).run { SearchState.start with log := s.log } =
      (find' t.expanded.withExponents).run { SearchState.start with log := s.log }) :
    (simplified find t).run s = (simplified find' t).run s := by
  cases t with
  | empty => rfl
  | _ =>
      simp only [simplified, afresh_run, run_bind]
      rw [h]

theorem simplified_state (find : Finder α) (ht : t ≠ .empty) (s : SearchState α) : ∃ events,
    ((simplified find t).run s).2 = { s with log := events ++
      ((find t.expanded.withExponents).run { SearchState.start with log := s.log }).2.log } := by
  have search : ∃ events, ((afresh do
      let input := t.expanded.withExponents
      let found := (← find input).map Term.withoutTrivialPowers
      let best := ((Term.simplest? found).getD input.withoutTrivialPowers).sorted
      note (.simplified t.text best.text found.length (← get).cache.length)
      return best).run s).2 = { s with log := events ++
        ((find t.expanded.withExponents).run { SearchState.start with log := s.log }).2.log } := by
    simp only [afresh_run, run_bind]
    cases (find t.expanded.withExponents).run { SearchState.start with log := s.log } with
    | mk r u =>
        cases r with
        | ok found => exact ⟨[_], rfl⟩
        | error e => exact ⟨[], rfl⟩
  cases t with
  | empty => exact absurd rfl ht
  | _ => exact search

end Runs

section Keeping

variable {options : SearchOptions} {rule : Term.FactoringRule α} {find : Finder α}
  {s : SearchState α}

/-- Steps that keep the state, whether they succeed or fail, can be done one after the other. -/
theorem keeps_sequential : Sequential (ι := Unit) fun _ m =>
    ∀ s : SearchState α, s.Consistent → s.Keeps ((m ()).run s).2 where
  pure b s hs := hs.keeps rfl rfl
  bind := by
    intro β γ m f hm hf s hs
    have first := hm s hs
    rw [run_bind]
    cases hrun : (m ()).run s with
    | mk r u =>
        rw [hrun] at first
        cases r with
        | ok b => exact first.trans (hf b u first.consistent)
        | error e => exact first
  fail e s hs := hs.keeps rfl rfl
  note e s hs := hs.keeps rfl rfl

variable [Scalar α]

/-- A search with a memory of its own does nothing to the state. -/
theorem simplified_keeps_state (hs : s.Consistent) (t : Term α) :
    s.Keeps ((simplified find t).run s).2 := by
  cases t with
  | empty => exact hs.keeps rfl rfl
  | _ => exact hs.keeps rfl rfl

/-- A call keeps the state if those nested in it do. -/
theorem candidatesVia_keeps
    (hfind : ∀ t, ∀ s : SearchState α, s.Consistent → s.Keeps ((find t).run s).2) (hs : s.Consistent)
    (t : Term α) : s.Keeps ((candidatesVia options rule find t).run s).2 := by
  have call := candidatesVia_call options rule find s t
  generalize (candidatesVia options rule find t).run s = result at call ⊢
  cases call with
  | known => exact hs.keeps rfl rfl
  | busy => exact hs.keeps rfl rfl
  | @inverse i operand r u inverse new idle hrun =>
      have kept := keeps_sequential.inverses (fun _ => find) hfind i operand _ (hs.enter new)
      rw [hrun] at kept
      exact kept.leave
  | failed hinv new idle hrun =>
      have kept := keeps_sequential.candidatesByRule (fun _ => find) hfind
        (fun t s hs => simplified_keeps_state hs t) rule t.sorted _ (hs.enter new)
      rw [hrun] at kept
      exact kept.leave
  | found hinv new idle hrun active cache _ =>
      have kept := keeps_sequential.candidatesByRule (fun _ => find) hfind
        (fun t s hs => simplified_keeps_state hs t) rule t.sorted _ (hs.enter new)
      rw [hrun] at kept
      exact (kept.trans (kept.consistent.keeps active cache)).leave_remember new idle

/-- A call that succeeds or fails leaves at work what was at work, remembers what was remembered, and
what else it remembers was not at work. -/
theorem candidatesWithin_keeps (options : SearchOptions) (rule : Term.FactoringRule α) (depth : ℕ)
    (t : Term α) (hs : s.Consistent) :
    s.Keeps ((candidatesWithin options rule depth t).run s).2 := by
  induction depth generalizing s t with
  | zero => exact hs.keeps rfl rfl
  | succ depth ih => exact candidatesVia_keeps (fun t s hs => ih t hs) hs t

set_option maxRecDepth 100000 in
/-- `x+1/0` fails with the sum and the quotient at work.  The mark on `y` is left, and theirs are
not. -/
theorem failing_sum_keeps :
    let s : SearchState ℚ := ⟨[("x", [.var "x" none])], ["y"], []⟩
    let sum : Term ℚ := .bin .add (.var "x" none) (.bin .div (.num 1) (.num 0))
    let run := (candidates {} Term.factorings sum).run s
    s.Consistent ∧ run.1.toOption.isNone = true ∧ s.Keeps run.2 := by
  intro s sum run
  have consistent : s.Consistent := by
    intro key hkey
    rw [List.eq_of_mem_singleton hkey]
    decide
  have fails : run.1.toOption.isNone = true := by decide +kernel
  exact ⟨consistent, fails, candidatesWithin_keeps {} Term.factorings 10000 sum consistent⟩

end Keeping

end Search

end AlgebraicTerms
