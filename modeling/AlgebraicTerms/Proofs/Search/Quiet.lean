import AlgebraicTerms.Proofs.Search.Memory

/-!
# Quiet searches

A search that never met a term at work does the same if meeting one is a failure
(`candidatesQuietly_run`).  So what its rules find may be judged as if they never did.
-/

namespace AlgebraicTerms

namespace Search

variable {α β : Type}

instance (log : List (SearchEvent α)) : Decidable (Acyclic log) :=
  inferInstanceAs (Decidable (∀ event ∈ log, event.isCycle = false))

/-- The search, which fails if a term at work was met by its end. -/
def quietly (search : Search α β) : Search α β := do
  let b ← search
  let state ← get
  if Acyclic state.log then return b else throw .tooDeep

theorem quietly_run {m : Search α β} {s : SearchState α} (quiet : Acyclic (m.run s).2.log) :
    (quietly m).run s = m.run s := by
  rw [quietly, run_bind]
  cases hrun : m.run s with
  | mk r u =>
      rw [hrun] at quiet
      cases r with
      | error e => rfl
      | ok b =>
          show ((if Acyclic u.log then pure b else throw .tooDeep : Search α β)).run u = _
          rw [if_pos quiet]
          rfl

/-- A quiet search that succeeds did so without meeting a term at work. -/
theorem run_of_quietly {m : Search α β} {s u : SearchState α} {b : β}
    (h : (quietly m).run s = (.ok b, u)) : m.run s = (.ok b, u) ∧ Acyclic u.log := by
  rw [quietly, run_bind] at h
  cases hrun : m.run s with
  | mk r v =>
      rw [hrun] at h
      cases r with
      | error e => cases h
      | ok c =>
          change ((if Acyclic v.log then pure c else throw .tooDeep : Search α β)).run v = _ at h
          by_cases quiet : Acyclic v.log
          · rw [if_pos quiet] at h
            cases h
            exact ⟨rfl, quiet⟩
          · rw [if_neg quiet] at h
            cases h

/-- Whether the second of two searches only adds to the log, and the first does the same unless a term
at work is met. -/
structure Hushed (m : Bool → Search α β) : Prop where
  log : ∀ s, s.log <:+ ((m true).run s).2.log
  quiet : ∀ s, Acyclic ((m true).run s).2.log → (m false).run s = (m true).run s

theorem hushed_sequential : Sequential (α := α) fun _ m => Hushed m where
  pure b := ⟨fun s => List.suffix_rfl, fun s _ => rfl⟩
  bind := by
    intro β γ m f hm hf
    refine ⟨fun s => ?_, fun s quiet => ?_⟩
    · have first := hm.log s
      rw [run_bind]
      cases hrun : (m true).run s with
      | mk r v =>
          rw [hrun] at first
          cases r with
          | ok b => exact first.trans ((hf b).log v)
          | error e => exact first
    · have first := hm.quiet s
      rw [run_bind] at quiet ⊢
      rw [run_bind]
      cases hrun : (m true).run s with
      | mk r v =>
          rw [hrun] at quiet first
          cases r with
          | ok b =>
              rw [first (quiet.suffix ((hf b).log v))]
              exact (hf b).quiet v quiet
          | error e => rw [first quiet]
  fail e := ⟨fun s => List.suffix_rfl, fun s _ => rfl⟩
  note e := ⟨fun s => List.suffix_cons e s.log, fun s _ => rfl⟩

variable [Scalar α] {D : Term α → Prop} [DecidablePred D]

/-- The candidates of a term, which fails if it or a term in a nested call is not in `D` or is met at
work. -/
def candidatesQuietly (D : Term α → Prop) [DecidablePred D] (options : SearchOptions)
    (rule : Term.FactoringRule α) : Nat → Finder α
  | 0, _ => throw .tooDeep
  | depth + 1, t =>
    if D t.sorted then quietly (candidatesVia options rule (candidatesQuietly D options rule depth) t)
    else throw .tooDeep

variable {options : SearchOptions} {rule : Term.FactoringRule α} {finder : Bool → Finder α}

theorem simplified_hushed (hfind : ∀ t, Hushed fun i => finder i t) (t : Term α) :
    Hushed fun i => simplified (finder i) t := by
  by_cases empty : t = .empty
  · rw [empty]
    exact ⟨fun s => List.suffix_rfl, fun s _ => rfl⟩
  · have written (s : SearchState α) : ((finder true t.expanded.withExponents).run
        { SearchState.start with log := s.log }).2.log <:+
          ((simplified (finder true) t).run s).2.log := by
      obtain ⟨events, state⟩ := simplified_state (finder true) empty s
      rw [state]
      exact List.suffix_append events _
    refine ⟨fun s => ?_, fun s quiet => simplified_congr ?_⟩
    · exact ((hfind _).log { SearchState.start with log := s.log }).trans (written s)
    · exact (hfind _).quiet _ (quiet.suffix (written s))

section Calls

variable (finder) (hfind : ∀ t, Hushed fun i => finder i t)

include hfind

theorem compute_hushed (t : Term α) (key : String) :
    Hushed fun i => compute options rule (finder i) t key := by
  by_cases inverse : ∃ i operand, t = .inv i operand
  · obtain ⟨i, operand, rfl⟩ := inverse
    exact hushed_sequential.inverses finder hfind i operand
  · have hinv : ∀ i operand, t ≠ .inv i operand := fun i operand h => inverse ⟨i, operand, h⟩
    have byRule := hushed_sequential.candidatesByRule finder hfind (simplified_hushed hfind) rule t
    have stores (all : List (Term α)) : Hushed fun _ => store options key all := by
      refine ⟨fun s => ?_, fun s _ => rfl⟩
      obtain ⟨events, hkept⟩ := kept_run options all s
      rw [store, run_bind, hkept]
      exact (List.suffix_append events s.log).trans (List.suffix_cons _ _)
    simp only [compute_by_rule hinv]
    exact hushed_sequential.bind (f := fun _ => store options key) byRule stores

theorem candidatesVia_hushed (t : Term α) :
    Hushed fun i => candidatesVia options rule (finder i) t := by
  have computes : Hushed fun i => compute options rule (finder i) t.sorted t.sorted.text :=
    compute_hushed finder hfind t.sorted t.sorted.text
  refine ⟨fun s => ?_, fun s quiet => candidatesVia_congr fun new idle => ?_⟩
  · by_cases idle : s.cache.lookup t.sorted.text = none ∧ t.sorted.text ∉ s.active
    · rw [candidatesVia_run idle.1 idle.2, working_run]
      exact computes.log (s.enter t.sorted.text)
    · have call := candidatesVia_call options rule (finder true) s t
      generalize (candidatesVia options rule (finder true) t).run s = result at call ⊢
      cases call with
      | known => exact List.suffix_rfl
      | busy => exact List.suffix_cons _ s.log
      | inverse _ new free => exact absurd ⟨new, free⟩ idle
      | failed _ new free => exact absurd ⟨new, free⟩ idle
      | found _ new free => exact absurd ⟨new, free⟩ idle
  · rw [candidatesVia_run new idle, working_run] at quiet
    exact computes.quiet _ quiet

end Calls

theorem candidatesQuietly_hushed (options : SearchOptions) (rule : Term.FactoringRule α) (depth : ℕ)
    (t : Term α) : Hushed fun free =>
      if free then candidatesAmong D options rule depth t
      else candidatesQuietly D options rule depth t := by
  induction depth generalizing t with
  | zero => exact ⟨fun s => List.suffix_rfl, fun s _ => rfl⟩
  | succ depth ih =>
      let finder (free : Bool) : Finder α := fun t =>
        if free then candidatesAmong D options rule depth t
        else candidatesQuietly D options rule depth t
      have call : Hushed fun free => candidatesVia options rule (finder free) t :=
        candidatesVia_hushed finder ih t
      have among : candidatesAmong D options rule (depth + 1) t =
          if D t.sorted then candidatesVia options rule (finder true) t else throw .tooDeep := rfl
      have quietly : candidatesQuietly D options rule (depth + 1) t =
          if D t.sorted then Search.quietly (candidatesVia options rule (finder false) t)
          else throw .tooDeep := rfl
      rw [among, quietly]
      by_cases inside : D t.sorted
      · rw [if_pos inside, if_pos inside]
        refine ⟨call.log, fun s quiet => ?_⟩
        have same := call.quiet s quiet
        show (Search.quietly (candidatesVia options rule (finder false) t)).run s = _
        rw [quietly_run, same]
        · rfl
        · rw [same]
          exact quiet
      · rw [if_neg inside, if_neg inside]
        exact ⟨fun s => List.suffix_rfl, fun s _ => rfl⟩

/-- A search that does not meet a term at work does the same if it fails on meeting one. -/
theorem candidatesQuietly_run {depth : ℕ} {t : Term α} {s : SearchState α}
    (quiet : Acyclic ((candidatesAmong D options rule depth t).run s).2.log) :
    (candidatesQuietly D options rule depth t).run s =
      (candidatesAmong D options rule depth t).run s :=
  (candidatesQuietly_hushed options rule depth t).quiet s quiet

end Search

end AlgebraicTerms
