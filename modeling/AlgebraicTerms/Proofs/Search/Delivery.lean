import AlgebraicTerms.Proofs.Search.State
import AlgebraicTerms.Simplify

/-!
# What a search delivers

A search may be known to succeed and with which result, if only the given subterms are at work and
the cache has a property.  Then rules that are made of such searches are known to succeed as well.
A term with a single candidate is simplified to that (`simplify_of_single`).
-/

namespace AlgebraicTerms

namespace Search

variable {α β γ : Type}

/-- Whether the search, started with the given subterms at work and a cache with property `J`,
succeeds with the given result and leaves both as they were. -/
def Delivers (J : Cache α → Prop) (A : List String) (m : Search α β) (b : β) : Prop :=
  ∀ s : SearchState α, s.active = A → J s.cache →
    ∃ s', m.run s = (.ok b, s') ∧ s'.active = A ∧ J s'.cache

namespace Delivers

variable {J : Cache α → Prop} {A : List String} {m : Search α β} {b : β}

theorem pure (b : β) : Delivers J A (Pure.pure b : Search α β) b :=
  fun s hA hJ => ⟨s, rfl, hA, hJ⟩

theorem bind {f : β → Search α γ} {c : γ} (h : Delivers J A m b) (hf : Delivers J A (f b) c) :
    Delivers J A (m >>= f) c := by
  intro s hA hJ
  obtain ⟨t, hm, hA, hJ⟩ := h s hA hJ
  obtain ⟨u, hu, kept⟩ := hf t hA hJ
  refine ⟨u, ?_, kept⟩
  rw [run_bind, hm]
  exact hu

theorem mapM {δ : Type} {f : δ → Search α γ} {p : β → δ} {g : β → γ} {xs : List β}
    (h : ∀ x ∈ xs, Delivers J A (f (p x)) (g x)) : Delivers J A ((xs.map p).mapM f) (xs.map g) := by
  induction xs with
  | nil =>
      rw [List.map_nil, List.mapM_nil]
      exact pure _
  | cons x xs ih =>
      obtain ⟨hx, hxs⟩ := List.forall_mem_cons.1 h
      rw [List.map_cons, List.mapM_cons]
      exact hx.bind ((ih hxs).bind (pure _))

end Delivers

/-! ## A single candidate -/

variable [Scalar α] {options : SearchOptions} {rule : Term.FactoringRule α} {find : Finder α}
  {s v : SearchState α} {t u c : Term α}

theorem pruned_singleton (options : SearchOptions) (t : Term α) : pruned options [t] = [t] := by
  have unique : distinct [] [t] = [t] := rfl
  rw [pruned, unique]
  cases options.mostCandidates with
  | none => rfl
  | some most =>
      refine List.take_of_length_le ?_
      rw [List.length_singleton]
      omega

/-- A term whose operation has one candidate has that one. -/
theorem candidatesVia_single (options : SearchOptions) (ordered : t.sorted = t)
    (hinv : ∀ i operand, t ≠ .inv i operand)
    (new : s.cache.lookup t.text = none) (idle : t.text ∉ s.active)
    (hrun : (candidatesByRule rule find t).run (s.enter t.text) = (.ok [u], v)) :
    ∃ w, (candidatesVia options rule find t).run s = (.ok [u], w) ∧
      w.active = v.active.erase t.text ∧ w.cache = (t.text, [u]) :: v.cache := by
  obtain ⟨w, active, cache, _, hcompute⟩ := compute_run options hinv hrun
  rw [← ordered] at new idle
  rw [candidatesVia_run new idle, working_run, ordered, hcompute, pruned_singleton]
  refine ⟨_, rfl, ?_, ?_⟩
  · show w.active.erase t.text = v.active.erase t.text
    rw [active]
  · show (t.text, [u]) :: w.cache = (t.text, [u]) :: v.cache
    rw [cache]

/-- The only candidate of a negation is that of its operand, negated. -/
theorem candidatesVia_neg (options : SearchOptions) (rule : Term.FactoringRule α)
    (ordered : t.sorted = t) (new : s.cache.lookup (Term.inv .neg t).text = none)
    (idle : (Term.inv .neg t).text ∉ s.active)
    (hrun : (find t).run (s.enter (Term.inv .neg t).text) = (.ok [c], v)) :
    ∃ w, (candidatesVia options rule find (.inv .neg t)).run s = (.ok [c.negated], w) := by
  have same : (Term.inv .neg t).sorted = .inv .neg t := congrArg (Term.inv .neg) ordered
  rw [← same] at new idle
  rw [candidatesVia_run new idle, working_run, same]
  have search : (compute options rule find (.inv .neg t) (Term.inv .neg t).text).run
      (s.enter (Term.inv .neg t).text) = (.ok [c.negated], v) := by
    show (find t >>= List.mapM fun c => ofExcept (c.inverted .neg)).run _ = _
    rw [run_bind, hrun]
    rfl
  rw [search]
  exact ⟨_, rfl⟩

end Search

namespace Term

variable [Scalar α] {options : SearchOptions} {t u : Term α}

/-- A search with one candidate decides what a term is simplified to. -/
theorem simplify_of_single (ht : t ≠ .empty)
    (hrun : ∃ w, (Search.candidates options factorings t.expanded.withExponents).run
      { SearchState.start with log := SearchState.start.log } = (.ok [u], w)) :
    t.simplify options = .ok u.withoutTrivialPowers.sorted := by
  obtain ⟨w, hw⟩ := hrun
  have search := Search.simplified_run (Search.candidates options factorings) ht
    SearchState.start
  rw [hw] at search
  exact search

end Term

end AlgebraicTerms
