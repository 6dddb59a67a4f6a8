import AlgebraicTerms.Proofs.Search.Run

/-!
# Searches that settle

A search is bounded in its depth, so what it does is a sequence of computations, one for each depth.
It settles if they are the same from some depth on, that one is not too deep, and none meets a term
that is at work.  Then the bound is of no importance, and what the search ensures at every depth it
also returns, unless a term has no value.
-/

namespace AlgebraicTerms

namespace Search

variable {α β γ : Type}

/-- Whether searches of growing depth, started with the given subterms at work and a cache with
property `J`, return only results with property `P` and leave both as they were, from some depth on
all do the same and are not too deep, and none meets a term again. -/
structure Settles (J : Cache α → Prop) (A : List String) (m : ℕ → Search α β) (P : β → Prop) :
    Prop where
  ensures : ∀ depth, Ensures J A (m depth) P
  settled : ∀ s : SearchState α, s.active = A → J s.cache → ∃ depth r,
    (∀ deeper ≥ depth, (m deeper).run s = r) ∧ r.1 ≠ .error .tooDeep
  acyclic : ∀ depth, ∀ s : SearchState α, s.active = A → J s.cache → Acyclic s.log →
    Acyclic ((m depth).run s).2.log

namespace Settles

variable {J : Cache α → Prop} {A : List String} {m : ℕ → Search α β} {P Q : β → Prop}

/-- A search that does not depend on the depth, is not too deep and meets no term. -/
theorem const {m : Search α β} (h : Ensures J A m P)
    (shallow : ∀ s : SearchState α, (m.run s).1 ≠ .error .tooDeep)
    (quiet : ∀ s : SearchState α, Acyclic s.log → Acyclic (m.run s).2.log) :
    Settles J A (fun _ => m) P :=
  ⟨fun _ => h, fun s _ _ => ⟨0, m.run s, fun _ _ => rfl, shallow s⟩, fun _ s _ _ => quiet s⟩

theorem pure {b : β} (h : P b) : Settles J A (fun _ => (Pure.pure b : Search α β)) P :=
  const (.pure h) (fun _ => nofun) fun _ quiet => quiet

theorem throw (e : DomainError α) : Settles J A (fun _ => (throw (.domain e) : Search α β)) P :=
  const (.throw _) (fun _ => nofun) fun _ quiet => quiet

theorem mono (h : Settles J A m P) (hPQ : ∀ b, P b → Q b) : Settles J A m Q :=
  ⟨fun depth => (h.ensures depth).mono hPQ, h.settled, h.acyclic⟩

theorem bind {f : ℕ → β → Search α γ} {R : γ → Prop} (h : Settles J A m P)
    (hf : ∀ b, P b → Settles J A (fun depth => f depth b) R) :
    Settles J A (fun depth => m depth >>= f depth) R := by
  refine ⟨fun depth => (h.ensures depth).bind fun b hb => (hf b hb).ensures depth,
    fun s hA hJ => ?_, fun depth s hA hJ quiet => ?_⟩
  · obtain ⟨depth, ⟨r, s'⟩, same, shallow⟩ := h.settled s hA hJ
    cases r with
    | error e =>
        refine ⟨depth, (.error e, s'), fun deeper hd => ?_, fun h => shallow ?_⟩
        · rw [run_bind, same deeper hd]
        · cases h
          rfl
    | ok b =>
        obtain ⟨hP, hA', hJ'⟩ := h.ensures depth s hA hJ b s' (same depth (Nat.le_refl depth))
        obtain ⟨depth', r, same', shallow'⟩ := (hf b hP).settled s' hA' hJ'
        refine ⟨max depth depth', r, fun deeper hd => ?_, shallow'⟩
        rw [run_bind, same deeper (Nat.le_trans (Nat.le_max_left _ _) hd)]
        exact same' deeper (Nat.le_trans (Nat.le_max_right _ _) hd)
  · have first := h.acyclic depth s hA hJ quiet
    rw [run_bind]
    cases hrun : (m depth).run s with
    | mk r s' =>
        rw [hrun] at first
        cases r with
        | error e => exact first
        | ok b =>
            obtain ⟨hP, hA', hJ'⟩ := h.ensures depth s hA hJ b s' hrun
            exact (hf b hP).acyclic depth s' hA' hJ' first

theorem map {f : β → γ} {R : γ → Prop} (h : Settles J A m P) (hf : ∀ b, P b → R (f b)) :
    Settles J A (fun depth => f <$> m depth) R := by
  have same : (fun depth => f <$> m depth) = fun depth => m depth >>= fun b => Pure.pure (f b) :=
    funext fun depth => map_eq_pure_bind f (m depth)
  rw [same]
  exact h.bind fun b hb => pure (hf b hb)

theorem ite {c : Prop} [Decidable c] {m' : ℕ → Search α β} (h : c → Settles J A m P)
    (h' : ¬c → Settles J A m' P) : Settles J A (fun depth => if c then m depth else m' depth) P := by
  by_cases hc : c
  · simp only [if_pos hc]
    exact h hc
  · simp only [if_neg hc]
    exact h' hc

/-- A search that first looks at the state. -/
theorem get {f : ℕ → SearchState α → Search α γ} {R : γ → Prop}
    (h : ∀ s : SearchState α, s.active = A → J s.cache → Settles J A (fun depth => f depth s) R) :
    Settles J A (fun depth => MonadState.get >>= f depth) R :=
  ⟨fun depth => .get fun s hA hJ => (h s hA hJ).ensures depth,
    fun s hA hJ => (h s hA hJ).settled s hA hJ, fun depth s hA hJ => (h s hA hJ).acyclic depth s hA hJ⟩

theorem note {e : SearchEvent α} (he : e.isCycle = false) :
    Settles J A (fun _ => Search.note e) fun _ => True :=
  const (.note e) (fun _ => nofun) fun _ quiet => quiet.cons he

theorem ofExcept {r : Except (DomainError α) β} (h : ∀ b, r = .ok b → P b) :
    Settles J A (fun _ => Search.ofExcept r) P := by
  cases r with
  | ok b => exact pure (h b rfl)
  | error e => exact throw e

theorem mapM {f : ℕ → β → Search α γ} {R : β → γ → Prop} {xs : List β}
    (h : ∀ x ∈ xs, Settles J A (fun depth => f depth x) (R x)) :
    Settles J A (fun depth => xs.mapM (f depth)) (List.Forall₂ R xs) := by
  induction xs with
  | nil =>
      simp only [List.mapM_nil]
      exact pure .nil
  | cons x xs ih =>
      simp only [List.mapM_cons]
      refine (h x List.mem_cons_self).bind fun y hy => ?_
      refine (ih fun x hx => h x (List.mem_cons_of_mem _ hx)).bind fun ys hys => ?_
      exact pure (.cons hy hys)

theorem mapM_all {f : ℕ → γ → Search α β} {xs : List γ}
    (h : ∀ x ∈ xs, Settles J A (fun depth => f depth x) P) :
    Settles J A (fun depth => xs.mapM (f depth)) fun ys => ys.length = xs.length ∧ ∀ y ∈ ys, P y :=
  ⟨fun depth => .mapM_all fun x hx => (h x hx).ensures depth, (mapM h).settled, (mapM h).acyclic⟩

theorem gather {f : ℕ → γ → Search α (List β)} {xs : List γ} (hxs : xs ≠ [])
    (h : ∀ x ∈ xs, Settles J A (fun depth => f depth x) fun ys => ys ≠ [] ∧ ∀ y ∈ ys, P y) :
    Settles J A (fun depth => Search.gather (f depth) xs) fun ys => ys ≠ [] ∧ ∀ y ∈ ys, P y := by
  have all : Settles J A (fun depth => Search.gather (f depth) xs) fun _ => True :=
    (mapM h).map fun _ _ => trivial
  exact ⟨fun depth => .gather_ne_nil hxs fun x hx => (h x hx).ensures depth, all.settled,
    all.acyclic⟩

/-- A subterm is at work while it is searched. -/
theorem working {key : String} (h : Settles J (key :: A) m P) :
    Settles J A (fun depth => Search.working key (m depth)) P := by
  refine ⟨fun depth => .working (h.ensures depth), fun s hA hJ => ?_, fun depth s hA hJ =>
    h.acyclic depth { s with active := key :: s.active } (congrArg (key :: ·) hA) hJ⟩
  obtain ⟨depth, ⟨r, s'⟩, same, shallow⟩ :=
    h.settled { s with active := key :: s.active } (congrArg (key :: ·) hA) hJ
  refine ⟨depth, (r, { s' with active := s'.active.erase key }), fun deeper hd => ?_, shallow⟩
  have split : (Search.working key (m deeper)).run s =
      match (m deeper).run { s with active := key :: s.active } with
      | (r, t) => (r, { t with active := t.active.erase key }) := rfl
  rw [split, same deeper hd]

/-- A search with a memory of its own. -/
theorem afresh (h : Settles J [] m P) (empty : J []) :
    Settles J A (fun depth => Search.afresh (m depth)) P := by
  refine ⟨fun depth => .afresh (h.ensures depth) empty, fun s hA hJ => ?_, fun depth s _ _ =>
    h.acyclic depth { SearchState.start with log := s.log } rfl empty⟩
  obtain ⟨depth, ⟨r, s'⟩, same, shallow⟩ :=
    h.settled { SearchState.start with log := s.log } rfl empty
  refine ⟨depth, (r, { s with log := s'.log }), fun deeper hd => ?_, shallow⟩
  have split : (Search.afresh (m deeper)).run s =
      match (m deeper).run { SearchState.start with log := s.log } with
      | (r, t) => (r, { s with log := t.log }) := rfl
  rw [split, same deeper hd]

/-- What is remembered must keep the property of the cache. -/
theorem remember {key : String} {found : List (Term α)}
    (h : ∀ cache, J cache → J ((key, found) :: cache)) :
    Settles J A (fun _ =>
      (modify fun s => { s with cache := (key, found) :: s.cache } : Search α Unit))
      fun _ => True :=
  const (.remember h) (fun _ => nofun) fun _ quiet => quiet

/-- A search whose calls may go one level deeper. -/
theorem succ {m : ℕ → Search α β} (h : Settles J A (fun depth => m (depth + 1)) P)
    (zero : m 0 = MonadExcept.throw .tooDeep) : Settles J A m P := by
  refine ⟨fun depth => ?_, fun s hA hJ => ?_, fun depth s hA hJ quiet => ?_⟩
  · cases depth with
    | zero =>
        rw [zero]
        exact .throw _
    | succ depth => exact h.ensures depth
  · obtain ⟨depth, r, same, shallow⟩ := h.settled s hA hJ
    refine ⟨depth + 1, r, fun deeper hd => ?_, shallow⟩
    cases deeper with
    | zero => exact absurd hd (Nat.not_succ_le_zero depth)
    | succ deeper => exact same deeper (Nat.le_of_succ_le_succ hd)
  · cases depth with
    | zero =>
        rw [zero]
        exact quiet
    | succ depth => exact h.acyclic depth s hA hJ quiet

end Settles

end Search

end AlgebraicTerms
