import AlgebraicTerms.Search
import Mathlib.Data.List.Forall2

/-!
# What a search ensures

A search is judged by what it returns and by what it leaves behind: the subterms at work are those
from before, and the cache keeps a property.  Nothing is said of a search that fails, since no rule
goes on after a failure.
-/

namespace AlgebraicTerms

/-- Whether a term was met again while it was at work. -/
def SearchEvent.isCycle {α : Type} : SearchEvent α → Bool
  | cycle _ => true
  | _ => false

namespace Search

variable {α β γ : Type}

/-- Whether no term at work was met again. -/
def Acyclic (log : List (SearchEvent α)) : Prop := ∀ event ∈ log, event.isCycle = false

theorem Acyclic.suffix {log log' : List (SearchEvent α)} (h : Acyclic log') (hlog : log <:+ log') :
    Acyclic log :=
  fun event hevent => h event (hlog.subset hevent)

theorem Acyclic.cons {log : List (SearchEvent α)} {e : SearchEvent α} (h : Acyclic log)
    (he : e.isCycle = false) : Acyclic (e :: log) :=
  List.forall_mem_cons.2 ⟨he, h⟩

instance (r : Except (SearchFailure α) β) : Decidable (r = .error .tooDeep) :=
  match r with
  | .ok _ => isFalse nofun
  | .error (.domain _) => isFalse nofun
  | .error .tooDeep => isTrue rfl

abbrev Cache (α : Type) := List (String × List (Term α))

/-- Whether the search, started with the given subterms at work and a cache with property `J`, returns
only results with property `P` and leaves both as they were. -/
def Ensures (J : Cache α → Prop) (A : List String) (m : Search α β) (P : β → Prop) : Prop :=
  ∀ s : SearchState α, s.active = A → J s.cache → ∀ b s', m.run s = (.ok b, s') →
    P b ∧ s'.active = A ∧ J s'.cache

theorem run_bind (m : Search α β) (f : β → Search α γ) (s : SearchState α) :
    (m >>= f).run s = match m.run s with
      | (.ok b, s') => (f b).run s'
      | (.error e, s') => (.error e, s') := by
  show (match m.run s with | (r, s') => ExceptT.bindCont f r s') = _
  obtain ⟨r, s'⟩ := m.run s
  cases r <;> rfl

/-- Whether some start of the search returns the result. -/
def Yields (m : Search α β) (b : β) : Prop := ∃ s s', m.run s = (.ok b, s')

namespace Ensures

variable {J : Cache α → Prop} {A : List String} {m : Search α β} {P Q : β → Prop}

theorem pure {b : β} (h : P b) : Ensures J A (Pure.pure b : Search α β) P := by
  rintro s hA hJ _ _ ⟨⟩
  exact ⟨h, hA, hJ⟩

theorem throw (e : SearchFailure α) : Ensures J A (throw e : Search α β) P := by
  rintro s hA hJ _ _ ⟨⟩

theorem mono (h : Ensures J A m P) (hPQ : ∀ b, P b → Q b) : Ensures J A m Q := by
  intro s hA hJ b s' hrun
  obtain ⟨hP, kept⟩ := h s hA hJ b s' hrun
  exact ⟨hPQ b hP, kept⟩

/-- What a search ensures holds of results that it does return. -/
theorem yields (h : Ensures J A m P) : Ensures J A m fun b => P b ∧ Yields m b := by
  intro s hA hJ b s' hrun
  obtain ⟨hP, kept⟩ := h s hA hJ b s' hrun
  exact ⟨⟨hP, s, s', hrun⟩, kept⟩

theorem bind {f : β → Search α γ} {R : γ → Prop} (h : Ensures J A m P)
    (hf : ∀ b, P b → Ensures J A (f b) R) : Ensures J A (m >>= f) R := by
  intro s hA hJ c s' hrun
  rw [run_bind] at hrun
  cases hm : m.run s with
  | mk r t =>
      rw [hm] at hrun
      cases r with
      | ok b =>
          obtain ⟨hP, hA', hJ'⟩ := h s hA hJ b t hm
          exact hf b hP t hA' hJ' c s' hrun
      | error e => cases hrun

/-- A search that first looks at the state. -/
theorem get {f : SearchState α → Search α γ} {R : γ → Prop}
    (h : ∀ s : SearchState α, s.active = A → J s.cache → Ensures J A (f s) R) :
    Ensures J A (MonadState.get >>= f) R :=
  fun s hA hJ c s' hrun => h s hA hJ s hA hJ c s' hrun

theorem note (e : SearchEvent α) : Ensures J A (note e) fun _ => True := by
  rintro s hA hJ _ _ ⟨⟩
  exact ⟨trivial, hA, hJ⟩

theorem ofExcept {r : Except (DomainError α) β} (h : ∀ b, r = .ok b → P b) :
    Ensures J A (ofExcept r) P := by
  cases r with
  | ok b => exact pure (h b rfl)
  | error e => exact throw _

theorem mapM {f : β → Search α γ} {R : β → γ → Prop} {xs : List β}
    (h : ∀ x ∈ xs, Ensures J A (f x) (R x)) : Ensures J A (xs.mapM f) (List.Forall₂ R xs) := by
  induction xs with
  | nil =>
      rw [List.mapM_nil]
      exact pure .nil
  | cons x xs ih =>
      rw [List.mapM_cons]
      refine (h x List.mem_cons_self).bind fun y hy => ?_
      refine (ih fun x hx => h x (List.mem_cons_of_mem _ hx)).bind fun ys hys => ?_
      exact pure (.cons hy hys)

theorem mapM_all {f : γ → Search α β} {xs : List γ} (h : ∀ x ∈ xs, Ensures J A (f x) P) :
    Ensures J A (xs.mapM f) fun ys => ys.length = xs.length ∧ ∀ y ∈ ys, P y := by
  refine (mapM h).mono fun ys hys => ⟨hys.length_eq.symm, ?_⟩
  clear h
  induction hys with
  | nil => exact fun y hy => nomatch hy
  | cons hfirst _ ih => exact List.forall_mem_cons.2 ⟨hfirst, ih⟩

/-- All results of a step on every element. -/
theorem gather {f : γ → Search α (List β)} {xs : List γ}
    (h : ∀ x ∈ xs, Ensures J A (f x) fun ys => ∀ y ∈ ys, P y) :
    Ensures J A (gather f xs) fun ys => ∀ y ∈ ys, P y := by
  refine (mapM_all h).bind fun yss hyss => pure fun y hy => ?_
  obtain ⟨ys, hys, hy⟩ := List.mem_flatten.1 hy
  exact hyss.2 ys hys y hy

theorem gather_ne_nil {f : γ → Search α (List β)} {xs : List γ} (hxs : xs ≠ [])
    (h : ∀ x ∈ xs, Ensures J A (f x) fun ys => ys ≠ [] ∧ ∀ y ∈ ys, P y) :
    Ensures J A (Search.gather f xs) fun ys => ys ≠ [] ∧ ∀ y ∈ ys, P y := by
  refine (mapM_all h).bind fun yss hyss => pure ⟨?_, fun y hy => ?_⟩
  · cases yss with
    | nil => exact absurd (List.length_eq_zero_iff.1 hyss.1.symm) hxs
    | cons ys yss => exact List.append_ne_nil_of_left_ne_nil (hyss.2 ys List.mem_cons_self).1 _
  · obtain ⟨ys, hys, hy⟩ := List.mem_flatten.1 hy
    exact (hyss.2 ys hys).2 y hy

/-- A subterm is at work while it is searched. -/
theorem working {key : String} (h : Ensures J (key :: A) m P) : Ensures J A (working key m) P := by
  intro s hA hJ b s' hrun
  have split : (Search.working key m).run s =
      match m.run { s with active := key :: s.active } with
      | (r, t) => (r, { t with active := t.active.erase key }) := rfl
  rw [split] at hrun
  cases hm : m.run { s with active := key :: s.active } with
  | mk r t =>
      rw [hm] at hrun
      cases hrun
      let busy := { s with active := key :: s.active }
      obtain ⟨hP, hA', hJ'⟩ := h busy (congrArg (key :: ·) hA) hJ b t hm
      refine ⟨hP, ?_, hJ'⟩
      show t.active.erase key = A
      rw [hA', List.erase_cons_head]

/-- A search with a memory of its own. -/
theorem afresh (h : Ensures J [] m P) (empty : J []) : Ensures J A (afresh m) P := by
  intro s hA hJ b s' hrun
  have split : (Search.afresh m).run s =
      match m.run { SearchState.start with log := s.log } with
      | (r, t) => (r, { s with log := t.log }) := rfl
  rw [split] at hrun
  cases hm : m.run { SearchState.start with log := s.log } with
  | mk r t =>
      rw [hm] at hrun
      cases hrun
      exact ⟨(h _ rfl empty b t hm).1, hA, hJ⟩

/-- What is remembered must keep the property of the cache. -/
theorem remember {key : String} {found : List (Term α)}
    (h : ∀ cache, J cache → J ((key, found) :: cache)) :
    Ensures J A (modify fun s => { s with cache := (key, found) :: s.cache } : Search α Unit)
      fun _ => True := by
  rintro s hA hJ _ _ ⟨⟩
  exact ⟨trivial, hA, h _ hJ⟩

end Ensures

/-- Whether every result of the search has the property, whatever state it is started in. -/
def Returns (m : Search α β) (P : β → Prop) : Prop :=
  ∀ s b s', m.run s = (.ok b, s') → P b

namespace Returns

variable {m : Search α β} {P Q : β → Prop}

theorem any (m : Search α β) : Returns m fun _ => True := fun _ _ _ _ => trivial

theorem pure {b : β} (h : P b) : Returns (Pure.pure b : Search α β) P := by
  rintro s _ _ ⟨⟩
  exact h

theorem mono (h : Returns m P) (hPQ : ∀ b, P b → Q b) : Returns m Q :=
  fun s b s' hrun => hPQ b (h s b s' hrun)

theorem bind {f : β → Search α γ} {R : γ → Prop} (h : Returns m P)
    (hf : ∀ b, P b → Returns (f b) R) : Returns (m >>= f) R := by
  intro s c s' hrun
  rw [run_bind] at hrun
  cases hm : m.run s with
  | mk r t =>
      rw [hm] at hrun
      cases r with
      | ok b => exact hf b (h s b t hm) t c s' hrun
      | error e => cases hrun

end Returns

end Search

end AlgebraicTerms
