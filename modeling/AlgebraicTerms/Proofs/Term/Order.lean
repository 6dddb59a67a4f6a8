import AlgebraicTerms.Proofs.Scalar.Ordered
import AlgebraicTerms.Term.Order

/-!
# Canonical order

Sorting is stable, so it forgets the order in which operands were given only where their keys tell
them apart.  Two lists of operands may be exchanged if the keys tell those of the one from those of
the other (`sortByKey_append_comm`), and operands may be permuted if all of them are told apart
(`sortByKey_eq_of_perm`).
-/

namespace AlgebraicTerms

variable {α : Type} [Scalar α]

namespace SortKey

/-- Whether one of two keys has a lesser degree, or a lesser weight at the same degree.  A degree that
is no number sets nothing apart. -/
def Apart (a b : SortKey α) : Prop :=
  Scalar.lt a.degree b.degree = true ∨ Scalar.lt b.degree a.degree = true ∨
    (a.degree == b.degree) = true ∧ a.weight ≠ b.weight

instance (a b : SortKey α) : Decidable (a.Apart b) := inferInstanceAs (Decidable (_ ∨ _ ∨ _ ∧ _))

variable {a b c : SortKey α}

theorem before_iff : a.before b = true ↔ Scalar.lt a.degree b.degree = true ∨
    Scalar.lt b.degree a.degree = false ∧ a.weight < b.weight := by
  unfold before
  cases Scalar.lt a.degree b.degree <;> cases Scalar.lt b.degree a.degree <;> simp

variable [Scalar.Ordered α]

open Scalar.Ordered

theorem before_asymm (h : a.before b = true) : b.before a = false := by
  refine Bool.eq_false_iff.2 fun h' => ?_
  rcases before_iff.1 h with h | ⟨h, hw⟩ <;> rcases before_iff.1 h' with h' | ⟨h', hw'⟩
  · exact absurd h' (Bool.eq_false_iff.1 (lt_asymm h))
  · exact absurd h (Bool.eq_false_iff.1 h')
  · exact absurd h' (Bool.eq_false_iff.1 h)
  · exact absurd hw (Nat.lt_asymm hw')

theorem lt_of_beq {m n : α} (h : (m == n) = true) : Scalar.lt m n = false := by
  refine Bool.eq_false_iff.2 fun hlt => ?_
  have self : Scalar.lt n n = true := (lt_congr_left n h).symm.trans hlt
  exact absurd self (Bool.eq_false_iff.1 (lt_asymm self))

namespace Apart

theorem symm (h : a.Apart b) : b.Apart a := by
  rcases h with h | h | ⟨h, hw⟩
  · exact .inr (.inl h)
  · exact .inl h
  · exact .inr (.inr ⟨beq_symm h, hw.symm⟩)

omit [Scalar.Ordered α] in
/-- Of keys that are apart, one comes first by its degree, or by its weight at the same degree. -/
theorem before (h : a.Apart b) (hab : a.before b = true) :
    Scalar.lt a.degree b.degree = true ∨ (a.degree == b.degree) = true ∧ a.weight < b.weight := by
  rcases before_iff.1 hab with hlt | ⟨hlt, hw⟩
  · exact .inl hlt
  · rcases h with h | h | ⟨h, _⟩
    · exact .inl h
    · exact absurd h (Bool.eq_false_iff.1 hlt)
    · exact .inr ⟨h, hw⟩

theorem total (h : a.Apart b) : a.before b = true ∨ b.before a = true := by
  rcases h with h | h | ⟨h, hw⟩
  · exact .inl (before_iff.2 (.inl h))
  · exact .inr (before_iff.2 (.inl h))
  · rcases Nat.lt_or_gt_of_ne hw with hw | hw
    · exact .inl (before_iff.2 (.inr ⟨lt_of_beq (beq_symm h), hw⟩))
    · exact .inr (before_iff.2 (.inr ⟨lt_of_beq h, hw⟩))

theorem before_trans (hab : a.Apart b) (hbc : b.Apart c) (h : a.before b = true)
    (h' : b.before c = true) : a.before c = true := by
  rcases hab.before h with h | ⟨h, hw⟩ <;> rcases hbc.before h' with h' | ⟨h', hw'⟩
  · exact before_iff.2 (.inl (lt_trans h h'))
  · exact before_iff.2 (.inl ((lt_congr_right _ h').symm.trans h))
  · exact before_iff.2 (.inl ((lt_congr_left _ h).trans h'))
  · have equal := beq_trans h h'
    exact before_iff.2 (.inr ⟨lt_of_beq (beq_symm equal), Nat.lt_trans hw hw'⟩)

end Apart

end SortKey

namespace Term

def sortKey (t : Term α) : SortKey α := ⟨t.degree, t.weight⟩

/-- Whether two operands are the same or have keys that tell them apart. -/
def Comparable (t u : Term α) : Prop := t = u ∨ t.sortKey.Apart u.sortKey

instance [DecidableEq (Term α)] (t u : Term α) : Decidable (t.Comparable u) :=
  inferInstanceAs (Decidable (_ ∨ _))

/-- Adds a term to a list that is ordered last first. -/
def insertByKey (t : Term α) : List (Term α) → List (Term α)
  | [] => [t]
  | u :: us => if t.sortKey.before u.sortKey then u :: insertByKey t us else t :: u :: us

end Term

open Term

variable {t u v : Term α} {ts us vs done : List (Term α)}

/-- Keys need not be computed in advance. -/
theorem sortByKey_eq (ts : List (Term α)) :
    sortByKey ts = (ts.foldl (fun done t => insertByKey t done) []).reverse := by
  let keyed (t : Term α) : SortKey α × Term α := (t.sortKey, t)
  have insert (t : Term α) (us : List (Term α)) :
      insertKeyed (keyed t) (us.map keyed) = (insertByKey t us).map keyed := by
    induction us with
    | nil => rfl
    | cons u us ih =>
        rw [List.map_cons, insertKeyed, insertByKey, ih]
        by_cases h : t.sortKey.before u.sortKey = true
        · rw [if_pos h, if_pos h, List.map_cons]
        · rw [if_neg h, if_neg h, List.map_cons, List.map_cons]
  have fold (ts done : List (Term α)) :
      (ts.map keyed).foldl (fun done x => insertKeyed x done) (done.map keyed) =
        (ts.foldl (fun done t => insertByKey t done) done).map keyed := by
    induction ts generalizing done with
    | nil => rfl
    | cons t ts ih => rw [List.map_cons, List.foldl_cons, List.foldl_cons, insert, ih]
  have sorted := congrArg (fun l => (l.map (·.2)).reverse) (fold ts [])
  refine sorted.trans (congrArg List.reverse ?_)
  rw [List.map_map]
  exact List.map_id _

theorem mem_insertByKey : v ∈ insertByKey t us ↔ v = t ∨ v ∈ us := by
  induction us with
  | nil => simp [insertByKey]
  | cons u us ih =>
      rw [insertByKey]
      split
      · rw [List.mem_cons, ih, List.mem_cons, or_left_comm]
      · exact List.mem_cons

variable [Scalar.Ordered α]

namespace Term.Comparable

theorem symm (h : t.Comparable u) : u.Comparable t := by
  rcases h with h | h
  · exact .inl h.symm
  · exact .inr h.symm

/-- Keys are transitive if the middle one can be told from the others, or the first from both. -/
theorem before_trans (htu : t.sortKey.Apart u.sortKey) (hv : t.Comparable v ∨ u.Comparable v)
    (h : t.sortKey.before u.sortKey = true) (h' : u.sortKey.before v.sortKey = true) :
    t.sortKey.before v.sortKey = true := by
  rcases hv with (rfl | htv) | rfl | huv
  · exact absurd h' (Bool.eq_false_iff.1 (SortKey.before_asymm h))
  · refine htv.total.resolve_right fun hvt => ?_
    have hvu := htv.symm.before_trans htu hvt h
    exact absurd h' (Bool.eq_false_iff.1 (SortKey.before_asymm hvu))
  · exact h
  · exact htu.before_trans huv h h'

end Term.Comparable

/-- Terms that are told apart can be inserted in either order. -/
theorem insertByKey_comm (htu : t.Comparable u)
    (hus : ∀ v ∈ us, t.Comparable v ∨ u.Comparable v) :
    insertByKey t (insertByKey u us) = insertByKey u (insertByKey t us) := by
  rcases htu with rfl | htu
  · rfl
  -- of the two, `t` comes first
  wlog first : t.sortKey.before u.sortKey = true generalizing t u
  · have second := htu.total.resolve_left first
    exact (this (fun v hv => (hus v hv).symm) htu.symm second).symm
  have last := Bool.eq_false_iff.1 (SortKey.before_asymm first)
  induction us with
  | nil =>
      simp only [insertByKey]
      rw [if_pos first, if_neg last]
  | cons v us ih =>
      have hv := hus v List.mem_cons_self
      have hlater := ih fun w hw => hus w (List.mem_cons_of_mem _ hw)
      by_cases huv : u.sortKey.before v.sortKey = true
      · have htv := Comparable.before_trans htu hv first huv
        simp only [insertByKey]
        rw [if_pos huv, if_pos htv]
        simp only [insertByKey]
        rw [if_pos huv, if_pos htv, hlater]
      · by_cases htv : t.sortKey.before v.sortKey = true
        · simp only [insertByKey]
          rw [if_neg huv, if_pos htv]
          simp only [insertByKey]
          rw [if_pos first, if_pos htv, if_neg huv]
        · simp only [insertByKey]
          rw [if_neg huv, if_neg htv]
          simp only [insertByKey]
          rw [if_pos first, if_neg htv, if_neg last]

/-- Operands may be sorted after others that they are told from. -/
theorem foldl_insertByKey_comm (h : ∀ t ∈ ts, ∀ u ∈ us, t.Comparable u)
    (hdone : ∀ v ∈ done, (∀ t ∈ ts, t.Comparable v) ∨ ∀ u ∈ us, u.Comparable v) :
    us.foldl (fun done t => insertByKey t done) (ts.foldl (fun done t => insertByKey t done) done) =
      ts.foldl (fun done t => insertByKey t done)
        (us.foldl (fun done t => insertByKey t done) done) := by
  have past (t : Term α) (us done : List (Term α)) (h : ∀ u ∈ us, t.Comparable u)
      (hdone : ∀ v ∈ done, t.Comparable v ∨ ∀ u ∈ us, u.Comparable v) :
      us.foldl (fun done t => insertByKey t done) (insertByKey t done) =
        insertByKey t (us.foldl (fun done t => insertByKey t done) done) := by
    induction us generalizing done with
    | nil => rfl
    | cons u us ih =>
        have swap : insertByKey u (insertByKey t done) = insertByKey t (insertByKey u done) :=
          (insertByKey_comm (h u List.mem_cons_self) fun v hv =>
            (hdone v hv).imp_right fun all => all u List.mem_cons_self).symm
        rw [List.foldl_cons, List.foldl_cons, swap]
        refine ih _ (fun w hw => h w (List.mem_cons_of_mem _ hw)) fun v hv => ?_
        rcases mem_insertByKey.1 hv with rfl | hv
        · exact .inl (h _ List.mem_cons_self)
        · exact (hdone v hv).imp_right fun all w hw => all w (List.mem_cons_of_mem _ hw)
  induction ts generalizing done with
  | nil => rfl
  | cons t ts ih =>
      have ht := h t List.mem_cons_self
      rw [List.foldl_cons, List.foldl_cons, ih (fun s hs => h s (List.mem_cons_of_mem _ hs)),
        past t us done ht]
      · exact fun v hv => (hdone v hv).imp_left fun all => all t List.mem_cons_self
      · intro v hv
        rcases mem_insertByKey.1 hv with rfl | hv
        · exact .inr fun u hu => (ht u hu).symm
        · exact (hdone v hv).imp_left fun all s hs => all s (List.mem_cons_of_mem _ hs)

/-- It does not matter which of two lists comes first if the keys tell their operands apart. -/
theorem sortByKey_append_comm (h : ∀ t ∈ ts, ∀ u ∈ us, t.Comparable u) :
    sortByKey (ts ++ us) = sortByKey (us ++ ts) := by
  rw [sortByKey_eq, sortByKey_eq, List.foldl_append, List.foldl_append,
    foldl_insertByKey_comm h fun _ hv => absurd hv List.not_mem_nil]

/-- The order of operands does not matter if the keys tell all of them apart. -/
theorem sortByKey_eq_of_perm (h : ts.Perm us) (hts : ∀ t ∈ ts, ∀ u ∈ ts, t.Comparable u) :
    sortByKey ts = sortByKey us := by
  rw [sortByKey_eq, sortByKey_eq]
  refine congrArg List.reverse ?_
  have fold (done : List (Term α)) (hdone : ∀ t ∈ ts, ∀ v ∈ done, t.Comparable v) :
      ts.foldl (fun done t => insertByKey t done) done =
        us.foldl (fun done t => insertByKey t done) done := by
    induction h generalizing done with
    | nil => rfl
    | @cons t ts us _ ih =>
        refine ih (fun s hs r hr => hts s (List.mem_cons_of_mem _ hs) r (List.mem_cons_of_mem _ hr))
          _ fun s hs v hv => ?_
        rcases mem_insertByKey.1 hv with rfl | hv
        · exact hts s (List.mem_cons_of_mem _ hs) _ List.mem_cons_self
        · exact hdone s (List.mem_cons_of_mem _ hs) v hv
    | swap t u ts =>
        have swap : insertByKey t (insertByKey u done) = insertByKey u (insertByKey t done) :=
          insertByKey_comm (hts t (List.mem_cons_of_mem _ List.mem_cons_self) u List.mem_cons_self)
            fun v hv => .inl (hdone t (List.mem_cons_of_mem _ List.mem_cons_self) v hv)
        rw [List.foldl_cons, List.foldl_cons, List.foldl_cons, List.foldl_cons, swap]
    | @trans ts us vs hperm _ ih ih' =>
        refine (ih hts done hdone).trans (ih' (fun t ht u hu => ?_) done fun t ht => ?_)
        · exact hts t (hperm.mem_iff.2 ht) u (hperm.mem_iff.2 hu)
        · exact hdone t (hperm.mem_iff.2 ht)
  exact fold [] fun _ _ _ hv => absurd hv List.not_mem_nil

end AlgebraicTerms
