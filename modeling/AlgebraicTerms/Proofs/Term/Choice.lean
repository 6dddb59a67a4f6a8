import AlgebraicTerms.Proofs.Term.Total
import AlgebraicTerms.Term.Choice
import Mathlib.Data.List.MinMax
import Mathlib.Data.Prod.Lex

/-!
# The choice of the simplest term

Terms in the order of their simplicity: by the nodes, then by the bytes of their texts, then by their
operands, of which more are better (`complexity`).  The choice keeps the simplest term so far, and the
earlier one of two that are tied, so it is the first minimum of the list.  Only the first term of all
starts without operands, and gives way to the others if one of them has as many nodes and bytes and
none is simpler (`simplest?_cons`).
-/

namespace AlgebraicTerms

namespace Term

open OrderDual (toDual)

variable {α : Type} [Scalar α]

/-- The nodes of the term, then the bytes of its text. -/
def extent (t : Term α) : ℕ ×ₗ ℕ := toLex (t.nodeCount, t.textBytes)

/-- The less, the simpler is the term: its nodes, then the bytes of its text, then its operands, more
of them before fewer. -/
def complexity (t : Term α) : ℕ ×ₗ ℕ ×ₗ ℕᵒᵈ :=
  toLex (t.nodeCount, toLex (t.textBytes, toDual t.operands.length))

variable {t u : Term α} {ts us : List (Term α)}

/-! ## One comparison -/

theorem complexity_lt_iff {n b k : Nat} : t.complexity < toLex (n, toLex (b, toDual k)) ↔
    t.nodeCount < n ∨ t.nodeCount = n ∧
      (t.textBytes < b ∨ t.textBytes = b ∧ k < t.operands.length) := by
  simp only [complexity, Prod.Lex.toLex_lt_toLex, OrderDual.toDual_lt_toDual]

theorem extent_le_iff : u.extent ≤ t.extent ↔
    u.nodeCount < t.nodeCount ∨ u.nodeCount = t.nodeCount ∧ u.textBytes ≤ t.textBytes :=
  Prod.Lex.toLex_le_toLex

theorem complexity_lt_of_extent_lt (h : u.extent < t.extent) : u.complexity < t.complexity := by
  have h := Prod.Lex.toLex_lt_toLex.1 h
  apply complexity_lt_iff.2
  tauto

theorem extent_le_of_complexity_le (h : u.complexity ≤ t.complexity) : u.extent ≤ t.extent :=
  not_lt.1 fun lt => not_lt.2 h (complexity_lt_of_extent_lt lt)

namespace Champion

/-- What a simpler term has to beat. -/
def complexity (c : Champion α) : ℕ ×ₗ ℕ ×ₗ ℕᵒᵈ :=
  toLex (c.nodes, toLex (c.bytes, toDual c.operands))

/-- The champion gives way to a simpler term only. -/
theorem meet_eq (c : Champion α) (t : Term α) :
    c.meet t = if t.complexity < c.complexity then .of t else c := by
  have simpler : t.complexity < c.complexity ↔ _ := complexity_lt_iff
  by_cases h : t.complexity < c.complexity
  · rw [if_pos h]
    have h := simpler.1 h
    unfold meet
    dsimp only [of]
    repeat' split
    all_goals first | rfl | omega
  · rw [if_neg h]
    have h := mt simpler.2 h
    unfold meet
    dsimp only [of]
    repeat' split
    all_goals first | rfl | omega

/-- Without operands, a champion gives way to all terms with no more nodes and bytes. -/
theorem meet_start (t u : Term α) : meet { of t with operands := 0 } u =
    if u.extent ≤ t.extent then of u else { of t with operands := 0 } := by
  have some := List.length_pos_of_ne_nil (operands_ne_nil u)
  rw [meet_eq]
  simp only [complexity, complexity_lt_iff, extent_le_iff, of]
  congr 1
  apply propext
  omega

end Champion

/-! ## All comparisons -/

theorem argmin_cons_cons {β γ : Type} [LinearOrder γ] (f : β → γ) (a b : β) (l : List β) :
    (a :: b :: l).argmin f = ((if f b < f a then b else a) :: l).argmin f := by
  show l.foldl _ (if f b < f a then some b else some a) = l.foldl _ (some (if f b < f a then b else a))
  rw [apply_ite some]

theorem argmin_cons_of_le {β γ : Type} [LinearOrder γ] {f : β → γ} {a : β} {l : List β}
    (h : ∀ b ∈ l, f a ≤ f b) : (a :: l).argmin f = some a := by
  induction l with
  | nil => rfl
  | cons b l ih =>
      have first := h b List.mem_cons_self
      rw [argmin_cons_cons, if_neg (not_lt.2 first), ih fun c hc => h c (List.mem_cons_of_mem _ hc)]

theorem argmin_cons_of_lt {β γ : Type} [LinearOrder γ] {f : β → γ} {a b : β} {l : List β}
    (hb : b ∈ l) (h : f b < f a) : (a :: l).argmin f = l.argmin f := by
  rw [List.argmin_cons]
  cases hm : l.argmin f with
  | none =>
      rw [List.argmin_eq_none.1 hm] at hb
      cases hb
  | some m =>
      have least := List.le_of_mem_argmin hb hm
      exact if_pos (lt_of_le_of_lt least h)

/-- From a champion with all its measures, the simplest term is found. -/
theorem some_foldl_meet (t : Term α) (us : List (Term α)) :
    some (us.foldl Champion.meet (.of t)).term = (t :: us).argmin complexity := by
  induction us generalizing t with
  | nil => rfl
  | cons u us ih =>
      rw [List.foldl_cons, Champion.meet_eq, argmin_cons_cons, ← ih]
      congr 3
      exact (apply_ite Champion.of _ u t).symm

/-- The first term gives way to the simplest of the others, if one of them is no longer in nodes and
bytes. -/
theorem simplest?_eq (t : Term α) (us : List (Term α)) :
    simplest? (t :: us) = if ∃ u ∈ us, u.extent ≤ t.extent then us.argmin complexity else some t := by
  rw [simplest?]
  induction us with
  | nil => rfl
  | cons u us ih =>
      rw [List.foldl_cons, Champion.meet_start]
      by_cases first : u.extent ≤ t.extent
      · rw [if_pos first, if_pos ⟨u, List.mem_cons_self, first⟩, some_foldl_meet]
      · rw [if_neg first, ih]
        by_cases later : ∃ w ∈ us, w.extent ≤ t.extent
        · obtain ⟨w, hw, le⟩ := later
          have lt := complexity_lt_of_extent_lt (lt_of_le_of_lt le (not_le.1 first))
          rw [if_pos ⟨w, hw, le⟩, if_pos ⟨w, List.mem_cons_of_mem u hw, le⟩, argmin_cons_of_lt hw lt]
        · have none : ¬∃ w ∈ u :: us, w.extent ≤ t.extent :=
            fun h => not_or.2 ⟨first, later⟩ (List.or_exists_of_exists_mem_cons h)
          rw [if_neg later, if_neg none]

theorem simplest?_mem (h : simplest? ts = some t) : t ∈ ts := by
  cases ts with
  | nil => cases h
  | cons u us =>
      rw [simplest?_eq] at h
      split at h
      · exact List.mem_cons_of_mem u (List.argmin_mem h)
      · obtain rfl := Option.some.inj h
        exact List.mem_cons_self

/-- The simplest term is found, and the first one of those that are tied, unless the first term of all
is no more complex than the others and one of them has as many nodes and bytes.  It is passed over
then, and the simplest of the others is found. -/
theorem simplest?_cons (t : Term α) (us : List (Term α)) :
    simplest? (t :: us) =
      if (∃ u ∈ us, u.extent = t.extent) ∧ ∀ u ∈ us, t.complexity ≤ u.complexity then
        us.argmin complexity
      else (t :: us).argmin complexity := by
  rw [simplest?_eq]
  by_cases least : ∀ u ∈ us, t.complexity ≤ u.complexity
  · rw [argmin_cons_of_le least]
    congr 1
    apply propext
    constructor
    · rintro ⟨u, hu, le⟩
      exact ⟨⟨u, hu, le_antisymm le (extent_le_of_complexity_le (least u hu))⟩, least⟩
    · rintro ⟨⟨u, hu, same⟩, -⟩
      exact ⟨u, hu, same.le⟩
  · have simpler := least
    push Not at simpler
    obtain ⟨u, hu, lt⟩ := simpler
    rw [if_pos ⟨u, hu, extent_le_of_complexity_le lt.le⟩, if_neg fun h => least h.2,
      argmin_cons_of_lt hu lt]

/-- Of two terms that are tied, the later one is chosen if the earlier one is the first of all. -/
theorem simplest?_passes_over :
    simplest? [.var "a" none, .var "b" none] ≠
      List.argmin complexity [.var "a" none, (.var "b" none : Term ℚ)] := by
  have chosen : simplest? [.var "a" none, .var "b" none] = some (.var "b" none : Term ℚ) := rfl
  have first : List.argmin complexity [.var "a" none, (.var "b" none : Term ℚ)] =
      some (.var "a" none) := rfl
  rw [chosen, first]
  simp

end Term

end AlgebraicTerms
