import AlgebraicTerms.Proofs.Term.Arrangeable
import AlgebraicTerms.Proofs.Term.Order
import Mathlib.Algebra.Order.BigOperators.Group.List
import Mathlib.Algebra.Order.Group.Nat

/-!
# Ranked operands

The keys of operands whose degrees are numbers are ordered linearly, up to keys that agree in degree and
weight.  Sorting puts such operands in order (`sortByKey_inOrder`) and leaves operands that are in order
as they are (`sortByKey_of_inOrder`).  The operands of a chain come at most at the place of the chain
itself (`atMost_of_mem`).
-/

namespace AlgebraicTerms

variable {α : Type} [Scalar α]

namespace SortKey

/-- Whether the degree is a number. -/
def IsRanked (a : SortKey α) : Prop := (a.degree == a.degree) = true

/-- Whether a key may stand in front of another. -/
def AtMost (a b : SortKey α) : Prop := b.before a = false

variable {a b c : SortKey α}

theorem atMost_iff : a.AtMost b ↔ Scalar.lt b.degree a.degree = false ∧
    (Scalar.lt a.degree b.degree = true ∨ a.weight ≤ b.weight) := by
  unfold AtMost before
  cases Scalar.lt b.degree a.degree <;> cases Scalar.lt a.degree b.degree <;> simp

variable [Scalar.Ranked α]

open Scalar.Ordered Scalar.Ranked

theorem lt_irrefl (n : α) : Scalar.lt n n = false :=
  Bool.eq_false_iff.2 fun h => absurd h (Bool.eq_false_iff.1 (lt_asymm h))

theorem AtMost.refl (a : SortKey α) : a.AtMost a :=
  atMost_iff.2 ⟨lt_irrefl a.degree, .inr (Nat.le_refl a.weight)⟩

theorem AtMost.trans (ha : a.IsRanked) (hb : b.IsRanked) (hc : c.IsRanked) (hab : a.AtMost b)
    (hbc : b.AtMost c) : a.AtMost c := by
  obtain ⟨degree, weight⟩ := atMost_iff.1 hab
  obtain ⟨degree', weight'⟩ := atMost_iff.1 hbc
  refine atMost_iff.2 ⟨not_lt_trans hb degree' degree, ?_⟩
  by_contra none
  rw [not_or, Bool.not_eq_true] at none
  rcases weight with less | weight
  · exact absurd less (Bool.eq_false_iff.1 (not_lt_trans hc none.1 degree'))
  · rcases weight' with less | weight'
    · exact absurd less (Bool.eq_false_iff.1 (not_lt_trans ha degree none.1))
    · exact none.2 (Nat.le_trans weight weight')

end SortKey

namespace Term

/-! ## Graded terms -/

/-- Whether no power that is looked at for a degree has an exponent that is no number, as `NaN`. -/
def Graded : Term α → Prop
  | bin .pow _ exponent => ∀ n ∈ exponent.number?, (n == n) = true
  | bin _ l r => l.Graded ∧ r.Graded
  | call _ t | inv _ t => t.Graded
  | _ => True

variable {c : Chain} {op : Operator} {t u l r : Term α} {ts : List (Term α)}

theorem degree_of_chain (hop : Chain.of? op = some c) :
    (bin op l r).degree = Scalar.greater l.degree r.degree := by
  cases op <;> first | rfl | cases hop

omit [Scalar α] in
theorem weight_of_chain (hop : Chain.of? op = some c) :
    (bin op l r).weight = l.weight + r.weight := by
  cases op <;> first | rfl | cases hop

namespace Graded

theorem arrangeable : Arrangeable (Graded (α := α)) where
  sides {c op l r} hop h := by cases op <;> first | exact h | cases hop
  inverse := .rfl
  operation {c op l r} hop hl hr := by cases op <;> first | exact ⟨hl, hr⟩ | cases hop
  call := .rfl
  opposite _ := trivial

variable [Scalar.Ranked α]

open Scalar.Ranked

theorem isRanked (h : t.Graded) : t.sortKey.IsRanked := by
  induction t with
  | bin op l r ihl ihr =>
      cases op with
      | pow =>
          show (r.number?.getD Scalar.symbolicDegree == r.number?.getD Scalar.symbolicDegree) = true
          cases hn : r.number? with
          | none => exact symbolicDegree_self (α := α)
          | some n => exact h n hn
      | _ => exact greater_self (ihl h.1) (ihr h.2)
  | var name index => exact one_self
  | call k t ih => exact ih h
  | inv i t ih => exact ih h
  | _ => exact zero_self

end Graded

/-! ## Keys of operands -/

theorem sortKey_operand : (c.operand op t).sortKey = t.sortKey := by
  rw [Chain.operand]
  split <;> rfl

theorem weight_eq_sum (c : Chain) (t : Term α) : t.weight = ((t.operandsIn c).map weight).sum := by
  induction t with
  | bin op l r ihl ihr =>
      by_cases hop : Chain.of? op = some c
      · have right : ((r.operandsIn c).map (c.operand op)).map weight = (r.operandsIn c).map weight := by
          rw [List.map_map]
          exact List.map_congr_left fun u _ => congrArg SortKey.weight sortKey_operand
        rw [weight_of_chain hop, ihl, ihr, operandsIn_bin hop, List.map_append, List.sum_append, right]
      · rw [operandsIn, if_neg hop, List.map_singleton, List.sum_singleton]
  | _ => exact (List.sum_singleton).symm

section Keys

variable [Scalar.Ranked α]

/-- The degree of a term is the greatest of its operands. -/
theorem not_lt_degree (c : Chain) (t : Term α) (n : α) :
    Scalar.lt n t.degree = false ↔ ∀ u ∈ t.operandsIn c, Scalar.lt n u.degree = false := by
  induction t with
  | bin op l r ihl ihr =>
      by_cases hop : Chain.of? op = some c
      · have right (u : Term α) : (c.operand op u).degree = u.degree :=
          congrArg SortKey.degree sortKey_operand
        rw [degree_of_chain hop, Scalar.Ranked.not_lt_greater, ihl, ihr, operandsIn_bin hop,
          List.forall_mem_append, List.forall_mem_map]
        simp only [right]
      · rw [operandsIn, if_neg hop, List.forall_mem_singleton]
  | _ => simp only [operandsIn, List.forall_mem_singleton]

/-- The operands of a chain come at most at its place. -/
theorem atMost_of_mem (h : u ∈ t.operandsIn c) : u.sortKey.AtMost t.sortKey := by
  refine SortKey.atMost_iff.2 ⟨?_, .inr ?_⟩
  · exact (not_lt_degree c t t.degree).1 (SortKey.lt_irrefl t.degree) u h
  · show u.weight ≤ t.weight
    rw [weight_eq_sum c t]
    exact List.le_sum_of_mem (List.mem_map_of_mem h)

end Keys

/-! ## Operands in order -/

def InOrder (ts : List (Term α)) : Prop := ts.Pairwise fun t u => t.sortKey.AtMost u.sortKey

variable [Scalar.Ranked α]

/-- Inserting into a list that is ordered last first keeps it ordered. -/
theorem insertByKey_pairwise (ht : t.Graded) (hts : ∀ u ∈ ts, u.Graded)
    (h : ts.Pairwise fun u v => v.sortKey.AtMost u.sortKey) :
    (insertByKey t ts).Pairwise fun u v => v.sortKey.AtMost u.sortKey := by
  induction ts with
  | nil => exact List.pairwise_singleton _ t
  | cons u us ih =>
      obtain ⟨hu, hus⟩ := List.forall_mem_cons.1 hts
      obtain ⟨first, rest⟩ := List.pairwise_cons.1 h
      rw [insertByKey]
      split
      · rename_i before
        refine List.pairwise_cons.2 ⟨fun v hv => ?_, ih hus rest⟩
        rcases mem_insertByKey.1 hv with rfl | hv
        · exact SortKey.before_asymm before
        · exact first v hv
      · rename_i after
        have place : u.sortKey.AtMost t.sortKey := Bool.eq_false_iff.2 after
        refine List.pairwise_cons.2 ⟨List.forall_mem_cons.2 ⟨place, fun v hv => ?_⟩, h⟩
        exact (first v hv).trans (hus v hv).isRanked hu.isRanked ht.isRanked place

/-- Sorted operands are in order. -/
theorem sortByKey_inOrder (h : ∀ t ∈ ts, t.Graded) : InOrder (sortByKey ts) := by
  have fold (ts done : List (Term α)) (hts : ∀ t ∈ ts, t.Graded) (hdone : ∀ t ∈ done, t.Graded)
      (ordered : done.Pairwise fun u v => v.sortKey.AtMost u.sortKey) :
      (ts.foldl (fun done t => insertByKey t done) done).Pairwise
        fun u v => v.sortKey.AtMost u.sortKey := by
    induction ts generalizing done with
    | nil => exact ordered
    | cons t ts ih =>
        obtain ⟨ht, hts⟩ := List.forall_mem_cons.1 hts
        refine ih _ hts (fun u hu => ?_) (insertByKey_pairwise ht hdone ordered)
        rcases mem_insertByKey.1 hu with rfl | hu
        · exact ht
        · exact hdone u hu
  rw [sortByKey_eq, InOrder, List.pairwise_reverse]
  exact fold ts [] h (fun _ hu => absurd hu List.not_mem_nil) .nil

omit [Scalar.Ranked α] in
/-- Operands that are in order stay where they are. -/
theorem sortByKey_of_inOrder (h : InOrder ts) : sortByKey ts = ts := by
  have fold (ts done : List (Term α)) (h : InOrder ts)
      (hdone : ∀ t ∈ ts, ∀ u ∈ done, u.sortKey.AtMost t.sortKey) :
      ts.foldl (fun done t => insertByKey t done) done = ts.reverse ++ done := by
    induction ts generalizing done with
    | nil => rfl
    | cons t ts ih =>
        obtain ⟨first, rest⟩ := List.pairwise_cons.1 h
        obtain ⟨ht, hts⟩ := List.forall_mem_cons.1 hdone
        have last : insertByKey t done = t :: done := by
          cases done with
          | nil => rfl
          | cons u us =>
              have stay : t.sortKey.before u.sortKey = false := ht u List.mem_cons_self
              rw [insertByKey, stay, if_neg Bool.false_ne_true]
        rw [List.foldl_cons, last, ih _ rest, List.reverse_cons, List.append_assoc]
        · rfl
        · exact fun v hv => List.forall_mem_cons.2 ⟨first v hv, hts v hv⟩
  rw [sortByKey_eq, fold ts [] h fun _ _ _ hu => absurd hu List.not_mem_nil, List.append_nil,
    List.reverse_reverse]

end Term

end AlgebraicTerms
