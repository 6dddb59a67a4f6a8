import AlgebraicTerms.Term.Operands

/-!
# What operands inherit

A property that passes from an operation to its sides, and to and from an inverse, passes from a term
to all operands that it is taken apart into.  If it also passes from the sides to an operation, it passes
to what operands are joined to.
-/

namespace AlgebraicTerms

namespace Term

variable {α : Type}

structure Inherited (p : Term α → Prop) : Prop where
  left {op : Operator} {l r : Term α} : p (bin op l r) → p l
  right {op : Operator} {l r : Term α} : p (bin op l r) → p r
  operand {i : Inverse} {t : Term α} : p (inv i t) → p t
  inverse {i : Inverse} {t : Term α} : p t → p (inv i t)

theorem inherited_all : Inherited fun _ : Term α => True :=
  ⟨fun _ => trivial, fun _ => trivial, id, id⟩

namespace Inherited

variable {p : Term α → Prop} {c : Chain} {t : Term α} {ts us : List (Term α)}

theorem splice (inherited : Inherited p) {op : Operator} (hts : ∀ t ∈ ts, p t)
    (hus : ∀ u ∈ us, p u) : ∀ t ∈ c.splice op ts us, p t := by
  intro t ht
  rw [Chain.splice, List.mem_append] at ht
  rcases ht with ht | ht
  · exact hts t ht
  · split at ht
    · exact hus t ht
    · obtain ⟨u, hu, rfl⟩ := List.mem_map.1 ht
      exact inherited.inverse (hus u hu)

theorem operandsIn (inherited : Inherited p) (h : p t) : ∀ u ∈ t.operandsIn c, p u := by
  induction t with
  | bin op l r ihl ihr =>
      rw [Term.operandsIn]
      split
      · exact inherited.splice (ihl (inherited.left h)) (ihr (inherited.right h))
      · exact List.forall_mem_singleton.2 h
  | _ => exact List.forall_mem_singleton.2 h

theorem operandsUnder (inherited : Inherited p) {op : Operator} (h : p t) :
    ∀ u ∈ t.operandsUnder op, p u := by
  induction t with
  | bin op' l r ihl ihr =>
      rw [Term.operandsUnder]
      split
      · exact List.forall_mem_append.2 ⟨ihl (inherited.left h), ihr (inherited.right h)⟩
      · exact List.forall_mem_singleton.2 h
  | _ => exact List.forall_mem_singleton.2 h

theorem operands (inherited : Inherited p) (h : p t) : ∀ u ∈ t.operands, p u := by
  induction t with
  | bin op l r _ _ =>
      rw [Term.operands]
      split
      · exact inherited.operandsIn h
      · exact inherited.operandsUnder h
  | inv i t ih =>
      intro u hu
      obtain ⟨v, hv, rfl⟩ := List.mem_map.1 hu
      exact inherited.inverse (ih (inherited.operand h) v hv)
  | _ => exact List.forall_mem_singleton.2 h

section Join

variable [Scalar α] {chain : Term α} (inherited : Inherited p)
  (bin : ∀ {op : Operator} {l r : Term α}, p l → p r → p (bin op l r))
  (neg : ∀ {n : α}, p (num n) → p (num (-n)))

include inherited bin neg

theorem append (hchain : p chain) (ht : p t) : p (c.append chain t) := by
  unfold Chain.append
  split
  · exact hchain
  · split
    · exact ht
    · split
      · split
        · exact bin hchain (inherited.operand ht)
        · exact bin hchain ht
      · split
        · exact bin hchain (neg ht)
        · exact bin hchain ht
      · exact bin hchain ht

theorem join_of_ne_nil (hne : ts ≠ []) (h : ∀ t ∈ ts, p t) : p (c.join ts) := by
  cases ts with
  | nil => exact absurd rfl hne
  | cons t ts =>
      obtain ⟨ht, hts⟩ := List.forall_mem_cons.1 h
      rw [Chain.join]
      clear h hne
      induction ts generalizing t with
      | nil => exact ht
      | cons u ts ih =>
          obtain ⟨hu, hts⟩ := List.forall_mem_cons.1 hts
          exact ih _ (inherited.append bin neg ht hu) hts

end Join

end Inherited

end Term

end AlgebraicTerms
