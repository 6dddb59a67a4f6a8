import AlgebraicTerms.Proofs.Term.Sorted

/-!
# What chains in order inherit

A property that passes between the operations of chains, inverses and calls and what they are made of
passes to the chains that operands are joined to, and to terms in canonical order.  Nothing is asked
of remainders and powers, since they stay as they are.
-/

namespace AlgebraicTerms

namespace Term

variable {α : Type} {p : Term α → Prop} {c : Chain} {chain t : Term α} {ts : List (Term α)}

/-- Whether a property passes from the operations of a chain to the operands. -/
structure Descending (p : Term α → Prop) : Prop where
  sides {c : Chain} {op : Operator} {l r : Term α} : Chain.of? op = some c → p (bin op l r) →
    p l ∧ p r
  inverse {i : Inverse} {t : Term α} : p (inv i t) ↔ p t

theorem Descending.operandsIn (descending : Descending p) (h : p t) : ∀ u ∈ t.operandsIn c, p u := by
  induction t with
  | bin op l r ihl ihr =>
      by_cases hop : Chain.of? op = some c
      · have both := descending.sides hop h
        rw [operandsIn_bin hop]
        refine List.forall_mem_append.2 ⟨ihl both.1, List.forall_mem_map.2 fun u hu => ?_⟩
        exact (operand_iff descending.inverse).2 (ihr both.2 u hu)
      · rw [Term.operandsIn, if_neg hop]
        exact List.forall_mem_singleton.2 h
  | _ => exact List.forall_mem_singleton.2 h

variable [Scalar α]

structure Arrangeable (p : Term α → Prop) : Prop extends Descending p where
  operation {c : Chain} {op : Operator} {l r : Term α} : Chain.of? op = some c → p l → p r →
    p (bin op l r)
  call {k : Keyword} {t : Term α} : p (call k t) ↔ p t
  opposite {n : α} : p (num n) → p (num (-n))

theorem arrangeable_all : Arrangeable fun _ : Term α => True :=
  ⟨⟨fun _ _ => ⟨trivial, trivial⟩, .rfl⟩, fun _ _ _ => trivial, .rfl, fun _ => trivial⟩

namespace Arrangeable

theorem append (arrangeable : Arrangeable p) (hchain : p chain) (ht : p t) :
    p (c.append chain t) := by
  unfold Chain.append
  split
  · exact hchain
  · split
    · exact ht
    · split
      · split
        · exact arrangeable.operation c.of?_inverseOp hchain (arrangeable.inverse.1 ht)
        · exact arrangeable.operation c.of?_op hchain ht
      · split
        · exact arrangeable.operation rfl hchain (arrangeable.opposite ht)
        · exact arrangeable.operation c.of?_op hchain ht
      · exact arrangeable.operation c.of?_op hchain ht

theorem join (arrangeable : Arrangeable p) (hne : ts ≠ []) (h : ∀ t ∈ ts, p t) :
    p (c.join ts) := by
  cases ts with
  | nil => exact absurd rfl hne
  | cons t ts =>
      obtain ⟨ht, hts⟩ := List.forall_mem_cons.1 h
      rw [Chain.join]
      clear h hne
      induction ts generalizing t with
      | nil => exact ht
      | cons u ts ih =>
          obtain ⟨hu, hts⟩ := List.forall_mem_cons.1 hts
          exact ih _ (arrangeable.append ht hu) hts

theorem sorted (arrangeable : Arrangeable p) (h : p t) : p t.sorted := by
  induction t using operandsInduction with
  | chain c op l r hop ih =>
      rw [sorted_eq_join_ordered c]
      refine arrangeable.join orderedOperands_ne_nil (forall_mem_orderedOperands.2 fun u hu => ?_)
      exact ih u hu (arrangeable.operandsIn h u hu)
  | other op l r hop =>
      rw [Term.sorted, hop]
      exact h
  | call k t ih => exact arrangeable.call.2 (ih (arrangeable.call.1 h))
  | inv i t ih => exact arrangeable.inverse.2 (ih (arrangeable.inverse.1 h))
  | _ => exact h

end Arrangeable

end Term

end AlgebraicTerms
