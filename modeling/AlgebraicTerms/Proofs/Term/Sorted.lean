import AlgebraicTerms.Proofs.Term.Operands

/-!
# Sorting by operands

The operands of an operation are those of its left side and, as its operator has them, those of its
right side (`operandsIn_bin`).

Sorting puts the operands of a chain in order one by one, and then all of them
(`sorted_eq_join_ordered`).  So what holds of sorted terms is shown by induction on the operands of
chains (`operandsInduction`).
-/

namespace AlgebraicTerms

variable {α : Type}

/-- The operand that an operation of the chain has on its right. -/
def Chain.operand (c : Chain) (op : Operator) (r : Term α) : Term α :=
  if op = c.op then r else .inv c.inverse r

namespace Term

theorem operandsIn_bin {c : Chain} {op : Operator} {l r : Term α} (hop : Chain.of? op = some c) :
    (bin op l r).operandsIn c = l.operandsIn c ++ (r.operandsIn c).map (c.operand op) := by
  have operands : (r.operandsIn c).map (c.operand op) =
      if op = c.op then r.operandsIn c else (r.operandsIn c).map (inv c.inverse) := by
    by_cases same : op = c.op
    · rw [if_pos same]
      exact (List.map_congr_left fun _ _ => if_pos same).trans (List.map_id _)
    · rw [if_neg same]
      exact List.map_congr_left fun _ _ => if_neg same
  rw [operandsIn, if_pos hop, Chain.splice, operands]

/-- What holds of an operand holds of it as an operation has it, if it does not tell inverses apart. -/
theorem operand_iff {p : Term α → Prop} (inverse : ∀ {i : Inverse} {t : Term α}, p (inv i t) ↔ p t)
    {c : Chain} {op : Operator} {t : Term α} : p (c.operand op t) ↔ p t := by
  rw [Chain.operand]
  split
  · exact .rfl
  · exact inverse

/-- An operand of a chain is a part of it or the inverse of one. -/
@[elab_as_elim]
theorem operandsInduction {motive : Term α → Prop} (empty : motive empty)
    (num : ∀ n, motive (num n)) (const : ∀ c, motive (const c))
    (var : ∀ name index, motive (var name index)) (call : ∀ k t, motive t → motive (call k t))
    (inv : ∀ i t, motive t → motive (inv i t))
    (other : ∀ op l r, Chain.of? op = none → motive (bin op l r))
    (chain : ∀ c op l r, Chain.of? op = some c → (∀ u ∈ (bin op l r).operandsIn c, motive u) →
      motive (bin op l r)) (t : Term α) : motive t := by
  have all : motive t ∧ ∀ c, ∀ u ∈ t.operandsIn c, motive u := by
    have single {t : Term α} (h : motive t) : motive t ∧ ∀ u ∈ [t], motive u :=
      ⟨h, List.forall_mem_singleton.2 h⟩
    induction t with
    | bin op l r ihl ihr =>
        have operands (c : Chain) (hop : Chain.of? op = some c) :
            ∀ u ∈ (bin op l r).operandsIn c, motive u := by
          rw [operandsIn_bin hop]
          refine List.forall_mem_append.2 ⟨ihl.2 c, List.forall_mem_map.2 fun u hu => ?_⟩
          rw [Chain.operand]
          split
          · exact ihr.2 c u hu
          · exact inv c.inverse u (ihr.2 c u hu)
        have whole : motive (bin op l r) := by
          cases hop : Chain.of? op with
          | none => exact other op l r hop
          | some c => exact chain c op l r hop (operands c hop)
        refine ⟨whole, fun c => ?_⟩
        by_cases hop : Chain.of? op = some c
        · exact operands c hop
        · rw [operandsIn, if_neg hop]
          exact (single whole).2
    | empty => exact ⟨empty, fun _ => (single empty).2⟩
    | num n => exact ⟨num n, fun _ => (single (num n)).2⟩
    | const c => exact ⟨const c, fun _ => (single (const c)).2⟩
    | var name index => exact ⟨var name index, fun _ => (single (var name index)).2⟩
    | call k t ih => exact ⟨call k t ih.1, fun _ => (single (call k t ih.1)).2⟩
    | inv i t ih => exact ⟨inv i t ih.1, fun _ => (single (inv i t ih.1)).2⟩
  exact all.1

variable [Scalar α]

theorem sortedOperands_eq_map (c : Chain) (t : Term α) :
    t.sortedOperands c = (t.operandsIn c).map sorted := by
  induction t generalizing c with
  | bin op l r ihl ihr =>
      have splice (c : Chain) (ts us : List (Term α)) : c.splice op (ts.map sorted) (us.map sorted) =
          (c.splice op ts us).map sorted := by
        rw [Chain.splice, Chain.splice, List.map_append]
        split
        · rfl
        · rw [List.map_map, List.map_map]
          rfl
      rw [sortedOperands, operandsIn]
      cases hop : Chain.of? op with
      | none =>
          rw [if_neg (Option.some_ne_none c).symm, List.map_singleton, sorted, hop]
      | some c' =>
          dsimp only
          by_cases same : c' = c
          · subst same
            rw [if_pos rfl, if_pos rfl, ihl, ihr, splice]
          · rw [if_neg same, if_neg fun h => same (Option.some.inj h), List.map_singleton, sorted,
              hop]
  | _ => rfl

/-- A term is the sorted chain of its sorted operands, also if it is no operation of the chain. -/
theorem sorted_eq_join (c : Chain) (t : Term α) :
    t.sorted = c.join (sortByKey (t.sortedOperands c)) := by
  cases t with
  | bin op l r =>
      rw [sorted, sortedOperands]
      cases hop : Chain.of? op with
      | none => rfl
      | some c' =>
          by_cases same : c' = c
          · subst same
            dsimp only
            rw [if_pos rfl]
          · dsimp only
            rw [if_neg same]
            rfl
  | _ => rfl

/-- The operands of a chain, put in order one by one and then as a whole. -/
def orderedOperands (c : Chain) (t : Term α) : List (Term α) :=
  sortByKey ((t.operandsIn c).map sorted)

variable {c : Chain} {t : Term α} {p : Term α → Prop}

theorem sorted_eq_join_ordered (c : Chain) (t : Term α) :
    t.sorted = c.join (t.orderedOperands c) := by
  rw [orderedOperands, ← sortedOperands_eq_map]
  exact sorted_eq_join c t

theorem orderedOperands_perm : ((t.operandsIn c).map sorted).Perm (t.orderedOperands c) :=
  sortByKey_perm _

theorem length_orderedOperands : (t.orderedOperands c).length = (t.operandsIn c).length := by
  rw [← orderedOperands_perm.length_eq, List.length_map]

theorem orderedOperands_ne_nil : t.orderedOperands c ≠ [] := by
  rw [← List.length_pos_iff, length_orderedOperands, List.length_pos_iff]
  exact operandsIn_ne_nil c t

theorem forall_mem_orderedOperands :
    (∀ u ∈ t.orderedOperands c, p u) ↔ ∀ u ∈ t.operandsIn c, p u.sorted := by
  simp only [← orderedOperands_perm.mem_iff, List.forall_mem_map]

end Term

end AlgebraicTerms
