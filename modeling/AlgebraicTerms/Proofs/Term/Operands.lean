import AlgebraicTerms.Term.Order

/-!
# Operands

A term has at least one operand in every chain.  Putting operands in order rearranges them.
-/

namespace AlgebraicTerms

namespace Chain

theorem of?_op (c : Chain) : of? c.op = some c := by cases c <;> rfl

theorem of?_inverseOp (c : Chain) : of? c.inverseOp = some c := by cases c <;> rfl

theorem inverseOp_ne_op (c : Chain) : c.inverseOp ≠ c.op := by cases c <;> decide

/-- A chain has two operators. -/
theorem op_or_inverseOp {c : Chain} {op : Operator} (hop : of? op = some c) :
    op = c.op ∨ op = c.inverseOp := by
  cases op <;> cases hop <;> first | exact .inl rfl | exact .inr rfl

end Chain

namespace Term

variable {α : Type} {t u : Term α}

theorem operandOf?_eq_some {i : Inverse} : t.operandOf? i = some u ↔ t = inv i u := by
  constructor
  · intro h
    cases t with
    | inv j v =>
        rw [operandOf?] at h
        split at h
        · rename_i same
          rw [same, Option.some.inj h]
        · cases h
    | _ => cases h
  · rintro rfl
    rw [operandOf?, if_pos rfl]

theorem eq_pow_of_power? {base exponent : Term α} (h : t.power? = some (base, exponent)) :
    t = bin .pow base exponent := by
  cases t with
  | bin op l r =>
      cases op with
      | pow =>
          cases h
          rfl
      | add | sub | mul | div | mod => cases h
  | _ => cases h

theorem operands_of_chain {c : Chain} {op : Operator} (hop : Chain.of? op = some c) (l r : Term α) :
    (bin op l r).operands = (bin op l r).operandsIn c := by
  rw [operands, hop]

theorem operandsIn_ne_nil (c : Chain) (t : Term α) : t.operandsIn c ≠ [] := by
  induction t with
  | bin op l r ihl _ =>
      rw [operandsIn]
      split
      · exact List.append_ne_nil_of_left_ne_nil ihl _
      · exact List.cons_ne_nil _ _
  | _ => exact List.cons_ne_nil _ _

theorem operandsUnder_ne_nil (op : Operator) (t : Term α) : t.operandsUnder op ≠ [] := by
  induction t with
  | bin op' l r ihl _ =>
      rw [operandsUnder]
      split
      · exact List.append_ne_nil_of_left_ne_nil ihl _
      · exact List.cons_ne_nil _ _
  | _ => exact List.cons_ne_nil _ _

theorem operands_ne_nil (t : Term α) : t.operands ≠ [] := by
  induction t with
  | bin op l r =>
      cases hop : Chain.of? op with
      | some c =>
          rw [operands_of_chain hop]
          exact operandsIn_ne_nil c _
      | none =>
          simp only [operands, hop]
          exact operandsUnder_ne_nil op _
  | inv i t ih =>
      rw [operands]
      exact fun empty => ih (List.map_eq_nil_iff.1 empty)
  | _ => exact List.cons_ne_nil _ _

theorem length_splice (c : Chain) (op : Operator) (ts us : List (Term α)) :
    (c.splice op ts us).length = ts.length + us.length := by
  rw [Chain.splice, List.length_append]
  split
  · rfl
  · rw [List.length_map]

/-! ## Order -/

variable [Scalar α]

theorem insertKeyed_perm (x : SortKey α × Term α) (ys : List (SortKey α × Term α)) :
    (insertKeyed x ys).Perm (x :: ys) := by
  induction ys with
  | nil => exact .refl _
  | cons y ys ih =>
      rw [insertKeyed]
      split
      · exact (ih.cons y).trans (.swap x y ys)
      · exact .refl _

theorem sortByKey_perm (ts : List (Term α)) : ts.Perm (sortByKey ts) := by
  have step (xs ys : List (SortKey α × Term α)) :
      (xs.foldl (fun done x => insertKeyed x done) ys).Perm (xs.reverse ++ ys) := by
    induction xs generalizing ys with
    | nil => exact .refl _
    | cons x xs ih =>
        rw [List.foldl_cons, List.reverse_cons, List.append_assoc]
        exact (ih _).trans ((insertKeyed_perm x ys).append_left _)
  have keyed := step (ts.map fun t => (SortKey.mk t.degree t.weight, t)) []
  rw [List.append_nil] at keyed
  have sorted := (keyed.trans (List.reverse_perm _)).map (·.2)
  rw [List.map_map] at sorted
  have same : ts.map ((·.2) ∘ fun t => (SortKey.mk t.degree t.weight, t)) = ts := List.map_id ts
  rw [same] at sorted
  exact (sorted.symm).trans (List.reverse_perm _).symm

end Term

end AlgebraicTerms
