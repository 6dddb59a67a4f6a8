import AlgebraicTerms.Proofs.Term.Arrangeable
import AlgebraicTerms.Proofs.Term.Inherited
import AlgebraicTerms.Proofs.Term.Products
import Mathlib.Data.List.Forall2

/-!
# Replacement

A conversion between forms takes one step after the other, each of which is a law of arithmetic applied
somewhere in the term.  So a conversion keeps whatever its laws keep: a replacement relates a term to
those that may take its place anywhere, and is asked only for the laws that a conversion uses.

A value may depend on more than the laws.  What is written `0` or `1` has to be that number where a chain
is joined or a power removed, which is asked of the terms of a class.
-/

namespace AlgebraicTerms

variable {α : Type}

namespace Term

variable {R : Term α → Term α → Prop}

/-- A relation of terms to those that may take their places anywhere. -/
structure Replacement (R : Term α → Term α → Prop) : Prop where
  refl (t : Term α) : R t t
  trans {t u v : Term α} : R t u → R u v → R t v
  call (k : Keyword) {t u : Term α} : R t u → R (.call k t) (.call k u)
  inv (i : Inverse) {t u : Term α} : R t u → R (.inv i t) (.inv i u)
  bin (op : Operator) {l r l' r' : Term α} : R l l' → R r r' → R (.bin op l r) (.bin op l' r')

/-- A property of a term that is the property of all its parts. -/
structure Hereditary (p : Term α → Prop) : Prop where
  call {k : Keyword} {t : Term α} : p (.call k t) ↔ p t
  inv {i : Inverse} {t : Term α} : p (.inv i t) ↔ p t
  bin {op : Operator} {l r : Term α} : p (.bin op l r) ↔ p l ∧ p r

theorem Hereditary.replacement {p : Term α → Prop} (hereditary : Hereditary p) :
    Replacement fun t u => p t → p u where
  refl _ := id
  trans htu huv := huv ∘ htu
  call _ _ _ h ht := hereditary.call.2 (h (hereditary.call.1 ht))
  inv _ _ _ h ht := hereditary.inv.2 (h (hereditary.inv.1 ht))
  bin _ _ _ _ _ hl hr h := hereditary.bin.2 ((hereditary.bin.1 h).imp hl hr)

theorem Replacement.of_eq (replacement : Replacement R) {t u : Term α} (h : t = u) : R t u :=
  h ▸ replacement.refl t

/-- The laws by which operands are taken apart and rearranged. -/
structure ChainLaws (c : Chain) (R : Term α → Term α → Prop) : Prop extends Replacement R where
  swap (t u : Term α) : R (.bin c.op t u) (.bin c.op u t)
  assoc (t u v : Term α) : R (.bin c.op (.bin c.op t u) v) (.bin c.op t (.bin c.op u v))
  of_inverseOp (t u : Term α) : R (.bin c.inverseOp t u) (.bin c.op t (.inv c.inverse u))
  inverse (t u : Term α) :
    R (.inv c.inverse (.bin c.op t u)) (.bin c.op (.inv c.inverse t) (.inv c.inverse u))

theorem ChainLaws.unassoc {c : Chain} (laws : ChainLaws c R) (t u v : Term α) :
    R (.bin c.op t (.bin c.op u v)) (.bin c.op (.bin c.op t u) v) := by
  have first : R (.bin c.op t (.bin c.op u v)) (.bin c.op u (.bin c.op v t)) :=
    laws.trans (laws.swap t _) (laws.assoc u v t)
  have second : R (.bin c.op u (.bin c.op v t)) (.bin c.op v (.bin c.op t u)) :=
    laws.trans (laws.swap u _) (laws.assoc v t u)
  exact laws.trans first (laws.trans second (laws.swap v _))

theorem ChainLaws.left_comm {c : Chain} (laws : ChainLaws c R) (t u v : Term α) :
    R (.bin c.op t (.bin c.op u v)) (.bin c.op u (.bin c.op t v)) :=
  laws.trans (laws.unassoc t u v)
    (laws.trans (laws.bin c.op (laws.swap t u) (laws.refl v)) (laws.assoc u t v))

end Term

variable [Scalar α]

/-! ## Operands as one term -/

/-- The operands of a chain under its operator only. -/
def Chain.whole (c : Chain) : List (Term α) → Term α
  | [] => .num (Scalar.ofNat c.identity)
  | [t] => t
  | t :: u :: ts => .bin c.op t (c.whole (u :: ts))

theorem Chain.whole_cons (c : Chain) (t : Term α) {ts : List (Term α)} (hts : ts ≠ []) :
    c.whole (t :: ts) = .bin c.op t (c.whole ts) := by
  cases ts with
  | nil => exact absurd rfl hts
  | cons u ts => rfl

namespace Term

variable {R : Term α → Term α → Prop} {P : Term α → Prop}

namespace ChainLaws

variable {c : Chain} {t u : Term α} {ts us : List (Term α)}

theorem whole_congr (laws : ChainLaws c R) (h : List.Forall₂ R ts us) :
    R (c.whole ts) (c.whole us) := by
  induction h with
  | nil => exact laws.refl _
  | @cons t u ts us htu hts ih =>
      cases hts with
      | nil => exact htu
      | cons => exact laws.bin c.op htu ih

theorem whole_head (laws : ChainLaws c R) (h : R t u) :
    R (c.whole (t :: ts)) (c.whole (u :: ts)) :=
  laws.whole_congr (.cons h (List.forall₂_same.2 fun v _ => laws.refl v))

/-- The first two operands may be taken as one. -/
theorem whole_pair (laws : ChainLaws c R) (t u : Term α) (ts : List (Term α)) :
    R (c.whole (t :: u :: ts)) (c.whole (.bin c.op t u :: ts)) := by
  cases ts with
  | nil => exact laws.refl _
  | cons v ts => exact laws.unassoc t u _

theorem whole_unpair (laws : ChainLaws c R) (t u : Term α) (ts : List (Term α)) :
    R (c.whole (.bin c.op t u :: ts)) (c.whole (t :: u :: ts)) := by
  cases ts with
  | nil => exact laws.refl _
  | cons v ts => exact laws.assoc t u _

theorem whole_append (laws : ChainLaws c R) (hts : ts ≠ []) (hus : us ≠ []) :
    R (.bin c.op (c.whole ts) (c.whole us)) (c.whole (ts ++ us)) := by
  induction ts with
  | nil => exact absurd rfl hts
  | cons t ts ih =>
      cases ts with
      | nil => exact laws.of_eq (c.whole_cons t hus).symm
      | cons u ts =>
          exact laws.trans (laws.assoc _ _ _) (laws.bin c.op (laws.refl t) (ih (List.cons_ne_nil u ts)))

theorem whole_split (laws : ChainLaws c R) (hts : ts ≠ []) (hus : us ≠ []) :
    R (c.whole (ts ++ us)) (.bin c.op (c.whole ts) (c.whole us)) := by
  induction ts with
  | nil => exact absurd rfl hts
  | cons t ts ih =>
      cases ts with
      | nil => exact laws.of_eq (c.whole_cons t hus)
      | cons u ts =>
          exact laws.trans (laws.bin c.op (laws.refl t) (ih (List.cons_ne_nil u ts)))
            (laws.unassoc _ _ _)

theorem whole_perm (laws : ChainLaws c R) (h : ts.Perm us) : R (c.whole ts) (c.whole us) := by
  induction h with
  | nil => exact laws.refl _
  | @cons t ts us h ih =>
      by_cases none : ts = []
      · subst none
        exact laws.of_eq (h.nil_eq ▸ rfl)
      · have none' : us ≠ [] := fun empty => none (empty ▸ h).eq_nil
        rw [c.whole_cons t none, c.whole_cons t none']
        exact laws.bin c.op (laws.refl t) ih
  | swap t u ts =>
      cases ts with
      | nil => exact laws.swap u t
      | cons v ts => exact laws.left_comm u t _
  | trans _ _ ih ih' => exact laws.trans ih ih'

theorem whole_inverse (laws : ChainLaws c R) (hts : ts ≠ []) :
    R (.inv c.inverse (c.whole ts)) (c.whole (ts.map (.inv c.inverse))) := by
  induction ts with
  | nil => exact absurd rfl hts
  | cons t ts ih =>
      cases ts with
      | nil => exact laws.refl _
      | cons u ts =>
          exact laws.trans (laws.inverse t _) (laws.bin c.op (laws.refl _) (ih (List.cons_ne_nil u ts)))

/-- A term may be taken apart into its operands. -/
theorem operandsIn (laws : ChainLaws c R) (t : Term α) : R t (c.whole (t.operandsIn c)) := by
  induction t with
  | bin op l r ihl ihr =>
      by_cases hop : Chain.of? op = some c
      · have hl := operandsIn_ne_nil c l
        have hr := operandsIn_ne_nil c r
        rw [Term.operandsIn, if_pos hop, Chain.splice]
        rcases Chain.op_or_inverseOp hop with rfl | rfl
        · rw [if_pos rfl]
          exact laws.trans (laws.bin c.op ihl ihr) (laws.whole_append hl hr)
        · rw [if_neg c.inverseOp_ne_op]
          have inverses := laws.trans (laws.inv c.inverse ihr) (laws.whole_inverse hr)
          exact laws.trans (laws.of_inverseOp l r) (laws.trans (laws.bin c.op ihl inverses)
            (laws.whole_append hl fun none => hr (List.map_eq_nil_iff.1 none)))
      · rw [Term.operandsIn, if_neg hop]
        exact laws.refl _
  | _ => exact laws.refl _

end ChainLaws

/-- The laws by which operands are joined.  What is written like the identity can be left out, if it
is of the given class. -/
structure JoinLaws (c : Chain) (R : Term α → Term α → Prop) (P : Term α → Prop) : Prop
    extends ChainLaws c R where
  unit {t u : Term α} : P u → u.reads c.identityText = true → R (.bin c.op t u) t
  inverseOp (t u : Term α) : R (.bin c.op t (.inv c.inverse u)) (.bin c.inverseOp t u)
  opposite {t : Term α} {n : α} : c = .sum → Scalar.isNegative n = true →
    R (.bin .add t (num n)) (.bin .sub t (num (-n)))

namespace JoinLaws

variable {c : Chain} {t u : Term α} {ts : List (Term α)}

/-- One more operand. -/
theorem append (laws : JoinLaws c R P) (ht : P t) (hu : P u) :
    R (.bin c.op t u) (c.append t u) := by
  unfold Chain.append
  split
  · rename_i none
    exact laws.unit hu none
  · split
    · rename_i first
      exact laws.trans (laws.swap t u) (laws.unit ht first)
    · split
      · rename_i i operand _
        split
        · rename_i same
          subst same
          exact laws.inverseOp t operand
        · exact laws.refl _
      · rename_i n _
        split
        · rename_i negative
          obtain ⟨rfl, negative⟩ := negative
          exact laws.opposite rfl negative
        · exact laws.refl _
      · exact laws.refl _

/-- Operands may be joined. -/
theorem join (laws : JoinLaws c R P) (closed : ∀ {t u : Term α}, P t → P u → P (c.append t u))
    (h : ∀ t ∈ ts, P t) : R (c.whole ts) (c.join ts) := by
  cases ts with
  | nil => exact laws.refl _
  | cons t ts =>
      obtain ⟨ht, hts⟩ := List.forall_mem_cons.1 h
      clear h
      rw [Chain.join]
      induction ts generalizing t with
      | nil => exact laws.refl _
      | cons u ts ih =>
          obtain ⟨hu, hts⟩ := List.forall_mem_cons.1 hts
          have rest := ih (c.append t u) (closed ht hu) hts
          refine laws.trans (laws.whole_pair t u ts) ?_
          exact laws.trans (laws.whole_head (laws.append ht hu)) rest

/-- The inverses of the operands, joined, may take the place of the inverse. -/
theorem joinInverses (laws : JoinLaws c R P) (arrangeable : Arrangeable P) (h : P t) :
    R (.inv c.inverse t) (c.join ((t.operandsIn c).map (.inv c.inverse))) := by
  have apart := laws.trans (laws.inv c.inverse (laws.operandsIn t))
    (laws.whole_inverse (operandsIn_ne_nil c t))
  refine laws.trans apart (laws.join arrangeable.append (List.forall_mem_map.2 fun u hu => ?_))
  exact arrangeable.inverse.2 (arrangeable.operandsIn h u hu)

theorem mono {Q : Term α → Prop} (laws : JoinLaws c R P) (h : ∀ t, Q t → P t) : JoinLaws c R Q where
  toChainLaws := laws.toChainLaws
  unit hu := laws.unit (h _ hu)
  inverseOp := laws.inverseOp
  opposite := laws.opposite

end JoinLaws

/-- Chains may be put in order. -/
theorem Replacement.sorted (laws : ∀ c, JoinLaws c R P) (arrangeable : Arrangeable P) {t : Term α}
    (h : P t) : R t t.sorted := by
  have replacement := (laws .sum).toReplacement
  induction t using operandsInduction with
  | chain c op l r hop ih =>
      have operands := arrangeable.operandsIn (c := c) h
      have each : List.Forall₂ R ((Term.bin op l r).operandsIn c)
          (((Term.bin op l r).operandsIn c).map Term.sorted) :=
        List.forall₂_map_right_iff.2 (List.forall₂_same.2 fun u hu => ih u hu (operands u hu))
      have ordered : ∀ u ∈ (Term.bin op l r).orderedOperands c, P u :=
        forall_mem_orderedOperands.2 fun u hu => arrangeable.sorted (operands u hu)
      rw [sorted_eq_join_ordered c]
      refine replacement.trans ((laws c).operandsIn _) (replacement.trans ((laws c).whole_congr each) ?_)
      exact replacement.trans ((laws c).whole_perm orderedOperands_perm)
        ((laws c).join arrangeable.append ordered)
  | other op l r hop =>
      rw [Term.sorted, hop]
      exact replacement.refl _
  | call k t ih => exact replacement.call k (ih (arrangeable.call.1 h))
  | inv i t ih => exact replacement.inv i (ih (arrangeable.inverse.1 h))
  | _ => exact replacement.refl _

end Term

end AlgebraicTerms
