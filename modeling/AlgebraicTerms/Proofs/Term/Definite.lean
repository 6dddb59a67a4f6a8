import AlgebraicTerms.Proofs.Term.Arrangeable
import AlgebraicTerms.Proofs.Term.Names

/-!
# Definite terms

A definite term has no gaps, its numbers are finite, and none of its variables is written as a number.
What is written as the identity of a chain is the identity then.  So a definite term keeps its value
when it is taken apart into the operands of its chain and joined again, and when all its chains are put
in order (`chains_eval`), whatever remainders, powers and keywords stand for.
-/

namespace AlgebraicTerms

namespace Term

variable {α : Type} [Scalar α]

def Definite : Term α → Prop
  | empty => False
  | num n => Scalar.isFinite n = true
  | const _ => True
  | var name index => ¬Token.IsNumeral (name ++ index.getD "").toList
  | call _ t | inv _ t => t.Definite
  | bin _ l r => l.Definite ∧ r.Definite

variable {t : Term α} {ts : List (Term α)} {c : Chain}

/-- What can be read again from its text is definite, since names begin with a letter. -/
theorem Legible.definite (h : t.Legible) : t.Definite := by
  induction t with
  | empty => exact h
  | num n => exact h
  | const c => trivial
  | var name index =>
      obtain ⟨⟨hne, letters⟩, _⟩ := h
      intro numeral
      obtain ⟨c, cs, hname⟩ := List.exists_cons_of_ne_nil hne
      obtain ⟨d, ds, text, digit⟩ := numeral.exists_cons
      rw [String.toList_append, hname, List.cons_append, List.cons.injEq] at text
      rw [← text.1, Token.not_isDigit_of_isAlpha (letters c (hname ▸ List.mem_cons_self))] at digit
      cases digit
  | call k t ih => exact ih h
  | inv i t ih => exact ih h
  | bin op l r ihl ihr => exact ⟨ihl h.1, ihr h.2⟩

namespace Definite

theorem inherited : Inherited (Definite (α := α)) := ⟨And.left, And.right, id, id⟩

theorem operands (h : t.Definite) : ∀ u ∈ t.operands, u.Definite := inherited.operands h

variable [Scalar.Legible α]

theorem arrangeable : Arrangeable (Definite (α := α)) :=
  ⟨⟨fun _ => id, .rfl⟩, fun _ => And.intro, .rfl, Scalar.Legible.isFinite_neg⟩

/-- What is written as a digit is a number. -/
theorem exists_num_of_text (ht : t.Definite) {d : Char} (hd : d.isDigit = true)
    (h : t.text.toList = [d]) : ∃ n, t = num n := by
  have minus (l r : Term α) (sum : t = bin .add l r) (hr : r.bringsMinus = true) :
      '-' ∈ r.text.toList := by
    refine minus_of_bringsMinus (fun n number => ?_) hr
    rw [sum, number] at ht
    exact ht.2
  rcases leaf_of_text_digit minus hd h with number | ⟨name, index, rfl⟩
  · exact number
  · have numeral : Token.IsNumeral (name ++ index.getD "").toList := by
      refine .inl ⟨?_, ?_⟩
      · exact h ▸ List.cons_ne_nil d []
      · exact fun e he => List.eq_of_mem_singleton (h ▸ he) ▸ hd
    exact absurd numeral ht

theorem isZero_of_reads {n : α} (finite : Scalar.isFinite n = true)
    (h : (num n).reads "0" = true) : Scalar.isZero n = true := by
  by_contra nonzero
  rw [Bool.not_eq_true] at nonzero
  have text : Scalar.text n = "0" := by
    have written := reads_iff.1 h
    rwa [Term.text, numberText, nonzero, if_neg Bool.false_ne_true] at written
  cases negative : Scalar.isNegative n with
  | true =>
      have signed := Scalar.Legible.text_negative finite negative
      rw [text, ← String.toList_inj, String.toList_append] at signed
      cases signed
  | false =>
      have same := Scalar.Legible.literal_text finite nonzero negative
      rw [text, Scalar.Legible.literal_zero] at same
      rw [← same, Scalar.Legible.isZero_zero] at nonzero
      cases nonzero

variable {F : Type*} [Field F] (I : Interpretation α F)

theorem unitAsRead (c : Chain) (ht : t.Definite) : t.UnitAsRead I c := by
  intro h
  have text : t.text.toList = c.identityText.toList := congrArg String.toList (reads_iff.1 h)
  cases c with
  | sum =>
      obtain ⟨n, rfl⟩ := ht.exists_num_of_text (d := '0') rfl text
      exact I.number_zero (isZero_of_reads ht h)
  | product =>
      obtain ⟨n, rfl⟩ := ht.exists_num_of_text (d := '1') rfl text
      exact eval_of_reads_one (t := num n) ht h

theorem join_eval (h : ∀ t ∈ ts, t.Definite) :
    (c.join ts).eval I.meaning = total I c ts := by
  refine join_eval_of_units ?_ fun t ht => (h t ht).unitAsRead I c
  cases c with
  | sum => exact I.number_zero Scalar.Legible.isZero_zero
  | product => exact I.number_one

theorem joinLaws (c : Chain) :
    JoinLaws c (fun t u : Term α => t.eval I.meaning = u.eval I.meaning) Definite :=
  (eval_joinLaws I c).mono fun _ ht => ht.unitAsRead I c

/-- Putting chains in order keeps the value. -/
theorem sorted_eval (h : t.Definite) : t.sorted.eval I.meaning = t.eval I.meaning :=
  (Replacement.sorted (joinLaws I) arrangeable h).symm

end Definite

/-- Operations of a chain have the value of their operands joined, joined operands have their sum or
product as value, and terms in canonical order have the value of the terms. -/
theorem chains_eval [Scalar.Legible α] {F : Type*} [Field F] (I : Interpretation α F) :
    (∀ {c : Chain} {op : Operator} {l r : Term α}, Chain.of? op = some c → (bin op l r).Definite →
      (c.join (bin op l r).operands).eval I.meaning = (bin op l r).eval I.meaning) ∧
    (∀ {ts : List (Term α)}, (∀ t ∈ ts, t.Definite) →
      (Chain.sum.join ts).eval I.meaning = (ts.map (eval I.meaning)).sum ∧
        (Chain.product.join ts).eval I.meaning = (ts.map (eval I.meaning)).prod) ∧
    ∀ {t : Term α}, t.Definite → t.sorted.eval I.meaning = t.eval I.meaning := by
  refine ⟨fun {c op l r} hop h => ?_, fun h => ?_, fun h => h.sorted_eval I⟩
  · rw [Definite.join_eval I h.operands, operands_of_chain hop, total_operandsIn]
  · exact ⟨Definite.join_eval I h, Definite.join_eval I h⟩

/-- The quotient `a/(b/(c*d))` as a chain, the difference of `a` and `2` from its operands, and
`abs(c+(a-2))` in order. -/
theorem chains_eval_nested :
    let v (name : String) : Term ℚ := .var name none
    let quotient := bin .div (v "a") (.bin .div (v "b") (.bin .mul (v "c") (v "d")))
    let joined := bin .div (.bin .div (.bin .div (v "a") (v "b")) (.inv .recip (v "c")))
      (.inv .recip (v "d"))
    let operands := [v "a", .num (-2), .num 0]
    let root := call .abs (.bin .add (v "c") (.bin .sub (v "a") (.num 2)))
    let ordered := call .abs (.bin .add (.bin .add (.inv .neg (.num 2)) (v "a")) (v "c"))
    Chain.product.join quotient.operands = joined ∧
      Chain.sum.join operands = bin .sub (v "a") (.num 2) ∧ root.sorted = ordered ∧
      ∀ (var : String → ℝ) (call : Keyword → ℝ → ℝ),
        let I := Interpretation.reals var call
        joined.eval I.meaning = quotient.eval I.meaning ∧
          (Chain.sum.join operands).eval I.meaning = (operands.map (eval I.meaning)).sum ∧
          ordered.eval I.meaning = root.eval I.meaning := by
  intro v quotient joined operands root ordered
  have rejoined : Chain.product.join quotient.operands = joined := rfl
  have difference : Chain.sum.join operands = bin .sub (v "a") (.num 2) := by
    with_unfolding_all rfl
  have inOrder : root.sorted = ordered := by with_unfolding_all rfl
  have a : (v "a").Definite := Legible.definite ⟨by decide, rfl, rfl, nofun⟩
  have b : (v "b").Definite := Legible.definite ⟨by decide, rfl, rfl, nofun⟩
  have c : (v "c").Definite := Legible.definite ⟨by decide, rfl, rfl, nofun⟩
  have d : (v "d").Definite := Legible.definite ⟨by decide, rfl, rfl, nofun⟩
  refine ⟨rejoined, difference, inOrder, fun var call => ?_⟩
  obtain ⟨chain, join, sort⟩ := chains_eval (α := ℚ) (Interpretation.reals var call)
  refine ⟨?_, ?_, ?_⟩
  · rw [← rejoined]
    exact chain rfl ⟨a, b, c, d⟩
  · refine (join ?_).1
    exact List.forall_mem_cons.2 ⟨a, List.forall_mem_cons.2 ⟨rfl, List.forall_mem_singleton.2 rfl⟩⟩
  · rw [← inOrder]
    exact sort (t := root) ⟨c, a, rfl⟩

end Term

end AlgebraicTerms
