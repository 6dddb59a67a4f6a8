import AlgebraicTerms.Proofs.Term.Conversions

/-!
# Names that are no numerals

The rules look for the numbers zero, one and two by their texts.  Only a number or a variable can be
written as a digit, so what is found is a number unless a variable goes by such a name.
-/

namespace AlgebraicTerms

namespace Term

variable {α : Type} [Scalar α] {t u : Term α} {ts : List (Term α)}

/-- The numbers that terms are compared with by their texts. -/
def numerals : List String := ["0", "1", "2"]

/-- Whether no variable is written as zero, one or two. -/
def NamesApart : Term α → Prop
  | var name index => name ++ index.getD "" ∉ numerals
  | call _ t | inv _ t => t.NamesApart
  | bin _ l r => l.NamesApart ∧ r.NamesApart
  | _ => True

instance decidableNamesApart : (t : Term α) → Decidable t.NamesApart
  | var name index => inferInstanceAs (Decidable (name ++ index.getD "" ∉ numerals))
  | call _ t | inv _ t => decidableNamesApart t
  | bin _ l r => @instDecidableAnd _ _ (decidableNamesApart l) (decidableNamesApart r)
  | empty | num _ | const _ => .isTrue trivial

namespace NamesApart

omit [Scalar α] in
theorem inherited : Inherited (NamesApart (α := α)) := ⟨And.left, And.right, id, id⟩

theorem join {c : Chain} (h : ∀ t ∈ ts, t.NamesApart) : (c.join ts).NamesApart := by
  by_cases hne : ts = []
  · rw [hne]
    trivial
  · exact inherited.join_of_ne_nil And.intro (fun _ => trivial) hne h

theorem factors (h : t.NamesApart) : ∀ f ∈ t.factors, f.NamesApart :=
  List.forall_mem_cons.2 ⟨trivial, inherited.operandsIn h⟩

omit [Scalar α] in
theorem hereditary : Hereditary (NamesApart (α := α)) := ⟨.rfl, .rfl, .rfl⟩

theorem withExponents (h : t.NamesApart) : t.withExponents.NamesApart :=
  hereditary.withExponents trivial h

theorem negationsAsProducts (h : t.NamesApart) : t.negationsAsProducts.NamesApart :=
  hereditary.negationsAsProducts trivial h

end NamesApart

/-! ## Digits -/

variable [Scalar.Legible α]

theorem minus_of_bringsMinus (finite : ∀ n, t = num n → Scalar.isFinite n = true)
    (h : t.bringsMinus = true) : '-' ∈ t.text.toList := by
  cases t with
  | num n =>
      have nonzero : Scalar.isZero n = false := Scalar.Legible.not_isZero_of_isNegative h
      rw [text, numberText, nonzero, if_neg Bool.false_ne_true,
        Scalar.Legible.text_negative (finite n rfl) h]
      simp
  | inv i t =>
      cases i with
      | neg => simp [text]
      | recip => cases h
  | _ => cases h

omit [Scalar.Legible α] in
/-- Only a number or a variable is written as a digit, if a minus that is brought is written. -/
theorem leaf_of_text_digit
    (minus : ∀ l r, t = bin .add l r → r.bringsMinus = true → '-' ∈ r.text.toList)
    {d : Char} (hd : d.isDigit = true) (h : t.text.toList = [d]) :
    (∃ n, t = num n) ∨ ∃ name index, t = var name index := by
  have digit {e : Char} (he : e ∈ t.text.toList) : e.isDigit = true := by
    rw [h, List.mem_singleton] at he
    exact he ▸ hd
  cases t with
  | empty => cases h
  | num n => exact .inl ⟨n, rfl⟩
  | const c =>
      obtain ⟨e, he, plain⟩ : ∃ e ∈ c.name.toList, e.isDigit = false := by
        cases c <;> exact ⟨_, List.mem_cons_self, rfl⟩
      rw [digit he] at plain
      cases plain
  | var name index => exact .inr ⟨name, index, rfl⟩
  | call k t =>
      have paren : '(' ∈ (call k t).text.toList := by simp [text]
      exact absurd (digit paren) (by decide)
  | inv i t =>
      cases i with
      | neg =>
          have minus : '-' ∈ (inv .neg t).text.toList := by simp [text]
          exact absurd (digit minus) (by decide)
      | recip =>
          have blank : ' ' ∈ (inv .recip t).text.toList := by simp [text]
          exact absurd (digit blank) (by decide)
  | bin op l r =>
      by_cases brings : op = .add ∧ r.bringsMinus = true
      · obtain ⟨rfl, hr⟩ := brings
        have written : '-' ∈ (bin .add l r).text.toList := by
          rw [text, if_pos hr, String.toList_append]
          exact List.mem_append_right _ (minus l r rfl hr)
        exact absurd (digit written) (by decide)
      · have symbol : op.toChar ∈ (bin op l r).text.toList :=
          mem_text_bin fun hop => Bool.eq_false_iff.2 fun hr => brings ⟨hop, hr⟩
        have plain := digit symbol
        cases op <;> cases plain

/-! ## Values -/

variable {F : Type*} [Field F] {I : Interpretation α F}

/-- What is written as a number from zero to two is that number, if no variable is. -/
theorem NamesApart.eval_of_text (exact : I.FullyExact) {k : ℕ} {d : Char} (hd : d.isDigit = true)
    (digit : (num (Scalar.ofNat k : α)).text.toList = [d]) (numeral : String.ofList [d] ∈ numerals)
    (ht : t.NamesApart) (h : t.text.toList = [d]) : t.eval I.meaning = k := by
  have minus (l r : Term α) (_ : t = bin .add l r) (hr : r.bringsMinus = true) :
      '-' ∈ r.text.toList := minus_of_bringsMinus (fun n _ => exact.finite n) hr
  rcases leaf_of_text_digit minus hd h with ⟨n, rfl⟩ | ⟨name, index, rfl⟩
  · have same : (num n).text = (num (Scalar.ofNat k)).text :=
      String.toList_inj.1 (h.trans digit.symm)
    have legible (m : α) : (num m).Legible := exact.finite m
    have value := eval_eq_of_text_eq I.lawful (legible n) (legible _) trivial trivial same
    exact value.trans (exact.ofNat k)
  · refine absurd ?_ ht
    have text : name ++ index.getD "" = String.ofList [d] :=
      String.toList_inj.1 (h.trans (String.toList_ofList ..).symm)
    rw [text]
    exact numeral

theorem NamesApart.eval_of_reads_zero (exact : I.FullyExact) (ht : t.NamesApart)
    (h : t.reads "0" = true) : t.eval I.meaning = 0 := by
  have digit : (num (Scalar.ofNat 0 : α)).text.toList = ['0'] := by
    rw [text_zero]
    rfl
  have value := ht.eval_of_text exact rfl digit (by decide) (congrArg String.toList (reads_iff.1 h))
  rwa [Nat.cast_zero] at value

theorem NamesApart.eval_of_reads_one (exact : I.FullyExact) (ht : t.NamesApart)
    (h : t.reads "1" = true) : t.eval I.meaning = 1 := by
  have digit : (num (Scalar.ofNat 1 : α)).text.toList = ['1'] := by
    have one : (num (Scalar.ofNat 1 : α)).text = "1" := reads_iff.1 reads_one
    rw [one]
    rfl
  have value := ht.eval_of_text exact rfl digit (by decide) (congrArg String.toList (reads_iff.1 h))
  rwa [Nat.cast_one] at value

theorem NamesApart.unitAsRead (exact : I.FullyExact) (c : Chain) (ht : t.NamesApart) :
    t.UnitAsRead I c := by
  cases c with
  | sum => exact ht.eval_of_reads_zero exact
  | product => exact ht.eval_of_reads_one exact

theorem NamesApart.sum_join (exact : I.FullyExact) (h : ∀ t ∈ ts, t.NamesApart) :
    (Chain.sum.join ts).eval I.meaning = (ts.map (eval I.meaning)).sum :=
  Term.sum_join exact fun t ht => (h t ht).unitAsRead exact .sum

theorem NamesApart.prod_join (exact : I.FullyExact) (h : ∀ t ∈ ts, t.NamesApart) :
    (Chain.product.join ts).eval I.meaning = (ts.map (eval I.meaning)).prod :=
  Term.prod_join fun t ht => (h t ht).unitAsRead exact .product

theorem NamesApart.eval_of_reads_two [CharZero F] (exact : I.FullyExact) (ht : t.NamesApart)
    (h : t.reads "2" = true) : t.eval I.meaning = 2 := by
  have nonzero : Scalar.isZero (Scalar.ofNat 2 : α) = false := by
    refine Bool.eq_false_iff.2 fun zero => ?_
    have value := I.number_zero zero
    rw [exact.ofNat] at value
    exact absurd value (Nat.cast_ne_zero.2 (by decide))
  have digit : (num (Scalar.ofNat 2 : α)).text.toList = ['2'] := by
    rw [text, numberText, nonzero, if_neg Bool.false_ne_true, Scalar.Legible.text_two]
    rfl
  have value := ht.eval_of_text exact rfl digit (by decide) (congrArg String.toList (reads_iff.1 h))
  rwa [Nat.cast_ofNat] at value

end Term

end AlgebraicTerms
