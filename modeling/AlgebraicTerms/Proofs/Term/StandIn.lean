import AlgebraicTerms.Proofs.Term.Equality
import AlgebraicTerms.Proofs.Term.Size

/-!
# Sizes and texts

Ground terms that are written alike have the same size (`size_eq_of_text_eq`).  Formulas are only
known of terms with finite numbers, so each number is replaced by a rational that stands for it: `3`
for a number that is written `1`, `2` for every other, and the opposite of one of them for a negative
number.  The text of the new term depends only on that of the old one.  The `1` of a reciprocal is
told from a number by the space that follows it, and is left.
-/

namespace AlgebraicTerms

open Token (isWordChar)

/-! ## Respelling -/

/-- What a word becomes, if it is not the name of a constant or keyword. -/
def standInWord (w : List Char) : List Char :=
  let name := String.ofList w
  if w.isEmpty || (Keyword.ofName? name).isSome || (Constant.ofName? name).isSome then w
  else if name = "1" then ['3']
  else ['2']

/-- The text with other words, where the given word has already been read. -/
def respell (word : List Char) : List Char → List Char
  | [] => standInWord word
  | c :: s =>
    if isWordChar c then respell (word ++ [c]) s
    else (if c = ' ' then word else standInWord word) ++ c :: respell [] s

/-- Whether the character ends a word that is not left as it is. -/
def IsSeparator (c : Char) : Prop := isWordChar c = false ∧ c ≠ ' '

theorem isSeparator_paren : IsSeparator '(' ∧ IsSeparator ')' := ⟨⟨rfl, by decide⟩, rfl, by decide⟩

theorem isSeparator_toChar (op : Operator) : IsSeparator op.toChar := by
  cases op <;> exact ⟨rfl, by decide⟩

theorem isSeparator_minus : IsSeparator '-' := isSeparator_toChar .sub

theorem respell_append {c : Char} (hc : IsSeparator c) (word s t : List Char) :
    respell word (s ++ c :: t) = respell word s ++ c :: respell [] t := by
  induction s generalizing word with
  | nil =>
      rw [List.nil_append]
      simp only [respell]
      rw [hc.1, if_neg Bool.false_ne_true, if_neg hc.2]
  | cons d s ih =>
      rw [List.cons_append]
      simp only [respell]
      split
      · exact ih _
      · rw [ih, List.append_assoc, List.cons_append]

theorem respell_cons {c : Char} (hc : IsSeparator c) (t : List Char) :
    respell [] (c :: t) = c :: respell [] t := respell_append hc [] [] t

theorem respell_word {w : List Char} (hw : ∀ c ∈ w, isWordChar c = true) (word : List Char) :
    respell word w = standInWord (word ++ w) := by
  induction w generalizing word with
  | nil => rw [List.append_nil, respell]
  | cons c w ih =>
      simp only [respell]
      rw [if_pos (hw c List.mem_cons_self), ih fun d hd => hw d (List.mem_cons_of_mem _ hd),
        List.append_assoc, List.singleton_append]

theorem respell_recip (t : List Char) :
    respell [] ('1' :: ' ' :: '/' :: ' ' :: t) = '1' :: ' ' :: '/' :: ' ' :: respell [] t := rfl

namespace Term

variable {α β : Type}

def mapNumbers (f : α → β) : Term α → Term β
  | empty => empty
  | num n => num (f n)
  | const c => const c
  | var name index => var name index
  | call k t => call k (t.mapNumbers f)
  | inv i t => inv i (t.mapNumbers f)
  | bin op l r => bin op (l.mapNumbers f) (r.mapNumbers f)

variable [Scalar α]

/-- The rational that stands for a number. -/
def standIn (n : α) : ℚ :=
  if Scalar.isNegative n then (if numberText (-n) = "1" then -3 else -2)
  else if numberText n = "1" then 3 else 2

theorem standIn_of_isNegative {n : α} (h : Scalar.isNegative n = true) :
    standIn n = -(if numberText (-n) = "1" then 3 else 2) := by
  rw [standIn, if_pos h]
  split <;> rfl

theorem isNegative_standIn (n : α) : Scalar.isNegative (standIn n) = Scalar.isNegative n := by
  have positive (p : Prop) [Decidable p] : (0 : ℚ) < if p then 3 else 2 := by
    split <;> norm_num
  cases h : Scalar.isNegative n with
  | true =>
      rw [standIn_of_isNegative h]
      exact Rational.isNegative_iff.2 (neg_neg_of_pos (positive _))
  | false =>
      rw [standIn, h, if_neg Bool.false_ne_true]
      refine Bool.eq_false_iff.2 fun negative => ?_
      exact absurd (Rational.isNegative_iff.1 negative) (positive _).le.not_gt

/-! ## The text of the new term -/

section

variable (t : Term α)

omit [Scalar α] in
theorem isBinary_mapNumbers (f : α → β) (ops : List Operator) :
    (t.mapNumbers f).isBinary ops = t.isBinary ops := by
  cases t <;> rfl

omit [Scalar α] in
theorem isNegation_mapNumbers (f : α → β) : (t.mapNumbers f).isNegation = t.isNegation := by
  cases t with
  | inv i t => cases i <;> rfl
  | _ => rfl

omit [Scalar α] in
theorem isInverse_mapNumbers (f : α → β) : (t.mapNumbers f).isInverse = t.isInverse := by
  cases t <;> rfl

omit [Scalar α] in
theorem isOperation_mapNumbers (f : α → β) : (t.mapNumbers f).isOperation = t.isOperation := by
  cases t <;> rfl

theorem leadsMinus_standIn : (t.mapNumbers standIn).leadsMinus = t.leadsMinus := by
  induction t with
  | num n => exact isNegative_standIn n
  | inv i t => cases i <;> rfl
  | bin op l r ihl _ =>
      cases op with
      | add | sub => exact ihl
      | mul | div =>
          simp only [mapNumbers, leadsMinus, isSum]
          rw [isBinary_mapNumbers, isNegation_mapNumbers, ihl]
      | mod | pow => rfl
  | _ => rfl

theorem bringsMinus_standIn : (t.mapNumbers standIn).bringsMinus = t.bringsMinus := by
  cases t with
  | num n => exact isNegative_standIn n
  | inv i t => cases i <;> rfl
  | _ => rfl

theorem leftEnclosed_standIn (op : Operator) :
    (t.mapNumbers standIn).leftEnclosed op = t.leftEnclosed op := by
  cases op <;> simp only [leftEnclosed, isSum, isBinary_mapNumbers, isNegation_mapNumbers,
    isOperation_mapNumbers, leadsMinus_standIn]

theorem rightEnclosed_standIn (op : Operator) :
    (t.mapNumbers standIn).rightEnclosed op = t.rightEnclosed op := by
  cases op <;> simp only [rightEnclosed, isSum, isBinary_mapNumbers, isInverse_mapNumbers,
    isOperation_mapNumbers, leadsMinus_standIn, bringsMinus_standIn]

end

theorem respell_parenthesized (needed : Bool) {s s' : String}
    (h : s'.toList = respell [] s.toList) :
    (parenthesized needed s').toList = respell [] (parenthesized needed s).toList := by
  cases needed with
  | false => exact h
  | true =>
      have group (s : String) : (parenthesized true s).toList = '(' :: (s.toList ++ [')']) := by
        rw [parenthesized, if_pos rfl, String.toList_append, String.toList_append]
        rfl
      rw [group, group, respell_cons isSeparator_paren.1, respell_append isSeparator_paren.2, h]
      rfl

variable [Scalar.Legible α] [Scalar.Worded α]

theorem toList_numberText_standIn (n : α) :
    (numberText (standIn n)).toList = respell [] (numberText n).toList := by
  have positive {m : α} (hm : Scalar.isNegative m = false) :
      (numberText (if numberText m = "1" then (3 : ℚ) else 2)).toList =
        respell [] (numberText m).toList := by
    cases hzero : Scalar.isZero m with
    | true =>
        rw [numberText, numberText, hzero, if_pos rfl, if_neg (by decide)]
        rfl
    | false =>
        have word := Scalar.Worded.isPlainWord_text hzero hm
        have text : numberText m = Scalar.text m := by
          rw [numberText, hzero, if_neg Bool.false_ne_true]
        have stands : standInWord (Scalar.text m).toList =
            if Scalar.text m = "1" then ['3'] else ['2'] := by
          rw [standInWord, String.ofList_toList, word.keyword, word.constant]
          simp [word.ne_nil]
        rw [text, respell_word word.chars, List.nil_append, stands]
        split <;> rfl
  cases h : Scalar.isNegative n with
  | false =>
      rw [standIn, h, if_neg Bool.false_ne_true]
      exact positive h
  | true =>
      have negative : Scalar.isNegative (standIn n) = true := (isNegative_standIn n).trans h
      have opposite : -standIn n = if numberText (-n) = "1" then 3 else 2 := by
        rw [standIn_of_isNegative h, neg_neg]
      rw [toList_numberText_minus h, toList_numberText_minus negative, opposite,
        respell_cons isSeparator_minus, positive (Scalar.Legible.not_isNegative_neg h)]

/-- The text of the new term is respelled from that of the old one. -/
theorem toList_text_standIn {t : Term α} (ht : t.IsGround) :
    (t.mapNumbers standIn).text.toList = respell [] t.text.toList := by
  induction t with
  | empty => exact ht.elim
  | var _ _ => exact ht.elim
  | num n => exact toList_numberText_standIn n
  | const c =>
      have name : respell [] c.name.toList = c.name.toList := by cases c <;> decide
      exact name.symm
  | call k t ih =>
      have text (α : Type) [Scalar α] (t : Term α) :
          (call k t).text.toList = k.name.toList ++ '(' :: (t.text.toList ++ [')']) := by
        rw [Term.text, String.toList_append, String.toList_append, String.toList_append,
          List.append_assoc, List.append_assoc]
        rfl
      have name : respell [] k.name.toList = k.name.toList := by cases k <;> decide
      rw [mapNumbers, text, text, respell_append isSeparator_paren.1, name,
        respell_append isSeparator_paren.2, ih ht]
      rfl
  | inv i t ih =>
      cases i with
      | neg =>
          have text (α : Type) [Scalar α] (t : Term α) : (inv .neg t).text.toList =
              '-' :: (parenthesized (t.isSum || t.leadsMinus) t.text).toList := by
            rw [Term.text, String.toList_append]
            rfl
          rw [mapNumbers, text, text, respell_cons isSeparator_minus, leadsMinus_standIn,
            isSum, isBinary_mapNumbers, respell_parenthesized _ (ih ht)]
          rfl
      | recip =>
          have text (α : Type) [Scalar α] (t : Term α) : (inv .recip t).text.toList =
              '1' :: ' ' :: '/' :: ' ' ::
                (parenthesized (t.isOperation || t.leadsMinus) t.text).toList := by
            rw [Term.text, String.toList_append]
            rfl
          rw [mapNumbers, text, text, respell_recip, leadsMinus_standIn, isOperation_mapNumbers,
            respell_parenthesized _ (ih ht)]
  | bin op l r ihl ihr =>
      rw [mapNumbers]
      by_cases brings : op = .add ∧ r.bringsMinus = true
      · obtain ⟨rfl, brings⟩ := brings
        obtain ⟨s, hs⟩ := exists_of_bringsMinus brings
        have right := ihr ht.2
        rw [hs, respell_cons isSeparator_minus] at right
        rw [text_add brings, text_add ((bringsMinus_standIn r).trans brings), String.toList_append,
          String.toList_append, hs, respell_append isSeparator_minus, right, ihl ht.1]
      · have text (α : Type) [Scalar α] (l r : Term α) (h : op = .add → r.bringsMinus = false) :
            (bin op l r).text.toList = (parenthesized (l.leftEnclosed op) l.text).toList ++
              op.toChar :: (parenthesized (r.rightEnclosed op) r.text).toList := by
          rw [text_bin h, String.toList_append, String.toList_append, List.append_assoc]
          cases op <;> rfl
        have apart : op = .add → r.bringsMinus = false :=
          fun hop => Bool.eq_false_iff.2 fun h => brings ⟨hop, h⟩
        rw [text ℚ _ _ fun hop => (bringsMinus_standIn r).trans (apart hop), text α _ _ apart,
          leftEnclosed_standIn, rightEnclosed_standIn, respell_append (isSeparator_toChar op),
          respell_parenthesized _ (ihl ht.1), respell_parenthesized _ (ihr ht.2)]

omit [Scalar.Legible α] [Scalar.Worded α] in
theorem legible_standIn {t : Term α} (ht : t.IsGround) : (t.mapNumbers standIn).Legible := by
  induction t with
  | empty => exact ht.elim
  | var _ _ => exact ht.elim
  | num _ => exact rfl
  | const _ => trivial
  | call _ _ ih => exact ih ht
  | inv _ _ ih => exact ih ht
  | bin _ _ _ ihl ihr => exact ⟨ihl ht.1, ihr ht.2⟩

/-! ## The size of the new term -/

/-- The size of an unsigned stand-in.  A `1` belongs to a reciprocal, and has no load. -/
def unsignedSize (q : ℚ) : Size := ⟨0, 0, if q = 1 then 0 else 13, 0, false, q = 3, false⟩

def standInSize (q : ℚ) : Size :=
  if q < 0 then (unsignedSize (-q)).negation else unsignedSize q

theorem standInSize_lawful : (Size.meaning standInSize).Lawful where
  zero h := by
    rw [Rational.isZero_iff.1 h]
    rfl
  negative {q} h := by
    have negative := Rational.isNegative_iff.1 h
    show standInSize q = (standInSize (-q)).negation
    rw [standInSize, if_pos negative, standInSize, if_neg (neg_nonneg.2 negative.le).not_gt]
  recip x := by
    have one : standInSize (Scalar.ofNat 1) = ⟨0, 0, 0, 0, false, false, false⟩ := by decide
    show _ = (Size.meaning standInSize).bin .div (standInSize (Scalar.ofNat 1)) x
    rw [one]
    refine Size.ext ?_ (Nat.zero_add _).symm (Nat.zero_add _).symm (Nat.zero_max _).symm rfl rfl rfl
    exact congrArg (max · 1) (Nat.zero_max _).symm
  add_neg x y := rfl
  add_add x y z := by
    refine Size.ext (max_assoc ..).symm ?_ rfl rfl rfl rfl rfl
    show x.sums + (y.sums + z.sums + 1) + 1 = x.sums + y.sums + 1 + z.sums + 1
    omega
  add_sub x y z := by
    refine Size.ext (max_assoc ..).symm ?_ rfl rfl rfl rfl rfl
    show x.sums + (y.sums + z.sums + 1) + 1 = x.sums + y.sums + 1 + z.sums + 1
    omega
  mul_mul x y z := Size.ext (max_assoc ..).symm (Nat.add_assoc ..).symm
    (Nat.add_assoc x.weight y.weight z.weight).symm (max_assoc ..).symm rfl rfl rfl
  mul_div x y z := by
    refine Size.ext ?_ (Nat.add_assoc ..).symm (Nat.add_assoc x.weight y.weight z.weight).symm
      (max_assoc ..).symm rfl rfl rfl
    show max x.depth (max (max y.depth z.depth) 1) = max (max (max x.depth y.depth) z.depth) 1
    rw [max_assoc, max_assoc, max_assoc]
  neg_mul x y := Size.ext rfl rfl (Nat.add_right_comm x.weight 1 y.weight) rfl rfl rfl rfl
  neg_div x y := Size.ext rfl rfl (Nat.add_right_comm x.weight 1 y.weight) rfl rfl rfl rfl

theorem standInSize_passesRemainders : (Size.meaning standInSize).PassesRemainders := fun x y z =>
  standInSize_lawful.mul_mul x y z

omit [Scalar.Legible α] [Scalar.Worded α] in
theorem standInSize_standIn (n : α) : standInSize (standIn n) = ofNumber n := by
  have positive (m : α) : unsignedSize (if numberText m = "1" then 3 else 2) =
      ⟨0, 0, 13, 0, false, numberText m == "1", false⟩ := by
    split
    · rename_i h
      rw [h]
      decide
    · rename_i h
      rw [beq_false_of_ne h]
      decide
  have negative := isNegative_standIn n
  rw [ofNumber]
  cases h : Scalar.isNegative n with
  | true =>
      rw [if_pos rfl, standInSize, if_pos (Rational.isNegative_iff.1 (negative.trans h)),
        standIn_of_isNegative h, neg_neg, positive]
  | false =>
      rw [if_neg Bool.false_ne_true, standInSize, if_neg fun hlt => ?_, standIn, h,
        if_neg Bool.false_ne_true, positive]
      rw [Rational.isNegative_iff.2 hlt, h] at negative
      cases negative

omit [Scalar α] [Scalar.Legible α] [Scalar.Worded α] in
theorem eval_mapNumbers {M : Type*} {I : Meaning β M} {f : α → β} (t : Term α) :
    (t.mapNumbers f).eval I = t.eval { I with number := fun n => I.number (f n) } := by
  induction t with
  | call k t ih => exact congrArg (I.call k) ih
  | inv i t ih => exact congrArg (I.inv i) ih
  | bin op l r ihl ihr => exact congrArg₂ (I.bin op) ihl ihr
  | _ => rfl

/-- Ground terms that are written alike have the same size. -/
theorem size_eq_of_text_eq {t u : Term α} (ht : t.IsGround) (hu : u.IsGround)
    (h : t.text = u.text) : t.size = u.size := by
  have stands (t : Term α) (ht : t.IsGround) :
      t.size = (t.mapNumbers standIn).formula.term.eval (Size.meaning standInSize) := by
    rw [formula_eval standInSize_lawful (legible_standIn ht) (.inl standInSize_passesRemainders),
      eval_mapNumbers]
    simp only [Size.meaning, standInSize_standIn]
    rfl
  have same : (t.mapNumbers standIn).text = (u.mapNumbers standIn).text := by
    rw [← String.toList_inj, toList_text_standIn ht, toList_text_standIn hu, h]
  rw [stands t ht, stands u hu, formula_eq_of_text_eq (legible_standIn ht) (legible_standIn hu) same]

end Term

end AlgebraicTerms
