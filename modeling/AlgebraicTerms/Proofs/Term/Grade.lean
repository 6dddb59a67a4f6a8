import AlgebraicTerms.Proofs.Term.Collecting

/-!
# Grades

The grade of a term tells how tight its outermost operation is, and that it has no more than a minus
in front.  It is seen from the text, as is the number of minuses, so that terms of different grades or
numbers of minuses cannot be taken for one another.
-/

namespace AlgebraicTerms

namespace Formula

variable {α : Type}

/-- How tightly a formula binds, where a minus binds like the product that it can stand before. -/
def grade : Formula α → ℕ
  | minus .. => Precedence.factor.rank
  | binary op .. => op.precedence.rank
  | number .. => 4
  | _ => 5

theorem graft_grade (op : Operator) (f g : Formula α) :
    (f.graft op g).grade = op.precedence.rank := by
  cases g with
  | binary op' s l r =>
      by_cases same : op'.precedence = op.precedence
      · rw [graft, if_pos same, grade, same]
      · rw [graft, if_neg same, grade]
  | _ => rfl

theorem combine_grade (op : Operator) (f g : Formula α) :
    (f.combine op g).grade = op.precedence.rank := by
  cases op with
  | add =>
      rw [combine, if_pos rfl]
      cases g with
      | minus s g => rfl
      | _ => exact graft_grade _ _ _
  | mul | div | mod =>
      rw [combine, if_neg (by decide)]
      cases f with
      | minus s f =>
          rw [glue_of_isMinus rfl]
          rfl
      | _ => exact graft_grade _ _ _
  | sub | pow =>
      rw [combine, if_neg (by decide), glue_of_not_isProduct (by decide)]
      exact graft_grade _ _ _

end Formula

namespace Term

variable {α : Type} [Scalar α] {t u l r : Term α} {ts : List (Term α)} {n : α}

def grade (t : Term α) : ℕ := t.formula.grade

/-- The number of minuses in the text of a term. -/
def minuses (t : Term α) : ℕ := t.text.toList.count '-'

theorem grade_eq_of_text_eq [Scalar.Legible α] (ht : t.Legible) (hu : u.Legible)
    (h : t.text = u.text) : t.grade = u.grade := by
  rw [grade, grade, formula_eq_of_text_eq ht hu h]

theorem grade_bin (op : Operator) (l r : Term α) : (bin op l r).grade = op.precedence.rank :=
  Formula.combine_grade op _ _

theorem grade_num (n : α) : (num n).grade = 2 ∨ (num n).grade = 4 := by
  rw [grade, formula]
  split
  · exact .inr rfl
  · split
    · exact .inl rfl
    · exact .inr rfl

theorem grade_of_reads_one [Scalar.PlainOne α] (one : (num n).reads "1" = true) :
    (num n).grade = 4 := by
  rw [grade, formula]
  split
  · rfl
  · rw [if_neg (Bool.eq_false_iff.1 (not_isNegative_of_reads_one one))]
    rfl

theorem grade_var (name : String) (index : Option String) : (var (α := α) name index).grade = 5 :=
  rfl

theorem IsMonomial.grade (h : t.IsMonomial) : 2 ≤ t.grade ∧ t.grade ≤ 4 := by
  cases h.product with
  | leaf h =>
      cases h with
      | num n => rcases grade_num n with h | h <;> rw [h] <;> decide
      | power _ _ =>
          rw [grade_bin]
          decide
  | mul _ _ =>
      rw [grade_bin]
      decide

theorem two_le_grade_of_signed (h : SignedOf IsMonomial t) : 2 ≤ t.grade := by
  cases h with
  | leaf h => exact h.grade.1
  | neg _ => exact Nat.le_refl 2

/-! ## Minuses -/

theorem count_parenthesized (needed : Bool) (s : String) :
    (parenthesized needed s).toList.count '-' = s.toList.count '-' := by
  cases needed with
  | false => rfl
  | true => simp [parenthesized]

theorem minuses_mul : (bin .mul l r).minuses = l.minuses + r.minuses := by
  simp only [minuses, text, String.toList_append, List.count_append, count_parenthesized]
  rfl

theorem minuses_neg : (inv .neg t).minuses = t.minuses + 1 := by
  simp only [minuses, text, String.toList_append, List.count_append, count_parenthesized]
  exact Nat.add_comm _ _

def totalMinuses (ts : List (Term α)) : ℕ := (ts.map minuses).sum

theorem minuses_of_reads_one (h : t.reads "1" = true) : t.minuses = 0 := by
  rw [minuses, reads_iff.1 h]
  decide

/-- The minuses of a product are those of its factors. -/
theorem minuses_eq_total (h : ProductOf IsFactor t) :
    t.minuses = totalMinuses (t.operandsIn .product) := by
  induction h with
  | leaf h => cases h <;> rfl
  | @mul l r _ _ ihl ihr =>
      rw [minuses_mul, ihl, ihr, totalMinuses, totalMinuses, ← List.sum_append, ← List.map_append]
      rfl

theorem join_minuses (one : (num (Scalar.ofNat 1 : α)).reads "1" = true)
    (hts : ∀ u ∈ ts, IsFactor u) : (Chain.product.join ts).minuses = totalMinuses ts := by
  have append {t u : Term α} (hu : IsFactor u) :
      (Chain.product.append t u).minuses = t.minuses + u.minuses := by
    unfold Chain.append
    split
    · rename_i h
      rw [minuses_of_reads_one h]
      rfl
    · split
      · rename_i h
        rw [minuses_of_reads_one h, Nat.zero_add]
      · cases hu with
        | num n => exact minuses_mul
        | power _ _ => exact minuses_mul
  cases ts with
  | nil => exact minuses_of_reads_one one
  | cons t ts =>
      show (ts.foldl Chain.product.append t).minuses = t.minuses + totalMinuses ts
      have rest := fun u hu => hts u (List.mem_cons_of_mem t hu)
      clear hts
      induction ts generalizing t with
      | nil => rfl
      | cons u us ih =>
          rw [List.foldl_cons, ih _ fun w hw => rest w (List.mem_cons_of_mem u hw),
            append (rest u List.mem_cons_self), Nat.add_assoc]
          rfl

theorem sorted_minuses [Scalar.Legible α] (h : SignedOf IsMonomial t) :
    t.sorted.minuses = t.minuses := by
  induction h with
  | @leaf t h =>
      have perm := sortByKey_perm (t.operandsIn .product)
      rw [sorted_eq_join .product, sortedOperands_product h.product, join_minuses reads_one,
        minuses_eq_total h.product]
      · exact (perm.map minuses).sum_eq.symm
      · exact fun u hu => h.operandsIn u (perm.mem_iff.2 hu)
  | @neg t _ ih =>
      show (inv .neg t.sorted).minuses = _
      rw [minuses_neg, minuses_neg, ih]

/-! ## Terms at work -/

/-- Whether a term has a lower grade, or the same and more minuses. -/
def IsOutside (t u : Term α) : Prop :=
  t.grade < u.grade ∨ t.grade = u.grade ∧ u.minuses < t.minuses

theorem IsOutside.trans {w : Term α} (h : t.IsOutside u) (h' : u.IsOutside w) : t.IsOutside w := by
  simp only [IsOutside] at *
  omega

theorem IsOutside.text_ne [Scalar.Legible α] (h : t.IsOutside u) (ht : t.Legible)
    (hu : u.Legible) : t.text ≠ u.text := by
  intro same
  rcases h with lower | ⟨_, fewer⟩
  · exact lower.ne (grade_eq_of_text_eq ht hu same)
  · rw [minuses, minuses, same] at fewer
    exact lt_irrefl _ fewer

/-- A negation is outside of what is negated, also once that is put in order. -/
theorem isOutside_neg [Scalar.Legible α] (h : SignedOf IsMonomial t) :
    (inv .neg t).IsOutside t.sorted := by
  have grade := two_le_grade_of_signed (sorted_signed h)
  rcases grade.lt_or_eq with higher | same
  · exact .inl higher
  · refine .inr ⟨same, ?_⟩
    rw [sorted_minuses h, minuses_neg]
    exact Nat.lt_succ_self _

end Term

end AlgebraicTerms
