import AlgebraicTerms.Proofs.Scalar.Worded
import AlgebraicTerms.Proofs.Term.Definite
import AlgebraicTerms.Proofs.Term.Monomials
import AlgebraicTerms.Proofs.Term.Multiples
import AlgebraicTerms.Proofs.Term.Ranking

/-!
# Linear forms

A linear form is a number, unless that is zero, and multiples of different variables, in canonical
order.  It is the sum of its operands (`join_row`), which are in order, so that sorting leaves it as
it is (`sorted_row`), and nothing in it can be multiplied out (`expanded_row`).  What is written can
be read (`parse_linearForm`).
-/

namespace AlgebraicTerms

variable {α : Type}

namespace Multiple

/-- Whether the variables are different. -/
def Distinct (ms : List (Multiple α)) : Prop := (ms.map fun m => (m.name, m.index)).Nodup

variable [Scalar α]

/-- Whether the variables are in order. -/
def Ordered (ms : List (Multiple α)) : Prop :=
  ms.Pairwise fun m m' => m.base.weight ≤ m'.base.weight

/-- Whether the multiples are those of a linear form. -/
structure AreCanonical (ms : List (Multiple α)) : Prop where
  proper : ∀ m ∈ ms, m.IsProper
  distinct : Distinct ms
  ordered : Ordered ms

end Multiple

variable [Scalar α]

/-- Whether the term is a number, unless that is zero, and multiples of different variables, in
canonical order. -/
inductive Term.IsLinearForm : Term α → Prop
  | multiples {m : Multiple α} {ms : List (Multiple α)} : Multiple.AreCanonical (m :: ms) →
    IsLinearForm (Multiple.row Multiple.base (m.signed m.base) ms)
  | number {n : α} {ms : List (Multiple α)} : Multiple.AreCanonical ms → Scalar.isFinite n = true →
    Scalar.isZero n = false → IsLinearForm (Multiple.row Multiple.base (.num n) ms)

/-! ## Numbers and ones -/

namespace Term

variable [Scalar.Legible α] {t : Term α} {n : α}

/-- What can be read again and is not a number is not written as an identity. -/
theorem Legible.not_reads (ht : t.Legible) (h : t.isNumber = false) (c : Chain) :
    t.reads c.identityText = false := by
  have other {d : Char} (hd : d.isDigit = true) (written : t.text.toList = [d]) : False := by
    obtain ⟨n, rfl⟩ := ht.definite.exists_num_of_text hd written
    cases h
  refine Bool.eq_false_iff.2 fun reads => ?_
  have written := congrArg String.toList (reads_iff.1 reads)
  cases c with
  | sum => exact other (d := '0') rfl written
  | product => exact other (d := '1') rfl written

theorem num_not_reads_zero (finite : Scalar.isFinite n = true) (nonzero : Scalar.isZero n = false) :
    (num n).reads "0" = false :=
  Bool.eq_false_iff.2 fun reads =>
    absurd (Definite.isZero_of_reads finite reads) (Bool.eq_false_iff.1 nonzero)

/-- Only one reads like one. -/
theorem eq_one_of_reads [Scalar.PlainOne α] (finite : Scalar.isFinite n = true)
    (one : (num n).reads "1" = true) : n = Scalar.one := by
  have text : numberText n = "1" := reads_iff.1 one
  have unsigned := Scalar.PlainOne.not_isNegative (n := n)
  rw [numberText] at text
  split at text
  · exact absurd text (by decide)
  · rename_i nonzero
    have literal := Scalar.Legible.literal_text finite (Bool.eq_false_iff.2 nonzero) (unsigned text)
    have literal' := Scalar.Legible.literal_text (α := α) Scalar.Legible.isFinite_one
      Scalar.Legible.not_isZero_one Scalar.Legible.not_isNegative_one
    rw [← literal, text, ← Scalar.Legible.text_one (α := α), literal']
    rfl

end Term

namespace Multiple

open Term

variable {m : Multiple α} {ms : List (Multiple α)} {x : Multiple α → Term α}
  {first t : Term α} {n : α}

section Legibility

variable [Scalar.Legible α]

theorem Places.legible (hx : Places x) (proper : m.IsProper) : (x m).Legible := by
  rcases hx with rfl | rfl
  · exact proper.legible
  · exact ⟨proper.legible, Scalar.Legible.isFinite_one⟩

theorem Places.unsigned_legible (hx : Places x) (proper : m.IsProper) :
    (m.unsigned (x m)).Legible := by
  rw [unsigned]
  cases h : m.factor with
  | none => exact hx.legible proper
  | some n => exact ⟨(proper.factor n h).finite, hx.legible proper⟩

theorem Places.signed_legible (hx : Places x) (proper : m.IsProper) : (m.signed (x m)).Legible := by
  rw [signed]
  split
  · exact hx.unsigned_legible proper
  · exact hx.unsigned_legible proper

theorem Places.signed_reads (hx : Places x) (proper : m.IsProper) (c : Chain) :
    (m.signed (x m)).reads c.identityText = false :=
  (hx.signed_legible proper).not_reads (hx.not_isNumber m) c

theorem row_legible (hx : Places x) (hfirst : first.Legible) (hms : ∀ m ∈ ms, m.IsProper) :
    (row x first ms).Legible := by
  induction ms generalizing first with
  | nil => exact hfirst
  | cons m ms ih =>
      obtain ⟨hm, hms⟩ := List.forall_mem_cons.1 hms
      exact ih ⟨hfirst, hx.unsigned_legible hm⟩ hms

/-- A row is its operands joined. -/
theorem join_row (hx : Places x) (hfirst : first.reads "0" = false) (hms : ∀ m ∈ ms, m.IsProper) :
    Chain.sum.join (first :: ms.map fun m => m.signed (x m)) = row x first ms := by
  induction ms generalizing first with
  | nil => rfl
  | cons m ms ih =>
      obtain ⟨hm, hms⟩ := List.forall_mem_cons.1 hms
      have step : Chain.sum.append first (m.signed (x m)) = .bin m.op first (m.unsigned (x m)) := by
        rw [Chain.append_of_proper hfirst (hx.signed_reads hm .sum), hx.attach_signed]
      have reads : (Term.bin m.op first (m.unsigned (x m))).reads "0" = false := by
        rw [← hx.attach_signed]
        exact Chain.attach_reads .sum .sum _ _
      show (ms.map fun m => m.signed (x m)).foldl Chain.sum.append
        (Chain.sum.append first (m.signed (x m))) = _
      rw [step]
      exact ih reads hms

theorem withoutTrivialPowers_unsigned (m : Multiple α) :
    (m.unsigned m.power).withoutTrivialPowers = m.unsigned m.base := by
  have power : m.power.withoutTrivialPowers = m.base := by
    rw [Multiple.power, firstPower, withoutTrivialPowers, if_pos reads_one]
    rfl
  rw [Multiple.unsigned, Multiple.unsigned]
  cases m.factor with
  | none => exact power
  | some n => exact congrArg (Term.bin .mul (.num n)) power

theorem withoutTrivialPowers_signed (m : Multiple α) :
    (m.signed m.power).withoutTrivialPowers = m.signed m.base := by
  rw [signed, signed]
  split
  · exact congrArg (Term.inv .neg) (withoutTrivialPowers_unsigned m)
  · exact withoutTrivialPowers_unsigned m

theorem withoutTrivialPowers_row :
    (row power first ms).withoutTrivialPowers = row base first.withoutTrivialPowers ms := by
  refine row_map withoutTrivialPowers fun m _ chain => ?_
  have unsigned := withoutTrivialPowers_unsigned m
  rw [op]
  cases m.negative with
  | true => exact congrArg (Term.bin .sub chain.withoutTrivialPowers) unsigned
  | false => exact congrArg (Term.bin .add chain.withoutTrivialPowers) unsigned

end Legibility

/-! ## Canonical order -/

variable [Scalar.Unital α]

theorem number_atMost (n : α) (w : ℕ) :
    (Term.num n).sortKey.AtMost ⟨Scalar.one, w⟩ :=
  SortKey.atMost_iff.2 ⟨Scalar.not_lt_one_zero, .inl Scalar.Unital.zero_lt_one⟩

theorem Places.sortKey_scaled (hx : Places x) (m : Multiple α) (n : α) :
    (Term.bin .mul (.num n) (x m)).sortKey = ⟨Scalar.one, m.base.weight⟩ := by
  have key := hx.sortKey m
  have degree : (x m).degree = Scalar.one := congrArg SortKey.degree key
  have weight : (x m).weight = m.base.weight := congrArg SortKey.weight key
  show SortKey.mk (Scalar.greater Scalar.zero (x m).degree) (0 + (x m).weight) = _
  rw [degree, weight, Nat.zero_add, Scalar.Unital.greater_zero_one]

theorem Places.sortKey_signed (hx : Places x) (m : Multiple α) :
    (m.signed (x m)).sortKey = ⟨Scalar.one, m.base.weight⟩ := by
  have unsigned : (m.unsigned (x m)).sortKey = ⟨Scalar.one, m.base.weight⟩ := by
    rw [Multiple.unsigned]
    cases m.factor with
    | none => exact hx.sortKey m
    | some n => exact hx.sortKey_scaled m n
  rw [signed]
  split <;> exact unsigned

theorem Places.inOrder (hx : Places x) (h : Ordered ms) :
    InOrder (ms.map fun m => m.signed (x m)) := by
  refine List.pairwise_map.2 (h.imp fun {m m'} le => ?_)
  rw [hx.sortKey_signed, hx.sortKey_signed]
  exact SortKey.atMost_iff.2 ⟨SortKey.lt_irrefl _, .inr le⟩

theorem Places.inOrder_number (hx : Places x) (key : first.sortKey = ⟨Scalar.zero, 0⟩)
    (h : Ordered ms) : InOrder (first :: ms.map fun m => m.signed (x m)) := by
  refine List.pairwise_cons.2 ⟨List.forall_mem_map.2 fun m _ => ?_, hx.inOrder h⟩
  rw [key, hx.sortKey_signed]
  exact number_atMost Scalar.zero _

variable [Scalar.Legible α]

/-- A multiple of a variable is in order. -/
theorem Places.sorted_scaled (hx : Places x) (proper : m.IsProper)
    (hn : (Term.num n).reads "1" = false) :
    (Term.bin .mul (.num n) (x m)).sorted = .bin .mul (.num n) (x m) := by
  have operands : (Term.bin .mul (.num n) (x m)).sortedOperands .product = [.num n, x m] := by
    rcases hx with rfl | rfl <;> rfl
  have other : (x m).isNumber = false := by rcases hx with rfl | rfl <;> rfl
  have order : InOrder [.num n, x m] :=
    List.pairwise_pair.2 (by rw [hx.sortKey]; exact number_atMost n _)
  rw [sorted_eq_join .product, operands, sortByKey_of_inOrder order]
  show Chain.product.append (.num n) (x m) = _
  rw [Chain.append_of_proper hn ((hx.legible proper).not_reads other .product)]
  rcases hx with rfl | rfl <;> rfl

variable [Scalar.PlainOne α]

theorem IsProper.factor_reads (proper : m.IsProper) (h : m.factor = some n) :
    (Term.num n).reads "1" = false :=
  Bool.eq_false_iff.2 fun one => by
    have notOne := proper.notOne n h
    rw [eq_one_of_reads ((proper.factor n h).finite) one, Scalar.isOne_one] at notOne
    cases notOne

theorem Places.sorted_unsigned (hx : Places x) (proper : m.IsProper) :
    (m.unsigned (x m)).sorted = m.unsigned (x m) := by
  rw [Multiple.unsigned]
  cases h : m.factor with
  | none => rcases hx with rfl | rfl <;> rfl
  | some n => exact hx.sorted_scaled proper (proper.factor_reads h)

theorem Places.sorted_signed (hx : Places x) (proper : m.IsProper) :
    (m.signed (x m)).sorted = m.signed (x m) := by
  have unsigned := hx.sorted_unsigned proper
  rw [signed]
  split
  · exact congrArg (Term.inv .neg) unsigned
  · exact unsigned

/-- A row whose operands are in order is in canonical order. -/
theorem sorted_row (hx : Places x) (hms : ∀ m ∈ ms, m.IsProper)
    (hfirst : first.reads "0" = false) (single : first.operandsIn .sum = [first])
    (sorted : first.sorted = first) (order : InOrder (first :: ms.map fun m => m.signed (x m))) :
    (row x first ms).sorted = row x first ms := by
  have operands : (row x first ms).sortedOperands .sum =
      first :: ms.map fun m => m.signed (x m) := by
    rw [sortedOperands_eq_map, operandsIn_row fun m _ => hx.not_isIn m, single, List.map_append,
      List.map_singleton, sorted, List.map_map]
    exact congrArg (first :: ·) (List.map_congr_left fun m hm => hx.sorted_signed (hms m hm))
  rw [sorted_eq_join .sum, operands, sortByKey_of_inOrder order, join_row hx hfirst hms]

/-- A number behind a row is put in front of it. -/
theorem Places.sorted_add_number (hx : Places x) (proper : ∀ m' ∈ m :: ms, m'.IsProper)
    (hn : (Term.num n).reads "0" = false) (ordered : Ordered (m :: ms)) :
    (Term.bin .add (row x (m.signed (x m)) ms) (.num n)).sorted = row x (.num n) (m :: ms) := by
  let multiples : List (Term α) := (m :: ms).map fun m => m.signed (x m)
  have operands : (Term.bin .add (row x (m.signed (x m)) ms) (.num n)).sortedOperands .sum =
      multiples ++ [.num n] := by
    rw [sortedOperands_eq_map, operandsIn_bin rfl, operandsIn_row fun m _ => hx.not_isIn m,
      hx.operandsIn_signed, List.map_append]
    refine congrArg (· ++ [Term.num n]) ?_
    show multiples.map Term.sorted = multiples
    rw [List.map_map]
    exact List.map_congr_left fun m hm => hx.sorted_signed (proper m hm)
  have apart : ∀ t ∈ multiples, ∀ u ∈ [Term.num n], t.Comparable u := by
    refine List.forall_mem_map.2 fun m _ u hu => .inr (.inr (.inl ?_))
    rw [List.mem_singleton.1 hu, hx.sortKey_signed]
    exact Scalar.Unital.zero_lt_one
  have first : sortByKey (multiples ++ [.num n]) = .num n :: multiples :=
    (sortByKey_append_comm apart).trans (sortByKey_of_inOrder (hx.inOrder_number rfl ordered))
  rw [sorted_eq_join .sum, operands, first]
  exact join_row hx hn proper

/-! ## Conversions -/

theorem expanded_unsigned (proper : m.IsProper) :
    (m.unsigned m.base).expanded = m.unsigned m.base := by
  rw [Multiple.unsigned]
  cases h : m.factor with
  | none => rfl
  | some n =>
      have product : Chain.product.join [.num n, m.base] = .bin .mul (.num n) m.base :=
        Chain.append_of_proper (proper.factor_reads h) (proper.legible.not_reads rfl .product)
      rw [expanded]
      show (Chain.sum.join [Chain.product.join [.num n, m.base]]).negationsAsProducts = _
      rw [product]
      rfl

theorem expanded_signed (proper : m.IsProper) :
    (m.signed m.base).expanded = m.signed m.base := by
  rw [signed]
  split
  · rfl
  · exact expanded_unsigned proper

theorem expanded_row (hms : ∀ m ∈ ms, m.IsProper) :
    (row base first ms).expanded = row base first.expanded ms := by
  refine row_map expanded fun m hm chain => ?_
  have unsigned := expanded_unsigned (hms m hm)
  rw [op]
  cases m.negative with
  | true => exact congrArg (Term.bin .sub chain.expanded) unsigned
  | false => exact congrArg (Term.bin .add chain.expanded) unsigned

end Multiple

/-! ## Reading -/

namespace Term

variable [Scalar.Legible α] {t : Term α}

theorem IsLinearForm.legible (h : t.IsLinearForm) : t.Legible := by
  cases h with
  | multiples canonical =>
      obtain ⟨hm, proper⟩ := List.forall_mem_cons.1 canonical.proper
      exact Multiple.row_legible (.inl rfl) (Multiple.Places.signed_legible (.inl rfl) hm) proper
  | number canonical finite _ => exact Multiple.row_legible (.inl rfl) finite canonical.proper

/-- A linear form is read again as its formula. -/
theorem parse_linearForm (h : t.IsLinearForm) : parse .registry t.text = .ok t.formula.term := by
  have shallow : t.formula.deepest (Formula.Place.first 0) ≤ 1 := by
    cases h with
    | multiples canonical =>
        obtain ⟨hm, proper⟩ := List.forall_mem_cons.1 canonical.proper
        exact Multiple.deepest_row proper (Multiple.deepest_signed hm)
    | @number n ms canonical _ nonzero =>
        refine Multiple.deepest_row canonical.proper ?_
        rw [formula, nonzero]
        cases Scalar.isNegative n <;> exact Nat.zero_le 1
  exact parse_text_of_deepest h.legible (shallow.trans (by decide))

end Term

end AlgebraicTerms
