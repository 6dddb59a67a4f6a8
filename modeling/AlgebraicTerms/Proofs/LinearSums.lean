import AlgebraicTerms.Proofs.Search.Rows

/-!
# Linear forms are simple

A number with multiples of different variables behind it, in canonical order, stays as it is when it
is simplified (`simplify_number_row`), and so do such multiples alone.  A negative number at the
beginning is read as a negation, which is searched for as a product and gives the number again
(`simplify_minus_row`).
-/

namespace AlgebraicTerms

open Term

variable {α : Type} [Scalar α]

/-! ## Rows that are searched -/

namespace Multiple

variable {ms : List (Multiple α)} {first : Term α}

/-- A row is searched as the sum of its operands. -/
theorem exists_sum_of_row (hms : ms ≠ []) (written : first.withExponents = first)
    (single : first.operandsIn .sum = [first]) : ∃ l r : Term α,
    (∀ (rule : FactoringRule α) find, Search.candidatesByRule rule find (row power first ms) =
      Search.sum rule find (Search.simplified find) (.bin .add l r)) ∧
    (Term.bin .add l r).withExponents.operands.map negationsAsProducts =
      first.negationsAsProducts :: ms.map product := by
  obtain none | ⟨init, m, rfl⟩ := List.eq_nil_or_concat ms
  · exact absurd none hms
  rw [List.concat_eq_append, row_concat]
  refine ⟨row power first init, m.signed m.power, fun rule find => ?_, ?_⟩
  · rw [op, signed]
    cases m.negative <;> rfl
  · have hx : Places (α := α) power := .inr rfl
    show (Term.bin .add (row power first init).withExponents
      (m.signed m.power).withExponents).operands.map negationsAsProducts = _
    rw [withExponents_row hx, written, withExponents_signed hx, operands_of_chain rfl,
      operandsIn_bin rfl, operandsIn_row fun m _ => hx.not_isIn m, single, hx.operandsIn_signed]
    simp only [List.map_append, List.map_map]
    rfl

omit [Scalar α] in
theorem row_isSum (x : Multiple α → Term α) (first : Term α) (hms : ms ≠ []) : ∃ op l r,
    row x first ms = .bin op l r ∧ op.precedence.rank = 1 := by
  obtain none | ⟨init, m, rfl⟩ := List.eq_nil_or_concat ms
  · exact absurd none hms
  · rw [List.concat_eq_append, row_concat]
    refine ⟨m.op, _, _, rfl, ?_⟩
    rw [op]
    cases m.negative <;> rfl

end Multiple

namespace Search

open Multiple

variable {ms : List (Multiple α)} {t c first : Term α}

/-- Whether a finder delivers all that is to be found while a linear form is searched. -/
def Serves (A : List String) (find : Finder α) : Prop :=
  ∀ t c, Resolves t.sorted c → Delivers Resolved A (find t) [c]

/-- Whether the sum of the given summands has the given candidate, if its summands are served. -/
def AddsUpTo (ts : List (Term α)) (u : Term α) : Prop :=
  ∀ (A : List String) (find : Finder α) (l r : Term α), Serves A find →
    (Term.bin .add l r).withExponents.operands.map negationsAsProducts = ts →
    Delivers Resolved A (sum factorings find (simplified find) (.bin .add l r)) [u]

theorem two_le_grade (h : Resolves t c) : 2 ≤ t.grade := by
  have number (n : α) : 2 ≤ (Term.num n).grade := by
    rcases grade_num n with h | h
    · exact h.ge
    · rw [h]
      decide
  cases h with
  | one => exact number _
  | negOne => exact number _
  | var => exact Nat.le_of_ble_eq_true rfl
  | power =>
      rw [grade_firstPower]
      decide
  | multiple | minusMultiple | product | numbers =>
      rw [grade_bin]
      decide

/-- What is searched while a row is at work is inside of it. -/
theorem serves_row [Scalar.Legible α] [Scalar.Worded α] [Scalar.Unital α]
    (options : SearchOptions) (rule : FactoringRule α) (hms : ms ≠ [])
    (legible : (row Multiple.power first ms).Legible) {depth : ℕ} (deep : 4 ≤ depth) :
    Serves [(row Multiple.power first ms).text] (candidatesWithin (α := α) options rule depth) := by
  intro t c h
  have higher := two_le_grade h
  have grade : (row Multiple.power first ms).grade = 1 := by
    obtain ⟨op, l, r, same, rank⟩ := row_isSum Multiple.power first hms
    rw [same, grade_bin, rank]
  refine candidatesWithin_delivers options rule depth _ t c h ?_ (by omega)
  intro key hkey
  obtain rfl := List.mem_singleton.1 hkey
  exact ⟨_, legible, rfl, .inl (grade.trans_lt higher)⟩

end Search

namespace Multiple

open Search

variable [Scalar.Legible α] [Scalar.Worded α] [Scalar.Unital α] {options : SearchOptions}
  {m : Multiple α} {ms : List (Multiple α)} {first searched u : Term α} {n : α}

/-- What a row is simplified to, if it is known what its sum gives. -/
theorem simplify_row (deep : 5 ≤ options.depth) (hms : ms ≠ []) (proper : ∀ m ∈ ms, m.IsProper)
    (prepared : first.expanded.withExponents = searched)
    (written : searched.withExponents = searched) (single : searched.operandsIn .sum = [searched])
    (legible : searched.Legible)
    (ordered : (row power searched ms).sorted = row power searched ms)
    (sum : AddsUpTo (searched.negationsAsProducts :: ms.map product) u) :
    (row base first ms).simplify options = .ok u.withoutTrivialPowers.sorted := by
  obtain ⟨depth, hdepth⟩ := Nat.exists_eq_add_of_le' deep
  obtain ⟨op, l, r, isBin, _⟩ := row_isSum base first hms
  obtain ⟨op', l', r', isBin', _⟩ := row_isSum power searched hms
  obtain ⟨x, y, byRule, summands⟩ := exists_sum_of_row hms written single
  have input : (row base first ms).expanded.withExponents = row power searched ms := by
    rw [expanded_row proper, withExponents_row (.inl rfl), prepared]
  have whole := row_legible (x := power) (.inr rfl) legible proper
  have serves := serves_row options factorings hms whole (Nat.le_add_left 4 depth)
  let s : SearchState α := { SearchState.start with log := SearchState.start.log }
  have delivered := sum _ _ x y serves summands
  rw [← byRule factorings] at delivered
  obtain ⟨v, hrun, _⟩ := delivered (s.enter (row power searched ms).text) rfl .nil
  refine simplify_of_single (u := u) (fun h => by rw [isBin] at h; cases h) ?_
  rw [input, Search.candidates, hdepth]
  have hinv (i : Inverse) (operand : Term α) : row power searched ms ≠ .inv i operand :=
    fun h => by rw [isBin'] at h; cases h
  obtain ⟨w, hw, _⟩ := candidatesVia_single options (s := s) ordered hinv rfl List.not_mem_nil hrun
  exact ⟨w, hw⟩

section Summands

variable (deep : 5 ≤ options.depth)

include deep

/-- A number and multiples are simple. -/
theorem simplify_number_row (canonical : AreCanonical ms) (hms : ms ≠ [])
    (finite : Scalar.isFinite n = true) (nonzero : Scalar.isZero n = false) :
    (row base (.num n) ms).simplify options = .ok (row base (.num n) ms) := by
  obtain ⟨proper, distinct, ordered⟩ := canonical
  have hreads := num_not_reads_zero finite nonzero
  have places : Places (α := α) power := .inr rfl
  have places' : Places (α := α) base := .inl rfl
  have searched : (row power (.num n) ms).sorted = row power (.num n) ms :=
    sorted_row places proper hreads rfl rfl (places.inOrder_number rfl ordered)
  have simplified {u : Term α} (sum : AddsUpTo (.num n :: ms.map product) u) :
      (row base (.num n) ms).simplify options = .ok u.withoutTrivialPowers.sorted :=
    simplify_row deep hms proper rfl rfl rfl finite searched sum
  have stands := stands_product proper
  rcases ms with _ | ⟨m, _ | ⟨m', ms⟩⟩
  · exact absurd rfl hms
  · have hm := List.forall_mem_singleton.1 proper
    have sum : AddsUpTo [.num n, m.product] (row power (.num n) [m]) :=
      fun A find l r serves summands =>
        sum_delivers_of_number hm (serves _ _ (product_resolves hm)) summands hreads nonzero
    rw [simplified sum, withoutTrivialPowers_row]
    exact congrArg Except.ok
      (sorted_row places' proper hreads rfl rfl (places'.inOrder_number rfl ordered))
  · obtain ⟨hm, proper'⟩ := List.forall_mem_cons.1 proper
    have joined : plainSum n ((m :: m' :: ms).map fun m => m.signed m.power) =
        .bin .add (row power (m.signed m.power) (m' :: ms)) (.num n) := by
      rw [plainSum, nonzero, if_neg Bool.false_ne_true]
      exact congrArg (Term.bin .add · (.num n))
        (join_row places (places.signed_reads hm .sum) proper')
    have sum : AddsUpTo (.num n :: (m :: m' :: ms).map product)
        (.bin .add (row power (m.signed m.power) (m' :: ms)) (.num n)) := by
      intro A find l r serves summands
      rw [← joined, ← stands.sumOfNumbers_cons n]
      exact sum_delivers_of_multiples proper distinct
        (fun m hm => serves _ _ (product_resolves (proper m hm))) (Nat.le_add_left 2 _) summands
        stands.others_eq
    have finished : (Term.bin .add (row power (m.signed m.power) (m' :: ms))
        (.num n)).withoutTrivialPowers =
          .bin .add (row base (m.signed m.base) (m' :: ms)) (.num n) := by
      rw [← withoutTrivialPowers_signed, ← withoutTrivialPowers_row]
      rfl
    rw [simplified sum, finished, places'.sorted_add_number proper hreads ordered]

/-- Two or more multiples are simple. -/
theorem simplify_multiples_row (canonical : AreCanonical (m :: ms)) (hms : ms ≠ []) :
    (row base (m.signed m.base) ms).simplify options = .ok (row base (m.signed m.base) ms) := by
  obtain ⟨proper, distinct, ordered⟩ := canonical
  obtain ⟨hm, proper'⟩ := List.forall_mem_cons.1 proper
  have places : Places (α := α) power := .inr rfl
  have places' : Places (α := α) base := .inl rfl
  have stands := stands_product proper
  have two : 2 ≤ (m :: ms).length := Nat.succ_le_succ (List.length_pos_iff.2 hms)
  have prepared : (m.signed m.base).expanded.withExponents = m.signed m.power := by
    rw [expanded_signed hm, withExponents_signed places']
  have sorted {x : Multiple α → Term α} (hx : Places x) :
      (row x (m.signed (x m)) ms).sorted = row x (m.signed (x m)) ms :=
    sorted_row hx proper' (hx.signed_reads hm .sum) (hx.operandsIn_signed m) (hx.sorted_signed hm)
      (hx.inOrder ordered)
  have joined : plainSum (sumOfNumbers ((m :: ms).map product))
      ((m :: ms).map fun m => m.signed m.power) = row power (m.signed m.power) ms := by
    rw [plainSum, stands.sumOfNumbers_eq, if_pos Scalar.Unital.isZero_emptySum]
    exact join_row places (places.signed_reads hm .sum) proper'
  have sum : AddsUpTo ((m :: ms).map product) (row power (m.signed m.power) ms) := by
    intro A find l r serves summands
    rw [← joined]
    exact sum_delivers_of_multiples proper distinct
      (fun m hm => serves _ _ (product_resolves (proper m hm))) two summands stands.others_eq
  rw [simplify_row deep hms proper' prepared (withExponents_signed places m)
    (places.operandsIn_signed m) (places.signed_legible hm) (sorted places) sum,
    withoutTrivialPowers_row, withoutTrivialPowers_signed, sorted places']

/-- A multiple is simple. -/
theorem simplify_multiple (proper : m.IsProper) :
    (m.signed m.base).simplify options = .ok (m.signed m.base) := by
  obtain ⟨depth, hdepth⟩ := Nat.exists_eq_add_of_le' deep
  have places : Places (α := α) power := .inr rfl
  have places' : Places (α := α) base := .inl rfl
  let operand : Term α := m.unsigned m.power
  have resolves : Resolves operand.sorted operand := unsigned_resolves proper
  have grade := two_le_grade resolves
  have searched : (m.signed m.base).expanded.withExponents = m.signed m.power := by
    rw [expanded_signed proper, withExponents_signed places']
  have nonempty : m.signed m.base ≠ .empty := fun same => by
    have legible := places'.signed_legible proper
    rw [same] at legible
    exact legible
  rw [simplify_of_single (u := m.signed m.power) nonempty, withoutTrivialPowers_signed,
    places'.sorted_signed proper]
  rw [searched, Search.candidates, hdepth, signed]
  let s : SearchState α := { SearchState.start with log := SearchState.start.log }
  cases m.negative with
  | false =>
      have delivers : Delivers Resolved [] (candidatesWithin options factorings (depth + 5) operand)
          [operand] := by
        refine candidatesWithin_delivers options factorings _ [] operand operand resolves ?_
          (by omega)
        exact fun _ busy => absurd busy List.not_mem_nil
      obtain ⟨w, hw, _⟩ := delivers s rfl .nil
      exact ⟨w, hw⟩
  | true =>
      have delivers : Delivers Resolved [(Term.inv .neg operand).text]
          (candidatesWithin options factorings (depth + 4) operand) [operand] := by
        refine candidatesWithin_delivers options factorings _ _ operand operand resolves ?_
          (by omega)
        refine List.forall_mem_singleton.2 ⟨_, ?_, rfl, ?_⟩
        · exact places.unsigned_legible proper
        · exact isOutside_neg (.leaf (unsigned_isMonomial proper))
      obtain ⟨w, hw, _⟩ := delivers (s.enter (Term.inv .neg operand).text) rfl .nil
      obtain ⟨w, hw⟩ := candidatesVia_neg options factorings (s := s)
        (places.sorted_unsigned proper) rfl List.not_mem_nil hw
      have negated : operand.negated = .inv .neg operand := by
        show (m.unsigned m.power).negated = .inv .neg (m.unsigned m.power)
        rw [unsigned]
        cases m.factor <;> rfl
      exact ⟨w, negated ▸ hw⟩

/-- A number that is read as a negation is a number. -/
theorem simplify_minus_row (canonical : AreCanonical ms) (hms : ms ≠ [])
    (hn : Scalar.IsPositive n) :
    (row base (.inv .neg (.num n)) ms).simplify options = .ok (row base (.num (-n)) ms) := by
  obtain ⟨proper, distinct, ordered⟩ := canonical
  let minus : Term α := .inv .neg (.num n)
  have legible : minus.Legible := hn.finite
  have places : Places (α := α) power := .inr rfl
  have places' : Places (α := α) base := .inl rfl
  have hreads : (Term.num (-n)).reads "0" = false :=
    num_not_reads_zero (Scalar.Legible.isFinite_neg hn.finite) hn.not_isZero_neg
  have searched : (row power minus ms).sorted = row power minus ms :=
    sorted_row places proper (legible.not_reads rfl .sum) rfl rfl
      (places.inOrder_number rfl ordered)
  have sum : AddsUpTo (.bin .mul (.num Scalar.negOne) (.num n) :: ms.map product)
      (row power (.num (-n)) ms) := fun A find l r serves summands =>
    sum_delivers_of_minus proper distinct
      (fun m hm => serves _ _ (product_resolves (proper m hm))) hms hn summands
      (serves _ _ (negOne_mul_resolves hn)) fun m hm => serves _ _ (found_resolves (proper m hm))
  have simplified : (row base minus ms).simplify options =
      .ok (row power (.num (-n)) ms).withoutTrivialPowers.sorted :=
    simplify_row deep hms proper rfl rfl rfl legible searched sum
  rw [simplified, withoutTrivialPowers_row]
  exact congrArg Except.ok
    (sorted_row places' proper hreads rfl rfl (places'.inOrder_number rfl ordered))

end Summands

end Multiple

end AlgebraicTerms
