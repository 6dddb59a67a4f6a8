import AlgebraicTerms.Proofs.Search.Collecting
import AlgebraicTerms.Proofs.Search.State
import AlgebraicTerms.Proofs.Simplify
import AlgebraicTerms.Scalar.Double

/-!
# Linear forms

The simplest form of a collectable term has each variable at most once, and has exactly those with a
coefficient other than zero (`simplify_collects`).  A term that is searched on behalf of a sum of
monomials is of a higher grade than all at work, or has fewer minuses, so that it is not met again
inside itself, and all that is searched has a single candidate.

A minus before a sum is not multiplied out, so that its like terms are not found
(`negated_sum_apart`).  And coefficients that are rounded as they are added need not cancel
(`rounded_coefficients_left`).
-/

namespace AlgebraicTerms

open Term

variable {α : Type} [Scalar α]

namespace Search

variable {J : Cache α → Prop} {A : List String} {find : Finder α} {rule : FactoringRule α}
  {options : SearchOptions} {t u c : Term α} {g : ℕ}

theorem kept_singleton (c : Term α) : (kept options [c] : Search α (List (Term α))) = pure [c] := by
  have unique : distinct [] [c] = [c] := rfl
  rw [kept, unique]
  split
  · rfl
  · refine if_neg ?_
    rw [List.length_singleton]
    omega

/-- The candidates of a term that is not at work are remembered or computed. -/
theorem candidatesVia_ensures {P : List (Term α) → Prop}
    (known : ∀ cache found, J cache → cache.lookup t.sorted.text = some found → P found)
    (idle : t.sorted.text ∉ A)
    (h : Ensures J (t.sorted.text :: A) (compute options rule find t.sorted t.sorted.text) P) :
    Ensures J A (candidatesVia options rule find t) P := by
  refine .get fun s hactive hcache => ?_
  split
  · rename_i found hfound
    exact .pure (known _ _ hcache hfound)
  · rw [if_neg]
    · exact .working h
    · rwa [hactive, List.contains_iff_mem]

/-- Whether only terms outside of the given one are at work. -/
def Inside (A : List String) (t : Term α) : Prop :=
  ∀ key ∈ A, ∃ u : Term α, u.Legible ∧ u.text = key ∧ u.IsOutside t

theorem Inside.cons (hA : Inside A t) (ht : t.Legible) (h : t.IsOutside u) :
    Inside (t.text :: A) u := by
  intro key hkey
  rcases List.mem_cons.1 hkey with rfl | hkey
  · exact ⟨t, ht, rfl, h⟩
  · obtain ⟨w, hw, same, outside⟩ := hA key hkey
    exact ⟨w, hw, same, outside.trans h⟩

variable [Scalar.Legible α]

theorem Inside.notMem (hA : Inside A t) (ht : t.Legible) : t.text ∉ A := by
  intro hmem
  obtain ⟨u, hu, same, outside⟩ := hA _ hmem
  exact outside.text_ne hu ht same

variable [Scalar.Exact α]

/-! ## What is remembered -/

theorem Answers.of_text_eq (h : Answers t c) (ht : t.IsTotal) (hu : u.IsTotal)
    (same : u.text = t.text) : Answers u c := by
  have grade := grade_eq_of_text_eq hu.legible ht.legible same
  refine ⟨fun ρ a ha => ?_, h.tidy, ?_, ?_⟩
  · obtain ⟨b, hb⟩ := ht ρ
    rw [ha.eq_of_text_eq hb same]
    exact h.keeps ρ b hb
  · rw [grade]
    exact h.monomial
  · rw [grade, same]
    exact h.atom

theorem Answers.tidy_keeps {ts : List (Term α)} (h : ∃ c, ts = [c] ∧ Answers t.sorted c) :
    ∃ c, ts = [c] ∧ c.IsTidy ∧ t.Keeps c := by
  obtain ⟨c, rfl, answers⟩ := h
  exact ⟨c, rfl, answers.tidy, fun ρ a ha => answers.keeps ρ a (sorted_hasValue ha)⟩

/-- Whether every remembered text is that of a term that its only candidate answers. -/
def Answered (cache : Cache α) : Prop :=
  ∀ key found, cache.lookup key = some found →
    ∃ t c : Term α, t.IsTotal ∧ t.text = key ∧ found = [c] ∧ Answers t c

omit [Scalar.Legible α] in
theorem Answered.empty : Answered ([] : Cache α) := nofun

omit [Scalar.Legible α] in
theorem Answered.cons {cache : Cache α} (hcache : Answered cache) (ht : t.IsTotal)
    (h : Answers t c) : Answered ((t.text, [c]) :: cache) := by
  intro key found hfound
  rw [List.lookup_cons] at hfound
  split at hfound
  · rename_i same
    cases hfound
    exact ⟨t, c, ht, (beq_iff_eq.1 same).symm, rfl, h⟩
  · exact hcache key found hfound

theorem Answered.known {cache : Cache α} {found : List (Term α)} (hcache : Answered cache)
    (ht : t.IsTotal) (hfound : cache.lookup t.text = some found) :
    ∃ c, found = [c] ∧ Answers t c := by
  obtain ⟨u, c, hu, same, rfl, answers⟩ := hcache _ _ hfound
  exact ⟨c, rfl, answers.of_text_eq hu ht same.symm⟩

/-! ## Monomials and variables -/

omit [Scalar.Legible α] [Scalar.Exact α] in
theorem IsSearched.sorted (h : IsSearched t) : IsSearched t.sorted := by
  cases h with
  | monomial h => exact .monomial (sorted_isMonomial h)
  | var legible => exact .var legible

omit [Scalar.Legible α] [Scalar.Exact α] in
theorem IsSearched.ne_inv (h : IsSearched t) (i : Inverse) (u : Term α) : t ≠ .inv i u := by
  rintro rfl
  cases h with
  | monomial h => exact isMonomial_ne_inv h

/-- Whether a finder answers whatever is at work outside of the term. -/
def AnswersInside (find : Finder α) : Prop :=
  ∀ A t, IsSearched t.sorted → t.IsTotal → Inside A t.sorted →
    Ensures Answered A (find t) fun ts => ∃ c, ts = [c] ∧ Answers t.sorted c

omit [Scalar.Legible α] in
/-- While a term is searched, all of higher grades are answered. -/
theorem AnswersInside.from (hfind : AnswersInside find) (hA : Inside A u) (hu : u.Legible)
    (hg : u.grade < g) : AnswersFrom Answered (u.text :: A) g find :=
  fun t ht total hgrade => hfind _ t ht.sorted total (hA.cons hu (.inl (hg.trans_le hgrade)))

theorem candidatesByRule_answers (hfind : AnswersInside find) (ht : IsSearched t)
    (total : t.IsTotal) (hA : Inside A t) :
    Ensures Answered (t.text :: A) (candidatesByRule rule find t) fun ts =>
      ∃ c, ts = [c] ∧ Answers t c := by
  cases ht with
  | @var name index legible =>
      have above : ¬(Term.var (α := α) name index).grade ≤ 4 := Nat.not_succ_le_self 4
      exact .pure ⟨_, rfl, fun _ _ ha => ha, isTidy_var _ _, fun _ h => absurd h above,
        fun _ => ⟨.var legible, rfl⟩⟩
  | monomial h =>
      cases h.product with
      | leaf hf =>
          cases hf with
          | num n =>
              exact .pure ⟨_, rfl, fun _ _ ha => ha, isTidy_num n, fun _ _ => isMonomial_num n,
                fun _ => ⟨.num n, rfl⟩⟩
          | @power name index n legible one =>
              have grade : (Term.bin .pow (.var name index) (.num n)).grade = 3 := grade_bin _ _ _
              refine (power_answers (hfind.from hA total.legible (grade.trans_lt (by decide)))
                legible one).mono ?_
              rintro _ ⟨c, rfl, hc, keeps⟩
              exact ⟨c, rfl, keeps, hc.isTidy, fun _ _ => hc.isMonomial,
                fun h => absurd h (by rw [grade]; decide)⟩
      | @mul l r _ _ =>
          have grade : (Term.bin .mul l r).grade = 2 := grade_bin _ _ _
          refine (product_answers (hfind.from hA total.legible (grade.trans_lt (by decide)))
            h total).mono ?_
          rintro _ ⟨c, rfl, tidy, monomial, keeps⟩
          exact ⟨c, rfl, keeps, tidy, fun _ _ => monomial,
            fun h => absurd h (by rw [grade]; decide)⟩

/-- A term that is not at work is answered if its operation answers it. -/
theorem candidatesVia_answers (total : t.IsTotal) (hA : Inside A t.sorted)
    (hinv : ∀ i u, t.sorted ≠ .inv i u)
    (h : Ensures Answered (t.sorted.text :: A) (candidatesByRule rule find t.sorted)
      fun ts => ∃ c, ts = [c] ∧ Answers t.sorted c) :
    Ensures Answered A (candidatesVia options rule find t)
      fun ts => ∃ c, ts = [c] ∧ Answers t.sorted c := by
  have ordered : t.sorted.IsTotal := total.keep fun ρ a ha => sorted_hasValue ha
  refine candidatesVia_ensures (fun cache found hcache hfound => hcache.known ordered hfound)
    (hA.notMem ordered.legible) ?_
  rw [compute_by_rule hinv]
  refine h.bind ?_
  rintro _ ⟨c, rfl, answers⟩
  rw [store, kept_singleton, pure_bind]
  refine (Ensures.note _).bind fun _ _ => ?_
  exact (Ensures.remember fun cache hcache => hcache.cons ordered answers).bind
    fun _ _ => .pure ⟨c, rfl, answers⟩

/-- Monomials and variables are answered at every depth. -/
theorem candidatesWithin_answers (depth : ℕ) :
    AnswersInside (candidatesWithin (α := α) options rule depth) := by
  induction depth with
  | zero => exact fun _ _ _ _ _ => .throw _
  | succ depth ih =>
      intro A t ht total hA
      exact candidatesVia_answers total hA ht.ne_inv
        (candidatesByRule_answers ih ht (total.keep fun ρ a ha => sorted_hasValue ha) hA)

/-! ## Signs and sums -/

/-- The candidate of a negation is the negated one of its operand. -/
theorem candidatesWithin_signed (depth : ℕ) (h : SignedOf IsMonomial t.sorted) (total : t.IsTotal)
    (hA : Inside A t.sorted) : Ensures Answered A (candidatesWithin options rule depth t)
      fun ts => ∃ c, ts = [c] ∧ c.IsTidy ∧ t.Keeps c := by
  induction depth generalizing A t with
  | zero => exact .throw _
  | succ depth ih =>
      have ordered : t.sorted.IsTotal := total.keep fun ρ a ha => sorted_hasValue ha
      rcases h.leaf_or_neg with monomial | ⟨u, negation, signed⟩
      · exact (candidatesWithin_answers _ A t (.monomial monomial) total hA).mono
          fun _ => Answers.tidy_keeps
      · have keeps {ρ : Assignment ℚ} {a : ℚ} (ha : t.HasValue ρ a) :
            ∃ b, u.HasValue ρ b ∧ a = -b := by
          have value := sorted_hasValue ha
          rw [negation] at value
          cases value with
          | neg hu => exact ⟨_, hu, rfl⟩
        have operand : u.IsTotal := fun ρ => by
          obtain ⟨a, ha⟩ := total ρ
          obtain ⟨b, hb, _⟩ := keeps ha
          exact ⟨b, hb⟩
        refine candidatesVia_ensures (fun cache found hcache hfound =>
          Answers.tidy_keeps (hcache.known ordered hfound)) (hA.notMem ordered.legible) ?_
        rw [negation] at hA ordered ⊢
        refine (ih (sorted_signed signed) operand
          (hA.cons ordered.legible (isOutside_neg signed))).bind ?_
        rintro _ ⟨c, rfl, tidy, keeps'⟩
        refine .pure ⟨c.negated, rfl, tidy.negated (operand.keep keeps'), fun ρ a ha => ?_⟩
        obtain ⟨b, hb, rfl⟩ := keeps ha
        exact negated_hasValue (keeps' ρ b hb)

theorem candidatesByRule_row (hfind : AnswersInside find) (h : t.IsRow) (hs : t.isSum = true)
    (total : t.IsTotal) : Ensures Answered [t.text] (candidatesByRule factorings find t)
      fun ts => ∃ c, ts = [c] ∧ Answers t c := by
  have sum {op : Operator} {l r : Term α} (hop : op.precedence.rank = 1)
      (legible : (Term.bin op l r).Legible)
      (search : AnswersFrom Answered [(Term.bin op l r).text] 2 find →
        Ensures Answered [(Term.bin op l r).text] (candidatesByRule factorings find (.bin op l r))
          fun ts => ∃ c, ts = [c] ∧ c.IsTidy ∧ (Term.bin op l r).Keeps c) :
      Ensures Answered [(Term.bin op l r).text] (candidatesByRule factorings find (.bin op l r))
        fun ts => ∃ c, ts = [c] ∧ Answers (.bin op l r) c := by
    have grade : (Term.bin op l r).grade = 1 := (grade_bin op l r).trans hop
    have higher := hfind.from (A := []) nofun legible (grade.trans_lt Nat.one_lt_two)
    refine (search higher).mono ?_
    rintro _ ⟨c, rfl, tidy, keeps⟩
    exact ⟨c, rfl, keeps, tidy, fun h => absurd h (by rw [grade]; decide),
      fun h => absurd h (by rw [grade]; decide)⟩
  cases h with
  | leaf h =>
      rw [not_isSum_of_signed_monomial h] at hs
      cases hs
  | @add l r hl hr =>
      exact sum rfl total.legible fun higher => sum_answers higher (.add hl.isSum (.leaf hr)) total
  | @sub l r hl hr =>
      have keeps : (Term.bin .sub l r).Keeps (.bin .add l (.inv .neg r)) := by
        intro ρ a ha
        cases ha with
        | sub hl hr =>
            rw [sub_eq_add_neg]
            exact .add hl (.neg hr)
      refine sum rfl total.legible fun higher => ?_
      refine (sum_answers higher (.add hl.isSum (.leaf (.neg hr))) (total.keep keeps)).mono ?_
      rintro _ ⟨c, rfl, tidy, keeps'⟩
      exact ⟨c, rfl, tidy, keeps.trans keeps'⟩

/-- What is searched for a sum of monomials. -/
theorem candidatesWithin_spread (depth : ℕ) (h : t.IsSpread) (total : t.IsTotal) :
    Ensures Answered [] (candidatesWithin options factorings depth t)
      fun ts => ∃ c, ts = [c] ∧ c.IsTidy ∧ t.Keeps c := by
  have idle {u : Term α} : Inside [] u := nofun
  have row := sorted_row h
  cases hs : t.sorted.isSum with
  | false => exact candidatesWithin_signed depth (row.leaf_of_not_isSum hs) total idle
  | true =>
      cases depth with
      | zero => exact .throw _
      | succ depth =>
          have ordered : t.sorted.IsTotal := total.keep fun ρ a ha => sorted_hasValue ha
          have hinv (i : Inverse) (u : Term α) : t.sorted ≠ .inv i u := fun same => by
            rw [same] at hs
            cases hs
          exact (candidatesVia_answers total idle hinv (candidatesByRule_row
            (candidatesWithin_answers depth) row hs ordered)).mono fun _ => Answers.tidy_keeps

/-- The simplest form of a collectable term is tidy and has its values. -/
theorem simplified_tidy (depth : ℕ) (h : t.IsCollectable) :
    Ensures Answered A (simplified (candidatesWithin options factorings depth) t)
      fun r => r.IsTidy ∧ t.Keeps r := by
  have total : t.IsTotal := h.isLinear.hasValue
  have converted : t.Keeps t.expanded.withExponents :=
    fun ρ a ha => withExponents_hasValue (expanded_hasValue ha)
  have search : Ensures Answered A (afresh do
      let input := t.expanded.withExponents
      let found := (← candidatesWithin options factorings depth input).map withoutTrivialPowers
      let best := ((simplest? found).getD input.withoutTrivialPowers).sorted
      note (.simplified t.text best.text found.length (← get).cache.length)
      return best) fun r => r.IsTidy ∧ t.Keeps r := by
    refine .afresh ?_ .empty
    refine (candidatesWithin_spread depth (expanded_spread h) (total.keep converted)).bind ?_
    rintro _ ⟨c, rfl, tidy, keeps⟩
    refine .get fun s _ _ => (Ensures.note _).bind fun _ _ => .pure ?_
    have display : c.Keeps c.withoutTrivialPowers.sorted :=
      fun ρ a ha => sorted_hasValue (withoutTrivialPowers_hasValue ha)
    have fewer : c.withoutTrivialPowers.sorted.unknowns.Subperm c.unknowns :=
      (sorted_unknowns _).trans (withoutTrivialPowers_unknowns c).subperm
    have number (hc : c.isNumber = true) : c.withoutTrivialPowers.sorted.isNumber = true := by
      cases c <;> first | rfl | cases hc
    exact ⟨tidy.keep (total.keep (converted.trans keeps)) display fewer number,
      (converted.trans keeps).trans display⟩
  cases t with
  | empty =>
      obtain ⟨a, ha⟩ := total origin
      cases ha
  | _ => exact search

end Search

namespace Term

variable [Scalar.Exact α] [Scalar.Legible α] {options : SearchOptions} {t r : Term α}

/-- Simplifying a collectable term leaves each variable at most once, and exactly those that have a
coefficient other than zero.  If there are none, a number is left, and `0` if that is zero.  The scalars
are exact: they stand for rationals, and sums and products of them for those of the rationals. -/
theorem simplify_collects (h : t.IsCollectable) (hr : t.simplify options = .ok r) :
    r.unknowns.Nodup ∧ (∀ v, v ∈ r.unknowns ↔ t.coefficient v ≠ 0) ∧
      ((∀ v, t.coefficient v = 0) → ∃ n, r = num n ∧ Scalar.Exact.value n = t.constant ∧
        (t.constant = 0 → r.text = "0")) := by
  obtain ⟨tidy, keeps⟩ : r.IsTidy ∧ t.Keeps r :=
    of_simplifyBy (Search.simplified_tidy options.depth h) .empty hr
  have linear := h.isLinear
  have everywhere : t.IsTotal := linear.hasValue
  have total := everywhere.keep keeps
  have unit (v : Unknown) := keeps _ _ (linear.hasValue_unitAt v)
  have zero := keeps _ _ linear.hasValue_origin
  have occurs (v : Unknown) : v ∈ r.unknowns ↔ t.coefficient v ≠ 0 := by
    constructor
    · intro hv none
      refine tidy.needed v hv _ _ (unit v) zero ?_
      rw [none, add_zero]
    · intro some
      refine Needs.mem (fun a b ha hb same => some ?_) total
      rw [ha.unique (unit v), hb.unique zero] at same
      exact add_eq_left.1 same
  refine ⟨tidy.nodup, occurs, fun none => ?_⟩
  have number : r.isNumber = true :=
    tidy.number (List.eq_nil_iff_forall_not_mem.2 fun v hv => (occurs v).1 hv (none v))
  cases r with
  | num n =>
      have value : Scalar.Exact.value n = t.constant := (hasValue_num origin n).unique zero
      refine ⟨n, rfl, value, fun none => ?_⟩
      rw [text, numberText, if_pos (Scalar.isZero_iff.2 (value.trans none))]
  | const c => cases zero
  | _ => cases number

set_option maxRecDepth 100000 in
/-- The two summands with `b` in `2*(a-(-b))+3-b*2` cancel. -/
theorem simplify_collects_opposites : ∃ t r : Term ℚ, t.IsCollectable ∧ t.simplify {} = .ok r ∧
    r.text = "3+2*a" ∧ r.unknowns.Nodup ∧ (∀ v, v ∈ r.unknowns ↔ t.coefficient v ≠ 0) ∧
      ((∀ v, t.coefficient v = 0) → ∃ n, r = num n ∧ Scalar.Exact.value n = t.constant ∧
        (t.constant = 0 → r.text = "0")) := by
  let a : Term ℚ := var "a" none
  let b : Term ℚ := var "b" none
  let t : Term ℚ := bin .sub (bin .add (bin .mul (num 2) (bin .sub a (inv .neg b))) (num 3))
    (bin .mul b (num 2))
  let r : Term ℚ := bin .add (num 3) (bin .mul (num 2) a)
  have letter {v : Term ℚ} (h : v = a ∨ v = b) : v.IsAtom := by
    rcases h with rfl | rfl
    all_goals
      exact .var ⟨by decide +kernel, by decide +kernel, by decide +kernel, fun _ h => by cases h⟩
  have ht : t.IsCollectable := .sub (.add
    (.leaf (.left 2 (.leaf (.sub (.leaf (.leaf (.leaf (letter (.inl rfl)))))
      (.leaf (.neg (.leaf (.leaf (letter (.inr rfl))))))))))
    (.leaf (.leaf (.leaf (.leaf (.leaf (.num 3)))))))
    (.leaf (.right 2 (.leaf (.leaf (.leaf (.leaf (letter (.inr rfl))))))))
  have hr : t.simplify {} = .ok r := ok_of_toOption (by decide +kernel)
  exact ⟨t, r, ht, hr, by decide +kernel, simplify_collects ht hr⟩

set_option maxRecDepth 100000 in
/-- The sum in `-(a+b)+a` keeps its minus, so that `a` is left twice although it cancels. -/
theorem negated_sum_apart : ∃ t r : Term ℚ, t.IsLinear ∧ t.simplify {} = .ok r ∧
    r.text = "a-a-b" ∧ t.coefficient ("a", none) = 0 ∧ ("a", none) ∈ r.unknowns ∧
      ¬r.unknowns.Nodup := by
  let a : Term ℚ := var "a" none
  let b : Term ℚ := var "b" none
  let t : Term ℚ := bin .add (inv .neg (bin .add a b)) a
  let r : Term ℚ := bin .sub (bin .sub a a) b
  have letter {v : Term ℚ} (h : v = a ∨ v = b) : v.IsAtom := by
    rcases h with rfl | rfl
    all_goals
      exact .var ⟨by decide +kernel, by decide +kernel, by decide +kernel, fun _ h => by cases h⟩
  have ht : t.IsLinear :=
    .add (.neg (.add (.atom (letter (.inl rfl))) (.atom (letter (.inr rfl)))))
      (.atom (letter (.inl rfl)))
  have hr : t.simplify {} = .ok r := ok_of_toOption (by decide +kernel)
  exact ⟨t, r, ht, hr, by decide +kernel, by decide +kernel, by decide, by decide⟩

set_option maxRecDepth 100000 in
/-- On doubles the coefficients of `9007199254740992*a+a-9007199254740992*a-a` add up to `-1`, since
the first two have the first one as their sum. -/
theorem rounded_coefficients_left : ∃ t r : Term Float,
    t.text = "9007199254740992*a+a-9007199254740992*a-a" ∧ t.simplify {} = .ok r ∧ r.text = "-a" := by
  let a : Term Float := var "a" none
  let large : Term Float := bin .mul (num 9007199254740992) a
  have simplified : (bin .sub (bin .sub (bin .add large a) large) a).simplify {} = .ok (inv .neg a) :=
    ok_of_toOption (by decide +kernel)
  exact ⟨_, _, by decide +kernel, simplified, by decide +kernel⟩

end Term

end AlgebraicTerms
