import AlgebraicTerms.Proofs.ConstantFolding
import AlgebraicTerms.Proofs.LinearSums
import AlgebraicTerms.Proofs.Search.Collecting
import AlgebraicTerms.Proofs.Search.Delivery
import AlgebraicTerms.Proofs.Term.Grade
import AlgebraicTerms.Proofs.Term.Reread

/-!
# Simplifying again

A single number, constant or variable stays as it is, also when it is written and read again, and so
does a linear form.  What is simplified to one of them is simplified for good
(`simplify_simplified`), as every text without variables is.  A sum that is left after a negation
was resolved is not: `a-(-(a+b))` becomes `a+a+b`, and that becomes `2*a+b` (`like_terms_left`).
-/

namespace AlgebraicTerms

variable {α : Type} [Scalar α]

namespace Term

/-- Whether the term is a single number, constant or variable. -/
def IsAtomic : Term α → Prop
  | num _ | const _ | var _ _ => True
  | _ => False

variable {t u : Term α}

theorem isAtomic_of_isNumber (h : t.isNumber = true) : t.IsAtomic := by
  cases t with
  | num n => trivial
  | const c => trivial
  | _ => cases h

/-! ## Reading an atom again -/

variable [Scalar.Legible α]

/-- An atom is read again as its formula. -/
theorem parse_atom (h : t.IsAtomic) (legible : t.Legible) :
    parse .registry t.text = .ok t.formula.term := by
  refine parse_text_of_deepest legible ?_
  cases t with
  | num n =>
      rw [formula]
      cases Scalar.isZero n with
      | true => exact Nat.zero_le _
      | false => cases Scalar.isNegative n <;> exact Nat.zero_le _
  | const c => exact Nat.zero_le _
  | var name index => exact Nat.zero_le _
  | _ => exact h.elim

end Term

namespace Search

variable {options : SearchOptions} {rule : Term.FactoringRule α} {find : Finder α}
  {s v : SearchState α} {t u : Term α} {depth : ℕ}

theorem candidatesWithin_atom (options : SearchOptions) (rule : Term.FactoringRule α) (depth : ℕ)
    (h : t.IsAtomic) (new : s.cache.lookup t.text = none) (idle : t.text ∉ s.active) :
    ∃ w, (candidatesWithin options rule (depth + 1) t).run s = (.ok [t], w) ∧
      w.active = s.active ∧ w.cache = (t.text, [t]) :: s.cache := by
  have ordered : t.sorted = t := by
    cases t <;> first | rfl | exact h.elim
  have hinv (i : Inverse) (operand : Term α) : t ≠ .inv i operand := by
    rintro rfl
    exact h.elim
  have itself : (candidatesByRule rule (candidatesWithin options rule depth) t).run
      (s.enter t.text) = (.ok [t], s.enter t.text) := by
    cases t <;> first | rfl | exact h.elim
  obtain ⟨w, hw, active, cache⟩ := candidatesVia_single options ordered hinv new idle itself
  refine ⟨w, hw, active.trans ?_, cache⟩
  exact List.erase_cons_head t.text s.active

/-- A variable is searched as its first power. -/
theorem candidatesWithin_firstPower [Scalar.Legible α] {name : String} {index : Option String}
    (legible : (Term.var (α := α) name index).Legible) (log : List (SearchEvent α)) :
    ∃ w, (candidatesWithin options rule (depth + 2) (.firstPower name index)).run
      { SearchState.start with log := log } = (.ok [.firstPower name index], w) := by
  let x : Term α := .var name index
  let one : Term α := .num Scalar.one
  let power : Term α := .bin .pow x one
  let s : SearchState α := { SearchState.start with log := log }
  have finite : one.Legible := Scalar.Legible.isFinite_one
  have apart {t u : Term α} (ht : t.Legible) (hu : u.Legible) (h : t.grade ≠ u.grade) :
      t.text ≠ u.text := fun same => h (Term.grade_eq_of_text_eq ht hu same)
  have variable_ne_power : x.text ≠ power.text :=
    apart legible ⟨legible, finite⟩ (by rw [Term.grade_bin, Term.grade_var]; decide)
  have number : one.grade = 2 ∨ one.grade = 4 := Term.grade_num _
  have number_ne_power : one.text ≠ power.text := by
    refine apart finite ⟨legible, finite⟩ fun same => ?_
    rw [same, Term.grade_bin] at number
    exact absurd number (by decide)
  have number_ne_variable : one.text ≠ x.text := by
    refine apart finite legible fun same => ?_
    rw [same, Term.grade_var] at number
    exact absurd number (by decide)
  obtain ⟨u, bases, active, cache⟩ := candidatesWithin_atom options rule depth (t := x)
    (s := s.enter power.text) trivial rfl
    fun busy => variable_ne_power (List.mem_singleton.1 busy)
  have new : u.cache.lookup one.text = none := by
    rw [cache, List.lookup_cons, beq_eq_false_iff_ne.2 number_ne_variable]
    rfl
  have idle : one.text ∉ u.active := by
    rw [active]
    exact fun busy => number_ne_power (List.mem_singleton.1 busy)
  obtain ⟨v, exponents, _⟩ := candidatesWithin_atom options rule depth (t := one) trivial new idle
  have found : (candidatesByRule rule (candidatesWithin options rule (depth + 1)) power).run
      (s.enter power.text) = (.ok [power], v) := by
    show (Search.power (candidatesWithin options rule (depth + 1)) x one).run _ = _
    rw [Search.power, run_bind, bases]
    dsimp only
    rw [run_bind, exponents]
    dsimp only
    rw [gather_singleton, gather_singleton, powerOf_one]
    rfl
  have hinv (i : Inverse) (operand : Term α) : Term.bin .pow x one ≠ .inv i operand :=
    fun same => by cases same
  obtain ⟨w, hw, _⟩ := candidatesVia_single options (t := power) (s := s) rfl hinv rfl
    List.not_mem_nil found
  exact ⟨w, hw⟩

/-- A negated number is a number. -/
theorem candidatesWithin_opposite (n : α) (log : List (SearchEvent α)) :
    ∃ w, (candidatesWithin options rule (depth + 2) (.inv .neg (.num n))).run
      { SearchState.start with log := log } = (.ok [.num (-n)], w) := by
  let t : Term α := .inv .neg (.num n)
  let s : SearchState α := { SearchState.start with log := log }
  have idle : (Term.num n).text ∉ (s.enter t.text).active := by
    intro busy
    have same : (Term.num n).minuses = t.minuses := by
      rw [Term.minuses, Term.minuses, List.mem_singleton.1 busy]
    rw [Term.minuses_neg] at same
    omega
  obtain ⟨w, operand, _⟩ := candidatesWithin_atom options rule depth (t := .num n)
    (s := s.enter t.text) trivial rfl idle
  exact candidatesVia_neg options rule rfl rfl List.not_mem_nil operand

end Search

namespace Term

variable [Scalar.Legible α] {options : SearchOptions} {t s : Term α}

omit [Scalar.Legible α] in
/-- A number is as simple as it gets. -/
theorem simplify_number (deep : 2 ≤ options.depth) (h : t.isNumber = true) :
    t.simplify options = .ok t := by
  obtain ⟨depth, hdepth⟩ := Nat.exists_eq_add_of_le' deep
  have same : t.expanded.withExponents = t ∧ t.withoutTrivialPowers.sorted = t ∧ t ≠ .empty := by
    cases t with
    | num n => exact ⟨rfl, rfl, fun h => by cases h⟩
    | const c => exact ⟨rfl, rfl, fun h => by cases h⟩
    | _ => cases h
  obtain ⟨input, output, nonempty⟩ := same
  rw [simplify_of_single (u := t) nonempty, output]
  rw [Search.candidates, hdepth, input]
  obtain ⟨w, hw, _⟩ := Search.candidatesWithin_atom options factorings (depth + 1)
    (s := { SearchState.start with log := SearchState.start.log }) (isAtomic_of_isNumber h) rfl
    List.not_mem_nil
  exact ⟨w, hw⟩

/-- An atom is as simple as it gets. -/
theorem simplify_atom (deep : 2 ≤ options.depth) (h : t.IsAtomic) (legible : t.Legible) :
    t.simplify options = .ok t := by
  cases t with
  | num n => exact simplify_number deep rfl
  | const c => exact simplify_number deep rfl
  | var name index =>
      obtain ⟨depth, hdepth⟩ := Nat.exists_eq_add_of_le' deep
      have one : (num (Scalar.one : α)).reads "1" = true := reads_one
      rw [simplify_of_single (u := bin .pow (var name index) (num Scalar.one)) fun h => by cases h]
      · rw [withoutTrivialPowers, if_pos one]
        rfl
      · rw [Search.candidates, hdepth]
        exact Search.candidatesWithin_firstPower legible _
  | _ => exact h.elim

/-- An atom that is written and read is simplified to one that is written alike. -/
theorem simplify_formula_atom [Scalar.Worded α] (deep : 2 ≤ options.depth) (h : t.IsAtomic)
    (legible : t.Legible) :
    ∃ u, t.formula.term.simplify options = .ok u ∧ u.text = t.text := by
  cases t with
  | num n =>
      cases hzero : Scalar.isZero n with
      | true =>
          have zero : (num n).formula.term = num (Scalar.ofNat 0) := by
            rw [formula, hzero]
            rfl
          rw [zero]
          refine ⟨_, simplify_number deep rfl, ?_⟩
          rw [text, numberText, Scalar.Legible.isZero_zero, text, numberText, hzero]
          rfl
      | false =>
          cases hneg : Scalar.isNegative n with
          | true =>
              have negative : (num n).formula.term = inv .neg (num (-n)) := by
                rw [formula, hzero, hneg]
                rfl
              rw [negative]
              obtain ⟨depth, hdepth⟩ := Nat.exists_eq_add_of_le' deep
              have nonempty : inv .neg (num (-n)) ≠ empty := fun h => by cases h
              refine ⟨num (-(-n)), simplify_of_single (u := num (-(-n))) nonempty ?_, ?_⟩
              · rw [Search.candidates, hdepth]
                exact Search.candidatesWithin_opposite (-n) _
              · rw [Scalar.Worded.neg_neg]
          | false =>
              have positive : (num n).formula.term = num n := by
                rw [formula, hzero, hneg]
                rfl
              rw [positive]
              exact ⟨_, simplify_atom deep trivial legible, rfl⟩
  | const c =>
      have read : (const c : Term α).formula.term = const c := by
        rw [formula, Formula.term, Constant.ofName?_name]
      rw [read]
      exact ⟨_, simplify_atom deep trivial trivial, rfl⟩
  | var name index => exact ⟨_, simplify_atom deep trivial legible, rfl⟩
  | _ => exact h.elim

/-! ## Linear forms -/

section

variable [Scalar.Worded α] [Scalar.Unital α]

/-- A linear form is as simple as it gets. -/
theorem simplify_linearForm (deep : 5 ≤ options.depth) (h : t.IsLinearForm) :
    t.simplify options = .ok t := by
  cases h with
  | @multiples m ms canonical =>
      cases ms with
      | nil => exact Multiple.simplify_multiple deep (canonical.proper m List.mem_cons_self)
      | cons _ _ => exact Multiple.simplify_multiples_row deep canonical (List.cons_ne_nil _ _)
  | @number n ms canonical finite nonzero =>
      cases ms with
      | nil => exact simplify_number (le_trans (by decide) deep) rfl
      | cons _ _ =>
          exact Multiple.simplify_number_row deep canonical (List.cons_ne_nil _ _) finite nonzero

/-- A linear form that is written and read is simplified to itself. -/
theorem simplify_formula_linearForm (deep : 5 ≤ options.depth) (h : t.IsLinearForm) :
    ∃ u, t.formula.term.simplify options = .ok u ∧ u.text = t.text := by
  have kept := simplify_linearForm deep h
  cases h with
  | @multiples m ms canonical =>
      obtain ⟨hm, proper⟩ := List.forall_mem_cons.1 canonical.proper
      rw [Multiple.term_row proper, Multiple.term_signed hm]
      exact ⟨_, kept, rfl⟩
  | @number n ms canonical finite nonzero =>
      cases ms with
      | nil => exact simplify_formula_atom (le_trans (by decide) deep) trivial finite
      | cons m ms =>
          rw [Multiple.term_row canonical.proper]
          cases hneg : Scalar.isNegative n with
          | false =>
              have positive : (num n).formula.term = num n := by
                rw [formula, nonzero, hneg]
                rfl
              rw [positive]
              exact ⟨_, kept, rfl⟩
          | true =>
              have negative : (num n).formula.term = inv .neg (num (-n)) := by
                rw [formula, nonzero, hneg]
                rfl
              have opposite : Scalar.IsPositive (-n) := ⟨Scalar.Legible.isFinite_neg finite,
                Scalar.Legible.not_isZero_neg hneg, Scalar.Legible.not_isNegative_neg hneg⟩
              have simplified := Multiple.simplify_minus_row deep canonical (List.cons_ne_nil _ _)
                opposite
              rw [Scalar.Worded.neg_neg] at simplified
              rw [negative]
              exact ⟨_, simplified, rfl⟩

end

/-- Simplifying what a term was simplified to changes nothing, and neither does writing and reading
it in between, if that is an atom or a linear form.  For a term without variables it is an atom. -/
theorem simplify_simplified [Scalar.Worded α] (deep : 2 ≤ options.depth)
    (hs : t.simplify options = .ok s) (simple : t.IsGround ∨ s.IsAtomic ∨
      Scalar.Unital α ∧ 5 ≤ options.depth ∧ s.IsLinearForm) (legible : s.Legible) :
    s.simplify options = .ok s ∧ ∃ t' s' : Term α, parse .registry s.text = .ok t' ∧
      t'.simplify options = .ok s' ∧ s'.text = s.text := by
  have atom (atomic : s.IsAtomic) : s.simplify options = .ok s ∧ ∃ t' s' : Term α,
      parse .registry s.text = .ok t' ∧ t'.simplify options = .ok s' ∧ s'.text = s.text := by
    obtain ⟨s', hs', text⟩ := simplify_formula_atom deep atomic legible
    exact ⟨simplify_atom deep atomic legible, _, s', parse_atom atomic legible, hs', text⟩
  rcases simple with ground | atomic | ⟨unital, deep, linear⟩
  · exact atom (isAtomic_of_isNumber ((simplify_isNumber_of_ground ground).1 options s hs))
  · exact atom atomic
  · obtain ⟨s', hs', text⟩ := simplify_formula_linearForm deep linear
    exact ⟨simplify_linearForm deep linear, _, s', parse_linearForm linear, hs', text⟩

set_option maxRecDepth 100000 in
/-- The sum `b*2-a+3-7*c` is simplified to the linear form `3-a+2*b-7*c`. -/
example : ((bin .sub (bin .add (bin .sub (bin .mul (var "b" none) (num 2)) (var "a" none)) (num 3))
    (bin .mul (num 7) (var "c" none)) : Term ℚ).simplify {}).toOption =
      some (Multiple.row Multiple.base (num 3)
        [⟨true, none, "a", none⟩, ⟨false, some 2, "b", none⟩, ⟨true, some 7, "c", none⟩]) := by
  decide +kernel

set_option maxRecDepth 100000 in
/-- A quotient, which is left as a negative number. -/
theorem simplify_simplified_quotient : ∃ t s : Term ℚ, t.IsGround ∧ t.simplify {} = .ok s ∧
    s.text = "-4" ∧ s.simplify {} = .ok s ∧ ∃ t' s' : Term ℚ, parse .registry s.text = .ok t' ∧
      t'.simplify {} = .ok s' ∧ s'.text = s.text := by
  let t : Term ℚ :=
    bin .div (bin .pow (num 6) (num 2)) (inv .neg (bin .add (num 4) (call .abs (num 5))))
  have ground : t.IsGround := ⟨⟨trivial, trivial⟩, trivial, trivial⟩
  have value : t.simplify {} = .ok (num (-4)) := ok_of_toOption (by decide +kernel)
  exact ⟨t, _, ground, value, by decide +kernel,
    simplify_simplified (by decide) value (.inl ground) rfl⟩

set_option maxRecDepth 100000 in
/-- The two summands with `a` in `a-(-(a+b))` come together only when the negations are gone, and are
added when the sum is simplified again. -/
theorem like_terms_left : ∃ t s s' : Term ℚ, parse .registry "a-(-(a+b))" = .ok t ∧
    t.simplify {} = .ok s ∧ s.text = "a+a+b" ∧ s.simplify {} = .ok s' ∧ s'.text = "2*a+b" ∧
      parse .registry s.text = .ok s := by
  let a : Term ℚ := var "a" none
  let b : Term ℚ := var "b" none
  let t : Term ℚ := bin .sub a (inv .neg (bin .add a b))
  let s : Term ℚ := bin .add (bin .add a a) b
  let s' : Term ℚ := bin .add (bin .mul (num 2) a) b
  have level : Formula.deepParenthesis? 0 0 "a-(-(a+b))".toList = none ∧
      Formula.deepParenthesis? 0 0 "a+a+b".toList = none := by decide +kernel
  have trees : TokenTree.ofSource .registry "a-(-(a+b))".toList =
      [.var ⟨0, 1⟩ "a" none, .char ⟨1, 2⟩ '-', .group ⟨2, 10⟩
        [.char ⟨3, 4⟩ '-', .group ⟨4, 9⟩
          [.var ⟨5, 6⟩ "a" none, .char ⟨6, 7⟩ '+', .var ⟨7, 8⟩ "b" none]]] := rfl
  have trees' : TokenTree.ofSource .registry "a+a+b".toList =
      [.var ⟨0, 1⟩ "a" none, .char ⟨1, 2⟩ '+', .var ⟨2, 3⟩ "a" none, .char ⟨3, 4⟩ '+',
        .var ⟨4, 5⟩ "b" none] := rfl
  have written : s.text = "a+a+b" := by decide +kernel
  have ht : parse .registry "a-(-(a+b))" = .ok t := by
    simp only [parse, Formula.parse, level.1, trees]
    rfl
  have read : parse .registry s.text = .ok s := by
    rw [written]
    simp only [parse, Formula.parse, level.2, trees']
    rfl
  have hs : t.simplify {} = .ok s := ok_of_toOption (by decide +kernel)
  have again : s.simplify {} = .ok s' := ok_of_toOption (by decide +kernel)
  exact ⟨t, s, s', ht, hs, written, again, by decide +kernel, read⟩

end Term

end AlgebraicTerms
