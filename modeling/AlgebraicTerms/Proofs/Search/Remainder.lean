import AlgebraicTerms.Proofs.Scalar.Rounded
import AlgebraicTerms.Proofs.Search.Run
import AlgebraicTerms.Proofs.Term.Equality
import AlgebraicTerms.Scalar.Double
import AlgebraicTerms.Search.Remainder

/-!
# The rule for remainders

The rule looks at the first candidate of each operand.  If they read the same, they leave zero,
whatever they are.  If not, a number with a fraction is refused on either side, and zero as the divisor
of a number is refused too.  Integers leave what has the sign of the divisor, rounded once at most
(`remainder_run`).
-/

namespace AlgebraicTerms

variable {α : Type} [Scalar α]

namespace Term

variable [Scalar.Rounded α]

/-- Numbers and constants stand for their own values. -/
def roundedInterpretation (α : Type) [Scalar α] [Scalar.Rounded α] : Interpretation α ℚ where
  number n := (Scalar.Rounded.value n).getD 0
  const c := (Scalar.Rounded.value (Scalar.constant c : α)).getD 0
  var _ _ := 0
  call _ q := q
  rem p _ := p
  power p _ := p
  number_zero h := by rw [Scalar.Rounded.isZero_iff.1 h, Option.getD_some]
  number_one := by rw [Scalar.Rounded.value_one, Option.getD_some]
  number_neg {n} _ := by
    rw [Scalar.Rounded.value_neg]
    cases Scalar.Rounded.value n with
    | none => exact neg_zero.symm
    | some q => rfl

variable {a b : Term α} {x y : α} {p q : ℚ}

theorem eval_roundedInterpretation (ha : a.number? = some x) (hx : Scalar.Rounded.value x = some p) :
    a.eval (roundedInterpretation α).meaning = p := by
  cases a with
  | num n =>
      obtain rfl := Option.some.inj ha
      show (Scalar.Rounded.value n).getD 0 = p
      rw [hx, Option.getD_some]
  | const c =>
      obtain rfl := Option.some.inj ha
      show (Scalar.Rounded.value (Scalar.constant c : α)).getD 0 = p
      rw [hx, Option.getD_some]
  | _ => cases ha

theorem legible_of_number? (ha : a.number? = some x) (hx : Scalar.Rounded.value x = some p) :
    a.Legible ∧ a.ClearRemainders := by
  cases a with
  | num n =>
      obtain rfl := Option.some.inj ha
      exact ⟨Scalar.Rounded.isFinite_of_value hx, trivial⟩
  | const c => exact ⟨trivial, trivial⟩
  | _ => cases ha

/-- Finite numbers and constants that read the same are equal. -/
theorem value_eq_of_text_eq [Scalar.Legible α] (ha : a.number? = some x) (hb : b.number? = some y)
    (hx : Scalar.Rounded.value x = some p) (hy : Scalar.Rounded.value y = some q)
    (h : a.text = b.text) : p = q := by
  obtain ⟨legible, clear⟩ := legible_of_number? ha hx
  obtain ⟨legible', clear'⟩ := legible_of_number? hb hy
  have same := eval_eq_of_text_eq (roundedInterpretation α).lawful legible legible' clear clear' h
  rwa [eval_roundedInterpretation ha hx, eval_roundedInterpretation hb hy] at same

end Term

namespace Search

/-! ## Operands that were simplified -/

section Operands

variable {whole a b : Term α} {x y : α}

theorem remainderOf_alike (h : a.text = b.text) :
    remainderOf whole a b = .ok (.num Scalar.zero) := if_pos (Term.beq_iff.2 h)

theorem integer?_eq_ok (hx : a.number? = some x) (integral : Scalar.isInteger x = true) :
    integer? whole a = .ok (some x) := by
  simp only [integer?, hx, integral, if_true]

theorem integer?_eq_error (hx : a.number? = some x) (fraction : Scalar.isInteger x = false) :
    integer? whole a = .error (.nonIntegerRemainder whole.withoutTrivialPowers.text) := by
  simp only [integer?, hx, fraction, Bool.false_eq_true, if_false]

theorem integer?_cases (whole a : Term α) : (∃ n, integer? whole a = .ok n) ∨
    integer? whole a = .error (.nonIntegerRemainder whole.withoutTrivialPowers.text) := by
  cases hx : a.number? with
  | none => exact .inl ⟨none, by simp only [integer?, hx]⟩
  | some x =>
      cases integral : Scalar.isInteger x with
      | true => exact .inl ⟨some x, integer?_eq_ok hx integral⟩
      | false => exact .inr (integer?_eq_error hx integral)

/-- A number with a fraction is refused, whatever the other operand is. -/
theorem remainderOf_fraction (differ : a.text ≠ b.text) (hx : a.number? = some x ∨ b.number? = some x)
    (fraction : Scalar.isInteger x = false) : remainderOf whole a b =
      .error (.nonIntegerRemainder whole.withoutTrivialPowers.text) := by
  rw [remainderOf, if_neg (mt Term.beq_iff.1 differ)]
  rcases hx with hx | hx
  · rw [integer?_eq_error hx fraction]
    rfl
  · rcases integer?_cases whole a with ⟨n, left⟩ | left
    · rw [left, integer?_eq_error hx fraction]
      rfl
    · rw [left]
      rfl

theorem remainderOf_integers (differ : a.text ≠ b.text) (hx : a.number? = some x)
    (hy : b.number? = some y) (integral : Scalar.isInteger x = true)
    (integral' : Scalar.isInteger y = true) : remainderOf whole a b =
      if Scalar.isZero y then .error (.remainderByZero whole.withoutTrivialPowers.text)
      else .ok (.num (Scalar.floorRem x y)) := by
  rw [remainderOf, if_neg (mt Term.beq_iff.1 differ), integer?_eq_ok hx integral,
    integer?_eq_ok hy integral']
  rfl

/-- A remainder of numbers that are written alike is zero, and any other is one of integers. -/
theorem remainderOf_cases {t : Term α} (hx : a.number? = some x) (hy : b.number? = some y)
    (h : remainderOf whole a b = .ok t) :
    (a.text = b.text ∧ t = .num Scalar.zero) ∨ (Scalar.isInteger x = true ∧
      Scalar.isInteger y = true ∧ Scalar.isZero y = false ∧ t = .num (Scalar.floorRem x y)) := by
  by_cases alike : a.text = b.text
  · rw [remainderOf_alike alike] at h
    exact .inl ⟨alike, (Except.ok.inj h).symm⟩
  · right
    cases integral : Scalar.isInteger x with
    | false =>
        rw [remainderOf_fraction alike (.inl hx) integral] at h
        cases h
    | true =>
        cases integral' : Scalar.isInteger y with
        | false =>
            rw [remainderOf_fraction alike (.inr hy) integral'] at h
            cases h
        | true =>
            rw [remainderOf_integers alike hx hy integral integral'] at h
            split at h
            · cases h
            · exact ⟨rfl, rfl, Bool.eq_false_iff.2 ‹_›, (Except.ok.inj h).symm⟩

variable [Scalar.Legible α] [Scalar.Rounded α]

/-- Integers leave their remainder, also if they read the same. -/
theorem remainderOf_isRemainder (whole : Term α) {m n : ℤ} (hx : a.number? = some x)
    (hy : b.number? = some y) (hm : Scalar.Rounded.value x = some (m : ℚ))
    (hn : Scalar.Rounded.value y = some (n : ℚ)) (nonzero : n ≠ 0) : ∃ z r, remainderOf whole a b = .ok (.num z) ∧ IsRemainder m n r ∧
      IsNearest Scalar.Rounded.value z r := by
  by_cases alike : a.text = b.text
  · have same : m = n := by exact_mod_cast Term.value_eq_of_text_eq hx hy hm hn alike
    refine ⟨Scalar.zero, 0, remainderOf_alike alike, ⟨?_, .inl rfl⟩, isNearest_of_value ?_⟩
    · rw [same]
      exact (Int.modEq_zero_iff_dvd.2 dvd_rfl).symm
    · exact Scalar.Rounded.isZero_iff.1 Scalar.Legible.isZero_zero
  · obtain ⟨r, remains, nearest⟩ := Scalar.floorRem_isNearest hm hn nonzero
    refine ⟨_, r, ?_, remains, nearest⟩
    have divides : ¬Scalar.isZero y = true := by
      rw [Scalar.Rounded.isZero_iff, hn, Option.some.injEq, Int.cast_eq_zero]
      exact nonzero
    rw [remainderOf_integers alike hx hy (Scalar.Rounded.isInteger_iff.2 ⟨m, hm⟩)
      (Scalar.Rounded.isInteger_iff.2 ⟨n, hn⟩), if_neg divides]

end Operands

/-! ## The rule -/

section Rule

variable {find : Finder α} {whole l r a b : Term α} {s s₁ s₂ : SearchState α}

theorem run_remainder (hl : (first find l).run s = (.ok a, s₁))
    (hr : (first find r).run s₁ = (.ok b, s₂)) : (remainder find whole l r).run s =
      match remainderOf whole a b with
      | .ok t => (.ok [t], s₂)
      | .error e => (.error (.domain e), s₂) := by
  rw [remainder, run_bind, hl]
  simp only
  rw [run_bind, hr]
  simp only
  cases remainderOf whole a b <;> rfl

/-- Of two first candidates that read the same, zero is left.  Of others, a number with a fraction is
refused, and so is a zero that divides a number.  Two integers of which the second is not zero leave
the number nearest to the one integer that is congruent to the first modulo the second, and is zero or
has the sign of the second and is smaller. -/
theorem remainder_run [Scalar.Legible α] [Scalar.Rounded α] (whole : Term α)
    (hl : (first find l).run s = (.ok a, s₁)) (hr : (first find r).run s₁ = (.ok b, s₂)) :
    (a.text = b.text → (remainder find whole l r).run s = (.ok [.num Scalar.zero], s₂)) ∧
      (a.text ≠ b.text → ∀ x, a.number? = some x ∨ b.number? = some x →
        Scalar.isInteger x = false → (remainder find whole l r).run s =
          (.error (.domain (.nonIntegerRemainder whole.withoutTrivialPowers.text)), s₂)) ∧
      (a.text ≠ b.text → ∀ x y, a.number? = some x → b.number? = some y →
        Scalar.isInteger x = true → Scalar.isZero y = true → (remainder find whole l r).run s =
          (.error (.domain (.remainderByZero whole.withoutTrivialPowers.text)), s₂)) ∧
      ∀ x y (m n : ℤ), a.number? = some x → b.number? = some y →
        Scalar.Rounded.value x = some (m : ℚ) → Scalar.Rounded.value y = some (n : ℚ) → n ≠ 0 →
        ∃ z k, (remainder find whole l r).run s = (.ok [.num z], s₂) ∧
          (∀ k', IsRemainder m n k' ↔ k' = k) ∧ IsNearest Scalar.Rounded.value z k := by
  rw [run_remainder hl hr]
  refine ⟨fun alike => ?_, fun differ x hx fraction => ?_, fun differ x y hx hy integral zero => ?_,
    fun x y m n hx hy hm hn nonzero => ?_⟩
  · rw [remainderOf_alike alike]
  · rw [remainderOf_fraction differ hx fraction]
  · have value : Scalar.Rounded.value y = some ((0 : ℤ) : ℚ) := by
      rw [Scalar.Rounded.isZero_iff.1 zero, Int.cast_zero]
    rw [remainderOf_integers differ hx hy integral (Scalar.Rounded.isInteger_iff.2 ⟨0, value⟩),
      if_pos zero]
  · obtain ⟨z, k, answer, remains, nearest⟩ := remainderOf_isRemainder whole hx hy hm hn nonzero
    rw [answer]
    exact ⟨z, k, rfl, fun k' => remains.iff_eq, nearest⟩

/-- Every term is its only candidate. -/
def onlyItself (α : Type) : Finder α := fun t => pure [t]

/-- A divisor below zero, a fraction beside a variable, and a zero that divides five. -/
theorem remainder_run_numbers :
    (remainder (onlyItself ℚ) (.bin .mod (.num 7) (.num (-3))) (.num 7) (.num (-3))).run .start =
        (.ok [.num (-2)], .start) ∧
      (remainder (onlyItself ℚ) (.bin .mod (.var "a" none) (.num (3 / 2))) (.var "a" none)
          (.num (3 / 2))).run .start = (.error (.domain (.nonIntegerRemainder "a%3.2")), .start) ∧
      (remainder (onlyItself ℚ) (.bin .mod (.num 5) (.num 0)) (.num 5) (.num 0)).run .start =
        (.error (.domain (.remainderByZero "5%0")), .start) := by
  have itself (t : Term ℚ) : (first (onlyItself ℚ) t).run .start = (.ok t, .start) := rfl
  have run (l r : Term ℚ) := remainder_run (.bin .mod l r) (itself l) (itself r)
  refine ⟨?_, ?_, ?_⟩
  · have value (n : ℤ) : Scalar.Rounded.value (n : ℚ) = some (n : ℚ) := rfl
    obtain ⟨z, k, answer, remains, nearest⟩ := (run (.num (7 : ℤ)) (.num (-3 : ℤ))).2.2.2 _ _ 7 (-3)
      rfl rfl (value 7) (value (-3)) (by decide)
    obtain rfl : -2 = k := (remains (-2)).1 (by unfold IsRemainder; decide)
    obtain rfl : z = (-2 : ℤ) := Option.some.inj (nearest.value_eq (value (-2)))
    exact_mod_cast answer
  · have text : (Term.bin .mod (.var "a" none) (.num (3 / 2 : ℚ))).withoutTrivialPowers.text =
        "a%3.2" := by decide +kernel
    rw [← text]
    exact (run (.var "a" none) (.num (3 / 2))).2.1 (by decide +kernel) _ (.inr rfl)
      (by decide +kernel)
  · exact (run (.num 5) (.num 0)).2.2.1 (by decide +kernel) 5 0 rfl rfl rfl rfl

/-- Zeros read the same and leave zero, although zero is the divisor.  What a division by `2 ^ 60`
leaves of `-1` is no double, and the nearest one is not less than the divisor. -/
theorem remainder_of_doubles :
    let find := onlyItself Float
    let zero : Term Float := .num 0
    let l : Term Float := .num (-1)
    let r : Term Float := .num 1152921504606846976
    (∀ t, (first find t).run .start = (.ok t, .start)) ∧
      (remainder find (.bin .mod zero zero) zero zero).run .start = (.ok [zero], .start) ∧
      (remainder find (.bin .mod l r) l r).run .start = (.ok [r], .start) ∧
      IsRemainder (-1) 1152921504606846976 1152921504606846975 := by
  intro find zero l r
  have itself (t : Term Float) : (first find t).run .start = (.ok t, .start) := rfl
  have differ : l.text ≠ r.text := by decide +kernel
  have rounded : Scalar.floorRem (-1 : Float) 1152921504606846976 = 1152921504606846976 := by
    decide +kernel
  refine ⟨itself, ?_, ?_, by unfold IsRemainder; decide⟩
  · rw [run_remainder (itself zero) (itself zero), remainderOf_alike rfl]
    rfl
  · rw [run_remainder (itself l) (itself r),
      remainderOf_integers differ rfl rfl (by decide +kernel) (by decide +kernel),
      if_neg (by decide +kernel), rounded]

end Rule

end Search

end AlgebraicTerms
