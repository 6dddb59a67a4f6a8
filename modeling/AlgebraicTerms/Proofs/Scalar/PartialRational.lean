import AlgebraicTerms.Proofs.Scalar.Ordered
import AlgebraicTerms.Proofs.Scalar.Partial
import AlgebraicTerms.Proofs.Scalar.Worded
import Mathlib.Data.Nat.Factorial.Basic

/-!
# Rationals and no number

The rationals with one number more, which stands for none and is what the rationals cannot express:
quotients by zero, powers with a fraction as their exponent, and most values of the keywords.
-/

namespace AlgebraicTerms

namespace Rational

/-- The power, if the exponent is an integer and no zero is inverted. -/
def power? (b e : ℚ) : Option ℚ :=
  if isInteger e then if b = 0 ∧ e < 0 then none else some (b ^ e.num) else none

/-- The remainder of integers, with the sign of the divisor. -/
def remainder? (a b : ℚ) : Option ℚ :=
  if isInteger a && isInteger b && !Scalar.isZero b then some (Scalar.floorRem a b) else none

/-- The value of a keyword, where it is seen to be rational. -/
def keyword? : Keyword → ℚ → Option ℚ
  | .fac, q => if 0 ≤ q ∧ isInteger q = true then some (q.num.toNat.factorial : ℚ) else none
  | .log, q => if q = 1 then some 0 else none
  | .sin, q | .tan, q => if q = 0 then some 0 else none
  | .cos, q => if q = 0 then some 1 else none
  | .abs, q | .hypot, q => some |q|
  | .round, q => some (round q)
  | .trunc, q | .int, q => some (truncate q)
  | .float, q => some q

variable {x y z : ℚ}

theorem power?_of_isInteger (hy : isInteger y = true) (h : x ≠ 0 ∨ 0 ≤ y) :
    power? x y = some (x ^ y.num) := by
  have total : ¬(x = 0 ∧ y < 0) := fun ⟨zero, negative⟩ =>
    h.elim (absurd zero) fun nonneg => absurd negative (not_lt.2 nonneg)
  rw [power?, if_pos hy, if_neg total]

theorem power?_eq_some (h : power? x y = some z) :
    isInteger y = true ∧ (x ≠ 0 ∨ 0 ≤ y) ∧ z = x ^ y.num := by
  rw [power?] at h
  split at h
  · rename_i hy
    split at h
    · cases h
    · rename_i total
      rw [not_and_or, not_lt] at total
      exact ⟨hy, total, (Option.some.inj h).symm⟩
  · cases h

theorem isInteger_intCast (n : ℤ) : isInteger n = true := decide_eq_true (Rat.den_intCast n)

theorem exists_of_isInteger (h : isInteger y = true) : ∃ n : ℤ, y = n :=
  ⟨y.num, (Rat.coe_int_num_of_den_eq_one (of_decide_eq_true h)).symm⟩

/-- A power whose base is not zero and whose exponent is an integer. -/
theorem power?_intCast (hx : x ≠ 0) (n : ℤ) : power? x n = some (x ^ n) := by
  rw [power?_of_isInteger (isInteger_intCast n) (.inl hx), Rat.num_intCast]

theorem floorRem_self (hx : x ≠ 0) : Scalar.floorRem x x = 0 := by
  have none : Scalar.rem x x = 0 := by
    show x - x * truncate (x / x) = 0
    rw [div_self hx, show truncate 1 = 1 by decide +kernel, mul_one, sub_self]
  rw [Scalar.floorRem, none]
  rfl

theorem exists_of_power? (h : power? x y = some z) : ∃ n : ℤ, y = n ∧ z = x ^ n := by
  obtain ⟨hy, _, rfl⟩ := power?_eq_some h
  obtain ⟨n, rfl⟩ := exists_of_isInteger hy
  exact ⟨n, rfl, by rw [Rat.num_intCast]⟩

end Rational

instance : PartialFunctions ℚ where
  keyword := Rational.keyword?
  power := Rational.power?
  remainder := Rational.remainder?
  power_zero x := by
    rw [Rational.power?_of_isInteger (y := 0) rfl (.inr (le_refl 0))]
    exact congrArg some (zpow_zero x)
  power_one x := by
    rw [Rational.power?_of_isInteger (y := 1) rfl (.inr zero_le_one)]
    exact congrArg some (zpow_one x)
  zero_power_neg_one := by decide
  power_neg {x y z} h hz := by
    obtain ⟨n, rfl, rfl⟩ := Rational.exists_of_power? h
    by_cases hx : x = 0
    · obtain rfl : n = 0 := by
        by_contra hn
        exact hz (by rw [hx, zero_zpow n hn])
      rw [Int.cast_zero, neg_zero, zpow_zero, inv_one]
      rw [Int.cast_zero, zpow_zero] at h
      exact h
    · rw [← Int.cast_neg, Rational.power?_intCast hx, zpow_neg]
  inv_power {x} y hx := by
    cases hy : Rational.isInteger y with
    | false =>
        have opposite : Rational.isInteger (-y) = false := hy
        rw [Rational.power?, Rational.power?, hy, opposite]
        rfl
    | true =>
        obtain ⟨n, rfl⟩ := Rational.exists_of_isInteger hy
        rw [← Int.cast_neg, Rational.power?_intCast hx, Rational.power?_intCast (inv_ne_zero hx),
          inv_zpow']
  power_add {x y z p q} hx hp hq := by
    obtain ⟨m, rfl, rfl⟩ := Rational.exists_of_power? hp
    obtain ⟨n, rfl, rfl⟩ := Rational.exists_of_power? hq
    rw [← Int.cast_add, Rational.power?_intCast hx, zpow_add₀ hx]
  mul_power {x y z p q} hx hy hp hq := by
    obtain ⟨m, rfl, rfl⟩ := Rational.exists_of_power? hp
    obtain ⟨n, same, rfl⟩ := Rational.exists_of_power? hq
    obtain rfl := Int.cast_injective same
    rw [Rational.power?_intCast (mul_ne_zero hx hy), mul_zpow]
  tangent {x s c} hs hc _ := by
    simp only [Rational.keyword?] at hs hc ⊢
    split at hs
    · rename_i zero
      cases hs
      rw [if_pos zero, zero_div]
    · cases hs
  squares {x s c p q} hs hc hp hq := by
    simp only [Rational.keyword?] at hs hc
    split at hs
    · rename_i zero
      rw [if_pos zero] at hc
      cases hs
      cases hc
      cases hp
      cases hq
      norm_num
    · cases hs
  remainder_self {x y} h := by
    simp only [Rational.remainder?] at h
    split at h
    · rename_i ok
      simp only [Bool.and_eq_true, Bool.not_eq_true'] at ok
      have hx : x ≠ 0 := fun zero => by
        rw [Rational.isZero_iff.2 zero] at ok
        cases ok.2
      rw [Rational.floorRem_self hx] at h
      exact (Option.some.inj h).symm
    · cases h

/-- A rational, or no number. -/
structure PartialRational where
  value? : Option ℚ
  deriving DecidableEq

namespace PartialRational

def of (q : ℚ) : PartialRational := ⟨some q⟩

def map (f : ℚ → ℚ) (a : PartialRational) : PartialRational := ⟨a.value?.map f⟩

def map₂ (f : ℚ → ℚ → ℚ) (a b : PartialRational) : PartialRational :=
  ⟨Option.map₂ f a.value? b.value?⟩

def bind₂ (f : ℚ → ℚ → Option ℚ) (a b : PartialRational) : PartialRational :=
  ⟨a.value?.bind fun x => b.value?.bind (f x)⟩

/-- Whether a comparison holds, which it does not of anything that is no number. -/
def compare (f : ℚ → ℚ → Bool) (a b : PartialRational) : Bool :=
  (Option.map₂ f a.value? b.value?).getD false

def text (a : PartialRational) : String := a.value?.elim "NaN" Rational.text

/-- Rationals near the constants. -/
def constant : Constant → ℚ
  | .pi => 355 / 113
  | .e => 193 / 71
  | .gold => 987 / 610

end PartialRational

open PartialRational in
instance : Scalar PartialRational where
  add := map₂ (· + ·)
  sub := map₂ (· - ·)
  mul := map₂ (· * ·)
  div := bind₂ fun x y => if y = 0 then none else some (x / y)
  neg := PartialRational.map (-·)
  beq := compare (· == ·)
  ofNat n := of n
  emptySum := of 0
  lt := compare fun x y => x < y
  isFinite a := a.value?.isSome
  isInteger a := a.value?.any Rational.isInteger
  abs := PartialRational.map fun x => |x|
  rem := bind₂ fun x y => if y = 0 then none else some (Scalar.rem x y)
  power := bind₂ Rational.power?
  sqrt := PartialRational.map Rational.sqrt
  round := PartialRational.map Rational.round
  lesser a b := ⟨Option.merge min a.value? b.value?⟩
  greater a b := ⟨Option.merge max a.value? b.value?⟩
  constant c := of (constant c)
  call k a := ⟨a.value?.bind (Rational.keyword? k)⟩
  symbolicDegree := of 9223372036854775808
  euclidSteps a b := (Option.map₂ Rational.euclidSteps a.value? b.value?).getD 0
  text := text
  recordText := text
  literal s := of (Rational.literal s)

namespace PartialRational

theorem not_isNumeral_nan : ¬Token.IsNumeral (text ⟨none⟩).toList := by
  rintro (h | ⟨ds, es, _, _, h⟩)
  · exact absurd (h.2 'N' (by decide)) (by decide)
  · have point : '.' ∈ (text ⟨none⟩).toList := h ▸ List.mem_append_right ds List.mem_cons_self
    exact absurd point (by decide)

/-- A keyword refuses only numbers at which it has no value. -/
theorem keyword?_of_refuses {k : Keyword} {q : ℚ} (h : k.refuses (of q) = true) :
    Rational.keyword? k q = none := by
  cases k with
  | fac =>
      refine if_neg fun ⟨nonneg, integer⟩ => ?_
      have positive : Scalar.isNegative q = false :=
        Bool.eq_false_iff.2 fun hneg => absurd (Rational.isNegative_iff.1 hneg) (not_lt.2 nonneg)
      have whole : Scalar.isInteger (of q) = true := integer
      rw [Keyword.refuses, whole, Bool.not_true, Bool.or_false] at h
      exact absurd h (ne_true_of_eq_false positive)
  | _ => cases h

theorem evaluate_of (k : Keyword) (q : ℚ) :
    (k.evaluate (of q)).toOption.bind value? = Rational.keyword? k q := by
  rw [Keyword.evaluate, Keyword.outcome]
  by_cases refused : k.refuses (of q) = true
  · rw [if_pos refused, keyword?_of_refuses refused]
    rfl
  · rw [if_neg refused]
    have value : Scalar.call k (of q) = ⟨Rational.keyword? k q⟩ := rfl
    rw [value]
    cases Rational.keyword? k q <;> rfl

theorem floorRem_of {x y : ℚ} (hy : y ≠ 0) :
    Scalar.floorRem (of x) (of y) = of (Scalar.floorRem x y) := by
  have rem : Scalar.rem (of x) (of y) = of (Scalar.rem x y) :=
    congrArg PartialRational.mk (if_neg hy)
  rw [Scalar.floorRem, rem, Scalar.floorRem]
  exact (apply_ite of _ _ _).symm

end PartialRational

instance : Scalar.Legible PartialRational where
  isNumeral_text {n} hn hzero hneg := by
    obtain ⟨_ | q⟩ := n
    · cases hn
    · exact Scalar.Legible.isNumeral_text (α := ℚ) rfl hzero hneg
  literal_text {n} hn hzero hneg := by
    obtain ⟨_ | q⟩ := n
    · cases hn
    · exact congrArg PartialRational.of (Scalar.Legible.literal_text (α := ℚ) rfl hzero hneg)
  text_negative {n} hn hneg := by
    obtain ⟨_ | q⟩ := n
    · cases hn
    · exact Scalar.Legible.text_negative (α := ℚ) rfl hneg
  isFinite_neg {n} hn := by
    obtain ⟨_ | q⟩ := n
    · cases hn
    · rfl
  not_isNegative_neg {n} hn := by
    obtain ⟨_ | q⟩ := n
    · cases hn
    · exact Scalar.Legible.not_isNegative_neg (α := ℚ) hn
  not_isZero_neg {n} hn := by
    obtain ⟨_ | q⟩ := n
    · cases hn
    · exact Scalar.Legible.not_isZero_neg (α := ℚ) hn
  not_isZero_of_isNegative {n} hn := by
    obtain ⟨_ | q⟩ := n
    · cases hn
    · exact Scalar.Legible.not_isZero_of_isNegative (α := ℚ) hn
  isZero_zero := Scalar.Legible.isZero_zero (α := ℚ)
  text_zero := Scalar.Legible.text_zero (α := ℚ)
  literal_zero := congrArg PartialRational.of (Scalar.Legible.literal_zero (α := ℚ))
  isFinite_one := rfl
  not_isZero_one := Scalar.Legible.not_isZero_one (α := ℚ)
  not_isNegative_one := Scalar.Legible.not_isNegative_one (α := ℚ)
  text_one := Scalar.Legible.text_one (α := ℚ)
  text_two := Scalar.Legible.text_two (α := ℚ)

instance : Scalar.Worded PartialRational where
  isPlainWord_text {n} hzero hneg := by
    obtain ⟨_ | q⟩ := n
    · have chars : (Scalar.text (⟨none⟩ : PartialRational)).toList.all Token.isWordChar = true := by
        decide
      exact ⟨by decide, List.all_eq_true.1 chars, by decide, by decide⟩
    · exact Scalar.Worded.isPlainWord_text (α := ℚ) hzero hneg
  text_of_isNegative {n} hn := by
    obtain ⟨_ | q⟩ := n
    · cases hn
    · exact Scalar.Worded.text_of_isNegative (α := ℚ) hn
  isNegative_neg {n} h := by
    obtain ⟨_ | q⟩ := n
    · exact absurd h (by decide)
    · exact Scalar.Worded.isNegative_neg (α := ℚ) h
  neg_neg n := by
    obtain ⟨_ | q⟩ := n
    · rfl
    · exact congrArg PartialRational.of (neg_neg q)

instance : Scalar.Ordered PartialRational where
  lt_asymm {a b} h := by
    obtain ⟨_ | x⟩ := a
    · cases h
    obtain ⟨_ | y⟩ := b
    · cases h
    exact Scalar.Ordered.lt_asymm (α := ℚ) h
  lt_trans {a b c} h h' := by
    obtain ⟨_ | x⟩ := a
    · cases h
    obtain ⟨_ | y⟩ := b
    · cases h
    obtain ⟨_ | z⟩ := c
    · cases h'
    exact Scalar.Ordered.lt_trans (α := ℚ) h h'
  lt_congr_left {a b} c h := by
    obtain ⟨_ | x⟩ := a
    · cases h
    obtain ⟨_ | y⟩ := b
    · cases h
    obtain ⟨_ | z⟩ := c
    · rfl
    exact Scalar.Ordered.lt_congr_left (α := ℚ) z h
  lt_congr_right {a b} c h := by
    obtain ⟨_ | x⟩ := a
    · cases h
    obtain ⟨_ | y⟩ := b
    · cases h
    obtain ⟨_ | z⟩ := c
    · rfl
    exact Scalar.Ordered.lt_congr_right (α := ℚ) z h
  beq_symm {a b} h := by
    obtain ⟨_ | x⟩ := a
    · cases h
    obtain ⟨_ | y⟩ := b
    · cases h
    exact Scalar.Ordered.beq_symm (α := ℚ) h
  beq_trans {a b c} h h' := by
    obtain ⟨_ | x⟩ := a
    · cases h
    obtain ⟨_ | y⟩ := b
    · cases h
    obtain ⟨_ | z⟩ := c
    · cases h'
    exact Scalar.Ordered.beq_trans (α := ℚ) h h'

instance : Scalar.Ranked PartialRational where
  not_lt_trans {a b c} hb h h' := by
    obtain ⟨_ | y⟩ := b
    · cases hb
    obtain ⟨_ | x⟩ := a
    · rfl
    obtain ⟨_ | z⟩ := c
    · rfl
    exact Scalar.Ranked.not_lt_trans (α := ℚ) hb h h'
  not_lt_greater {a b c} := by
    obtain ⟨_ | z⟩ := c
    · exact ⟨fun _ => ⟨rfl, rfl⟩, fun _ => rfl⟩
    obtain ⟨_ | x⟩ := a <;> obtain ⟨_ | y⟩ := b
    · exact ⟨fun _ => ⟨rfl, rfl⟩, fun _ => rfl⟩
    · exact ⟨fun h => ⟨rfl, h⟩, And.right⟩
    · exact ⟨fun h => ⟨h, rfl⟩, And.left⟩
    · exact Scalar.Ranked.not_lt_greater (α := ℚ)
  greater_self {a b} ha hb := by
    obtain ⟨_ | x⟩ := a
    · cases ha
    obtain ⟨_ | y⟩ := b
    · cases hb
    exact Scalar.Ranked.greater_self (α := ℚ) ha hb
  zero_self := Scalar.Ranked.zero_self (α := ℚ)
  one_self := Scalar.Ranked.one_self (α := ℚ)
  symbolicDegree_self := Scalar.Ranked.symbolicDegree_self (α := ℚ)

instance : Scalar.Partial PartialRational ℚ where
  value := PartialRational.value?
  isFinite_iff := Iff.rfl
  isFinite_of_isNumeral {n} h := by
    obtain ⟨_ | q⟩ := n
    · exact absurd h PartialRational.not_isNumeral_nan
    · rfl
  value_ofNat _ := rfl
  value_emptySum := rfl
  value_add _ _ := rfl
  value_mul _ _ := rfl
  value_neg _ := rfl
  value_div {a b x y} ha hb hy := by
    obtain ⟨_⟩ := a
    obtain ⟨_⟩ := b
    subst ha hb
    exact if_neg hy
  beq_ofNat {n k} := by
    obtain ⟨_ | q⟩ := n
    · exact iff_of_false Bool.false_ne_true (Option.some_ne_none _).symm
    · exact (beq_iff_eq (a := q) (b := (k : ℚ))).trans Option.some_inj.symm
  isFinite_constant _ := rfl
  value_evaluate {k n x} hn := by
    obtain ⟨_⟩ := n
    subst hn
    exact PartialRational.evaluate_of k x
  value_power {a b x y} ha hb := by
    obtain ⟨_⟩ := a
    obtain ⟨_⟩ := b
    subst ha hb
    rfl
  value_floorRem {a b x y} ha hb := by
    obtain ⟨_⟩ := a
    obtain ⟨_⟩ := b
    subst ha hb
    show Rational.remainder? x y =
      if Rational.isInteger x && Rational.isInteger y && !Scalar.isZero y then _ else _
    rw [Rational.remainder?]
    split
    · rename_i ok
      have hy : y ≠ 0 := fun zero => by
        rw [Rational.isZero_iff.2 zero, Bool.not_true, Bool.and_false] at ok
        cases ok
      exact congrArg PartialRational.value? (PartialRational.floorRem_of hy).symm
    · rfl
  isFinite_floorRem {a b} ha hb hzero := by
    obtain ⟨_ | x⟩ := a
    · cases ha
    · obtain ⟨_ | y⟩ := b
      · cases hb
      · have hy : y ≠ 0 := fun zero => by
          rw [zero] at hzero
          cases hzero
        exact congrArg (·.value?.isSome) (PartialRational.floorRem_of (x := x) hy)

end AlgebraicTerms
