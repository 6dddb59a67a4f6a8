import AlgebraicTerms.Proofs.Term.Forms
import Mathlib.Algebra.CharP.Algebra
import Mathlib.Algebra.MvPolynomial.Eval
import Mathlib.RingTheory.Localization.FractionRing
import Mathlib.RingTheory.MvPolynomial.Basic

/-!
# Rational values and the generic point

Whether a term is simplified well is asked at rational values of its variables, but rules divide by
terms that vanish at some of them.  They are judged at the generic point instead, where every variable
is its own rational function.  A value there determines the value at every rational point at which the
term has one, since a rational function has at most one value at a point.
-/

namespace AlgebraicTerms

open MvPolynomial

/-- One instance for all places where rational functions are computed with. -/
instance noZeroDivisors : NoZeroDivisors (MvPolynomial (String × Option String) ℚ) := inferInstance

abbrev RationalFunction := FractionRing (MvPolynomial (String × Option String) ℚ)

/-- The assignment of every variable to itself. -/
noncomputable def generic : Assignment RationalFunction := fun name index =>
  algebraMap (MvPolynomial (String × Option String) ℚ) RationalFunction (X (name, index))

/-- The value of a polynomial at an assignment. -/
noncomputable def Assignment.at (σ : Assignment ℚ) : MvPolynomial (String × Option String) ℚ →+* ℚ :=
  eval fun v => σ v.1 v.2

/-- Whether a rational function has the given value at an assignment. -/
def Specialises (σ : Assignment ℚ) (f : RationalFunction) (q : ℚ) : Prop :=
  ∃ n d : MvPolynomial (String × Option String) ℚ, σ.at d ≠ 0 ∧
    f * algebraMap _ _ d = algebraMap _ _ n ∧ q * σ.at d = σ.at n

namespace Specialises

variable {σ : Assignment ℚ} {f g : RationalFunction} {p q : ℚ}

theorem unique (hp : Specialises σ f p) (hq : Specialises σ f q) : p = q := by
  obtain ⟨n, d, hd, hn, hp⟩ := hp
  obtain ⟨n', d', hd', hn', hq⟩ := hq
  have cross : n * d' = n' * d := by
    apply IsFractionRing.injective (MvPolynomial (String × Option String) ℚ) RationalFunction
    rw [map_mul, map_mul, ← hn, ← hn']
    ring
  have values := congrArg σ.at cross
  rw [map_mul, map_mul, ← hp, ← hq] at values
  have nonzero : σ.at d * σ.at d' ≠ 0 := mul_ne_zero hd hd'
  apply mul_right_cancel₀ nonzero
  rw [← mul_assoc, values]
  ring

theorem polynomial (p : MvPolynomial (String × Option String) ℚ) :
    Specialises σ (algebraMap _ _ p) (σ.at p) := by
  refine ⟨p, 1, ?_, ?_, ?_⟩
  · rw [map_one]
    exact one_ne_zero
  · rw [map_one, mul_one]
  · rw [map_one, mul_one]

theorem rational (q : ℚ) : Specialises σ (q : RationalFunction) q := by
  have h := polynomial (σ := σ) (C q)
  have constant : algebraMap (MvPolynomial (String × Option String) ℚ) RationalFunction (C q) = q :=
    eq_ratCast ((algebraMap _ _).comp C) q
  have value : σ.at (C q) = q := eval_C q
  rwa [constant, value] at h

theorem add (hp : Specialises σ f p) (hq : Specialises σ g q) : Specialises σ (f + g) (p + q) := by
  obtain ⟨n, d, hd, hn, hp⟩ := hp
  obtain ⟨n', d', hd', hn', hq⟩ := hq
  refine ⟨n * d' + n' * d, d * d', ?_, ?_, ?_⟩
  · rw [map_mul]
    exact mul_ne_zero hd hd'
  · rw [map_add, map_mul, map_mul, map_mul, ← hn, ← hn']
    ring
  · rw [map_add, map_mul, map_mul, map_mul, ← hp, ← hq]
    ring

theorem mul (hp : Specialises σ f p) (hq : Specialises σ g q) : Specialises σ (f * g) (p * q) := by
  obtain ⟨n, d, hd, hn, hp⟩ := hp
  obtain ⟨n', d', hd', hn', hq⟩ := hq
  refine ⟨n * n', d * d', ?_, ?_, ?_⟩
  · rw [map_mul]
    exact mul_ne_zero hd hd'
  · rw [map_mul, map_mul, ← hn, ← hn']
    ring
  · rw [map_mul, map_mul, ← hp, ← hq]
    ring

theorem neg (hp : Specialises σ f p) : Specialises σ (-f) (-p) := by
  obtain ⟨n, d, hd, hn, hp⟩ := hp
  refine ⟨-n, d, hd, ?_, ?_⟩
  · rw [map_neg, neg_mul, hn]
  · rw [map_neg, neg_mul, hp]

theorem inv (hp : Specialises σ f p) (hne : p ≠ 0) : Specialises σ f⁻¹ p⁻¹ := by
  obtain ⟨n, d, hd, hn, hp⟩ := hp
  have nonzero : σ.at n ≠ 0 := hp ▸ mul_ne_zero hne hd
  have hf : f ≠ 0 := by
    rintro rfl
    rw [zero_mul, eq_comm, FaithfulSMul.algebraMap_eq_zero_iff] at hn
    rw [hn, map_zero] at nonzero
    exact nonzero rfl
  refine ⟨d, n, nonzero, ?_, ?_⟩
  · rw [← hn, inv_mul_cancel_left₀ hf]
  · rw [← hp, inv_mul_cancel_left₀ hne]

theorem pow (hp : Specialises σ f p) (k : ℕ) : Specialises σ (f ^ k) (p ^ k) := by
  induction k with
  | zero =>
      rw [pow_zero, pow_zero]
      exact_mod_cast rational (σ := σ) 1
  | succ k ih =>
      rw [pow_succ, pow_succ]
      exact ih.mul hp

theorem zpow (hp : Specialises σ f p) {k : ℤ} (h : p ≠ 0 ∨ 0 ≤ k) :
    Specialises σ (f ^ k) (p ^ k) := by
  cases k with
  | ofNat k =>
      rw [Int.ofNat_eq_natCast, zpow_natCast, zpow_natCast]
      exact hp.pow k
  | negSucc k =>
      have hne : p ≠ 0 := h.resolve_right (by omega)
      rw [zpow_negSucc, zpow_negSucc]
      exact (hp.pow (k + 1)).inv (pow_ne_zero _ hne)

end Specialises

namespace Term

variable {α : Type} [Scalar α] [Scalar.Exact α] {σ : Assignment ℚ} {t u : Term α}

/-- The value of an operation on rationals.  A power needs an integer for its exponent, and a base other
than zero unless the exponent is at least zero. -/
def rationalOperation? (op : Operator) (a b : ℚ) : Option ℚ :=
  match op with
  | .add => some (a + b)
  | .sub => some (a - b)
  | .mul => some (a * b)
  | .div => if b = 0 then none else some (a / b)
  | .mod => none
  | .pow => if b.den = 1 ∧ (a ≠ 0 ∨ 0 ≤ b.num) then some (a ^ b.num) else none

/-- The value of a term, if it is defined, at rational values of its variables.  Remainders, constants
and keywords have none. -/
def rational? (σ : Assignment ℚ) : Term α → Option ℚ
  | num n => some (Scalar.Exact.value n)
  | var name index => some (σ name index)
  | inv .neg t => (t.rational? σ).map (- ·)
  | inv .recip t => (t.rational? σ).bind fun a => if a = 0 then none else some a⁻¹
  | bin op l r =>
    (l.rational? σ).bind fun a => (r.rational? σ).bind fun b => rationalOperation? op a b
  | _ => none

/-- Whether a term is built from numbers and variables by negations, sums, differences, products and
powers with positive whole numbers. -/
inductive IsPolynomial : Term α → Prop
  | num (n : α) : IsPolynomial (num n)
  | var {name index} : (var (α := α) name index).Legible → IsPolynomial (var name index)
  | neg {operand} : IsPolynomial operand → IsPolynomial (inv .neg operand)
  | add {l r} : IsPolynomial l → IsPolynomial r → IsPolynomial (bin .add l r)
  | sub {l r} : IsPolynomial l → IsPolynomial r → IsPolynomial (bin .sub l r)
  | mul {l r} : IsPolynomial l → IsPolynomial r → IsPolynomial (bin .mul l r)
  | pow {base} {n : α} {k : ℕ} : IsPolynomial base → Scalar.Exact.value n = k → 0 < k →
    IsPolynomial (bin .pow base (num n))

theorem rational?_bin {op : Operator} {l r : Term α} {q : ℚ}
    (h : (bin op l r).rational? σ = some q) : ∃ a b, l.rational? σ = some a ∧
      r.rational? σ = some b ∧ rationalOperation? op a b = some q := by
  obtain ⟨a, ha, h⟩ := Option.bind_eq_some_iff.1 h
  obtain ⟨b, hb, h⟩ := Option.bind_eq_some_iff.1 h
  exact ⟨a, b, ha, hb, h⟩

theorem rationalPower_integer {a b q : ℚ} {n : ℤ} (hb : b = n)
    (h : rationalOperation? .pow a b = some q) : (a ≠ 0 ∨ 0 ≤ n) ∧ q = a ^ n := by
  subst hb
  rw [rationalOperation?, Rat.num_intCast] at h
  split at h
  · rename_i defined
    cases h
    exact ⟨defined.2, rfl⟩
  · cases h

/-- The value of a term at a rational point is that of its value at the generic point. -/
theorem HasValue.specialises {f : RationalFunction} {q : ℚ} (h : t.HasValue generic f)
    (hq : t.rational? σ = some q) : Specialises σ f q := by
  have integer (n : ℤ) {b : ℚ} (h : Specialises σ (n : RationalFunction) b) : b = n := by
    have whole := Specialises.rational (σ := σ) n
    rw [Rat.cast_intCast] at whole
    exact h.unique whole
  induction h generalizing q with
  | num n =>
      cases hq
      exact .rational _
  | @var name index _ =>
      obtain rfl := Option.some.inj hq
      have h := Specialises.polynomial (σ := σ) (X (name, index))
      have value : σ.at (X (name, index)) = σ name index := eval_X (name, index)
      rwa [value] at h
  | neg _ ih =>
      obtain ⟨a, ha, rfl⟩ := Option.map_eq_some_iff.1 hq
      exact (ih ha).neg
  | recip _ _ ih =>
      obtain ⟨a, ha, hq⟩ := Option.bind_eq_some_iff.1 hq
      split at hq
      · cases hq
      · rename_i hne
        cases hq
        exact (ih ha).inv hne
  | add _ _ ihl ihr =>
      obtain ⟨a, b, ha, hb, hq⟩ := rational?_bin hq
      cases hq
      exact (ihl ha).add (ihr hb)
  | sub _ _ ihl ihr =>
      obtain ⟨a, b, ha, hb, hq⟩ := rational?_bin hq
      cases hq
      rw [sub_eq_add_neg, sub_eq_add_neg]
      exact (ihl ha).add (ihr hb).neg
  | mul _ _ ihl ihr =>
      obtain ⟨a, b, ha, hb, hq⟩ := rational?_bin hq
      cases hq
      exact (ihl ha).mul (ihr hb)
  | div _ _ _ ihl ihr =>
      obtain ⟨a, b, ha, hb, hq⟩ := rational?_bin hq
      rw [rationalOperation?] at hq
      split at hq
      · cases hq
      · rename_i hne
        cases hq
        rw [div_eq_mul_inv, div_eq_mul_inv]
        exact (ihl ha).mul ((ihr hb).inv hne)
  | @pow _ _ _ n _ _ _ ihl ihr =>
      obtain ⟨a, b, ha, hb, hq⟩ := rational?_bin hq
      obtain ⟨defined, rfl⟩ := rationalPower_integer (integer n (ihr hb)) hq
      exact (ihl ha).zpow defined
  | @zeroPow _ _ n _ hr literal ihl ihr =>
      obtain ⟨a, b, ha, hb, hq⟩ := rational?_bin hq
      obtain ⟨_, rfl⟩ := rationalPower_integer (integer n (ihr hb)) hq
      have zero : Specialises σ 0 0 := by exact_mod_cast Specialises.rational (σ := σ) 0
      rw [(ihl ha).unique zero, zero_zpow n (hr.literal_pos literal).ne']
      exact zero

/-- Polynomials have values wherever their variables have. -/
theorem IsPolynomial.hasValue {K : Type*} [Field K] (ρ : Assignment K) (h : t.IsPolynomial) :
    ∃ a, t.HasValue ρ a := by
  induction h with
  | num n => exact ⟨_, .num n⟩
  | var legible => exact ⟨_, .var legible⟩
  | neg _ ih =>
      obtain ⟨a, ha⟩ := ih
      exact ⟨_, .neg ha⟩
  | add _ _ ihl ihr =>
      obtain ⟨a, ha⟩ := ihl
      obtain ⟨b, hb⟩ := ihr
      exact ⟨_, .add ha hb⟩
  | sub _ _ ihl ihr =>
      obtain ⟨a, ha⟩ := ihl
      obtain ⟨b, hb⟩ := ihr
      exact ⟨_, .sub ha hb⟩
  | mul _ _ ihl ihr =>
      obtain ⟨a, ha⟩ := ihl
      obtain ⟨b, hb⟩ := ihr
      exact ⟨_, .mul ha hb⟩
  | pow _ hn hk ih =>
      obtain ⟨a, ha⟩ := ih
      exact ⟨_, ha.pow_literal hn hk⟩

theorem IsPolynomial.rational? (σ : Assignment ℚ) (h : t.IsPolynomial) :
    ∃ q, t.rational? σ = some q := by
  have both {op : Operator} {l r : Term α} {a b q : ℚ} (hl : l.rational? σ = some a)
      (hr : r.rational? σ = some b) (hop : rationalOperation? op a b = some q) :
      ∃ q, (bin op l r).rational? σ = some q := by
    refine ⟨q, ?_⟩
    rw [Term.rational?, hl, Option.bind_some, hr, Option.bind_some, hop]
  induction h with
  | num n => exact ⟨_, rfl⟩
  | var _ => exact ⟨_, rfl⟩
  | neg _ ih =>
      obtain ⟨a, ha⟩ := ih
      exact ⟨-a, by rw [Term.rational?, ha, Option.map_some]⟩
  | add _ _ ihl ihr | sub _ _ ihl ihr | mul _ _ ihl ihr =>
      obtain ⟨a, ha⟩ := ihl
      obtain ⟨b, hb⟩ := ihr
      exact both ha hb rfl
  | @pow base n k _ hn hk ih =>
      obtain ⟨a, ha⟩ := ih
      refine both ha rfl (if_pos ?_)
      rw [hn]
      exact ⟨rfl, .inr (Int.natCast_nonneg k)⟩

end Term

end AlgebraicTerms
