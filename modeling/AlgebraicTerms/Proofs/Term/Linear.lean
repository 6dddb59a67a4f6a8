import AlgebraicTerms.Proofs.Term.Rearranged
import AlgebraicTerms.Proofs.Term.Unknowns
import Mathlib.Tactic.Ring

/-!
# Linear terms

Terms of numbers, variables, sums, differences, negations and products with a number on one side, and
the coefficients of their variables.  A linear term in which no minus stands before a sum, and no
product has a sum with a product of a sum in it, becomes a sum of monomials when it is expanded
(`expanded_spread`), and stays one in canonical order (`sorted_row`).
-/

namespace AlgebraicTerms

namespace Term

variable {α : Type}

/-! ## Terms made of others -/

inductive SumOf (P : Term α → Prop) : Term α → Prop
  | leaf {t} : P t → SumOf P t
  | add {l r} : SumOf P l → SumOf P r → SumOf P (bin .add l r)
  | sub {l r} : SumOf P l → SumOf P r → SumOf P (bin .sub l r)

/-- A sum that is nested to the left. -/
inductive RowOf (P : Term α → Prop) : Term α → Prop
  | leaf {t} : P t → RowOf P t
  | add {l r} : RowOf P l → P r → RowOf P (bin .add l r)
  | sub {l r} : RowOf P l → P r → RowOf P (bin .sub l r)

inductive ProductOf (P : Term α → Prop) : Term α → Prop
  | leaf {t} : P t → ProductOf P t
  | mul {l r} : ProductOf P l → ProductOf P r → ProductOf P (bin .mul l r)

/-- A term with any number of minuses before it. -/
inductive SignedOf (P : Term α → Prop) : Term α → Prop
  | leaf {t} : P t → SignedOf P t
  | neg {t} : SignedOf P t → SignedOf P (inv .neg t)

/-- A term that is multiplied by numbers, one after the other. -/
inductive MultipleOf (P : Term α → Prop) : Term α → Prop
  | leaf {t} : P t → MultipleOf P t
  | left (n : α) {t} : MultipleOf P t → MultipleOf P (bin .mul (num n) t)
  | right (n : α) {t} : MultipleOf P t → MultipleOf P (bin .mul t (num n))

variable {P Q : Term α → Prop} {t u l r : Term α} {ts us : List (Term α)} {c : Chain}

theorem SumOf.mono (h : SumOf P t) (hPQ : ∀ u, P u → Q u) : SumOf Q t := by
  induction h with
  | leaf h => exact .leaf (hPQ _ h)
  | add _ _ ihl ihr => exact .add ihl ihr
  | sub _ _ ihl ihr => exact .sub ihl ihr

theorem SignedOf.mono (h : SignedOf P t) (hPQ : ∀ u, P u → Q u) : SignedOf Q t := by
  induction h with
  | leaf h => exact .leaf (hPQ _ h)
  | neg _ ih => exact .neg ih

theorem MultipleOf.mono (h : MultipleOf P t) (hPQ : ∀ u, P u → Q u) : MultipleOf Q t := by
  induction h with
  | leaf h => exact .leaf (hPQ _ h)
  | left n _ ih => exact .left n ih
  | right n _ ih => exact .right n ih

theorem SignedOf.of_neg (h : SignedOf P (inv .neg t)) (hP : ∀ i u, ¬P (inv i u)) :
    SignedOf P t := by
  cases h with
  | leaf h => exact absurd h (hP _ _)
  | neg h => exact h

theorem SignedOf.leaf_or_neg (h : SignedOf P t) : P t ∨ ∃ u, t = inv .neg u ∧ SignedOf P u := by
  cases h with
  | leaf h => exact .inl h
  | neg h => exact .inr ⟨_, rfl, h⟩

theorem RowOf.isSum (h : RowOf P t) : SumOf P t := by
  induction h with
  | leaf h => exact .leaf h
  | add _ hr ih => exact .add ih (.leaf hr)
  | sub _ hr ih => exact .sub ih (.leaf hr)

theorem RowOf.leaf_of_not_isSum (h : RowOf P t) (hs : t.isSum = false) : P t := by
  cases h with
  | leaf h => exact h
  | add _ _ | sub _ _ => cases hs

/-- The operands of a sum, if the terms that it is made of are no sums themselves and may have
minuses. -/
theorem SumOf.operandsIn (h : SumOf P t) (single : ∀ u, P u → u.operandsIn .sum = [u])
    (signed : ∀ u, P u → P (inv .neg u)) : ∀ u ∈ t.operandsIn .sum, P u := by
  induction h with
  | leaf h =>
      rw [single _ h]
      exact fun u hu => List.eq_of_mem_singleton hu ▸ h
  | add _ _ ihl ihr =>
      intro u hu
      rcases List.mem_append.1 hu with hu | hu
      · exact ihl u hu
      · exact ihr u hu
  | sub _ _ ihl ihr =>
      intro u hu
      rcases List.mem_append.1 hu with hu | hu
      · exact ihl u hu
      · obtain ⟨v, hv, rfl⟩ := List.mem_map.1 hu
        exact signed v (ihr v hv)

theorem ProductOf.operandsIn (h : ProductOf P t)
    (single : ∀ u, P u → u.operandsIn .product = [u]) : ∀ u ∈ t.operandsIn .product, P u := by
  induction h with
  | leaf h =>
      rw [single _ h]
      exact fun u hu => List.eq_of_mem_singleton hu ▸ h
  | mul _ _ ihl ihr =>
      intro u hu
      rcases List.mem_append.1 hu with hu | hu
      · exact ihl u hu
      · exact ihr u hu

section Joining

variable [Scalar α]

theorem join_rowOf (hts : ∀ u ∈ ts, P u) (numbers : ∀ n, P (num n))
    (unsigned : ∀ u, P (inv .neg u) → P u) : RowOf P (Chain.sum.join ts) := by
  have append {t u : Term α} (ht : RowOf P t) (hu : P u) : RowOf P (Chain.sum.append t u) := by
    unfold Chain.append
    split
    · exact ht
    · split
      · exact .leaf hu
      · split
        · split
          · rename_i same
            subst same
            exact .sub ht (unsigned _ hu)
          · exact .add ht hu
        · split
          · exact .sub ht (numbers _)
          · exact .add ht hu
        · exact .add ht hu
  have fold (us : List (Term α)) (hus : ∀ u ∈ us, P u) (t : Term α) (ht : RowOf P t) :
      RowOf P (us.foldl Chain.sum.append t) := by
    induction us generalizing t with
    | nil => exact ht
    | cons u us ih =>
        exact ih (fun v hv => hus v (List.mem_cons_of_mem _ hv)) _
          (append ht (hus u List.mem_cons_self))
  cases ts with
  | nil => exact .leaf (numbers _)
  | cons t ts =>
      exact fold ts (fun u hu => hts u (List.mem_cons_of_mem _ hu)) t
        (.leaf (hts t List.mem_cons_self))

theorem join_productOf (hts : ∀ u ∈ ts, P u) (numbers : ∀ n, P (num n))
    (direct : ∀ u, ¬P (inv .recip u)) : ProductOf P (Chain.product.join ts) := by
  have append {t u : Term α} (ht : ProductOf P t) (hu : P u) :
      ProductOf P (Chain.product.append t u) := by
    unfold Chain.append
    split
    · exact ht
    · split
      · exact .leaf hu
      · split
        · split
          · rename_i same
            subst same
            exact absurd hu (direct _)
          · exact .mul ht (.leaf hu)
        · split
          · rename_i h
            exact absurd h.1 nofun
          · exact .mul ht (.leaf hu)
        · exact .mul ht (.leaf hu)
  have fold (us : List (Term α)) (hus : ∀ u ∈ us, P u) (t : Term α) (ht : ProductOf P t) :
      ProductOf P (us.foldl Chain.product.append t) := by
    induction us generalizing t with
    | nil => exact ht
    | cons u us ih =>
        exact ih (fun v hv => hus v (List.mem_cons_of_mem _ hv)) _
          (append ht (hus u List.mem_cons_self))
  cases ts with
  | nil => exact .leaf (numbers _)
  | cons t ts =>
      exact fold ts (fun u hu => hts u (List.mem_cons_of_mem _ hu)) t
        (.leaf (hts t List.mem_cons_self))

end Joining

variable [Scalar α]

/-! ## Linear terms and their coefficients -/

/-- A number or a variable. -/
inductive IsAtom : Term α → Prop
  | num (n : α) : IsAtom (num n)
  | var {name index} : (var (α := α) name index).Legible → IsAtom (var name index)

/-- A term of numbers and variables without products of variables. -/
inductive IsLinear : Term α → Prop
  | atom {t : Term α} : IsAtom t → IsLinear t
  | neg {t : Term α} : IsLinear t → IsLinear (inv .neg t)
  | add {l r : Term α} : IsLinear l → IsLinear r → IsLinear (bin .add l r)
  | sub {l r : Term α} : IsLinear l → IsLinear r → IsLinear (bin .sub l r)
  | left (n : α) {t : Term α} : IsLinear t → IsLinear (bin .mul (num n) t)
  | right (n : α) {t : Term α} : IsLinear t → IsLinear (bin .mul t (num n))

/-- A linear term whose minuses and products the expansion reaches: a minus stands before a multiple
of a number or variable, and sums that are multiplied by numbers have only such summands. -/
def IsCollectable : Term α → Prop :=
  SumOf (MultipleOf (SumOf (SignedOf (MultipleOf IsAtom))))

theorem IsCollectable.isLinear (h : t.IsCollectable) : t.IsLinear := by
  have multiple {P : Term α → Prop} (hP : ∀ u, P u → u.IsLinear) {t : Term α}
      (h : MultipleOf P t) : t.IsLinear := by
    induction h with
    | leaf h => exact hP _ h
    | left n _ ih => exact .left n ih
    | right n _ ih => exact .right n ih
  have sum {P : Term α → Prop} (hP : ∀ u, P u → u.IsLinear) {t : Term α} (h : SumOf P t) :
      t.IsLinear := by
    induction h with
    | leaf h => exact hP _ h
    | add _ _ ihl ihr => exact .add ihl ihr
    | sub _ _ ihl ihr => exact .sub ihl ihr
  have signed {t : Term α} (h : SignedOf (MultipleOf IsAtom) t) : t.IsLinear := by
    induction h with
    | leaf h => exact multiple (fun _ => .atom) h
    | neg _ ih => exact .neg ih
  exact sum (fun _ => multiple fun _ => sum fun _ => signed) h

variable [Scalar.Exact α]

/-- What a linear term is without its variables. -/
def constant : Term α → ℚ
  | num n => Scalar.Exact.value n
  | inv .neg t => -t.constant
  | bin .add l r => l.constant + r.constant
  | bin .sub l r => l.constant - r.constant
  | bin .mul l r => l.constant * r.constant
  | _ => 0

/-- What a variable is multiplied by in a linear term, all its occurrences taken together. -/
def coefficient (v : Unknown) : Term α → ℚ
  | var name index => if (name, index) = v then 1 else 0
  | inv .neg t => -t.coefficient v
  | bin .add l r => l.coefficient v + r.coefficient v
  | bin .sub l r => l.coefficient v - r.coefficient v
  | bin .mul l r => l.constant * r.coefficient v + l.coefficient v * r.constant
  | _ => 0

/-- All variables are zero. -/
def origin : Assignment ℚ := fun _ _ => 0

/-- One variable is one and all others are zero. -/
def unitAt (v : Unknown) : Assignment ℚ := fun name index => if (name, index) = v then 1 else 0

theorem IsAtom.hasValue {K : Type*} [Field K] (ρ : Assignment K) (h : IsAtom t) :
    ∃ a, t.HasValue ρ a := by
  cases h with
  | num n => exact ⟨_, .num n⟩
  | var legible => exact ⟨_, .var legible⟩

theorem hasValue_num (ρ : Assignment ℚ) (n : α) :
    (num n).HasValue ρ (Scalar.Exact.value n) := by
  have h : (num n).HasValue ρ (Scalar.toField n : ℚ) := .num n
  rwa [Scalar.toField, Rat.cast_id] at h

/-- A linear term has a value everywhere. -/
theorem IsLinear.hasValue (h : t.IsLinear) (ρ : Assignment ℚ) : ∃ a, t.HasValue ρ a := by
  induction h with
  | atom h => exact h.hasValue ρ
  | neg _ ih =>
      obtain ⟨a, ha⟩ := ih
      exact ⟨_, .neg ha⟩
  | add _ _ ihl ihr =>
      obtain ⟨a, ha⟩ := ihl
      obtain ⟨b, hb⟩ := ihr
      exact ⟨_, .add ha hb⟩
  | sub _ _ ihl ihr =>
      obtain ⟨a, ha⟩ := ihl
      obtain ⟨b, hb⟩ := ihr
      exact ⟨_, .sub ha hb⟩
  | left n _ ih =>
      obtain ⟨a, ha⟩ := ih
      exact ⟨_, .mul (.num n) ha⟩
  | right n _ ih =>
      obtain ⟨a, ha⟩ := ih
      exact ⟨_, .mul ha (.num n)⟩

theorem IsLinear.hasValue_origin (h : t.IsLinear) : t.HasValue origin t.constant := by
  induction h with
  | atom h =>
      cases h with
      | num n => exact hasValue_num origin n
      | var legible => exact .var legible
  | neg _ ih => exact .neg ih
  | add _ _ ihl ihr => exact .add ihl ihr
  | sub _ _ ihl ihr => exact .sub ihl ihr
  | left n _ ih => exact .mul (hasValue_num origin n) ih
  | right n _ ih => exact .mul ih (hasValue_num origin n)

/-- A step along a variable changes the value by its coefficient. -/
theorem IsLinear.hasValue_unitAt (v : Unknown) (h : t.IsLinear) :
    t.HasValue (unitAt v) (t.constant + t.coefficient v) := by
  induction h with
  | atom h =>
      cases h with
      | num n =>
          show (Term.num n).HasValue _ (Scalar.Exact.value n + 0)
          rw [add_zero]
          exact hasValue_num _ n
      | @var name index legible =>
          show (Term.var name index).HasValue _ (0 + if (name, index) = v then 1 else 0)
          rw [zero_add]
          exact .var legible
  | @neg t _ ih =>
      have value : -(t.constant + t.coefficient v) = -t.constant + -t.coefficient v := neg_add _ _
      show (inv .neg t).HasValue _ (-t.constant + -t.coefficient v)
      rw [← value]
      exact .neg ih
  | @add l r _ _ ihl ihr =>
      show (bin .add l r).HasValue _
        (l.constant + r.constant + (l.coefficient v + r.coefficient v))
      rw [add_add_add_comm]
      exact .add ihl ihr
  | @sub l r _ _ ihl ihr =>
      show (bin .sub l r).HasValue _
        (l.constant - r.constant + (l.coefficient v - r.coefficient v))
      rw [sub_add_sub_comm]
      exact .sub ihl ihr
  | @left n t _ ih =>
      have value : Scalar.Exact.value n * t.constant +
          (Scalar.Exact.value n * t.coefficient v + 0 * t.constant) =
            Scalar.Exact.value n * (t.constant + t.coefficient v) := by ring
      show (bin .mul (Term.num n) t).HasValue _ (Scalar.Exact.value n * t.constant +
        (Scalar.Exact.value n * t.coefficient v + 0 * t.constant))
      rw [value]
      exact .mul (hasValue_num _ n) ih
  | @right n t _ ih =>
      have value : t.constant * Scalar.Exact.value n +
          (t.constant * 0 + t.coefficient v * Scalar.Exact.value n) =
            (t.constant + t.coefficient v) * Scalar.Exact.value n := by ring
      show (bin .mul t (Term.num n)).HasValue _ (t.constant * Scalar.Exact.value n +
        (t.constant * 0 + t.coefficient v * Scalar.Exact.value n))
      rw [value]
      exact .mul ih (hasValue_num _ n)

end Term

end AlgebraicTerms
