import AlgebraicTerms.Proofs.Term.Forms
import AlgebraicTerms.Term.LikeTerms

/-!
# Like terms keep their total

Every pile of like summands has the sum of what was put on it, also once it cancelled.
-/

namespace AlgebraicTerms

namespace Term

variable {α : Type} [Scalar α] [Scalar.Exact α] {K : Type*} [Field K] {ρ : Assignment K}
  {t u : Term α} {ts : List (Term α)} {a b : K}

/-! ## Identities need keywords -/

theorem leadsTrigonometric_of_hasValue (h : t.HasValue ρ a) : t.leadsTrigonometric = false := by
  have left {op : Operator} {l r : Term α} {b : K} (hl : l.HasValue ρ b) :
      (bin op l r).leadsTrigonometric = false := by
    cases hl <;> rfl
  cases h with
  | add hl _ | sub hl _ | mul hl _ => exact left hl
  | div hl _ _ | pow hl _ _ | zeroPow hl _ _ => exact left hl
  | _ => rfl

theorem identitySum?_of_hasValue (ht : t.HasValue ρ a) (hu : u.HasValue ρ b) :
    identitySum? t u = none := by
  rw [identitySum?, leadsTrigonometric_of_hasValue ht, leadsTrigonometric_of_hasValue hu]
  rfl

theorem identityProduct?_of_hasValue (ht : t.HasValue ρ a) (hu : u.HasValue ρ b) :
    identityProduct? t u = none := by
  rw [identityProduct?, leadsTrigonometric_of_hasValue ht, leadsTrigonometric_of_hasValue hu]
  rfl

/-! ## Piles -/

theorem factors_total (h : t.HasValue ρ a) : Chain.product.Total ρ t.factors a := by
  have total := Chain.Total.cons (c := .product) (hasValue_one (α := α) (ρ := ρ)) (operandsIn_total h)
  rwa [Chain.combine, one_mul] at total

/-- Whether a monomial has a value. -/
def Monomial.Makes (m : Monomial α) (ρ : Assignment K) (a : K) : Prop :=
  ∃ b, Chain.product.Total ρ m.factors b ∧ a = Scalar.toField m.coefficient * b

/-- What a pile holds: its monomial and its sum have that value, and a sum that is absent is zero. -/
structure Pile.Makes (p : Pile α) (ρ : Assignment K) (a : K) : Prop where
  monomial : p.monomial.Makes ρ a
  sum : Chain.sum.Total ρ p.sum.toList a

variable [CharZero K]

theorem Monomial.of_makes (h : t.HasValue ρ a) : (Monomial.of t).Makes ρ a :=
  (factors_total h).others

theorem Pile.of_makes (h : t.HasValue ρ a) : (Pile.of t).Makes ρ a :=
  ⟨Monomial.of_makes h, .singleton h⟩

variable [Scalar.Legible α]

theorem Pile.Makes.add? {p q : Pile α} (hp : p.Makes ρ a) (h : t.HasValue ρ b)
    (hq : p.add? t = some q) : q.Makes ρ (a + b) := by
  have noIdentity : p.sum.bind (identitySum? · t) = none := by
    cases hs : p.sum with
    | none => rfl
    | some s =>
        have sum := hp.sum
        rw [hs] at sum
        cases sum with
        | cons hs _ => exact identitySum?_of_hasValue hs h
  obtain ⟨x, hx, rfl⟩ := hp.monomial
  obtain ⟨y, hy, rfl⟩ := Monomial.of_makes h
  rw [Pile.add?, noIdentity] at hq
  simp only at hq
  split at hq
  · rename_i own other
    cases hq
    rw [List.isEmpty_iff] at own other
    rw [own] at hx
    rw [other] at hy
    cases hx
    cases hy
    rw [Chain.unit, mul_one, mul_one, ← Scalar.toField_add]
    refine ⟨⟨1, ?_, (mul_one _).symm⟩, .singleton (.num _)⟩
    rw [own]
    exact .nil
  · split at hq
    · rename_i same
      cases hq
      have value : x = y := (join_hasValue hx).eq_of_text_eq (join_hasValue hy) (beq_iff.1 same)
      subst value
      rw [← add_mul, ← Scalar.toField_add]
      refine ⟨⟨x, hx, rfl⟩, ?_⟩
      split
      · rename_i zero
        rw [Scalar.toField_eq_zero.2 (Scalar.isZero_iff.1 zero), zero_mul]
        exact .nil
      · exact .singleton (.mul (.num _) (join_hasValue hx))
    · cases hq
  · cases hq

/-- A pile and the summands left over have the total of the pile and all summands. -/
theorem Pile.Makes.addAll {p : Pile α} (hp : p.Makes ρ a) (h : Chain.sum.Total ρ ts b) :
    Chain.sum.Total ρ ((p.addAll ts).1.toList ++ (p.addAll ts).2) (a + b) := by
  induction ts generalizing p a b with
  | nil =>
      cases h
      rw [Pile.addAll, List.append_nil, Chain.unit, add_zero]
      exact hp.sum
  | cons t ts ih =>
      cases h with
      | @cons _ _ x y ht hts =>
          rw [Pile.addAll, Chain.combine]
          cases hq : p.add? t with
          | some q =>
              simp only
              rw [← add_assoc]
              exact ih (hp.add? ht hq) hts
          | none =>
              simp only
              have rest := ih hp hts
              rw [add_left_comm]
              exact (Chain.Total.cons ht rest).perm List.perm_middle.symm

theorem collectWithin_total {piles : Nat} (h : Chain.sum.Total ρ ts a) :
    Chain.sum.Total ρ (collectWithin piles ts) a := by
  induction piles generalizing ts a with
  | zero => exact h
  | succ piles ih =>
      cases ts with
      | nil => exact h
      | cons t ts =>
          cases h with
          | cons ht hts =>
              obtain ⟨x, y, hx, hy, same⟩ := ((Pile.of_makes ht).addAll hts).exists_append
              rw [collectWithin, Chain.combine, same]
              exact hx.append (ih hy)

theorem collect_total (h : Chain.sum.Total ρ ts a) : Chain.sum.Total ρ (collect ts) a :=
  collectWithin_total h

theorem collectOrZero_total (h : Chain.sum.Total ρ ts a) :
    Chain.sum.Total ρ (collectOrZero ts) a := by
  have total := collect_total h
  rw [collectOrZero]
  split
  · rename_i none
    rw [none] at total
    cases total
    exact .singleton hasValue_zero
  · exact total

end Term

end AlgebraicTerms
