import AlgebraicTerms.Proofs.Search.Sound
import AlgebraicTerms.Search.Power

/-!
# Powers are searched soundly

The exponent of a power of zero must stay a positive number, also when it is multiplied with another
one.
-/

namespace AlgebraicTerms.Search

variable {α : Type} [Scalar α] [Scalar.Exact α] [Scalar.Legible α] {K : Type*} [Field K] [CharZero K]
  {ρ : Assignment K} {J : Cache α → Prop} {A : List String} {find : Finder α}
  {base inner outer exponent : Term α} {a : K} (hfind : Finds J A ρ find)

include hfind

omit [Scalar.Legible α] in
theorem nestedPower_all (h : (Term.bin .pow (.bin .pow base inner) outer).HasValue ρ a) :
    Ensures J A (nestedPower find base inner outer) (AllHave ρ a) := by
  obtain ⟨y, l, hy, hl, zero', rfl⟩ := h.exists_of_pow
  obtain ⟨x, k, hx, hk, zero, rfl⟩ := hy.exists_of_pow
  have product : (Term.bin .mul inner outer).HasValue ρ ((k * l : ℤ) : K) := by
    rw [Int.cast_mul]
    exact .mul hk hl
  have positive (hzero : x = 0) : (Term.bin .mul inner outer).shape ≠ .other := by
    have literal := zero hzero
    have power : x ^ k = 0 := by rw [hzero, zero_zpow k (hk.literal_pos literal).ne']
    rw [Term.shape, literal, zero' power]
    decide
  rw [← zpow_mul]
  refine (hfind _ _ product).bind fun exponents hexponents => ?_
  have powers : Ensures J A (gather (fun e => find (.bin .pow base e)) exponents)
      (AllHave ρ (x ^ (k * l))) :=
    .gather_ne_nil hexponents.values.1 fun e he =>
      hfind.all (hx.power (hexponents.values.2 e he) fun hzero =>
        hexponents.literal (positive hzero) e he)
  refine powers.bind fun found hfound => .pure ?_
  split
  · rename_i empty
    exact absurd (List.isEmpty_iff.1 empty) hfound.1
  · exact hfound

theorem powerOf_all (h : (Term.bin .pow base exponent).HasValue ρ a) :
    Ensures J A (powerOf find base exponent) (AllHave ρ a) := by
  rw [powerOf]
  split
  · rename_i innerBase inner hbase
    obtain rfl := Term.eq_pow_of_power? hbase
    exact nestedPower_all hfind h
  · obtain ⟨x, k, hx, hk, zero, rfl⟩ := h.exists_of_pow
    split
    · rename_i none
      have exponent : k = 0 := by exact_mod_cast hk.eq_zero none
      rw [exponent, zpow_zero]
      exact .pure (.single Term.hasValue_one)
    · split
      · rename_i b e hb he
        have value : Scalar.Exact.value e = k := by
          have same := hk.of_number? he
          rw [Scalar.toField] at same
          exact_mod_cast same.symm
        have base := hx.of_number? hb
        have defined : Scalar.Exact.value b ≠ 0 ∨ 0 < k := by
          by_cases hzero : x = 0
          · exact .inr (hk.literal_pos (zero hzero))
          · rw [base] at hzero
            exact .inl fun h => hzero (Scalar.toField_eq_zero.2 h)
        have power : (Scalar.toField (Scalar.power b e) : K) = x ^ k := by
          rw [Scalar.toField, Scalar.Exact.value_power value defined, Rat.cast_zpow, base,
            Scalar.toField]
        rw [if_pos (Scalar.Exact.finite _), ← power]
        exact .pure (.single (.num _))
      · exact .pure (.single h)

theorem power_all (h : (Term.bin .pow base exponent).HasValue ρ a) :
    Ensures J A (power find base exponent) (AllHave ρ a) := by
  obtain ⟨x, k, hx, hk, zero, rfl⟩ := h.exists_of_pow
  refine (hfind.all hx).bind fun bases hbases => ?_
  refine (hfind _ _ hk).bind fun exponents hexponents => ?_
  refine .gather_ne_nil hexponents.values.1 fun e he => ?_
  refine .gather_ne_nil hbases.1 fun b hb => powerOf_all hfind ?_
  refine (hbases.2 b hb).power (hexponents.values.2 e he) fun hzero => ?_
  refine hexponents.literal ?_ e he
  rw [zero hzero]
  decide

end AlgebraicTerms.Search
