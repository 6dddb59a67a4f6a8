import AlgebraicTerms.Proofs.Scalar.Euclidean
import AlgebraicTerms.Term.Factoring

/-!
# Shared factors of monomials

What two monomials share is their greatest common divisor (`sharedFactors_monomials`).  Powers are
compared as they are written, and a power of a variable is written with its exponent after the last
`^`.  No variable is repeated, and so a factor has one counterpart at most.
-/

namespace AlgebraicTerms

namespace Term

open Scalar.Exact (value)

variable {α : Type} [Scalar α] [Scalar.Exact α]

/-- The variable of a power, as it is displayed, and the exponent. -/
def variablePower? : Term α → Option (String × ℚ)
  | bin .pow (var name index) (num n) => some ((var (α := α) name index).text, value n)
  | _ => none

def variablePowers (ts : List (Term α)) : List (String × ℚ) := ts.filterMap variablePower?

/-- The product of the numbers among the factors. -/
def coefficientOf (ts : List (Term α)) : ℚ := ((numbers ts).map value).prod

/-- An integer other than zero, or a power of a variable with a positive integer as exponent. -/
inductive IsMonomialFactor : Term α → Prop
  | integer {n : α} {m : ℤ} (hn : value n = m) (nonzero : m ≠ 0) : IsMonomialFactor (num n)
  | power {name : String} {index : Option String} {n : α} {k : ℕ} (hn : value n = k)
      (positive : 0 < k) : IsMonomialFactor (bin .pow (var name index) (num n))

/-- The factors of a monomial, in which no variable is repeated. -/
structure IsMonomialLevel (ts : List (Term α)) : Prop where
  factors : ∀ t ∈ ts, t.IsMonomialFactor
  nodup : ((variablePowers ts).map Prod.fst).Nodup

/-- The variables in both products, each with the smaller exponent, in the order of the first one. -/
def commonPowers (a b : List (Term α)) : List (String × ℚ) :=
  (variablePowers a).filterMap fun p =>
    ((variablePowers b).lookup p.1).map fun n => (p.1, min p.2 n)

theorem nodup_commonPowers {a : List (Term α)} (ha : ((variablePowers a).map Prod.fst).Nodup)
    (b : List (Term α)) : ((commonPowers a b).map Prod.fst).Nodup := by
  rw [List.Nodup, List.pairwise_map] at ha ⊢
  refine ha.filterMap _ fun p p' differ q hq q' hq' => ?_
  obtain ⟨_, _, rfl⟩ := Option.map_eq_some_iff.1 hq
  obtain ⟨_, _, rfl⟩ := Option.map_eq_some_iff.1 hq'
  exact differ

/-! ## Texts of powers -/

section Powers

variable [Scalar.Legible α] {name name' : String} {index index' : Option String} {n n' : α}

omit [Scalar α] [Scalar.Exact α] [Scalar.Legible α] in
/-- What stands before and after the last occurrence of a character is determined. -/
theorem append_cons_inj {c : Char} {s s' d d' : List Char} (hd : c ∉ d) (hd' : c ∉ d')
    (h : s ++ c :: d = s' ++ c :: d') : s = s' ∧ d = d' := by
  have last {r d d' : List Char} (hd : c ∉ d) (h : c :: d = r ++ c :: d') : r = [] ∧ d = d' := by
    cases r with
    | nil => exact ⟨rfl, List.tail_eq_of_cons_eq h⟩
    | cons e r =>
        rw [List.tail_eq_of_cons_eq h] at hd
        exact absurd (List.mem_append_right r List.mem_cons_self) hd
  rcases List.append_eq_append_iff.1 h with ⟨r, hs, rest⟩ | ⟨r, hs, rest⟩
  · obtain ⟨rfl, same⟩ := last hd rest
    exact ⟨(hs.trans (List.append_nil s)).symm, same⟩
  · obtain ⟨rfl, same⟩ := last hd' rest
    exact ⟨hs.trans (List.append_nil s'), same.symm⟩

/-- A positive exponent is written as a numeral, and is what the numeral stands for. -/
theorem text_power (name : String) (index : Option String) (positive : 0 < value n) :
    (bin .pow (var name index) (num n)).text.toList =
        (var (α := α) name index).text.toList ++ '^' :: (Scalar.text n).toList ∧
      '^' ∉ (Scalar.text n).toList ∧ Scalar.literal (Scalar.text n) = n := by
  have finite := Scalar.Exact.finite n
  have nonzero : Scalar.isZero n = false :=
    Bool.eq_false_iff.2 fun h => positive.ne' (Scalar.isZero_iff.1 h)
  have unsigned : Scalar.isNegative n = false :=
    Bool.eq_false_iff.2 fun h => positive.not_gt (Scalar.isNegative_iff.1 h)
  have numeral := Scalar.Legible.isNumeral_text finite nonzero unsigned
  refine ⟨?_, fun hc => absurd (numeral.digit_or_point hc) (by decide),
    Scalar.Legible.literal_text finite nonzero unsigned⟩
  have exponent : (num n).leadsMinus = false := unsigned
  show (parenthesized false (var (α := α) name index).text ++ "^" ++
    parenthesized ((num n).isOperation || (num n).leadsMinus) (numberText n)).toList = _
  rw [exponent, numberText, nonzero, if_neg Bool.false_ne_true, String.toList_append,
    String.toList_append, List.append_assoc]
  rfl

/-- Powers that read the same have the same variable and the same exponent. -/
theorem eq_of_text_power (positive : 0 < value n) (positive' : 0 < value n')
    (h : (bin .pow (var name index) (num n)).text = (bin .pow (var name' index') (num n')).text) :
    (var (α := α) name index).text = (var (α := α) name' index').text ∧ n = n' := by
  obtain ⟨written, unraised, exponent⟩ := text_power name index positive
  obtain ⟨written', unraised', exponent'⟩ := text_power name' index' positive'
  rw [h, written'] at written
  obtain ⟨base, numeral⟩ := append_cons_inj unraised' unraised written
  refine ⟨(String.toList_inj.1 base).symm, ?_⟩
  rw [← exponent, ← String.toList_inj.1 numeral, exponent']

/-! ## Shared powers -/

theorem sharedPower?_other (positive : 0 < value n) (positive' : 0 < value n')
    (differ : (var (α := α) name index).text ≠ (var (α := α) name' index').text) :
    sharedPower? (bin .pow (var name index) (num n)) (bin .pow (var name' index') (num n')) =
      none := by
  have unlike := mt (fun h => (eq_of_text_power positive positive' (beq_iff.1 h)).1) differ
  rw [sharedPower?, if_neg unlike]
  exact if_neg (mt beq_iff.1 differ)

variable [Scalar.Euclidean α]

/-- Powers of one variable share the power with the smaller exponent. -/
theorem sharedPower?_same (positive : 0 < value n) (positive' : 0 < value n')
    (same : (var (α := α) name index).text = (var (α := α) name' index').text) :
    ∃ s, sharedPower? (bin .pow (var name index) (num n)) (bin .pow (var name' index') (num n')) =
        some s ∧
      s.variablePower? = some ((var (α := α) name index).text, min (value n) (value n')) := by
  rw [sharedPower?]
  split
  · rename_i alike
    obtain ⟨-, rfl⟩ := eq_of_text_power positive positive' (beq_iff.1 alike)
    refine ⟨_, rfl, ?_⟩
    rw [min_self]
    rfl
  · refine ⟨bin .pow (var name index) (num (Scalar.lesser n n')), if_pos (beq_iff.2 same), ?_⟩
    rw [← Scalar.Euclidean.value_lesser]
    rfl

/-- A power has one counterpart in a monomial at most. -/
theorem filterMap_sharedPower? (positive : 0 < value n) {ts : List (Term α)}
    (hts : IsMonomialLevel ts) :
    ((unsignedOthers ts).filterMap (sharedPower? (bin .pow (var name index) (num n)))).map
        variablePower? =
      (((variablePowers ts).lookup (var (α := α) name index).text).map fun q =>
        some ((var (α := α) name index).text, min (value n) q)).toList := by
  obtain ⟨factors, nodup⟩ := hts
  induction ts with
  | nil => rfl
  | cons u ts ih =>
      obtain ⟨hu, hts⟩ := List.forall_mem_cons.1 factors
      cases hu with
      | integer => exact ih hts nodup
      | @power name' index' n' k hn hk =>
          have positive' : 0 < value n' := by
            rw [hn]
            exact_mod_cast hk
          have powers : variablePowers (bin .pow (var name' index') (num n') :: ts) =
              ((var (α := α) name' index').text, value n') :: variablePowers ts := rfl
          have others : unsignedOthers (bin .pow (var name' index') (num n') :: ts) =
              bin .pow (var name' index') (num n') :: unsignedOthers ts := rfl
          rw [powers, List.map_cons, List.nodup_cons] at nodup
          have rest := ih hts nodup.2
          rw [powers, others]
          by_cases same : (var (α := α) name index).text = (var (α := α) name' index').text
          · obtain ⟨s, shared, power⟩ := sharedPower?_same positive positive' same
            have absent : (variablePowers ts).lookup (var (α := α) name index).text = none := by
              refine List.lookup_eq_none_iff.2 fun p hp => bne_iff_ne.2 fun repeated => nodup.1 ?_
              exact List.mem_map.2 ⟨p, hp, repeated.symm.trans same⟩
            rw [absent] at rest
            rw [List.filterMap_cons_some shared, List.map_cons, rest, power, same,
              List.lookup_cons_self]
            rfl
          · rw [List.filterMap_cons_none (sharedPower?_other positive positive' same), rest,
              List.lookup_cons, beq_eq_false_iff_ne.2 same]

/-- The powers that are shared are those in both products, each with the smaller exponent. -/
theorem sharedPowers_eq {a b : List (Term α)} (ha : ∀ t ∈ a, t.IsMonomialFactor)
    (hb : IsMonomialLevel b) :
    (sharedPowers a b).map variablePower? = (commonPowers a b).map some := by
  induction a with
  | nil => rfl
  | cons t a ih =>
      obtain ⟨ht, rest⟩ := List.forall_mem_cons.1 ha
      cases ht with
      | integer => exact ih rest
      | @power name index n k hn hk =>
          have positive : 0 < value n := by
            rw [hn]
            exact_mod_cast hk
          have shared : sharedPowers (bin .pow (var name index) (num n) :: a) b =
              (unsignedOthers b).filterMap (sharedPower? (bin .pow (var name index) (num n))) ++
                sharedPowers a b := rfl
          have powers : variablePowers (bin .pow (var name index) (num n) :: a) =
              ((var (α := α) name index).text, value n) :: variablePowers a := rfl
          have common : commonPowers (bin .pow (var name index) (num n) :: a) b =
              (((variablePowers b).lookup (var (α := α) name index).text).map fun q =>
                ((var (α := α) name index).text, min (value n) q)).toList ++ commonPowers a b := by
            rw [commonPowers, powers, List.filterMap_cons]
            cases (variablePowers b).lookup (var (α := α) name index).text <;> rfl
          rw [shared, common, List.map_append, List.map_append, filterMap_sharedPower? positive hb,
            ih rest]
          cases (variablePowers b).lookup (var (α := α) name index).text <;> rfl

end Powers

/-! ## Coefficients -/

theorem exists_coefficientOf {ts : List (Term α)} (h : ∀ t ∈ ts, t.IsMonomialFactor) :
    ∃ m : ℤ, coefficientOf ts = m ∧ m ≠ 0 := by
  induction ts with
  | nil => exact ⟨1, Int.cast_one.symm, one_ne_zero⟩
  | cons t ts ih =>
      obtain ⟨ht, rest⟩ := List.forall_mem_cons.1 h
      obtain ⟨m, hm, nonzero⟩ := ih rest
      cases ht with
      | @integer n l hn hl =>
          refine ⟨l * m, ?_, mul_ne_zero hl nonzero⟩
          have product : coefficientOf (num n :: ts) = value n * coefficientOf ts := rfl
          rw [product, hn, hm, Int.cast_mul]
      | power => exact ⟨m, hm, nonzero⟩

theorem value_productOfNumbers (ts : List (Term α)) :
    value (productOfNumbers ts) = coefficientOf ts := Scalar.value_product _

/-- The factors that two monomials share are the powers of the variables in both, with the smaller
exponents, and Euclid's algorithm ends on their coefficients with the greatest common divisor. -/
theorem sharedFactors_monomials [Scalar.Legible α] [Scalar.Euclidean α] {a b : List (Term α)}
    (ha : IsMonomialLevel a) (hb : IsMonomialLevel b) :
    (sharedFactors a b).factors.map variablePower? = (commonPowers a b).map some ∧
      ((commonPowers a b).map Prod.fst).Nodup ∧
      ∃ m n : ℤ, coefficientOf a = m ∧ coefficientOf b = n ∧ n ≠ 0 ∧
        (∃ k, Scalar.EuclidRun (productOfNumbers a) (productOfNumbers b) k
          (Scalar.gcd (productOfNumbers a) (productOfNumbers b))) ∧
        value (sharedFactors a b).divisor = (n.sign * Int.gcd m n : ℤ) := by
  obtain ⟨m, hm, -⟩ := exists_coefficientOf ha.factors
  obtain ⟨n, hn, nonzero⟩ := exists_coefficientOf hb.factors
  obtain ⟨ends, divisor⟩ := Scalar.gcd_of_integers ((value_productOfNumbers a).trans hm)
    ((value_productOfNumbers b).trans hn) nonzero
  exact ⟨sharedPowers_eq ha.factors hb, nodup_commonPowers ha.nodup b, m, n, hm, hn, nonzero, ends,
    Scalar.value_roundThousandth divisor⟩

/-- What `12*x^2*y` and `-18*z^2*x^3` share. -/
theorem sharedFactors_monomials_product :
    let power (name : String) (n : ℚ) : Term ℚ := bin .pow (.var name none) (.num n)
    let a := [.num 12, power "x" 2, power "y" 1]
    let b := [power "z" 2, .num (-18), power "x" 3]
    IsMonomialLevel a ∧ IsMonomialLevel b ∧
      (sharedFactors a b).factors.map variablePower? = [some ("x", 2)] ∧
      (sharedFactors a b).divisor = -6 := by
  intro power a b
  have raised {name : String} {n : ℚ} (k : ℕ) (hn : n = k) (positive : 0 < k) :
      (power name n).IsMonomialFactor := .power (k := k) hn positive
  have ha : IsMonomialLevel a := by
    refine ⟨?_, by decide⟩
    simp only [a, List.forall_mem_cons]
    exact ⟨.integer (m := 12) rfl (by decide), raised 2 rfl (by decide), raised 1 Nat.cast_one.symm
      (by decide), nofun⟩
  have hb : IsMonomialLevel b := by
    refine ⟨?_, by decide⟩
    simp only [b, List.forall_mem_cons]
    exact ⟨raised 2 rfl (by decide), .integer (m := -18) rfl (by decide), raised 3 rfl (by decide),
      nofun⟩
  obtain ⟨factors, -, m, n, hm, hn, -, -, divisor⟩ := sharedFactors_monomials ha hb
  obtain rfl : m = 12 := by exact_mod_cast hm.symm.trans (mul_one 12)
  obtain rfl : n = -18 := by exact_mod_cast hn.symm.trans (mul_one (-18))
  exact ⟨ha, hb, factors, divisor.trans (by decide +kernel)⟩

end Term

end AlgebraicTerms
