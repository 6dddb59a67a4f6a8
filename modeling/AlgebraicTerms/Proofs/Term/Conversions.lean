import AlgebraicTerms.Proofs.Term.Evaluation
import AlgebraicTerms.Term.LikeTerms

/-!
# Exact evaluation of equivalent forms

If sums and comparisons of numbers are exact as well as products, the conversions between equivalent
forms keep the value of a term.  Operands that are joined have their sum or product as soon as those
that are written as the identity are the identity.
-/

namespace AlgebraicTerms

namespace Interpretation

variable {α : Type} {F : Type*} [Scalar α] [Field F]

/-- Whether numbers are also added, negated and compared exactly. -/
structure FullyExact (I : Interpretation α F) : Prop extends I.Exact where
  add (m n : α) : I.number (m + n) = I.number m + I.number n
  neg (n : α) : I.number (-n) = -I.number n
  emptySum : I.number (Scalar.emptySum : α) = 0
  ofNat (n : ℕ) : I.number (Scalar.ofNat n : α) = n
  beq {m n : α} : (m == n) = true → I.number m = I.number n

theorem ofRationals_fullyExact {K : Type*} [Field K] [CharZero K] (var : String → K)
    (call : Keyword → K → K) (rem power : K → K → K) :
    (ofRationals var call rem power).FullyExact where
  toExact := ofRationals_exact var call rem power
  add := Rat.cast_add
  neg := Rat.cast_neg
  emptySum := Rat.cast_zero
  ofNat := Rat.cast_natCast
  beq h := congrArg Rat.cast (eq_of_beq h)

theorem reals_fullyExact (var : String → ℝ) (call : Keyword → ℝ → ℝ) :
    (reals var call).FullyExact := ofRationals_fullyExact var call _ _

namespace FullyExact

variable {I : Interpretation α F}

theorem zero (exact : I.FullyExact) : I.number (Scalar.ofNat 0 : α) = 0 :=
  (exact.ofNat 0).trans Nat.cast_zero

theorem two (exact : I.FullyExact) : I.number (Scalar.two : α) = 2 := exact.ofNat 2

theorem negOne (exact : I.FullyExact) : I.number (Scalar.negOne : α) = -1 := by
  rw [Scalar.negOne, exact.neg, I.number_one]

end FullyExact

end Interpretation

namespace Term

variable {α : Type} {F : Type*} [Scalar α] [Field F] {I : Interpretation α F}
  {t u : Term α} {ts us : List (Term α)}

/-- Whether terms of a class that are written alike have the same value. -/
def Faithful (I : Interpretation α F) (C : Term α → Prop) : Prop :=
  ∀ t u, C t → C u → t.text = u.text → t.eval I.meaning = u.eval I.meaning

namespace Faithful

variable {C D : Term α → Prop}

theorem mono (h : Faithful I D) (hCD : ∀ t, C t → D t) : Faithful I C :=
  fun t u ht hu => h t u (hCD t ht) (hCD u hu)

variable [Scalar.Legible α]

/-- What can be read again from its text is faithful. -/
theorem of_legible (I : Interpretation α F) :
    Faithful I fun t => t.Legible ∧ t.ClearRemainders :=
  fun _ _ ht hu => eval_eq_of_text_eq I.lawful ht.1 hu.1 ht.2 hu.2

theorem eval_of_reads_one (h : Faithful I C) (one : C (num Scalar.one)) (ht : C t)
    (reads : t.reads "1" = true) : t.eval I.meaning = 1 := by
  rw [h t _ ht one (text_eq_of_reads_one reads)]
  exact I.number_one

theorem eval_of_reads_zero (h : Faithful I C) (zero : C (num Scalar.zero)) (ht : C t)
    (reads : t.reads "0" = true) : t.eval I.meaning = 0 := by
  rw [h t _ ht zero ((reads_iff.1 reads).trans text_zero.symm)]
  exact I.number_zero Scalar.Legible.isZero_zero

end Faithful

/-! ## Sums and products of operands -/

/-- The numbers among the operands and the others add up to all of them. -/
theorem sum_others (exact : I.FullyExact) (ts : List (Term α)) :
    I.number (sumOfNumbers ts) + ((others ts).map (eval I.meaning)).sum =
      (ts.map (eval I.meaning)).sum := by
  have all := foldl_numbers_others (c := .sum) exact.toExact exact.add ts Scalar.emptySum
  rw [exact.emptySum] at all
  exact all.trans (zero_add _)

theorem sum_join (exact : I.FullyExact) (h : ∀ t ∈ ts, t.UnitAsRead I .sum) :
    (Chain.sum.join ts).eval I.meaning = (ts.map (eval I.meaning)).sum :=
  join_eval_of_units exact.zero h

theorem prod_join (h : ∀ t ∈ ts, t.UnitAsRead I .product) :
    (Chain.product.join ts).eval I.meaning = (ts.map (eval I.meaning)).prod :=
  join_eval_of_units I.number_one h

/-- The factors of `1*t` multiply to `t`. -/
theorem prod_factors (t : Term α) : (t.factors.map (eval I.meaning)).prod = t.eval I.meaning := by
  show I.number (Scalar.ofNat 1) * ((t.operandsIn .product).map (eval I.meaning)).prod = _
  rw [I.number_one, one_mul, prod_operandsIn]

/-- A summand is its coefficient times its other factors. -/
theorem monomial_eval (exact : I.Exact)
    (h : ∀ f ∈ (Monomial.of t).factors, f.UnitAsRead I .product) :
    t.eval I.meaning =
      I.number (Monomial.of t).coefficient * (Monomial.of t).product.eval I.meaning := by
  rw [Monomial.product, prod_join h, ← prod_factors t]
  exact (prod_others exact t.factors).symm

/-! ## Conversions -/

/-- First powers have the value of their bases. -/
theorem withExponents_eval (power_one : ∀ x, I.power x 1 = x) (t : Term α) :
    t.withExponents.eval I.meaning = t.eval I.meaning := by
  refine ((eval_replacement I).withExponents (fun {t} _ => ?_) t).symm
  show t.eval I.meaning = I.power (t.eval I.meaning) (I.number (Scalar.ofNat 1))
  rw [I.number_one, power_one]

theorem eval_negations (negOne : I.number (Scalar.negOne : α) = -1) :
    Negations fun t u : Term α => t.eval I.meaning = u.eval I.meaning where
  toReplacement := eval_replacement I
  neg_neg _ := neg_neg _
  neg_product t := by
    show -t.eval I.meaning = I.number Scalar.negOne * t.eval I.meaning
    rw [negOne, neg_one_mul]

theorem eval_neg_number (exact : I.FullyExact) {n : α} (hn : t.number? = some n) :
    (inv .neg t).eval I.meaning = (num (-n)).eval I.meaning := by
  show -t.eval I.meaning = I.number (-n)
  rw [eval_of_number? exact.toExact hn, exact.neg]

theorem negated_eval (exact : I.FullyExact) (t : Term α) :
    t.negated.eval I.meaning = -t.eval I.meaning :=
  ((eval_negations exact.negOne).negated (eval_neg_number exact) t).symm

theorem negationsAsProducts_eval (negOne : I.number (Scalar.negOne : α) = -1) (t : Term α) :
    t.negationsAsProducts.eval I.meaning = t.eval I.meaning :=
  ((eval_negations negOne).negationsAsProducts t).symm

/-! ## Factors of a quotient -/

theorem operandsIn_withExponents (t : Term α) :
    t.withExponents.operandsIn .product = (t.operandsIn .product).map withExponents := by
  induction t with
  | bin op l r ihl ihr =>
      cases op with
      | mul =>
          show l.withExponents.operandsIn .product ++ r.withExponents.operandsIn .product =
            (l.operandsIn .product ++ r.operandsIn .product).map withExponents
          rw [ihl, ihr, List.map_append]
      | div =>
          show l.withExponents.operandsIn .product ++
              (r.withExponents.operandsIn .product).map (inv .recip) =
            (l.operandsIn .product ++ (r.operandsIn .product).map (inv .recip)).map withExponents
          rw [ihl, ihr, List.map_append, List.map_map, List.map_map]
          rfl
      | add | sub | mod | pow => rfl
  | _ => rfl

omit [Scalar α] in
/-- An operand of a chain is no operation of the chain. -/
theorem operandsIn_of_mem {c : Chain} (h : u ∈ t.operandsIn c) : u.operandsIn c = [u] := by
  induction t with
  | bin op l r ihl ihr =>
      rw [operandsIn] at h
      split at h
      · rcases List.mem_append.1 h with h | h
        · exact ihl h
        · split at h
          · exact ihr h
          · obtain ⟨v, _, rfl⟩ := List.mem_map.1 h
            rfl
      · rename_i other
        obtain rfl := List.mem_singleton.1 h
        rw [operandsIn, if_neg other]
  | _ =>
      obtain rfl := List.mem_singleton.1 h
      rfl

/-- Reciprocals that are joined are the factors of what they are joined to. -/
theorem operandsIn_join_recip (hne : ts ≠ []) (h : ∀ t ∈ ts, t.operandsIn .product = [t]) :
    (Chain.product.join (ts.map (inv .recip))).operandsIn .product = ts.map (inv .recip) := by
  have attached (chain : Term α) (ts : List (Term α)) (h : ∀ t ∈ ts, t.operandsIn .product = [t]) :
      ((ts.map (inv .recip)).foldl Chain.product.attach chain).operandsIn .product =
        chain.operandsIn .product ++ ts.map (inv .recip) := by
    induction ts generalizing chain with
    | nil => exact (List.append_nil _).symm
    | cons t ts ih =>
        obtain ⟨ht, hts⟩ := List.forall_mem_cons.1 h
        have divided : (Chain.product.attach chain (inv .recip t)).operandsIn .product =
            chain.operandsIn .product ++ (t.operandsIn .product).map (inv .recip) := rfl
        rw [List.map_cons, List.foldl_cons, ih _ hts, divided, ht, List.append_assoc]
        rfl
  have proper : Chain.product.proper (ts.map (inv .recip)) = ts.map (inv .recip) := by
    refine List.filter_eq_self.2 fun u hu => ?_
    obtain ⟨t, _, rfl⟩ := List.mem_map.1 hu
    rw [inv_reads]
    rfl
  rw [Chain.join_eq, proper]
  cases ts with
  | nil => exact absurd rfl hne
  | cons t ts => exact attached (inv .recip t) ts (List.forall_mem_cons.1 h).2

/-- The product with the reciprocals of the divisor's factors has the factors of the quotient. -/
theorem operands_quotient (l r : Term α) :
    (bin .mul l (Chain.product.join ((r.operandsIn .product).map (inv .recip)))).withExponents.operands =
      (bin .div l r).withExponents.operandsIn .product := by
  have joined := operandsIn_join_recip (operandsIn_ne_nil .product r)
    fun t ht => operandsIn_of_mem ht
  have divisor : (Chain.product.join
      ((r.operandsIn .product).map (inv .recip))).withExponents.operandsIn .product =
        (r.withExponents.operandsIn .product).map (inv .recip) := by
    rw [operandsIn_withExponents, joined, operandsIn_withExponents, List.map_map, List.map_map]
    rfl
  exact congrArg (l.withExponents.operandsIn .product ++ ·) divisor

end Term

end AlgebraicTerms
