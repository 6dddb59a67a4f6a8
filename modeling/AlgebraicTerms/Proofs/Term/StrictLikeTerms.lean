import AlgebraicTerms.Proofs.Term.Merging
import AlgebraicTerms.Proofs.Term.StrictForms

/-!
# Like terms with strict values

Collecting like terms keeps the sum if all summands have values.  If one has none, it may cancel with
another that is written alike, and be lost: `log(0)-log(0)` is `0`.
-/

namespace AlgebraicTerms

open Scalar.Partial (value)
open PartialFunctions

namespace Term

variable {α : Type} [Scalar α] {K : Type} [Field K] [DecidableEq K] [PartialFunctions K]
  [Scalar.Partial α K] {t u : Term α} {ts : List (Term α)} {a b : K}

/-- A summand with a value, whose factors other than numbers show any remainder among them. -/
structure Collectable (t : Term α) : Prop where
  ground : t.IsGround
  defined : t.value? ≠ none
  clear : (Monomial.of t).product.ClearRemainders

/-! ## Trigonometric identities -/

/-- The sine and the cosine of one argument, squared. -/
theorem squaresSum?_eq_some {v : Term α} (h : squaresSum? t u = some v) : ∃ x m y n,
    t = bin .pow (call .sin x) m ∧ u = bin .pow (call .cos y) n ∧ m.text = "2" ∧ n.text = "2" ∧
      x.text = y.text ∧ v = num Scalar.one := by
  simp only [squaresSum?, Option.bind_eq_bind, Option.bind_eq_some_iff] at h
  obtain ⟨⟨x, m⟩, hsin, ⟨y, n⟩, hcos, h⟩ := h
  split at h
  · rename_i reads
    simp only [Bool.and_eq_true] at reads
    exact ⟨x, m, y, n, eq_of_poweredCall? hsin, eq_of_poweredCall? hcos, reads_iff.1 reads.1.1,
      reads_iff.1 reads.1.2, beq_iff.1 reads.2, (Option.some.inj h).symm⟩
  · cases h

theorem squaresSum?_of_identitySum? {v : Term α} (h : identitySum? t u = some v) :
    squaresSum? t u = some v ∨ squaresSum? u t = some v := by
  have either {t u : Term α} (h : trigonometricSum? t u = some v) :
      squaresSum? t u = some v ∨ squaresSum? u t = some v :=
    ((Option.orElse_eq_some _ _ _).1 h).imp_right (·.2)
  rw [identitySum?] at h
  split at h
  · exact either h
  · split at h
    · exact (either h).symm
    · cases h

variable [Scalar.Legible α] [CharZero K]

theorem value?_of_text_two (ht : t.value? ≠ none) (clear : t.ClearRemainders) (h : t.text = "2") :
    t.value? = some 2 := by
  have two : value (Scalar.ofNat 2 : α) = some ((2 : ℕ) : K) := Scalar.Partial.value_ofNat 2
  have nonzero : Scalar.isZero (Scalar.ofNat 2 : α) = false := Bool.eq_false_iff.2 fun zero => by
    have none := two.symm.trans (Scalar.Partial.isZero_iff.1 zero)
    exact Nat.cast_ne_zero.2 two_ne_zero (Option.some.inj none)
  have text : (num (Scalar.ofNat 2 : α)).text = "2" := by
    rw [Term.text, numberText, nonzero, if_neg Bool.false_ne_true, Scalar.Legible.text_two]
  have defined : (num (Scalar.ofNat 2 : α)).value? ≠ none := fun none => by
    cases two.symm.trans none
  rw [value?_eq_of_text_eq ht defined clear trivial (h.trans text.symm)]
  exact two.trans (congrArg some (Nat.cast_ofNat (n := 2)))

/-- Squares that an identity joins make one. -/
theorem squaresSum?_value {v : Term α} (ht : t.value? = some a) (hu : u.value? = some b)
    (clear : t.ClearRemainders) (clear' : u.ClearRemainders) (h : squaresSum? t u = some v) :
    v.value? = some (a + b) := by
  obtain ⟨x, m, y, n, rfl, rfl, hm, hn, same, rfl⟩ := squaresSum?_eq_some h
  obtain ⟨s, i, hs, hi, hp⟩ := value?_power_iff.1 ht
  obtain ⟨c, j, hc, hj, hq⟩ := value?_power_iff.1 hu
  obtain ⟨p, hx, hs⟩ := value?_call_iff.1 hs
  obtain ⟨q, hy, hc⟩ := value?_call_iff.1 hc
  have argument := value?_eq_of_text_eq (ne_of_eq_of_ne hx (Option.some_ne_none p))
    (ne_of_eq_of_ne hy (Option.some_ne_none q)) clear.1 clear'.1 same
  rw [hx, hy] at argument
  cases argument
  have two := value?_of_text_two (ne_of_eq_of_ne hi (Option.some_ne_none i)) clear.2.1 hm
  have two' := value?_of_text_two (ne_of_eq_of_ne hj (Option.some_ne_none j)) clear'.2.1 hn
  rw [hi] at two
  rw [hj] at two'
  cases two
  cases two'
  rw [squares hs hc hp hq]
  exact Scalar.Partial.value_one

theorem identitySum?_value {v : Term α} (ht : t.value? = some a) (hu : u.value? = some b)
    (clear : t.ClearRemainders) (clear' : u.ClearRemainders) (h : identitySum? t u = some v) :
    v.value? = some (a + b) := by
  rcases squaresSum?_of_identitySum? h with h | h
  · exact squaresSum?_value ht hu clear clear' h
  · rw [add_comm]
    exact squaresSum?_value hu ht clear' clear h

/-! ## Piles -/

omit [CharZero K] [Scalar.Legible α] in
theorem Monomial.of_value? (t : Term α) :
    Chain.product.combine? (value (Monomial.of t).coefficient)
      (Chain.product.total? (Monomial.of t).factors) = t.value? := by
  have factors : Chain.product.total? t.factors = t.value? := by
    rw [Term.factors, Chain.total?_cons, operandsIn_total?]
    show Chain.product.combine? (value (Scalar.one : α)) _ = _
    rw [Scalar.Partial.value_one]
    exact Chain.product.unit_combine? _
  rw [← factors]
  exact (total?_others t.factors).symm

/-- A pile that stands for a value, both by its monomial and by its sum. -/
structure Pile.Stands (p : Pile α) (a : K) : Prop where
  ground : ∀ t ∈ p.monomial.factors, t.IsGround
  clear : p.monomial.product.ClearRemainders
  monomial : ∃ c x, value p.monomial.coefficient = some c ∧
    Chain.product.total? p.monomial.factors = some x ∧ a = c * x
  sum : Chain.sum.total? p.sum.toList = some a
  power : ∀ t ∈ p.sum, t.isPower = true → t.ClearRemainders

omit [CharZero K] [Scalar.Legible α] in
theorem Pile.of_stands (h : t.Collectable) (ht : t.value? = some a) : (Pile.of t).Stands a := by
  have monomial := Monomial.of_value? t
  rw [ht] at monomial
  obtain ⟨c, x, hc, hx, same⟩ := Option.map₂_eq_some_iff.1 monomial
  refine ⟨others_ground fun u hu => ?_, h.clear, ⟨c, x, hc, hx, same.symm⟩, ?_, fun u hu hpower => ?_⟩
  · rcases List.mem_cons.1 hu with rfl | hu
    · trivial
    · exact operandsIn_ground h.ground u hu
  · exact Chain.total?_singleton.trans ht
  · obtain rfl := Option.some.inj hu
    -- the only factor of a power is the power
    cases t with
    | bin op l r =>
        cases op with
        | pow => exact h.clear
        | _ => cases hpower
    | _ => cases hpower

/-- An identity makes a new pile. -/
theorem Pile.Stands.identity {p : Pile α} {s v : Term α} (hp : p.Stands a) (h : t.Collectable)
    (ht : t.value? = some b) (hs : p.sum = some s) (joined : identitySum? s t = some v) :
    (Pile.of v).Stands (a + b) := by
  have own := Pile.of_stands h ht
  have hsum := hp.sum
  rw [hs, Option.toList_some, Chain.total?_singleton] at hsum
  obtain ⟨clear, clear'⟩ : s.ClearRemainders ∧ t.ClearRemainders := by
    rcases squaresSum?_of_identitySum? joined with squares | squares <;>
      obtain ⟨x, m, y, n, rfl, rfl, _⟩ := squaresSum?_eq_some squares <;>
      exact ⟨hp.power _ hs rfl, own.power _ rfl rfl⟩
  have total := identitySum?_value hsum ht clear clear' joined
  obtain rfl := eq_of_identitySum? joined
  exact Pile.of_stands ⟨trivial, ne_of_eq_of_ne total (Option.some_ne_none _), trivial⟩ total

theorem Pile.Stands.add? [Scalar.Worded α] {p q : Pile α} (hp : p.Stands a) (h : t.Collectable)
    (ht : t.value? = some b) (hq : p.add? t = some q) : q.Stands (a + b) := by
  have own := Pile.of_stands h ht
  rw [Pile.add?] at hq
  split at hq
  · rename_i sum joined
    cases hq
    obtain ⟨s, hs, joined⟩ := Option.bind_eq_some_iff.1 joined
    exact hp.identity h ht hs joined
  · obtain ⟨c, x, hc, hx, rfl⟩ := hp.monomial
    obtain ⟨d, y, hd, hy, rfl⟩ := own.monomial
    have total : value (p.monomial.coefficient + (Monomial.of t).coefficient) = some (c + d) := by
      rw [Scalar.Partial.value_add, hc, show value (Monomial.of t).coefficient = some d from hd]
      rfl
    have grown {sum : Option (Term α)} (same : x = y)
        (hsum : Chain.sum.total? sum.toList = some ((c + d) * x))
        (hpower : ∀ t ∈ sum, t.isPower = true → t.ClearRemainders) :
        (Pile.mk sum ⟨p.monomial.coefficient + (Monomial.of t).coefficient, p.monomial.factors⟩).Stands
          (c * x + d * y) := by
      rw [← same, ← add_mul]
      exact ⟨hp.ground, hp.clear, ⟨c + d, x, total, hx, rfl⟩, hsum, hpower⟩
    simp only at hq
    split at hq
    · rename_i none none'
      cases hq
      rw [List.isEmpty_iff.1 none] at hx
      rw [show (Pile.of t).monomial.factors = [] from List.isEmpty_iff.1 none'] at hy
      cases hx
      cases hy
      refine grown rfl ?_ fun t ht hpower => ?_
      · rw [Chain.unit, mul_one]
        exact Chain.total?_singleton.trans total
      · obtain rfl := Option.some.inj ht
        cases hpower
    · split at hq
      · rename_i alike
        cases hq
        have product : p.monomial.product.value? = some x := (join_value? hp.ground).trans hx
        have product' : (Monomial.of t).product.value? = some y := (join_value? own.ground).trans hy
        have same := value?_eq_of_text_eq (ne_of_eq_of_ne product (Option.some_ne_none x))
          (ne_of_eq_of_ne product' (Option.some_ne_none y)) hp.clear own.clear (beq_iff.1 alike)
        rw [product, product'] at same
        refine grown (Option.some.inj same) ?_ fun t ht hpower => ?_
        · split
          · rename_i zero
            have none := total.symm.trans (Scalar.Partial.isZero_iff.1 zero)
            rw [Option.some.inj none, zero_mul]
            rfl
          · rw [Option.toList_some, Chain.total?_singleton]
            show Option.map₂ (· * ·) (value _) p.monomial.product.value? = _
            rw [total, product]
            rfl
        · split at ht
          · cases ht
          · obtain rfl := Option.some.inj ht
            cases hpower
      · cases hq
    · cases hq

omit [Scalar.Partial α K] [PartialFunctions K] [Scalar.Legible α] [CharZero K] [DecidableEq K] [Field K] in
theorem Pile.addAll_sublist (p : Pile α) (ts : List (Term α)) : (p.addAll ts).2.Sublist ts := by
  induction ts generalizing p with
  | nil => exact .slnil
  | cons t ts ih =>
      rw [Pile.addAll]
      cases p.add? t with
      | some q => exact (ih q).cons t
      | none => exact (ih p).cons_cons t

/-- A pile and the summands left over make what the pile and all summands did. -/
theorem Pile.Stands.addAll [Scalar.Worded α] {p : Pile α} (hp : p.Stands a)
    (h : ∀ t ∈ ts, t.Collectable) (hts : Chain.sum.total? ts = some b) :
    Chain.sum.total? ((p.addAll ts).1.toList ++ (p.addAll ts).2) = some (a + b) := by
  induction ts generalizing p a b with
  | nil =>
      cases hts
      rw [Pile.addAll, List.append_nil, hp.sum]
      exact congrArg some (add_zero a).symm
  | cons t ts ih =>
      have hrest : ∀ t ∈ ts, t.Collectable := fun t ht => h t (List.mem_cons_of_mem _ ht)
      obtain ⟨x, y, hx, hy, rfl⟩ := Option.map₂_eq_some_iff.1 hts
      rw [Pile.addAll]
      cases hq : p.add? t with
      | some q =>
          have more := ih (hp.add? (h t List.mem_cons_self) hx hq) hrest hy
          rw [add_assoc] at more
          exact more
      | none =>
          have rest := ih hp hrest hy
          rw [Chain.total?_perm List.perm_middle, Chain.total?_cons, rest, hx]
          exact congrArg some (add_left_comm x a y)

variable [Scalar.Worded α]

theorem collectWithin_total? {piles : ℕ} (h : ∀ t ∈ ts, t.Collectable) :
    Chain.sum.total? (collectWithin piles ts) = Chain.sum.total? ts := by
  induction piles generalizing ts with
  | zero => rfl
  | succ piles ih =>
      cases ts with
      | nil => rfl
      | cons t ts =>
          have ht := h t List.mem_cons_self
          have hts : ∀ t ∈ ts, t.Collectable := fun t ht => h t (List.mem_cons_of_mem _ ht)
          have left : ∀ u ∈ ((Pile.of t).addAll ts).2, u.Collectable :=
            fun u hu => hts u ((Pile.addAll_sublist _ ts).subset hu)
          have defined : Chain.sum.total? ts ≠ none := fun none => by
            obtain ⟨u, hu, undefined⟩ := Chain.total?_eq_none_iff.1 none
            exact (hts u hu).defined undefined
          obtain ⟨x, hx⟩ := Option.ne_none_iff_exists'.1 ht.defined
          obtain ⟨y, hy⟩ := Option.ne_none_iff_exists'.1 defined
          have total := (Pile.of_stands ht hx).addAll hts hy
          rw [Chain.total?_append] at total
          rw [collectWithin, Chain.total?_append, ih left, total, Chain.total?_cons, hx, hy]
          rfl

/-- Collecting keeps the sum of summands that all have values. -/
theorem collectOrZero_total? (h : ∀ t ∈ ts, t.Collectable) :
    Chain.sum.total? (collectOrZero ts) = Chain.sum.total? ts := by
  have total : Chain.sum.total? (collect ts) = Chain.sum.total? ts := collectWithin_total? h
  rw [collectOrZero, ← total]
  split
  · rename_i none
    rw [none, Chain.total?_singleton]
    exact Scalar.Partial.value_zero
  · rfl

end Term

end AlgebraicTerms
