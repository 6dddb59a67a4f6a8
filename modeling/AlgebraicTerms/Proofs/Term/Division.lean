import AlgebraicTerms.Proofs.Term.Evaluation
import AlgebraicTerms.Term.Factoring
import Mathlib.Tactic.LinearCombination

/-!
# Dividing by shared factors

A summand is divided by shared factors one after the other, and each divides the first factor that is
an operation on the same left side.  A shared factor that divides none is passed over, so the summand
is the product of the quotient and of the shared factors only if those passed over multiply to one
(`divideOut?_eval_iff`).  A factor is divided whatever its operation is: the quotient is right if it
is the operation of the shared factor, a power or one with the same right side
(`divideOut?_eval_of_single`).
-/

namespace AlgebraicTerms

namespace Term

variable {α : Type} {F : Type*} [Scalar α] [Field F] {I : Interpretation α F} {P : I.PowerLaws}
  {t s q l r : Term α} {ts shared : List (Term α)}

/-! ## Terms that are defined -/

/-- Whether the base of every power admits its exponent. -/
def Defined (P : I.PowerLaws) : Term α → Prop
  | call _ t | inv _ t => t.Defined P
  | bin op l r =>
    l.Defined P ∧ r.Defined P ∧ (op = .pow → P.Admits (l.eval I.meaning) (r.eval I.meaning))
  | _ => True

/-- A term that can be read again from its text and is defined. -/
structure Proper (P : I.PowerLaws) (t : Term α) : Prop where
  legible : t.Legible
  clear : t.ClearRemainders
  defined : t.Defined P

namespace Proper

theorem left {op : Operator} (h : (bin op l r).Proper P) : l.Proper P :=
  ⟨h.legible.1, h.clear.1, h.defined.1⟩

theorem right {op : Operator} (h : (bin op l r).Proper P) : r.Proper P :=
  ⟨h.legible.2, h.clear.2.1, h.defined.2.1⟩

theorem admits (h : (bin .pow l r).Proper P) : P.Admits (l.eval I.meaning) (r.eval I.meaning) :=
  h.defined.2.2 rfl

theorem power (hl : l.Proper P) (hr : r.Proper P)
    (h : P.Admits (l.eval I.meaning) (r.eval I.meaning)) : (bin .pow l r).Proper P :=
  ⟨⟨hl.legible, hr.legible⟩, ⟨hl.clear, hr.clear, nofun⟩, ⟨hl.defined, hr.defined, fun _ => h⟩⟩

theorem num (exact : I.Exact) (n : α) : (num n).Proper P := ⟨exact.finite n, trivial, trivial⟩

theorem inv {i : Inverse} (h : t.Proper P) : (inv i t).Proper P := ⟨h.legible, h.clear, h.defined⟩

theorem operand {i : Inverse} (h : (Term.inv i t).Proper P) : t.Proper P :=
  ⟨h.legible, h.clear, h.defined⟩

theorem inherited : Inherited (Proper P) := ⟨left, right, operand, inv⟩

variable [Scalar.Legible α]

/-- Terms that are written alike have one value. -/
theorem eval_eq {u : Term α} (ht : t.Proper P) (hu : u.Proper P) (h : t.text = u.text) :
    t.eval I.meaning = u.eval I.meaning :=
  eval_eq_of_text_eq I.lawful ht.legible hu.legible ht.clear hu.clear h

end Proper

/-! ## One quotient -/

/-- A power as it is written if its exponent is zero or one. -/
def plainPower (base exponent : Term α) : Term α :=
  if exponent.reads "0" then num Scalar.one
  else if exponent.reads "1" then base
  else bin .pow base exponent

/-- Only operations on one left side are divided, and the right sides are taken for exponents. -/
theorem dividedBy?_eq_some (h : t.dividedBy? s = some q) :
    ∃ op l r op' l' r', t = bin op l r ∧ s = bin op' l' r' ∧ l.text = l'.text ∧
      q = plainPower l' (exponentDifference r r') := by
  unfold dividedBy? at h
  split at h
  · cases h
  · split at h
    · rename_i base own base' exponent factor divisor
      split at h
      · rename_i same
        cases t with
        | bin op l r =>
            cases s with
            | bin op' l' r' =>
                cases factor
                cases divisor
                exact ⟨op, _, _, op', _, _, rfl, rfl, beq_iff.1 same, (Option.some.inj h).symm⟩
            | _ => cases divisor
        | _ => cases factor
      · cases h
    · cases h

/-- Whether both terms are powers, or one operation with the same right side. -/
def SameOperation (t s : Term α) : Prop :=
  ∃ op l r l' r', t = bin op l r ∧ s = bin op l' r' ∧ (op = .pow ∨ r.text = r'.text)

theorem plainPower_proper (exact : I.Exact) {base exponent : Term α} (hbase : base.Proper P)
    (hexponent : exponent.Proper P)
    (h : P.Admits (base.eval I.meaning) (exponent.eval I.meaning)) :
    (plainPower base exponent).Proper P := by
  unfold plainPower
  split
  · exact .num exact _
  · split
    · exact hbase
    · exact .power hbase hexponent h

/-! ## All quotients -/

/-- The first factor that can be divided is, and the others stay. -/
theorem divideFirst?_eq_some {divided : List (Term α)} (h : divideFirst? s ts = some divided) :
    ∃ before t q after, ts = before ++ t :: after ∧ divided = before ++ q :: after ∧
      t.dividedBy? s = some q ∧ ts.find? (fun u => (u.dividedBy? s).isSome) = some t := by
  induction ts generalizing divided with
  | nil => cases h
  | cons t ts ih =>
      rw [divideFirst?] at h
      cases hq : t.dividedBy? s with
      | some q =>
          rw [hq] at h
          cases h
          exact ⟨[], t, q, ts, rfl, rfl, hq, List.find?_cons_of_pos (by rw [hq]; rfl)⟩
      | none =>
          rw [hq] at h
          obtain ⟨rest, hrest, rfl⟩ := Option.map_eq_some_iff.1 h
          obtain ⟨before, u, q, after, rfl, rfl, hu, found⟩ := ih hrest
          refine ⟨t :: before, u, q, after, rfl, rfl, hu, ?_⟩
          rw [List.find?_cons_of_neg (by rw [hq]; exact Bool.false_ne_true), found]

/-- What comes of dividing factors by shared ones in turn. -/
structure Division (α : Type) where
  /-- The factors that were divided, each with its divisor. -/
  steps : List (Term α × Term α)
  /-- The shared factors that divided none. -/
  missed : List (Term α)
  /-- The factors in the end. -/
  factors : List (Term α)

/-- The division of factors by shared ones. -/
def division : (factors shared : List (Term α)) → Division α
  | ts, [] => ⟨[], [], ts⟩
  | ts, s :: shared =>
    match ts.find? (fun t => (t.dividedBy? s).isSome), divideFirst? s ts with
    | some t, some divided =>
      let rest := division divided shared
      { rest with steps := (t, s) :: rest.steps }
    | _, _ =>
      let rest := division ts shared
      { rest with missed := s :: rest.missed }

theorem division_cons_some {t : Term α} {divided : List (Term α)}
    (found : ts.find? (fun t => (t.dividedBy? s).isSome) = some t)
    (h : divideFirst? s ts = some divided) :
    division ts (s :: shared) =
      { division divided shared with steps := (t, s) :: (division divided shared).steps } := by
  rw [division, found, h]

theorem division_cons_none (h : divideFirst? s ts = none) :
    division ts (s :: shared) =
      { division ts shared with missed := s :: (division ts shared).missed } := by
  rw [division, h]
  split
  · rename_i divided
    cases divided
  · rfl

/-- Every step divides by a shared factor. -/
theorem mem_shared_of_mem_steps {d : Term α × Term α} (h : d ∈ (division ts shared).steps) :
    d.2 ∈ shared := by
  induction shared generalizing ts with
  | nil => cases h
  | cons s shared ih =>
      cases hs : divideFirst? s ts with
      | none =>
          rw [division_cons_none hs] at h
          exact List.mem_cons_of_mem _ (ih h)
      | some divided =>
          obtain ⟨_, t, _, _, _, _, _, found⟩ := divideFirst?_eq_some hs
          rw [division_cons_some found hs] at h
          rcases List.mem_cons.1 h with rfl | h
          · exact List.mem_cons_self
          · exact List.mem_cons_of_mem _ (ih h)

/-- A fold that divides by one shared factor after the other, and marks that it did, ends with the
factors in the end. -/
theorem foldl_division {step : List (Term α) × Bool → Term α → List (Term α) × Bool}
    (missed : ∀ ts b s, divideFirst? s ts = none → step (ts, b) s = (ts, b))
    (taken : ∀ ts b s divided, divideFirst? s ts = some divided → step (ts, b) s = (divided, true))
    (ts : List (Term α)) (b : Bool) : shared.foldl step (ts, b) =
      ((division ts shared).factors, b || !(division ts shared).steps.isEmpty) := by
  induction shared generalizing ts b with
  | nil => rw [List.foldl_nil, division, List.isEmpty_nil, Bool.not_true, Bool.or_false]
  | cons s shared ih =>
      rw [List.foldl_cons]
      cases hs : divideFirst? s ts with
      | none => rw [missed ts b s hs, ih, division_cons_none hs]
      | some divided =>
          obtain ⟨_, t, _, _, _, _, _, found⟩ := divideFirst?_eq_some hs
          rw [taken ts b s divided hs, ih, division_cons_some found hs, List.isEmpty_cons,
            Bool.true_or, Bool.not_false, Bool.or_true]

/-- A summand has a quotient if some factor was divided, and that is the product of the factors in the
end. -/
theorem divideOut?_eq_some (h : t.divideOut? shared = some q) :
    (division (t.operandsIn .product) shared).steps ≠ [] ∧
      q = Chain.product.join
        (num (productOfNumbers (division (t.operandsIn .product) shared).factors) ::
          others (division (t.operandsIn .product) shared).factors) := by
  unfold divideOut? at h
  dsimp only at h
  rw [foldl_division (fun ts b s hs => by rw [hs]) fun ts b s divided hs => by rw [hs]] at h
  split at h
  · rename_i divided
    exact ⟨by simpa using divided, (Option.some.inj h).symm⟩
  · cases h

/-! ## Values of quotients -/

variable [Scalar.Legible α]

theorem plainPower_eval (exact : I.Exact) (P : I.PowerLaws) {exponent : Term α}
    (h : exponent.Legible) (base : Term α) : (plainPower base exponent).eval I.meaning =
      I.power (base.eval I.meaning) (exponent.eval I.meaning) := by
  unfold plainPower
  split
  · rename_i zero
    rw [eval_of_reads_zero exact h zero, P.power_zero]
    exact I.number_one
  · split
    · rename_i one
      rw [eval_of_reads_one h one, P.power_one]
    · rfl

theorem exponentDifference_eval (exact : I.Exact) (hr : r.Proper P) (hs : s.Proper P) :
    (exponentDifference r s).Proper P ∧
      (exponentDifference r s).eval I.meaning = r.eval I.meaning - s.eval I.meaning := by
  unfold exponentDifference
  split
  · rename_i same
    rw [hr.eval_eq hs (beq_iff.1 same), sub_self]
    exact ⟨.num exact _, I.number_zero Scalar.Legible.isZero_zero⟩
  · split
    · rename_i m n hm hn
      rw [eval_of_number? exact hm, eval_of_number? exact hn]
      exact ⟨.num exact _, exact.sub n m⟩
    · refine ⟨⟨⟨hr.legible, hs.legible⟩, ⟨hr.clear, hs.clear, nofun⟩,
        ⟨hr.defined, hs.defined, nofun⟩⟩, ?_⟩
      exact (sub_eq_add_neg _ _).symm

/-- A factor is the product of its quotient and its divisor, if both are one operation. -/
theorem dividedBy?_eval (exact : I.Exact) (ht : t.Proper P) (hs : s.Proper P)
    (nonzero : s.eval I.meaning ≠ 0) (h : t.dividedBy? s = some q) (same : t.SameOperation s) :
    q.Proper P ∧ t.eval I.meaning = s.eval I.meaning * q.eval I.meaning := by
  obtain ⟨op, l, r, op', l', r', rfl, rfl, bases, rfl⟩ := dividedBy?_eq_some h
  obtain ⟨_, _, _, _, _, ⟨⟩, ⟨⟩, kind⟩ := same
  have hbase : l.eval I.meaning = l'.eval I.meaning := ht.left.eval_eq hs.left bases
  obtain ⟨difference, left⟩ := exponentDifference_eval exact ht.right hs.right
  rcases kind with rfl | sides
  · have admits := ht.admits
    rw [hbase] at admits
    obtain ⟨admitted, quotient⟩ := P.quotient admits hs.admits nonzero
    refine ⟨plainPower_proper exact hs.left difference (by rwa [left]), ?_⟩
    rw [plainPower_eval exact P difference.legible, left]
    show I.power _ _ = I.power _ _ * _
    rw [hbase]
    exact quotient
  · -- the right sides read the same, so the quotient is written as the number one
    have none : exponentDifference r r' = Term.num Scalar.zero := if_pos (beq_iff.2 sides)
    have one : plainPower l' (exponentDifference r r') = Term.num Scalar.one := by
      rw [none]
      exact if_pos (reads_iff.2 text_zero)
    rw [one]
    refine ⟨.num exact _, ?_⟩
    show I.meaning.bin op _ _ = I.meaning.bin op _ _ * I.number (Scalar.ofNat 1)
    rw [I.number_one, mul_one, hbase, ht.right.eval_eq hs.right sides]

/-- Factors that are divided keep their product with the shared factors that were not missed. -/
theorem division_eval (exact : I.Exact) (hts : ∀ t ∈ ts, t.Proper P)
    (hshared : ∀ s ∈ shared, s.Proper P ∧ s.eval I.meaning ≠ 0)
    (same : ∀ d ∈ (division ts shared).steps, d.1.SameOperation d.2) :
    (∀ t ∈ (division ts shared).factors, t.Proper P) ∧
      (ts.map (eval I.meaning)).prod * ((division ts shared).missed.map (eval I.meaning)).prod =
        (shared.map (eval I.meaning)).prod *
          ((division ts shared).factors.map (eval I.meaning)).prod := by
  induction shared generalizing ts with
  | nil =>
      refine ⟨hts, ?_⟩
      show _ * 1 = 1 * _
      rw [mul_one, one_mul]
      rfl
  | cons s shared ih =>
      obtain ⟨⟨hs, nonzero⟩, hshared⟩ := List.forall_mem_cons.1 hshared
      cases divides : divideFirst? s ts with
      | none =>
          rw [division_cons_none divides] at same ⊢
          obtain ⟨proper, product⟩ := ih hts hshared same
          refine ⟨proper, ?_⟩
          simp only [List.map_cons, List.prod_cons]
          rw [mul_left_comm, product, mul_assoc]
      | some divided =>
          obtain ⟨before, t, q, after, rfl, rfl, hq, found⟩ := divideFirst?_eq_some divides
          rw [division_cons_some found divides] at same ⊢
          obtain ⟨kind, same⟩ := List.forall_mem_cons.1 same
          have ht := hts t (List.mem_append_right _ List.mem_cons_self)
          obtain ⟨hqp, quotient⟩ := dividedBy?_eval exact ht hs nonzero hq kind
          have hdivided : ∀ u ∈ before ++ q :: after, u.Proper P := by
            intro u hu
            rcases List.mem_append.1 hu with hu | hu
            · exact hts u (List.mem_append_left _ hu)
            · rcases List.mem_cons.1 hu with rfl | hu
              · exact hqp
              · exact hts u (List.mem_append_right _ (List.mem_cons_of_mem _ hu))
          obtain ⟨proper, product⟩ := ih hdivided hshared same
          refine ⟨proper, ?_⟩
          simp only [List.map_append, List.map_cons, List.prod_append, List.prod_cons] at product ⊢
          rw [quotient]
          linear_combination (s.eval I.meaning) * product

/-- A quotient is the product of what is left of the factors. -/
theorem divideOut?_eval (exact : I.Exact) (h : t.divideOut? shared = some q) (ht : t.Proper P)
    (hshared : ∀ s ∈ shared, s.Proper P ∧ s.eval I.meaning ≠ 0)
    (same : ∀ d ∈ (division (t.operandsIn .product) shared).steps, d.1.SameOperation d.2) :
    t.eval I.meaning *
        ((division (t.operandsIn .product) shared).missed.map (eval I.meaning)).prod =
      (shared.map (eval I.meaning)).prod * q.eval I.meaning := by
  obtain ⟨proper, product⟩ := division_eval exact (Proper.inherited.operandsIn ht) hshared same
  rw [prod_operandsIn] at product
  rw [product, (divideOut?_eq_some h).2, join_others_eval exact fun u hu => (proper u hu).legible]

/-- Powers that are taken out of a summand, where they divide only powers, leave a quotient that is
exact if and only if the shared factors that were missed multiply to one. -/
theorem divideOut?_eval_iff (exact : I.Exact) (P : I.PowerLaws)
    (h : t.divideOut? shared = some q) (ht : t.Proper P) (hshared : ∀ s ∈ shared, s.Proper P)
    (powers : ∀ s ∈ shared, ∃ base exponent, s = bin .pow base exponent ∧
      base.eval I.meaning ≠ 0)
    (divided : ∀ d ∈ (division (t.operandsIn .product) shared).steps, d.1.isPower = true) :
    t.eval I.meaning = (shared.map (eval I.meaning)).prod * q.eval I.meaning ↔
      ((division (t.operandsIn .product) shared).missed.map (eval I.meaning)).prod = 1 ∨
        t.eval I.meaning = 0 := by
  have nonzero : ∀ s ∈ shared, s.Proper P ∧ s.eval I.meaning ≠ 0 := by
    intro s hs
    have proper := hshared s hs
    obtain ⟨base, exponent, rfl, hbase⟩ := powers s hs
    exact ⟨proper, P.power_ne_zero hbase proper.admits⟩
  have same : ∀ d ∈ (division (t.operandsIn .product) shared).steps, d.1.SameOperation d.2 := by
    intro d hd
    obtain ⟨base, exponent, hs, -⟩ := powers d.2 (mem_shared_of_mem_steps hd)
    obtain ⟨⟨base', exponent'⟩, hpower⟩ := Option.isSome_iff_exists.1 (divided d hd)
    exact ⟨.pow, base', exponent', base, exponent, eq_pow_of_power? hpower, hs, .inl rfl⟩
  have product := divideOut?_eval exact h ht nonzero same
  rw [← product, eq_comm, mul_right_eq_self₀]

/-- A power of a variable with a number as its exponent. -/
def variablePower (name : String) (n : ℚ) : Term ℚ := bin .pow (var name none) (num n)

theorem variablePower_proper {ρ : String → ℝ} {call : Keyword → ℝ → ℝ} {name : String} {n : ℚ}
    (hname : (var (α := ℚ) name none).Legible) (positive : 0 < ρ name) :
    (variablePower name n).Proper (Interpretation.realPowers ρ call) :=
  .power ⟨hname, trivial, trivial⟩ (.num (Interpretation.reals_exact ρ call) n) (.inl positive)

/-- `3*x^2*y^(1/2)`. -/
def squareTimesRoot : Term ℚ :=
  bin .mul (bin .mul (num 3) (variablePower "x" 2)) (variablePower "y" (1 / 2))

theorem divideOut?_eval_iff_root :
    squareTimesRoot.divideOut? [variablePower "x" 1, variablePower "y" (1 / 2)] =
        some (bin .mul (num 3) (var "x" none)) ∧
      squareTimesRoot.eval (Interpretation.reals (fun _ => 5) fun _ a => a).meaning =
        ([variablePower "x" 1, variablePower "y" (1 / 2)].map
            (eval (Interpretation.reals (fun _ => 5) fun _ a => a).meaning)).prod *
          (bin .mul (num (3 : ℚ)) (var "x" none)).eval
            (Interpretation.reals (fun _ => 5) fun _ a => a).meaning := by
  have exact := Interpretation.reals_exact (fun _ => 5) fun _ a => a
  let P := Interpretation.realPowers (fun _ => 5) fun _ a => a
  have hx : (var (α := ℚ) "x" none).Legible := ⟨by decide, rfl, rfl, nofun⟩
  have hy : (var (α := ℚ) "y" none).Legible := ⟨by decide, rfl, rfl, nofun⟩
  have five : (0 : ℝ) < 5 := by norm_num
  have square : (variablePower "x" 2).Proper P := variablePower_proper hx five
  have first : (variablePower "x" 1).Proper P := variablePower_proper hx five
  have root : (variablePower "y" (1 / 2)).Proper P := variablePower_proper hy five
  have product : squareTimesRoot.Proper P :=
    ⟨⟨⟨rfl, square.legible⟩, root.legible⟩,
      ⟨⟨trivial, square.clear, fun _ _ => rfl⟩, root.clear, fun _ _ => rfl⟩,
      ⟨⟨trivial, square.defined, nofun⟩, root.defined, nofun⟩⟩
  have quotient : squareTimesRoot.divideOut? [variablePower "x" 1, variablePower "y" (1 / 2)] =
      some (bin .mul (num 3) (var "x" none)) := by
    with_unfolding_all rfl
  have turns : division (squareTimesRoot.operandsIn .product)
      [variablePower "x" 1, variablePower "y" (1 / 2)] =
        ⟨[(variablePower "x" 2, variablePower "x" 1),
          (variablePower "y" (1 / 2), variablePower "y" (1 / 2))], [],
          [num 3, var "x" none, num 1]⟩ := by
    with_unfolding_all rfl
  refine ⟨quotient, (divideOut?_eval_iff exact P quotient product ?_ ?_ ?_).2 (.inl ?_)⟩
  · exact List.forall_mem_cons.2 ⟨first, List.forall_mem_singleton.2 root⟩
  · exact List.forall_mem_cons.2 ⟨⟨_, _, rfl, five.ne'⟩,
      List.forall_mem_singleton.2 ⟨_, _, rfl, five.ne'⟩⟩
  · rw [turns]
    exact List.forall_mem_cons.2 ⟨rfl, List.forall_mem_singleton.2 rfl⟩
  · rw [turns]
    rfl

/-- A quotient where a shared factor was missed: `c^2*x` is not `x*y` times `c^2`. -/
theorem divideOut?_misses_factor :
    (bin .mul (variablePower "c" 2) (variablePower "x" 1)).divideOut?
        [variablePower "x" 1, variablePower "y" 1] = some (variablePower "c" 2) ∧
      ∃ I : Interpretation ℚ ℝ, I.Exact ∧ Nonempty I.PowerLaws ∧
        I.var "x" none ≠ 0 ∧ I.var "y" none ≠ 0 ∧
        (bin .mul (variablePower "c" 2) (variablePower "x" 1)).eval I.meaning ≠
          ([variablePower "x" 1, variablePower "y" 1].map (eval I.meaning)).prod *
            (variablePower "c" 2).eval I.meaning := by
  refine ⟨by with_unfolding_all rfl, .reals (fun name => if name = "y" then 2 else 1) fun _ a => a,
    Interpretation.reals_exact _ _, ⟨Interpretation.realPowers _ _⟩, ?_, ?_, ?_⟩
  · show (1 : ℝ) ≠ 0
    exact one_ne_zero
  · show (2 : ℝ) ≠ 0
    exact two_ne_zero
  · -- with `y = 2` and the others one, `1` against `2`
    show (1 : ℝ) ^ ((2 : ℚ) : ℝ) * (1 : ℝ) ^ ((1 : ℚ) : ℝ) ≠
      (1 : ℝ) ^ ((1 : ℚ) : ℝ) * ((2 : ℝ) ^ ((1 : ℚ) : ℝ) * 1) * (1 : ℝ) ^ ((2 : ℚ) : ℝ)
    norm_num

/-- A single factor that divides one of its own operation leaves an exact quotient. -/
theorem divideOut?_eval_of_single (exact : I.Exact) (P : I.PowerLaws)
    (h : t.divideOut? [s] = some q) (ht : t.Proper P) (hs : s.Proper P)
    (nonzero : s.eval I.meaning ≠ 0)
    (same : ∀ d ∈ (division (t.operandsIn .product) [s]).steps, d.1.SameOperation d.2) :
    t.eval I.meaning = s.eval I.meaning * q.eval I.meaning := by
  have product := divideOut?_eval exact h ht (List.forall_mem_singleton.2 ⟨hs, nonzero⟩) same
  have found : (division (t.operandsIn .product) [s]).missed = [] := by
    have steps := (divideOut?_eq_some h).1
    cases divides : divideFirst? s (t.operandsIn .product) with
    | none =>
        rw [division_cons_none divides] at steps
        exact absurd rfl steps
    | some divided =>
        obtain ⟨_, _, _, _, _, _, _, found⟩ := divideFirst?_eq_some divides
        rw [division_cons_some found divides]
        rfl
  rwa [found, List.map_nil, List.prod_nil, mul_one, List.map_singleton, List.prod_singleton] at product

/-- `3*(x+y)` is `x+y` times `3`. -/
theorem divideOut?_eval_of_single_sum :
    (bin .mul (num 3) (bin .add (var "x" none) (var "y" none))).divideOut?
        [bin .add (var "x" none) (var "y" none)] = some (num (3 : ℚ)) ∧
      (bin .mul (num 3) (bin .add (var "x" none) (var "y" none))).eval
          (Interpretation.reals (fun _ => 5) fun _ a => a).meaning =
        (bin .add (var "x" none) (var "y" none)).eval
            (Interpretation.reals (fun _ => 5) fun _ a => a).meaning *
          (num (3 : ℚ)).eval (Interpretation.reals (fun _ => 5) fun _ a => a).meaning := by
  have exact := Interpretation.reals_exact (fun _ => 5) fun _ a => a
  let P := Interpretation.realPowers (fun _ => 5) fun _ a => a
  have hx : (var (α := ℚ) "x" none).Legible := ⟨by decide, rfl, rfl, nofun⟩
  have hy : (var (α := ℚ) "y" none).Legible := ⟨by decide, rfl, rfl, nofun⟩
  have sum : (bin .add (var (α := ℚ) "x" none) (var "y" none)).Proper P :=
    ⟨⟨hx, hy⟩, ⟨trivial, trivial, nofun⟩, ⟨trivial, trivial, nofun⟩⟩
  have product : (bin .mul (num (3 : ℚ)) (bin .add (var "x" none) (var "y" none))).Proper P :=
    ⟨⟨rfl, sum.legible⟩, ⟨trivial, sum.clear, fun _ _ => rfl⟩, ⟨trivial, sum.defined, nofun⟩⟩
  have quotient : (bin .mul (num 3) (bin .add (var "x" none) (var "y" none))).divideOut?
      [bin .add (var "x" none) (var "y" none)] = some (num (3 : ℚ)) := by
    with_unfolding_all rfl
  have turns : (division ((bin .mul (num (3 : ℚ)) (bin .add (var "x" none) (var "y" none))).operandsIn
      .product) [bin .add (var "x" none) (var "y" none)]).steps =
        [(bin .add (var "x" none) (var "y" none), bin .add (var "x" none) (var "y" none))] := by
    with_unfolding_all rfl
  refine ⟨quotient, divideOut?_eval_of_single exact P quotient product sum ?_ ?_⟩
  · show (5 : ℝ) + 5 ≠ 0
    norm_num
  · rw [turns]
    exact List.forall_mem_singleton.2 ⟨_, _, _, _, _, rfl, rfl, .inr rfl⟩

/-- A quotient of two operations: `2^b` is not `2%b` times `1`. -/
theorem divideOut?_mixes_operations :
    (bin .pow (num 2) (var "b" none)).divideOut? [bin .mod (num 2) (var "b" none)] =
        some (num (1 : ℚ)) ∧
      ∃ I : Interpretation ℚ ℝ, I.Exact ∧ Nonempty I.PowerLaws ∧
        (bin .mod (num (2 : ℚ)) (var "b" none)).eval I.meaning ≠ 0 ∧
        (bin .pow (num (2 : ℚ)) (var "b" none)).eval I.meaning ≠
          (bin .mod (num (2 : ℚ)) (var "b" none)).eval I.meaning *
            (num (1 : ℚ)).eval I.meaning := by
  have floor : ⌊(2 : ℝ) / 3⌋ = 0 := by
    rw [Int.floor_eq_zero_iff]
    norm_num
  have remainder : ((2 : ℚ) : ℝ) - 3 * ⌊((2 : ℚ) : ℝ) / 3⌋ = 2 := by
    rw [Rat.cast_ofNat, floor]
    norm_num
  refine ⟨by with_unfolding_all rfl, .reals (fun _ => 3) fun _ a => a,
    Interpretation.reals_exact _ _, ⟨Interpretation.realPowers _ _⟩, ?_, ?_⟩
  · exact remainder.trans_ne two_ne_zero
  · -- with `b = 3`, `8` against `2`
    show ((2 : ℚ) : ℝ) ^ (3 : ℝ) ≠ (((2 : ℚ) : ℝ) - 3 * ⌊((2 : ℚ) : ℝ) / 3⌋) * ((1 : ℚ) : ℝ)
    rw [remainder]
    norm_num

end Term

end AlgebraicTerms
