import AlgebraicTerms.Proofs.Search.Binomial
import AlgebraicTerms.Proofs.Search.IntegerPowers
import AlgebraicTerms.Proofs.Term.Names

/-!
# Completed squares have the value of the sum

Wherever roots are exact and the searches that the rule starts keep values, every sum written with a
binomial square has the value of the summands.  The rule knows the exponent of a square, and a remainder
that is nothing, by their texts, so no variable may be written as a number there.
-/

namespace AlgebraicTerms.Search

open Term

variable {α : Type} {F : Type*} [Scalar α] [Field F]

/-- Whether the root of a coefficient is exact if the rule takes it for one. -/
def ExactRoot (I : Interpretation α F) (n : α) : Prop :=
  Scalar.isNegative n = false → Scalar.isInteger (Scalar.sqrt n * Scalar.ofNat 1000) = true →
    I.number (Scalar.sqrt n) ^ 2 = I.number n

/-- The value of a square's root. -/
def Square.root (I : Interpretation α F) (s : Square α) : F := (s.roots.map (eval I.meaning)).prod

/-- The factors of the mixed term of two squares. -/
def Square.mixed (s s' : Square α) : List (Term α) := .num Scalar.two :: s.roots ++ s'.roots

/-- What is to be left of a summand: it without the mixed term, or with it if the summand is negative. -/
def leftOver (t mixed : Term α) : Term α :=
  let summand := Chain.product.join t.factors
  .bin (if summand.withCoefficient.isNegation then .add else .sub) summand mixed

/-- Whether a square stands among the summands. -/
structure Square.StandsIn (I : Interpretation α F) (ts : List (Term α)) (s : Square α) : Prop where
  roots : ∀ r ∈ s.roots, r.NamesApart
  summand : ∃ t, ts[s.index]? = some t ∧ t.eval I.meaning = s.root I ^ 2

/-- Whether simplifying keeps the value of a term. -/
def SimplifiesAt (J : Cache α → Prop) (A : List String) (I : Interpretation α F)
    (simplify : Term α → Search α (Term α)) (t : Term α) : Prop :=
  Ensures J A (simplify t) fun u => u.NamesApart ∧ u.eval I.meaning = t.eval I.meaning

/-- Whether the searches that the rule starts keep values: the factors of a mixed term are merged to
their product, and what is to be left of a summand is simplified to its value. -/
structure KeepsMixedTerms (J : Cache α → Prop) (A : List String) (I : Interpretation α F)
    (find : Finder α) (simplify : Term α → Search α (Term α)) (ts : List (Term α)) : Prop where
  merges : ∀ p ∈ pairs (squares (ts.map Term.factors)), Ensures J A
    (mergeFactors find (p.1.mixed p.2))
    (Merged.Multiplies I NamesApart ((p.1.mixed p.2).map (eval I.meaning)).prod)
  simplifies : ∀ p ∈ pairs (squares (ts.map Term.factors)),
    ∀ mixed, Yields (doubleProduct find p.1 p.2) mixed →
      ∀ t ∈ ts, SimplifiesAt J A I simplify (leftOver t mixed)

section Sound

variable [Scalar.Legible α] [CharZero F] {I : Interpretation α F} (exact : I.FullyExact)
  (powers : I.IntegerPowers) {t u mixed left : Term α} {ts us factors square : List (Term α)}
  {s s' : Square α}

omit [Scalar.Legible α] [CharZero F] in
include powers in
theorem eval_square (hu : u.eval I.meaning = 2) :
    (Term.bin .pow t u).eval I.meaning = t.eval I.meaning ^ 2 := by
  have square := powers.power (x := t.eval I.meaning) (n := 2) (.inr zero_le_two)
  show I.power _ (u.eval I.meaning) = _
  rw [hu]
  exact_mod_cast square

/-! ## Roots -/

section Roots

include exact powers

theorem squareRoot_eval (ht : t.NamesApart)
    (hpower : t.power?.any (fun (_, e) => e.reads "2") = true) :
    (squareRoot t).NamesApart ∧ t.eval I.meaning = (squareRoot t).eval I.meaning ^ 2 := by
  obtain ⟨⟨base, exponent⟩, hp, reads⟩ := (Option.any_eq_true _ _).1 hpower
  obtain rfl := eq_pow_of_power? hp
  have two := ht.2.eval_of_reads_two exact reads
  have nonzero : I.number (Scalar.two : α) ≠ 0 := by
    rw [exact.two]
    exact two_ne_zero
  have half : I.number (exponent.number?.getD Scalar.two / Scalar.two) = 1 := by
    have number : I.number (exponent.number?.getD Scalar.two) = 2 := by
      cases hn : exponent.number? with
      | none => exact exact.two
      | some n => exact (eval_of_number? exact.toExact hn).symm.trans two
    rw [exact.div _ nonzero, number, exact.two, div_self two_ne_zero]
  refine ⟨⟨ht.1, trivial⟩, ?_⟩
  have root : (squareRoot (.bin .pow base exponent)).eval I.meaning = base.eval I.meaning := by
    show I.power _ (I.number (exponent.number?.getD Scalar.two / Scalar.two)) = _
    rw [half, powers.power_one]
  rw [root, eval_square powers two]

/-- The roots of the factors of a square multiply to its root. -/
theorem squareRoots_eval (names : ∀ f ∈ factors, f.NamesApart)
    (root : ExactRoot I (productOfNumbers factors))
    (hsquare : squareFactors? factors = some square) :
    (∀ r ∈ square.map squareRoot, r.NamesApart) ∧
      (factors.map (eval I.meaning)).prod =
        ((square.map squareRoot).map (eval I.meaning)).prod ^ 2 := by
  have powersOf {ts : List (Term α)} (names : ∀ t ∈ ts, t.NamesApart)
      (hpowers : ∀ t ∈ ts, t.power?.any (fun (_, e) => e.reads "2") = true) :
      (∀ r ∈ ts.map squareRoot, r.NamesApart) ∧ (ts.map (eval I.meaning)).prod =
        ((ts.map squareRoot).map (eval I.meaning)).prod ^ 2 := by
    induction ts with
    | nil => exact ⟨nofun, (one_pow 2).symm⟩
    | cons t ts ih =>
        obtain ⟨ht, hts⟩ := List.forall_mem_cons.1 names
        obtain ⟨first, hpowers⟩ := List.forall_mem_cons.1 hpowers
        obtain ⟨hroot, value⟩ := squareRoot_eval exact powers ht first
        obtain ⟨hroots, product⟩ := ih hts hpowers
        refine ⟨List.forall_mem_cons.2 ⟨hroot, hroots⟩, ?_⟩
        rw [List.map_cons, List.prod_cons, value, product, ← mul_pow]
        rfl
  obtain ⟨rfl, sign, places, hpowers⟩ := squareFactors?_some hsquare
  have others : ∀ t ∈ others factors, t.NamesApart := fun t ht => names t (List.mem_filter.1 ht).1
  obtain ⟨hroots, product⟩ := powersOf others hpowers
  refine ⟨List.forall_mem_cons.2 ⟨trivial, hroots⟩, ?_⟩
  rw [← prod_others exact.toExact factors, product, ← root sign places, ← mul_pow]
  rfl

theorem squares_stand (names : ∀ t ∈ ts, t.NamesApart)
    (roots : ∀ t ∈ ts, ExactRoot I (productOfNumbers t.factors))
    (hs : s ∈ squares (ts.map Term.factors)) : s.StandsIn I ts := by
  obtain ⟨p, hp, hs⟩ := List.mem_filterMap.1 hs
  obtain ⟨square, hsquare, rfl⟩ := Option.map_eq_some_iff.1 hs
  rw [List.mem_zipIdx_iff_getElem?, List.getElem?_map] at hp
  obtain ⟨t, ht, hfactors⟩ := Option.map_eq_some_iff.1 hp
  rw [← hfactors] at hsquare
  have mem := List.mem_of_getElem? ht
  obtain ⟨hroots, value⟩ :=
    squareRoots_eval exact powers (names t mem).factors (roots t mem) hsquare
  exact ⟨hroots, t, ht, (prod_factors t).symm.trans value⟩

end Roots

/-! ## Mixed terms -/

variable {J : Cache α → Prop} {A : List String} {find : Finder α}
  {simplify : Term α → Search α (Term α)}

include exact

omit [Scalar.Legible α] [CharZero F] in
theorem mixed_prod : ((s.mixed s').map (eval I.meaning)).prod = 2 * s.root I * s'.root I := by
  rw [Square.mixed, List.cons_append, List.map_cons, List.prod_cons, List.map_append,
    List.prod_append, ← mul_assoc]
  exact congrArg (· * _ * _) exact.two

omit [CharZero F] in
theorem doubleProduct_eval {x : F}
    (hmerge : Ensures J A (mergeFactors find (s.mixed s')) (Merged.Multiplies I NamesApart x)) :
    Ensures J A (doubleProduct find s s') fun t => t.eval I.meaning = x := by
  refine hmerge.bind fun merged hmerged => ?_
  rw [Merged.Multiplies] at hmerged
  split
  · rename_i settled hsettled
    rw [hsettled] at hmerged
    obtain ⟨hne, hmerged⟩ := hmerged
    cases settled with
    | nil => exact absurd rfl hne
    | cons t ts => exact .pure (hmerged t List.mem_cons_self).2
  · rename_i none
    rw [none] at hmerged
    have names : ∀ t ∈ .num merged.number :: merged.rest, t.NamesApart :=
      List.forall_mem_cons.2 ⟨trivial, hmerged.1⟩
    refine .pure ?_
    rw [NamesApart.prod_join exact names, List.map_cons, List.prod_cons]
    exact hmerged.2

include powers

omit [CharZero F] in
/-- Other summands, a square, and what is left of its mixed term, as the rule writes it. -/
theorem joinSquare_eval (names : ∀ t ∈ us, t.NamesApart) (hu : u.NamesApart)
    (hleft : left.NamesApart) :
    (Chain.sum.join (us ++ .bin .pow u (.num Scalar.two) ::
      if left.withExponents.negationsAsProducts.reads "0" then []
      else [left.withExponents.negationsAsProducts])).eval I.meaning =
        (us.map (eval I.meaning)).sum + (u.eval I.meaning ^ 2 + left.eval I.meaning) := by
  have square : (Term.bin .pow u (.num Scalar.two)).NamesApart := ⟨hu, trivial⟩
  have converted : left.withExponents.negationsAsProducts.NamesApart :=
    hleft.withExponents.negationsAsProducts
  have value : left.withExponents.negationsAsProducts.eval I.meaning = left.eval I.meaning :=
    (negationsAsProducts_eval exact.negOne _).trans (withExponents_eval powers.power_one left)
  have leftNames : ∀ t ∈ if left.withExponents.negationsAsProducts.reads "0" then []
      else [left.withExponents.negationsAsProducts], t.NamesApart := by
    split
    · exact nofun
    · exact List.forall_mem_singleton.2 converted
  have leftSum : ((if left.withExponents.negationsAsProducts.reads "0" then []
      else [left.withExponents.negationsAsProducts]).map (eval I.meaning)).sum =
        left.eval I.meaning := by
    rw [← value]
    split
    · rename_i zero
      exact (converted.eval_of_reads_zero exact zero).symm
    · exact List.sum_singleton
  rw [NamesApart.sum_join exact (List.forall_mem_append.2
    ⟨names, List.forall_mem_cons.2 ⟨square, leftNames⟩⟩), List.map_append, List.sum_append,
    List.map_cons, List.sum_cons, leftSum, eval_square powers (u := .num Scalar.two) exact.two]

omit exact powers [Scalar.Legible α] [CharZero F] in
/-- Two squares and another summand, taken out of the sum. -/
theorem sum_taken {z : Term α} {k : ℕ} (hs : s.StandsIn I ts) (hs' : s'.StandsIn I ts)
    (hz : ts[k]? = some z) (hne : s.index ≠ s'.index) (hk : k ≠ s.index) (hk' : k ≠ s'.index) :
    let others := ts.zipIdx.filterMap fun (t, l) =>
      if l = s.index ∨ l = s'.index ∨ l = k then none else some t
    others ⊆ ts ∧ (ts.map (eval I.meaning)).sum =
      s.root I ^ 2 + (s'.root I ^ 2 + (z.eval I.meaning + (others.map (eval I.meaning)).sum)) := by
  obtain ⟨x, hx, square⟩ := hs.summand
  obtain ⟨y, hy, square'⟩ := hs'.summand
  have taken := perm_three hx hy hz hne hk hk'
  refine ⟨fun t ht => taken.mem_iff.2 ?_, ?_⟩
  · exact List.mem_cons_of_mem x (List.mem_cons_of_mem y (List.mem_cons_of_mem z ht))
  · rw [(taken.map (eval I.meaning)).sum_eq, List.map_cons, List.sum_cons, List.map_cons,
      List.sum_cons, List.map_cons, List.sum_cons, square, square']

omit [CharZero F] in
theorem completeSquare_eval {summand : List (Term α) × ℕ} (names : ∀ t ∈ ts, t.NamesApart)
    (hs : s.StandsIn I ts) (hs' : s'.StandsIn I ts) (hne : s.index ≠ s'.index)
    (hmixed : mixed.eval I.meaning = 2 * s.root I * s'.root I)
    (hsimplify : ∀ t ∈ ts, SimplifiesAt J A I simplify (leftOver t mixed))
    (hsummand : summand ∈ (ts.map Term.factors).zipIdx) :
    Ensures J A (completeSquare simplify ts s s' mixed summand) fun us =>
      ∀ u ∈ us, u.eval I.meaning = (ts.map (eval I.meaning)).sum := by
  obtain ⟨factors, k⟩ := summand
  rw [List.mk_mem_zipIdx_iff_getElem?, List.getElem?_map] at hsummand
  obtain ⟨z, hz, rfl⟩ := Option.map_eq_some_iff.1 hsummand
  have mem := List.mem_of_getElem? hz
  have none : Ensures J A (pure [] : Search α (List (Term α))) fun us =>
      ∀ u ∈ us, u.eval I.meaning = (ts.map (eval I.meaning)).sum := .pure nofun
  have term : (Chain.product.join z.factors).eval I.meaning = z.eval I.meaning := by
    rw [NamesApart.prod_join exact (names z mem).factors, prod_factors]
  have root : (Chain.product.join s.roots).eval I.meaning = s.root I :=
    NamesApart.prod_join exact hs.roots
  have root' : (Chain.product.join s'.roots).eval I.meaning = s'.root I :=
    NamesApart.prod_join exact hs'.roots
  have apart (op : Operator) :
      (Term.bin op (Chain.product.join s.roots) (Chain.product.join s'.roots)).NamesApart :=
    ⟨NamesApart.join hs.roots, NamesApart.join hs'.roots⟩
  rw [completeSquare]
  split
  · exact none
  · rename_i other
    rw [not_or] at other
    obtain ⟨others, total⟩ := sum_taken hs hs' hz hne other.1 other.2
    have rest := fun t ht => names t (others ht)
    -- The sign of the summand tells which of the binomials its mixed term belongs to.
    have simplified := hsimplify z mem
    simp only [SimplifiesAt, leftOver] at simplified ⊢
    generalize (Chain.product.join z.factors).withCoefficient.isNegation = negative at simplified ⊢
    cases negative with
    | true =>
        refine simplified.bind fun left kept => ?_
        obtain ⟨hleft, value⟩ := kept
        split
        · exact none
        · have square := joinSquare_eval exact powers rest (apart .sub) hleft
          refine .pure (List.forall_mem_singleton.2 (square.trans ?_))
          rw [value, total]
          show _ + ((_ - _) ^ 2 + (_ + _)) = _
          rw [root, root', term, hmixed]
          ring
    | false =>
        refine simplified.bind fun left kept => ?_
        obtain ⟨hleft, value⟩ := kept
        split
        · exact none
        · have square := joinSquare_eval exact powers rest (apart .add) hleft
          refine .pure (List.forall_mem_singleton.2 (square.trans ?_))
          rw [value, total]
          show _ + ((_ + _) ^ 2 + (_ - _)) = _
          rw [root, root', term, hmixed]
          ring

/-- Binomial squares are written soundly: every sum that the rule returns has the value of the summands,
none of which is lost, used twice or given the wrong sign.  No variable may be written as a number that
the rule looks for. -/
theorem binomials_eval (names : ∀ t ∈ ts, t.NamesApart)
    (roots : ∀ t ∈ ts, ExactRoot I (productOfNumbers t.factors))
    (nested : KeepsMixedTerms J A I find simplify ts) :
    Ensures J A (binomials find simplify ts (ts.map Term.factors)) fun us =>
      ∀ u ∈ us, u.eval I.meaning = (ts.map (eval I.meaning)).sum := by
  refine .gather fun p hp => ?_
  obtain ⟨hl, hr, hne⟩ := pairs_of_pairwise (squares_pairwise _) hp
  have hs := squares_stand exact powers names roots hl
  have hs' := squares_stand exact powers names roots hr
  refine (doubleProduct_eval exact (nested.merges p hp)).yields.bind ?_
  intro mixed ⟨value, hmixed⟩
  refine .gather fun summand hsummand => ?_
  exact completeSquare_eval exact powers names hs hs' hne (value.trans (mixed_prod exact))
    (nested.simplifies p hp mixed hmixed) hsummand

end Sound

/-- The rule takes no other roots of rational numbers. -/
theorem reals_exactRoot (var : String → ℝ) (call : Keyword → ℝ → ℝ) (n : ℚ) :
    ExactRoot (.reals var call) n := by
  intro sign places
  have root : (Scalar.sqrt n : ℚ) ^ 2 = n := Scalar.Exact.value_sqrt sign places
  show ((Scalar.sqrt n : ℚ) : ℝ) ^ 2 = n
  rw [← Rat.cast_pow, root]

/-- Answers a term with its product with one. -/
def timesOne (t : Term ℚ) : Search ℚ (Term ℚ) := pure (.bin .mul (.num Scalar.one) t)

theorem timesOne_eval (J : Cache ℚ → Prop) (A : List String) (I : Interpretation ℚ ℝ)
    (t : Term ℚ) : Ensures J A (timesOne t) fun u =>
      (t.NamesApart → u.NamesApart) ∧ u.eval I.meaning = t.eval I.meaning := by
  refine .pure ⟨fun h => ⟨trivial, h⟩, ?_⟩
  show I.number (Scalar.ofNat 1) * t.eval I.meaning = _
  rw [I.number_one, one_mul]

/-- `4*a^2`, `7`, `-4*a*b` and `b^2`. -/
def squareSummands : List (Term ℚ) :=
  [.bin .mul (.num 4) (variablePower "a" 2), .num 7,
    .bin .mul (.bin .mul (.num (-4)) (.var "a" none)) (.var "b" none), variablePower "b" 2]

/-- `-4*a*b+(2*a^1+b^1)^2+1*(7-4*a^1*b^1)` and `7+(2*a^1-b^1)^2+1*(-4*a^1*b^1+4*a^1*b^1)`. -/
def completedSquares : List (Term ℚ) :=
  let mixed := Term.bin .mul (.bin .mul (.num 4) (variablePower "a" 1)) (variablePower "b" 1)
  let square (op : Operator) := Term.bin .pow
    (.bin op (.bin .mul (.num 2) (variablePower "a" 1)) (variablePower "b" 1)) (.num 2)
  [.bin .add (.bin .add
      (.bin .mul (.bin .mul (.num (-4)) (.var "a" none)) (.var "b" none)) (square .add))
      (.bin .mul (.num 1) (.bin .sub (.num 7) mixed)),
    .bin .add (.bin .add (.num 7) (square .sub)) (.bin .mul (.num 1) (.bin .add
      (.bin .mul (.bin .mul (.num (-4)) (variablePower "a" 1)) (variablePower "b" 1)) mixed))]

theorem binomials_eval_completed :
    (binomials echo timesOne squareSummands (squareSummands.map Term.factors)).run .start =
        (.ok completedSquares, .start) ∧
      ∀ var : String → ℝ, ∀ u ∈ completedSquares,
        let I := Interpretation.reals var fun _ x => x
        u.eval I.meaning = (squareSummands.map (eval I.meaning)).sum := by
  have run : (binomials echo timesOne squareSummands (squareSummands.map Term.factors)).run
      .start = (.ok completedSquares, .start) := by
    with_unfolding_all rfl
  refine ⟨run, fun var => ?_⟩
  let I := Interpretation.reals var fun _ x => x
  have exact : I.FullyExact := Interpretation.reals_fullyExact _ _
  have powers : I.IntegerPowers := Interpretation.reals_integerPowers _ _
  have names : ∀ t ∈ squareSummands, t.NamesApart := by decide
  -- The only two squares, and what their mixed term is merged and joined to
  let s : Square ℚ := ⟨0, [.num 2, variablePower "a" 1]⟩
  let s' : Square ℚ := ⟨3, [.num 1, variablePower "b" 1]⟩
  have found : pairs (squares (squareSummands.map Term.factors)) = [(s, s')] := by
    with_unfolding_all rfl
  have merged : mergeFactors echo (s.mixed s') =
      pure ⟨4, [variablePower "a" 1, variablePower "b" 1], none⟩ := by
    with_unfolding_all rfl
  have joined : doubleProduct echo s s' =
      pure (.bin .mul (.bin .mul (.num 4) (variablePower "a" 1)) (variablePower "b" 1)) := by
    with_unfolding_all rfl
  have nested : KeepsMixedTerms (fun _ => True) [] I echo timesOne squareSummands := by
    constructor
    · rw [found]
      refine List.forall_mem_singleton.2 ?_
      rw [merged]
      refine .pure ⟨by decide, ?_⟩
      let a := (variablePower "a" 1).eval I.meaning
      let b := (variablePower "b" 1).eval I.meaning
      show ((4 : ℚ) : ℝ) * (a * (b * 1)) =
        ((2 : ℕ) : ℚ) * (((2 : ℚ) : ℝ) * (a * (((1 : ℚ) : ℝ) * (b * 1))))
      push_cast
      ring
    · rw [found]
      refine List.forall_mem_singleton.2 fun mixed ⟨_, _, hmixed⟩ t ht => ?_
      rw [joined] at hmixed
      cases hmixed
      exact (timesOne_eval _ _ I _).mono fun u h =>
        ⟨h.1 ⟨NamesApart.join (names t ht).factors, by decide⟩, h.2⟩
  exact (binomials_eval exact powers names (fun t _ => reals_exactRoot _ _ _) nested .start rfl
    trivial _ _ run).1

/-- `30`, `3^x` and `5^x`, where the variable is called `2`. -/
def namedExponents : List (Term ℚ) :=
  [.num 30, .bin .pow (.num 3) (.var "2" none), .bin .pow (.num 5) (.var "2" none)]

/-- `(3^1+5^1)^2+1*(30-2*3^1*5^1)`. -/
def misreadSquare : Term ℚ :=
  .bin .add
    (.bin .pow (.bin .add (.bin .pow (.num 3) (.num 1)) (.bin .pow (.num 5) (.num 1))) (.num 2))
    (.bin .mul (.num 1) (.bin .sub (.num 30)
      (.bin .mul (.bin .mul (.num 2) (.bin .pow (.num 3) (.num 1))) (.bin .pow (.num 5) (.num 1)))))

/-- A variable that is written as a number is taken for the number: `3^x` and `5^x` become squares, and
the sum has another value where `x` is not two, although roots are exact and all searches keep values. -/
theorem binomials_misread :
    let I := Interpretation.reals (fun _ => 3) fun _ x => x
    (∀ n, ExactRoot I n) ∧
      (∀ t, Ensures (fun _ => True) [] (echo t) fun us =>
        us ≠ [] ∧ ∀ u ∈ us, u.eval I.meaning = t.eval I.meaning) ∧
      (∀ t, Ensures (fun _ => True) [] (timesOne t) fun u =>
        u.eval I.meaning = t.eval I.meaning) ∧
      (∀ p ∈ pairs (squares (namedExponents.map Term.factors)),
        Ensures (fun _ => True) [] (mergeFactors echo (p.1.mixed p.2)) (Merged.Multiplies I
          (fun _ => True) ((p.1.mixed p.2).map (eval I.meaning)).prod)) ∧
      (binomials echo timesOne namedExponents (namedExponents.map Term.factors)).run .start =
        (.ok [misreadSquare], .start) ∧
      misreadSquare.eval I.meaning ≠ (namedExponents.map (eval I.meaning)).sum := by
  intro I
  refine ⟨reals_exactRoot _ _, fun t => .pure ⟨List.cons_ne_nil _ _, ?_⟩,
    fun t => (timesOne_eval _ _ I t).mono fun u h => h.2, ?_, by with_unfolding_all rfl, ?_⟩
  · exact List.forall_mem_singleton.2 rfl
  · let s : Square ℚ := ⟨1, [.num 1, .bin .pow (.num 3) (.num 1)]⟩
    let s' : Square ℚ := ⟨2, [.num 1, .bin .pow (.num 5) (.num 1)]⟩
    have found : pairs (squares (namedExponents.map Term.factors)) = [(s, s')] := by
      with_unfolding_all rfl
    have merged : mergeFactors echo (s.mixed s') =
        pure ⟨2, [.bin .pow (.num 3) (.num 1), .bin .pow (.num 5) (.num 1)], none⟩ := by
      with_unfolding_all rfl
    rw [found]
    refine List.forall_mem_singleton.2 ?_
    rw [merged]
    refine .pure ⟨fun _ _ => trivial, ?_⟩
    let x := (Term.bin .pow (.num 3) (.num 1)).eval I.meaning
    let y := (Term.bin .pow (.num 5) (.num 1)).eval I.meaning
    show ((2 : ℚ) : ℝ) * (x * (y * 1)) =
      ((2 : ℕ) : ℚ) * (((1 : ℚ) : ℝ) * (x * (((1 : ℚ) : ℝ) * (y * 1))))
    push_cast
    ring
  · have square : misreadSquare.eval I.meaning = 64 := by
      show ((((3 : ℚ) : ℝ) ^ ((1 : ℚ) : ℝ) + ((5 : ℚ) : ℝ) ^ ((1 : ℚ) : ℝ)) ^ ((2 : ℚ) : ℝ) +
        ((1 : ℚ) : ℝ) * (((30 : ℚ) : ℝ) - ((2 : ℚ) : ℝ) * ((3 : ℚ) : ℝ) ^ ((1 : ℚ) : ℝ) *
          ((5 : ℚ) : ℝ) ^ ((1 : ℚ) : ℝ)) : ℝ) = 64
      norm_num
    have sum : (namedExponents.map (eval I.meaning)).sum = 182 := by
      show (((30 : ℚ) : ℝ) + (((3 : ℚ) : ℝ) ^ (3 : ℝ) + (((5 : ℚ) : ℝ) ^ (3 : ℝ) + 0)) : ℝ) = 182
      norm_num
    rw [square, sum]
    norm_num

end AlgebraicTerms.Search
