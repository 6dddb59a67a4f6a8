import AlgebraicTerms.Proofs.Search.Run
import AlgebraicTerms.Proofs.Term.Conversions
import AlgebraicTerms.Proofs.Term.Division
import AlgebraicTerms.Search.Product

/-!
# Powers of the same base are merged

After powers of the same base are merged, every base is left in one power only and every factor that is
no power still stands where it was among them.  This needs nothing of the search that adds the exponents.
If that keeps values, so does merging (`mergePowers_product`), as long as no base is zero.
-/

namespace AlgebraicTerms

namespace Term

variable {α : Type} [Scalar α]

/-- The texts of the bases of all powers. -/
def baseTexts (ts : List (Term α)) : List String :=
  ts.filterMap fun t => t.power?.map fun p => p.1.text

theorem baseTexts_append (ts us : List (Term α)) :
    baseTexts (ts ++ us) = baseTexts ts ++ baseTexts us := List.filterMap_append

theorem baseTexts_cons (t : Term α) (ts : List (Term α)) :
    baseTexts (t :: ts) = baseTexts [t] ++ baseTexts ts := baseTexts_append [t] ts

theorem isPower_of_baseTexts {t : Term α} {base : String} (h : baseTexts [t] = [base]) :
    t.isPower = true := by
  rw [isPower]
  cases ht : t.power? with
  | none => simp [baseTexts, ht] at h
  | some p => rfl

end Term

namespace Search

open Term

variable {α : Type} [Scalar α] {find : Finder α} {t u base m : Term α} {ts us : List (Term α)}

/-! ## What is left -/

/-- What comes of a power of a base and another factor, where only powers of the same base are merged. -/
def PairOutcome.OfSameBase (base u : Term α) : PairOutcome α → Prop
  | apart => base.text ∉ baseTexts [u]
  | cancelled => u.isPower = true
  | merged t => u.isPower = true ∧ ∃ exponent, t = .bin .pow base exponent

theorem mergePair_sameBase (u : Term α) (ht : t.power? = some (base, m)) :
    Returns (mergePair find true t u) (PairOutcome.OfSameBase base u) := by
  rw [mergePair, ht]
  cases hu : u.power? with
  | none =>
      refine .pure ?_
      show base.text ∉ baseTexts [u]
      simp [baseTexts, hu]
  | some p =>
      obtain ⟨base', n⟩ := p
      have power : u.isPower = true := by rw [isPower, hu]; rfl
      dsimp only
      by_cases same : (base == base') = true
      · rw [if_pos same]
        refine (Returns.any (first find (.bin .add m n))).bind fun exponent _ => .pure ?_
        split
        · exact power
        · exact ⟨power, exponent, rfl⟩
      · rw [if_neg same, if_pos rfl]
        refine .pure ?_
        have apart : base.text ≠ base'.text := fun h => same (beq_iff.2 h)
        show base.text ∉ baseTexts [u]
        simpa [baseTexts, hu] using apart

/-- What becomes of a power of a base and of the factors after it.  Unless the power cancelled, no other
power of the base is left. -/
structure Absorbed (base : String) (ts : List (Term α))
    (result : Option (Term α) × List (Term α)) : Prop where
  left : result.2.Sublist ts
  others : result.2.filter (!·.isPower) = ts.filter (!·.isPower)
  power : ∀ t ∈ result.1, baseTexts [t] = [base] ∧ base ∉ baseTexts result.2

theorem absorb_sameBase (ts : List (Term α)) (ht : t.power? = some (base, m)) :
    Returns (absorb find true t ts) (Absorbed base.text ts) := by
  induction ts generalizing t m with
  | nil =>
      refine .pure ⟨.refl _, rfl, fun u hu => ?_⟩
      obtain rfl := Option.mem_some.1 hu
      simp [baseTexts, ht]
  | cons u ts ih =>
      rw [absorb]
      refine (mergePair_sameBase u ht).bind fun outcome houtcome => ?_
      cases outcome with
      | apart =>
          have other : base.text ∉ baseTexts [u] := houtcome
          refine (ih ht).bind fun result hresult => .pure ⟨hresult.left.cons_cons u, ?_, fun v hv => ?_⟩
          · rw [List.filter_cons, List.filter_cons, hresult.others]
          · obtain ⟨own, gone⟩ := hresult.power v hv
            refine ⟨own, ?_⟩
            rw [baseTexts_cons, List.mem_append, not_or]
            exact ⟨other, gone⟩
      | cancelled =>
          have power : u.isPower = true := houtcome
          refine .pure ⟨List.sublist_cons_self u ts, ?_, nofun⟩
          rw [List.filter_cons_of_neg (by simp [power])]
      | merged v =>
          obtain ⟨power, exponent, rfl⟩ := houtcome
          refine (ih rfl).mono fun result hresult =>
            ⟨hresult.left.cons u, ?_, hresult.power⟩
          rw [List.filter_cons_of_neg (by simp [power])]
          exact hresult.others

theorem mergePowersWithin_sameBase {rounds : ℕ} (enough : ts.length ≤ rounds) :
    Returns (mergePowersWithin find true rounds ts) fun us => (baseTexts us).Nodup ∧
      baseTexts us ⊆ baseTexts ts ∧ us.filter (!·.isPower) = ts.filter (!·.isPower) := by
  induction rounds generalizing ts with
  | zero =>
      rw [List.eq_nil_of_length_eq_zero (Nat.le_zero.1 enough)]
      exact .pure ⟨.nil, List.Subset.refl _, rfl⟩
  | succ rounds ih =>
      cases ts with
      | nil => exact .pure ⟨.nil, List.Subset.refl _, rfl⟩
      | cons t ts =>
          have fewer : ts.length ≤ rounds := Nat.le_of_succ_le_succ enough
          rw [mergePowersWithin]
          cases ht : t.power? with
          | none =>
              have plain : t.isPower = false := by rw [isPower, ht]; rfl
              have none : baseTexts [t] = [] := by simp [baseTexts, ht]
              have bases (us : List (Term α)) : baseTexts (t :: us) = baseTexts us := by
                rw [baseTexts_cons, none, List.nil_append]
              rw [plain, if_neg Bool.false_ne_true]
              refine (ih fewer).bind fun us ⟨nodup, subset, others⟩ => .pure ?_
              rw [bases, bases, List.filter_cons, List.filter_cons, others]
              exact ⟨nodup, subset, rfl⟩
          | some p =>
              obtain ⟨base, m⟩ := p
              have power : t.isPower = true := by rw [isPower, ht]; rfl
              have own : baseTexts [t] = [base.text] := by simp [baseTexts, ht]
              rw [if_pos power]
              refine (absorb_sameBase ts ht).bind fun result absorbed => ?_
              refine (ih (absorbed.left.length_le.trans fewer)).bind ?_
              intro us ⟨nodup, subset, others⟩
              have bases : baseTexts us ⊆ baseTexts (t :: ts) := fun b hb => by
                rw [baseTexts_cons]
                exact List.mem_append_right _ ((absorbed.left.filterMap _).subset (subset hb))
              have plain : us.filter (!·.isPower) = (t :: ts).filter (!·.isPower) := by
                rw [others, absorbed.others, List.filter_cons_of_neg (by simp [power])]
              obtain ⟨result, left⟩ := result
              cases result with
              | none => exact .pure ⟨nodup, bases, plain⟩
              | some v =>
                  obtain ⟨merged, gone⟩ := absorbed.power v rfl
                  have whole : baseTexts (v :: us) = base.text :: baseTexts us := by
                    rw [baseTexts_cons, merged]
                    rfl
                  refine .pure ⟨?_, ?_, ?_⟩
                  · show (baseTexts (v :: us)).Nodup
                    rw [whole]
                    exact List.nodup_cons.2 ⟨fun h => gone (subset h), nodup⟩
                  · show baseTexts (v :: us) ⊆ baseTexts (t :: ts)
                    rw [whole, List.cons_subset, baseTexts_cons, own]
                    exact ⟨List.mem_cons_self, by rwa [baseTexts_cons, own] at bases⟩
                  · show (v :: us).filter (!·.isPower) = _
                    rw [List.filter_cons_of_neg (by simp [isPower_of_baseTexts merged]), plain]

/-! ## Values -/

section Values

variable {M : Type*} [CommMonoid M] {J : Cache α → Prop} {A : List String} {sameBase : Bool}
  {Good : Term α → Prop} {value : Term α → M}

/-- Whether two factors with the given product have an outcome with that product. -/
def PairOutcome.Keeps (Good : Term α → Prop) (value : Term α → M) (x : M) : PairOutcome α → Prop
  | apart => True
  | cancelled => x = 1
  | merged t => Good t ∧ value t = x

omit [Scalar α] in
theorem keeps_apart {x : M} :
    Ensures J A (pure .apart : Search α (PairOutcome α)) (PairOutcome.Keeps Good value x) :=
  .pure trivial

variable (pair : ∀ t u, Good t → Good u →
  Ensures J A (mergePair find sameBase t u) (PairOutcome.Keeps Good value (value t * value u)))

include pair

theorem absorb_product (ht : Good t) (hts : ∀ u ∈ ts, Good u) :
    Ensures J A (absorb find sameBase t ts) fun result =>
      (∀ u ∈ result.1.toList ++ result.2, Good u) ∧
        ((result.1.toList ++ result.2).map value).prod = value t * (ts.map value).prod := by
  induction ts generalizing t with
  | nil =>
      refine .pure ⟨fun u hu => ?_, ?_⟩
      · rw [List.mem_singleton.1 hu]
        exact ht
      · simp
  | cons u ts ih =>
      obtain ⟨hu, hts⟩ := List.forall_mem_cons.1 hts
      rw [absorb, List.map_cons, List.prod_cons, ← mul_assoc]
      refine (pair t u ht hu).bind fun outcome houtcome => ?_
      cases outcome with
      | apart =>
          refine (ih ht hts).bind fun result ⟨good, product⟩ => .pure ⟨?_, ?_⟩
          · intro v hv
            rw [List.mem_append, List.mem_cons] at hv
            rcases hv with hv | rfl | hv
            · exact good v (List.mem_append_left _ hv)
            · exact hu
            · exact good v (List.mem_append_right _ hv)
          · rw [List.map_append, List.prod_append] at product ⊢
            rw [List.map_cons, List.prod_cons, mul_left_comm, product, mul_left_comm, mul_assoc]
      | cancelled =>
          have one : value t * value u = 1 := houtcome
          rw [one, one_mul]
          exact .pure ⟨hts, rfl⟩
      | merged v =>
          obtain ⟨hv, product⟩ : Good v ∧ value v = value t * value u := houtcome
          rw [← product]
          dsimp only
          split
          · exact ih hv hts
          · exact .pure ⟨List.forall_mem_cons.2 ⟨hv, hts⟩, rfl⟩

/-- If every pair that is merged keeps its product, the product of all factors is kept. -/
theorem mergePowers_product (hts : ∀ t ∈ ts, Good t) :
    Ensures J A (mergePowers find sameBase ts) fun us =>
      (∀ u ∈ us, Good u) ∧ (us.map value).prod = (ts.map value).prod := by
  have within (rounds : ℕ) : Ensures J A (mergePowersWithin find sameBase rounds ts) fun us =>
      (∀ u ∈ us, Good u) ∧ (us.map value).prod = (ts.map value).prod := by
    induction rounds generalizing ts with
    | zero => exact .pure ⟨hts, rfl⟩
    | succ rounds ih =>
        cases ts with
        | nil => exact .pure ⟨hts, rfl⟩
        | cons t ts =>
            obtain ⟨ht, hts⟩ := List.forall_mem_cons.1 hts
            rw [mergePowersWithin]
            split
            · refine (absorb_product pair ht hts).bind fun result ⟨good, product⟩ => ?_
              have left := fun u hu => good u (List.mem_append_right _ hu)
              refine (ih left).bind fun us ⟨hus, rest⟩ => .pure ⟨?_, ?_⟩
              · exact List.forall_mem_append.2
                  ⟨fun u hu => good u (List.mem_append_left _ hu), hus⟩
              · rw [List.map_append, List.prod_append, rest, ← List.prod_append, ← List.map_append,
                  product, List.map_cons, List.prod_cons]
            · refine (ih hts).bind fun us ⟨hus, rest⟩ => .pure ⟨?_, ?_⟩
              · exact List.forall_mem_cons.2 ⟨ht, hus⟩
              · rw [List.map_cons, List.prod_cons, rest, List.map_cons, List.prod_cons]
  exact within ts.length

end Values

/-- Merging powers of the same base is complete: every base is left in one power, and the factors that
are no powers are left in their order.  It keeps the product, wherever the bases are not zero and those
that are written alike have one value, if adding exponents by the search does: it keeps the sum, and
writes only zero as `0`.  The exponents may be of any class that the search does not leave. -/
theorem mergePowers_sameBase (find : Finder α) (ts : List (Term α)) :
    Returns (mergePowers find true ts) (fun us =>
      (baseTexts us).Nodup ∧ us.filter (!·.isPower) = ts.filter (!·.isPower)) ∧
    ∀ {F : Type*} [Field F] {I : Interpretation α F} (P : I.PowerLaws) {J : Cache α → Prop}
      {A : List String} {Exponent : Term α → Prop},
      (∀ m n, Exponent m → Exponent n → Ensures J A (first find (.bin .add m n)) fun e =>
        Exponent e ∧ e.eval I.meaning = (Term.bin .add m n).eval I.meaning ∧
          (e.reads "0" = true → e.eval I.meaning = 0)) →
      (∀ p ∈ ts.filterMap power?, Exponent p.2 ∧ p.1.eval I.meaning ≠ 0 ∧
        P.Admits (p.1.eval I.meaning) (p.2.eval I.meaning)) →
      (∀ p ∈ ts.filterMap power?, ∀ q ∈ ts.filterMap power?, p.1.text = q.1.text →
        p.1.eval I.meaning = q.1.eval I.meaning) →
      Ensures J A (mergePowers find true ts) fun us =>
        (us.map (eval I.meaning)).prod = (ts.map (eval I.meaning)).prod := by
  refine ⟨(mergePowersWithin_sameBase (Nat.le_refl _)).mono fun us h => ⟨h.1, h.2.2⟩, ?_⟩
  intro F _ I P J A Exponent hfirst defined faithful
  -- a power that may be merged: its base is one of the bases before
  let Good (t : Term α) : Prop := ∀ base m, t.power? = some (base, m) → Exponent m ∧
    P.Admits (base.eval I.meaning) (m.eval I.meaning) ∧ ∃ n, (base, n) ∈ ts.filterMap power?
  have pair (t u : Term α) (ht : Good t) (hu : Good u) : Ensures J A (mergePair find true t u)
      (PairOutcome.Keeps Good (eval I.meaning) (t.eval I.meaning * u.eval I.meaning)) := by
    rw [mergePair]
    split
    · rename_i base m base' n hpt hpu
      split
      · rename_i same
        obtain ⟨hm, admits, k, own⟩ := ht base m hpt
        obtain ⟨hn, admits', l, own'⟩ := hu base' n hpu
        obtain rfl := eq_pow_of_power? hpt
        obtain rfl := eq_pow_of_power? hpu
        have bases := faithful _ own _ own' (beq_iff.1 same)
        have nonzero := (defined _ own).2.1
        dsimp only at bases nonzero
        rw [← bases] at admits'
        have product : (Term.bin .pow base m).eval I.meaning * (Term.bin .pow base' n).eval I.meaning =
            I.power (base.eval I.meaning) ((Term.bin .add m n).eval I.meaning) := by
          show I.power _ _ * I.power _ _ = I.power _ (_ + _)
          rw [← bases, P.power_add nonzero admits admits']
        rw [product]
        refine (hfirst m n hm hn).bind fun e ⟨he, sum, zero⟩ => .pure ?_
        split
        · rename_i none
          show I.power _ _ = 1
          rw [← sum, zero none, P.power_zero]
        · refine ⟨fun b k hb => ?_, congrArg (I.power _) sum⟩
          cases hb
          refine ⟨he, ?_, _, own⟩
          rw [sum]
          exact P.admits_add nonzero admits admits'
      · exact keeps_apart
    · exact keeps_apart
  have good : ∀ t ∈ ts, Good t := by
    intro t ht base m hp
    have mem : (base, m) ∈ ts.filterMap power? := List.mem_filterMap.2 ⟨t, ht, hp⟩
    exact ⟨(defined _ mem).1, (defined _ mem).2.2, m, mem⟩
  exact (mergePowers_product pair good).mono fun us h => h.2

/-- Adds numbers, and leaves other terms as they are. -/
def addNumbers : Finder ℚ
  | .bin .add (.num m) (.num n) => pure [.num (m + n)]
  | t => pure [t]

/-- `x^2`, `b`, `y^3`, `x^(-2)`, `y^1` and `x^4`, where `x` cancels before it comes again. -/
def cancellingPowers : List (Term ℚ) :=
  [variablePower "x" 2, .var "b" none, variablePower "y" 3, variablePower "x" (-2),
    variablePower "y" 1, variablePower "x" 4]

theorem mergePowers_sameBase_cancelling :
    (mergePowers addNumbers true cancellingPowers).run .start =
        (.ok [.var "b" none, variablePower "y" 4, variablePower "x" 4], .start) ∧
      ∀ var : String → ℝ, 0 < var "x" → 0 < var "y" →
        let I := Interpretation.reals var fun _ x => x
        ([.var "b" none, variablePower "y" 4, variablePower "x" 4].map (eval I.meaning)).prod =
          (cancellingPowers.map (eval I.meaning)).prod := by
  have run : (mergePowers addNumbers true cancellingPowers).run .start =
      (.ok [.var "b" none, variablePower "y" 4, variablePower "x" 4], .start) := by
    with_unfolding_all rfl
  refine ⟨run, fun var hx hy => ?_⟩
  let I := Interpretation.reals var fun _ x => x
  have exact := Interpretation.reals_exact var fun _ x => x
  have powers : cancellingPowers.filterMap power? =
      [(.var "x" none, .num 2), (.var "y" none, .num 3), (.var "x" none, .num (-2)),
        (.var "y" none, .num 1), (.var "x" none, .num 4)] := rfl
  have bases : ∀ p ∈ cancellingPowers.filterMap power?,
      (p.1.Legible ∧ p.1.ClearRemainders) ∧ 0 < p.1.eval I.meaning ∧ ∃ q, p.2 = .num q := by
    rw [powers]
    intro p hp
    fin_cases hp
    all_goals refine ⟨⟨⟨by decide, rfl, rfl, nofun⟩, trivial⟩, ?_, _, rfl⟩
    all_goals assumption
  have sums (m n : Term ℚ) (hm : ∃ q, m = .num q) (hn : ∃ q, n = .num q) :
      Ensures (fun _ => True) [] (first addNumbers (.bin .add m n)) fun e => (∃ q, e = .num q) ∧
        e.eval I.meaning = (Term.bin .add m n).eval I.meaning ∧
          (e.reads "0" = true → e.eval I.meaning = 0) := by
    obtain ⟨p, rfl⟩ := hm
    obtain ⟨q, rfl⟩ := hn
    have sum : first addNumbers (.bin .add (.num p) (.num q)) = pure (.num (p + q)) := rfl
    rw [sum]
    exact .pure ⟨⟨_, rfl⟩, Rat.cast_add p q, eval_of_reads_zero exact rfl⟩
  refine ((mergePowers_sameBase addNumbers cancellingPowers).2 (Interpretation.realPowers var _)
    sums ?_ ?_ .start rfl trivial _ _ run).1
  · intro p hp
    obtain ⟨_, positive, number⟩ := bases p hp
    exact ⟨number, positive.ne', .inl positive⟩
  · intro p hp q hq
    exact Faithful.of_legible I _ _ (bases p hp).1 (bases q hq).1

/-- Leaves out a first summand that is zero, and leaves other terms as they are. -/
def withoutZero : Finder ℚ
  | .bin .add (.num n) t => pure [if n = 0 then t else .bin .add (.num n) t]
  | t => pure [t]

theorem first_withoutZero (J : Cache ℚ → Prop) (A : List String) (I : Interpretation ℚ ℝ)
    (exact : I.FullyExact) (t : Term ℚ) : Ensures J A (first withoutZero t) fun u =>
      u.eval I.meaning = t.eval I.meaning := by
  fun_cases withoutZero t with
  | case1 n t =>
      have answer : first withoutZero (.bin .add (.num n) t) =
          pure (if n = 0 then t else .bin .add (.num n) t) := rfl
      rw [answer]
      refine .pure ?_
      split
      · rename_i zero
        rw [zero]
        have sum : I.number (Scalar.ofNat 0) + t.eval I.meaning = t.eval I.meaning := by
          rw [exact.zero, zero_add]
        exact sum.symm
      · rfl
  | case2 t other =>
      have answer : first withoutZero t = pure t := by
        rw [first, withoutZero]
        · rfl
        · exact other
      rw [answer]
      exact .pure rfl

/-- `x^0` and `x^y`, where the variable `y` is called `0`. -/
def namedExponent : List (Term ℚ) :=
  [variablePower "x" 0, .bin .pow (.var "x" none) (.var "0" none)]

/-- A sum of exponents that is written as zero is taken for zero: a variable that is written so is lost
with its power, although the search keeps values and both bases are the same. -/
theorem mergePowers_misread :
    let I := Interpretation.reals (fun name => if name = "0" then 3 else 2) fun _ x => x
    (∀ t, Ensures (fun _ => True) [] (first withoutZero t) fun u =>
        u.eval I.meaning = t.eval I.meaning) ∧
      (∀ p ∈ namedExponent.filterMap power?, p.1 = .var "x" none ∧ p.1.eval I.meaning = 2) ∧
      (mergePowers withoutZero true namedExponent).run .start = (.ok [], .start) ∧
      (([] : List (Term ℚ)).map (eval I.meaning)).prod ≠
        (namedExponent.map (eval I.meaning)).prod := by
  intro I
  have base : (Term.var (α := ℚ) "x" none).eval I.meaning = 2 := by
    show (if "x" = "0" then (3 : ℝ) else 2) = 2
    rw [if_neg (by decide)]
  have exponent : (Term.var (α := ℚ) "0" none).eval I.meaning = 3 := by
    show (if "0" = "0" then (3 : ℝ) else 2) = 3
    rw [if_pos rfl]
  refine ⟨first_withoutZero _ _ I (Interpretation.reals_fullyExact _ _), ?_,
    by with_unfolding_all rfl, ?_⟩
  · have powers : namedExponent.filterMap power? =
        [(.var "x" none, .num 0), (.var "x" none, .var "0" none)] := rfl
    rw [powers]
    intro p hp
    fin_cases hp
    all_goals exact ⟨rfl, base⟩
  · show (1 : ℝ) ≠ (Term.var (α := ℚ) "x" none).eval I.meaning ^ ((0 : ℚ) : ℝ) *
      ((Term.var (α := ℚ) "x" none).eval I.meaning ^
        (Term.var (α := ℚ) "0" none).eval I.meaning * 1)
    rw [base, exponent]
    norm_num

end Search

end AlgebraicTerms
