import AlgebraicTerms.Proofs.Search.Run
import AlgebraicTerms.Proofs.Term.Conversions
import AlgebraicTerms.Search.Sum

/-!
# Like terms are grouped

Collecting like terms goes over the summands many times, and takes the sum of a pile away and brings it
back as coefficients cancel.  What comes of it is a grouping: the summands are grouped by the text of
their factors other than numbers, in the order of the first of each group, and every group is added up
at once (`collect_eq`).  This is so unless two summands are joined by an identity.
-/

namespace AlgebraicTerms

namespace Term

variable {α : Type} [Scalar α] {t u : Term α} {ts us : List (Term α)}

/-! ## Groups -/

/-- What like terms have in common: the text of the factors other than numbers, if there are any. -/
def likeness (t : Term α) : Option String :=
  if (Monomial.of t).factors.isEmpty then none else some (Monomial.of t).product.text

/-- Whether a term is like the given one. -/
def alike (t u : Term α) : Bool := u.likeness == t.likeness

/-- The terms with the same factors, in the order of the first of each group. -/
def groups (ts : List (Term α)) : List (List (Term α)) :=
  (ts.map likeness).eraseDups.map fun key => ts.filter (·.likeness == key)

/-- The coefficients of like terms, added from the left. -/
def totalCoefficient (t : Term α) (ts : List (Term α)) : α :=
  (ts.map fun u => (Monomial.of u).coefficient).foldl (· + ·) (Monomial.of t).coefficient

/-- The sum of two or more like terms, of which the first is given with the coefficient of all.  Only
terms that have factors cancel. -/
def likeSum (t : Term α) (total : α) : Option (Term α) :=
  if (Monomial.of t).factors.isEmpty then some (num total)
  else if Scalar.isZero total then none
  else some (bin .mul (num total) (Monomial.of t).product)

/-- The sum of a group.  A single term stays as it is. -/
def groupSum : List (Term α) → Option (Term α)
  | [] => none
  | [t] => some t
  | t :: ts => likeSum t (totalCoefficient t ts)

/-- The sums of all groups. -/
def groupSums (ts : List (Term α)) : List (Term α) := (groups ts).filterMap groupSum

/-- The group of the first term comes first. -/
theorem groups_cons (t : Term α) (ts : List (Term α)) :
    groups (t :: ts) = (t :: ts.filter t.alike) ::
      groups (ts.filter (!t.alike ·)) := by
  have keys : ((ts.filter (!t.alike ·)).map likeness) =
      (ts.map likeness).filter fun key => !(key == t.likeness) := by
    rw [List.filter_map]
    rfl
  rw [groups, groups, List.map_cons, List.eraseDups_cons, List.map_cons,
    keys]
  refine congrArg₂ List.cons (List.filter_cons_of_pos (beq_self_eq_true t.likeness)) ?_
  refine List.map_congr_left fun key hkey => ?_
  have other : key ≠ t.likeness := by
    intro same
    have mem := (List.mem_filter.1 (List.mem_eraseDups.1 hkey)).2
    rw [same, beq_self_eq_true] at mem
    cases mem
  rw [List.filter_cons_of_neg (by simp [other.symm]), List.filter_filter]
  refine List.filter_congr fun u _ => ?_
  by_cases same : u.likeness = key
  · simp [alike, same, other]
  · simp [same]

/-! ## Piles -/

/-- A term that is no power is joined with none by the identities. -/
theorem identitySum?_of_not_power (h : t.power? = none) : identitySum? t u = none := by
  have apart (k : Keyword) : t.poweredCall? k = none := by rw [poweredCall?, h]; rfl
  have first (v : Term α) : squaresSum? t v = none := by rw [squaresSum?, apart]; rfl
  have second (v : Term α) : squaresSum? v t = none := by
    rw [squaresSum?]
    cases v.poweredCall? .sin with
    | none => rfl
    | some p => simp [apart]
  rw [identitySum?]
  split
  · rw [trigonometricSum?, first, second]
    rfl
  · split
    · rw [trigonometricSum?, first, second]
      rfl
    · rfl

/-- The pile of a term and others that are like it. -/
def Pile.ofGroup (t : Term α) (ts : List (Term α)) : Pile α :=
  ⟨groupSum (t :: ts), ⟨totalCoefficient t ts, (Monomial.of t).factors⟩⟩

theorem totalCoefficient_append (t : Term α) (ts : List (Term α)) (u : Term α) :
    totalCoefficient t (ts ++ [u]) = totalCoefficient t ts + (Monomial.of u).coefficient := by
  rw [totalCoefficient, List.map_append, List.foldl_append]
  rfl

theorem likeSum_not_power {total : α} (h : likeSum t total = some u) : u.power? = none := by
  rw [likeSum] at h
  split at h
  · cases h
    rfl
  · split at h
    · cases h
    · cases h
      rfl

theorem groupSum_append (t : Term α) (ts : List (Term α)) (u : Term α) :
    groupSum (t :: (ts ++ [u])) =
      likeSum t (totalCoefficient t ts + (Monomial.of u).coefficient) := by
  have two : groupSum (t :: (ts ++ [u])) = likeSum t (totalCoefficient t (ts ++ [u])) := by
    cases ts <;> rfl
  rw [two, totalCoefficient_append]

/-- What a group adds up to is joined with a term only if the group is a single term. -/
theorem bind_identitySum? (h : identitySum? t u = none) (ts : List (Term α)) :
    (groupSum (t :: ts)).bind (identitySum? · u) = none := by
  cases ts with
  | nil => exact h
  | cons v ts =>
      refine Option.bind_eq_none_iff.2 fun sum hsum => ?_
      exact identitySum?_of_not_power (likeSum_not_power hsum)

/-- A pile takes one more term if that is like the first. -/
theorem add?_ofGroup (h : identitySum? t u = none) (ts : List (Term α)) :
    (Pile.ofGroup t ts).add? u =
      if t.alike u then some (Pile.ofGroup t (ts ++ [u])) else none := by
  have product : Monomial.product ⟨totalCoefficient t ts, (Monomial.of t).factors⟩ =
      (Monomial.of t).product := rfl
  rw [Pile.add?, Pile.ofGroup, bind_identitySum? h, Pile.ofGroup, groupSum_append,
    totalCoefficient_append]
  by_cases own : (Monomial.of t).factors.isEmpty = true
  · by_cases other : (Monomial.of u).factors.isEmpty = true
    · simp [alike, likeness, likeSum, own, other]
    · simp [alike, likeness, own, other]
  · by_cases other : (Monomial.of u).factors.isEmpty = true
    · simp [alike, likeness, own, other]
    · by_cases same : (Monomial.of t).product.text = (Monomial.of u).product.text
      · simp [alike, likeness, likeSum, product, own, other, beq_iff.2 same, same]
      · have apart : ((Monomial.of t).product == (Monomial.of u).product) = false :=
          Bool.eq_false_iff.2 fun alike => same (beq_iff.1 alike)
        simp [alike, likeness, product, own, other, apart, Ne.symm same]

/-- A pile takes all terms that are like the first. -/
theorem addAll_ofGroup (h : ∀ u ∈ us, identitySum? t u = none) (ts : List (Term α)) :
    (Pile.ofGroup t ts).addAll us =
      (groupSum (t :: (ts ++ us.filter t.alike)),
        us.filter (!t.alike ·)) := by
  induction us generalizing ts with
  | nil =>
      rw [List.filter_nil, List.append_nil]
      rfl
  | cons u us ih =>
      obtain ⟨hu, hus⟩ := List.forall_mem_cons.1 h
      rw [Pile.addAll, add?_ofGroup hu]
      cases alike : t.alike u with
      | true =>
          have more : ts ++ (u :: us).filter t.alike =
              ts ++ [u] ++ us.filter t.alike := by
            rw [List.filter_cons_of_pos alike, List.append_assoc]
            rfl
          rw [if_pos rfl, more, List.filter_cons_of_neg (by simp [alike])]
          exact ih hus (ts ++ [u])
      | false =>
          rw [if_neg Bool.false_ne_true, List.filter_cons_of_neg (by simp [alike]),
            List.filter_cons_of_pos (by simp [alike])]
          dsimp only
          rw [ih hus ts]

/-- Collecting like terms adds up their groups. -/
theorem collect_eq (h : ts.Pairwise fun t u => identitySum? t u = none) :
    collect ts = groupSums ts := by
  have within (piles : ℕ) (ts : List (Term α)) (enough : ts.length ≤ piles)
      (h : ts.Pairwise fun t u => identitySum? t u = none) :
      collectWithin piles ts = groupSums ts := by
    induction piles generalizing ts with
    | zero =>
        rw [List.eq_nil_of_length_eq_zero (Nat.le_zero.1 enough)]
        rfl
    | succ piles ih =>
        cases ts with
        | nil => rfl
        | cons t ts =>
            obtain ⟨ht, hts⟩ := List.pairwise_cons.1 h
            have pile : Pile.of t = Pile.ofGroup t [] := rfl
            have fewer : (ts.filter (!t.alike ·)).length ≤ piles :=
              (List.length_filter_le _ ts).trans (Nat.le_of_succ_le_succ enough)
            rw [collectWithin, pile, addAll_ofGroup ht, groupSums, groups_cons, List.nil_append,
              List.filterMap_cons]
            dsimp only
            rw [ih _ fewer (hts.filter _)]
            cases groupSum (t :: ts.filter t.alike) <;> rfl
  exact within ts.length ts (Nat.le_refl _) h

/-! ## Values of groups -/

/-- The terms that are compared when like terms are collected: the products of the factors other than
numbers, and these factors with the number one. -/
def compared (ts : List (Term α)) : List (Term α) :=
  num Scalar.one :: ts.flatMap fun t => (Monomial.of t).product :: (Monomial.of t).factors

theorem product_text_of_alike (h : t.alike u = true) :
    (Monomial.of u).product.text = (Monomial.of t).product.text := by
  have same : u.likeness = t.likeness := beq_iff_eq.1 h
  simp only [likeness] at same
  by_cases own : (Monomial.of t).factors.isEmpty = true
  · by_cases other : (Monomial.of u).factors.isEmpty = true
    · rw [Monomial.product, Monomial.product, List.isEmpty_iff.1 own, List.isEmpty_iff.1 other]
    · simp [own, other] at same
  · by_cases other : (Monomial.of u).factors.isEmpty = true
    · simp [own, other] at same
    · simpa [own, other] using same

variable {F : Type*} [Field F] {I : Interpretation α F}

theorem number_totalCoefficient (exact : I.FullyExact) (t : Term α) (ts : List (Term α)) :
    I.number (totalCoefficient t ts) = I.number (Monomial.of t).coefficient +
      (ts.map fun u => I.number (Monomial.of u).coefficient).sum := by
  rw [totalCoefficient]
  generalize (Monomial.of t).coefficient = c
  induction ts generalizing c with
  | nil => exact (add_zero _).symm
  | cons u ts ih => rw [List.map_cons, List.foldl_cons, ih, exact.add, List.map_cons, List.sum_cons,
      add_assoc]

/-- The sum of a group is the sum of its terms. -/
theorem groupSum_eval (exact : I.FullyExact)
    (units : ∀ u ∈ t :: ts, ∀ f ∈ (Monomial.of u).factors, f.UnitAsRead I .product)
    (products : ∀ u ∈ ts,
      (Monomial.of u).product.eval I.meaning = (Monomial.of t).product.eval I.meaning) :
    ((groupSum (t :: ts)).toList.map (eval I.meaning)).sum =
      ((t :: ts).map (eval I.meaning)).sum := by
  let p := (Monomial.of t).product.eval I.meaning
  obtain ⟨own, others⟩ := List.forall_mem_cons.1 units
  have total : ((t :: ts).map (eval I.meaning)).sum = I.number (totalCoefficient t ts) * p := by
    have each : ts.map (eval I.meaning) =
        ts.map fun u => I.number (Monomial.of u).coefficient * p := by
      refine List.map_congr_left fun u hu => ?_
      rw [monomial_eval exact.toExact (others u hu), products u hu]
    rw [number_totalCoefficient exact, add_mul, ← List.sum_map_mul_right, List.map_cons,
      List.sum_cons, each, monomial_eval exact.toExact own]
  cases ts with
  | nil => rfl
  | cons u ts =>
      rw [total, groupSum, likeSum]
      · split
        · rename_i none
          have one : p = 1 := by
            show (Chain.product.join (Monomial.of t).factors).eval I.meaning = 1
            rw [List.isEmpty_iff.1 none]
            exact I.number_one
          rw [one, mul_one]
          exact List.sum_singleton
        · split
          · rename_i zero
            rw [I.number_zero zero, zero_mul]
            rfl
          · exact List.sum_singleton
      · exact List.cons_ne_nil _ _

/-- Grouping keeps the sum. -/
theorem sum_groupSums (exact : I.FullyExact)
    (units : ∀ t ∈ ts, ∀ f ∈ (Monomial.of t).factors, f.UnitAsRead I .product)
    (products : ∀ t ∈ ts, ∀ u ∈ ts, t.alike u = true →
      (Monomial.of u).product.eval I.meaning = (Monomial.of t).product.eval I.meaning) :
    ((groupSums ts).map (eval I.meaning)).sum = (ts.map (eval I.meaning)).sum := by
  induction hlen : ts.length using Nat.strong_induction_on generalizing ts with
  | _ n ih =>
      cases ts with
      | nil => rfl
      | cons t ts =>
          have like (u : Term α) (hu : u ∈ ts.filter t.alike) : u ∈ t :: ts :=
            List.mem_cons_of_mem _ (List.mem_filter.1 hu).1
          have unlike (u : Term α) (hu : u ∈ ts.filter (!t.alike ·)) : u ∈ t :: ts :=
            List.mem_cons_of_mem _ (List.mem_filter.1 hu).1
          have group : ((groupSum (t :: ts.filter t.alike)).toList.map (eval I.meaning)).sum =
              ((t :: ts.filter t.alike).map (eval I.meaning)).sum :=
            groupSum_eval exact
              (List.forall_mem_cons.2 ⟨units t List.mem_cons_self, fun u hu => units u (like u hu)⟩)
              fun u hu => products t List.mem_cons_self u (like u hu) (List.mem_filter.1 hu).2
          have fewer : (ts.filter (!t.alike ·)).length < n := by
            have shorter := List.length_filter_le (!t.alike ·) ts
            rw [List.length_cons] at hlen
            omega
          have rest := ih _ fewer (fun u hu => units u (unlike u hu))
            (fun u hu v hv => products u (unlike u hu) v (unlike v hv)) rfl
          have split : groupSums (t :: ts) =
              (groupSum (t :: ts.filter t.alike)).toList ++ groupSums (ts.filter (!t.alike ·)) := by
            rw [groupSums, groups_cons, List.filterMap_cons]
            cases groupSum (t :: ts.filter t.alike) <;> rfl
          have parts := ((List.filter_append_perm t.alike ts).map (eval I.meaning)).sum_eq
          rw [List.map_append, List.sum_append] at parts
          rw [split, List.map_append, List.sum_append, group, rest, List.map_cons, List.sum_cons,
            List.map_cons, List.sum_cons, add_assoc, parts]

theorem collect_eval [Scalar.Legible α] (exact : I.FullyExact)
    (faithful : Faithful I (· ∈ compared ts)) :
    ((groupSums ts).map (eval I.meaning)).sum = (ts.map (eval I.meaning)).sum := by
  have among {t v : Term α} (ht : t ∈ ts)
      (hv : v ∈ (Monomial.of t).product :: (Monomial.of t).factors) : v ∈ compared ts :=
    List.mem_cons_of_mem _ (List.mem_flatMap.2 ⟨t, ht, hv⟩)
  refine sum_groupSums exact (fun t ht f hf => ?_) fun t ht u hu alike => ?_
  · exact faithful.eval_of_reads_one List.mem_cons_self (among ht (List.mem_cons_of_mem _ hf))
  · exact faithful _ _ (among hu List.mem_cons_self) (among ht List.mem_cons_self)
      (product_text_of_alike alike)

end Term

namespace Search

open Term

variable {α : Type} [Scalar α]

theorem mergeSummands_returns (find : Finder α) (ts : List (Term α)) :
    Returns (mergeSummands find ts) fun merged => merged.number = sumOfNumbers ts ∧
      merged.rest = if (others ts).isEmpty then [] else collectOrZero (others ts) := by
  rw [mergeSummands]
  split
  · rename_i none
    rw [none]
    exact .pure ⟨rfl, rfl⟩
  · rename_i _ some
    have rest : (if (others ts).isEmpty then [] else collectOrZero (others ts)) =
        collectOrZero (others ts) := if_neg fun empty => some (List.isEmpty_iff.1 empty)
    rw [rest]
    split
    · rename_i only hrest
      rw [hrest]
      exact (Returns.any (offset find _ only)).bind fun settled _ => .pure ⟨rfl, rfl⟩
    · exact .pure ⟨rfl, rfl⟩

variable [Scalar.Legible α]

/-- Merging summands none of which are joined by an identity adds their numbers and groups the others.
If there are others and all of them cancel, zero is left.  The value is that of all summands, in every
field in which numbers are computed with exactly and what is written alike has one value. -/
theorem mergeSummands_groups (find : Finder α) {ts : List (Term α)}
    (apart : (others ts).Pairwise fun t u => identitySum? t u = none) :
    Returns (mergeSummands find ts) fun merged =>
      merged.number = sumOfNumbers ts ∧
      merged.rest = (if (others ts).isEmpty then []
        else if (groupSums (others ts)).isEmpty then [num Scalar.zero]
        else groupSums (others ts)) ∧
      ∀ {F : Type*} [Field F] (I : Interpretation α F), I.FullyExact →
        Faithful I (· ∈ compared (others ts)) →
        I.number merged.number + (merged.rest.map (eval I.meaning)).sum =
          (ts.map (eval I.meaning)).sum := by
  have collected : collectOrZero (others ts) =
      if (groupSums (others ts)).isEmpty then [num Scalar.zero] else groupSums (others ts) := by
    rw [collectOrZero, collect_eq apart]
    cases groupSums (others ts) <;> rfl
  refine (mergeSummands_returns find ts).mono fun merged h => ?_
  obtain ⟨number, rest⟩ := h
  rw [collected] at rest
  refine ⟨number, rest, fun I exact faithful => ?_⟩
  have groups := collect_eval exact faithful
  rw [number, rest, ← sum_others exact ts]
  refine congrArg (I.number (sumOfNumbers ts) + ·) ?_
  split
  · rename_i none
    rw [List.isEmpty_iff.1 none]
  · split
    · rename_i cancelled
      rw [List.isEmpty_iff.1 cancelled] at groups
      rw [← groups]
      exact List.sum_singleton.trans (I.number_zero Scalar.Legible.isZero_zero)
    · exact groups

/-- `2`, `a`, `b`, `-a`, `5` and `3*a`, where `a` goes away and comes back. -/
def returningSummand : List (Term ℚ) :=
  [num 2, var "a" none, var "b" none, bin .mul (num (-1)) (var "a" none), num 5,
    bin .mul (num 3) (var "a" none)]

theorem mergeSummands_groups_returning :
    (mergeSummands (fun t => pure [t]) returningSummand).run .start =
        (.ok ⟨7, [bin .mul (num 3) (var "a" none), var "b" none], none⟩, .start) ∧
      ∀ var : String → ℝ, let I := Interpretation.reals var fun _ x => x
        I.number 7 + ([bin .mul (num 3) (.var "a" none), .var "b" none].map (eval I.meaning)).sum =
          (returningSummand.map (eval I.meaning)).sum := by
  have run : (mergeSummands (fun t => pure [t]) returningSummand).run .start =
      (.ok ⟨7, [bin .mul (num 3) (var "a" none), var "b" none], none⟩, .start) := by
    with_unfolding_all rfl
  have apart : (others returningSummand).Pairwise fun t u => identitySum? t u = none := by
    have power : ∀ t ∈ others returningSummand, t.power? = none := by
      intro t ht
      fin_cases ht <;> rfl
    exact List.pairwise_of_forall_mem_list fun t ht u _ => identitySum?_of_not_power (power t ht)
  refine ⟨run, fun var => ?_⟩
  have exact := Interpretation.reals_fullyExact var fun _ x => x
  refine (mergeSummands_groups _ apart _ _ _ run).2.2 _ exact ?_
  have names : compared (others returningSummand) = [num 1, .var "a" none, .var "a" none,
      .var "b" none, .var "b" none, .var "a" none, .var "a" none, .var "a" none, .var "a" none] := by
    with_unfolding_all rfl
  refine (Faithful.of_legible _).mono fun t ht => ?_
  rw [names] at ht
  fin_cases ht
  · exact ⟨rfl, trivial⟩
  all_goals exact ⟨⟨by decide, rfl, rfl, nofun⟩, trivial⟩

end Search

end AlgebraicTerms
