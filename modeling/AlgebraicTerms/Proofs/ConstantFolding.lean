import AlgebraicTerms.Proofs.Search.Folding
import AlgebraicTerms.Proofs.Search.State
import AlgebraicTerms.Proofs.Simplify
import AlgebraicTerms.Proofs.Term.StandIn

/-!
# Constant folding

A term without variables is simplified to a number, unless it has no value
(`simplify_isNumber_of_ground`).  Every call of the search is on a smaller term than those at work, so
that no term is met again inside itself and a search that may go deep enough ends.
-/

namespace AlgebraicTerms

namespace Search

variable {α : Type} [Scalar α]

/-- Whether every remembered term has been turned into numbers. -/
def Folded (cache : Cache α) : Prop :=
  ∀ key found, cache.lookup key = some found → AllNumbers found

theorem Folded.empty : Folded ([] : Cache α) := nofun

theorem Folded.cons {cache : Cache α} {key : String} {found : List (Term α)} (hcache : Folded cache)
    (h : AllNumbers found) : Folded ((key, found) :: cache) := by
  intro key' found' hfound
  rw [List.lookup_cons] at hfound
  split at hfound
  · cases hfound
    exact h
  · exact hcache key' found' hfound

variable {J : Cache α → Prop} {A : List String} {finds : ℕ → Finder α} {options : SearchOptions}
  {rule : Term.FactoringRule α} {t : Term α}

theorem kept_folds {ts : List (Term α)} (h : AllNumbers ts) :
    Settles J A (fun _ => kept options ts) AllNumbers := by
  have unique : AllNumbers (distinct [] ts) :=
    ⟨distinct_ne_nil h.1, fun t ht => h.2 t ((distinct_sublist [] ts).subset ht)⟩
  unfold kept
  cases options.mostCandidates with
  | none => exact .pure unique
  | some most =>
      refine .ite (fun _ => (Settles.note rfl).bind fun _ _ => .pure ⟨fun empty => ?_, fun t ht => ?_⟩)
        fun _ => .pure unique
      · rcases List.take_eq_nil_iff.1 empty with zero | empty
        · omega
        · exact unique.1 empty
      · exact unique.2 t (List.mem_of_mem_take ht)

theorem inverted_isNumber {i : Inverse} {u : Term α} (ht : t.isNumber = true)
    (h : t.inverted i = .ok u) : u.isNumber = true := by
  obtain ⟨n, hn⟩ := Option.isSome_iff_exists.1 ht
  cases i with
  | neg =>
      have negated : t.negated = .num (-n) := by
        cases t <;> cases hn <;> rfl
      cases h
      rw [negated]
      rfl
  | recip =>
      simp only [Term.inverted, Term.reciprocal, hn] at h
      split at h
      · cases h
      · cases h
        rfl

variable [Scalar.Legible α] [Scalar.Worded α]

theorem candidatesByRule_folds (hfind : FoldsBelow J A finds t.size) (ht : t.IsGround)
    (hinv : ∀ i u, t ≠ .inv i u) :
    Settles J A (fun depth => candidatesByRule rule (finds depth) t) AllNumbers := by
  cases t with
  | bin op l r =>
      cases op with
      | add => exact sum_folds hfind rule _ ht (Nat.le_refl _) (Nat.le_refl _)
      | sub => exact difference_folds hfind rule _ ht rfl
      | mul => exact product_folds hfind ht (Nat.le_refl _) (Nat.le_refl _) (Nat.le_refl _)
      | div => exact quotient_folds hfind ht rfl
      | mod => exact remainder_folds hfind ht rfl
      | pow => exact power_folds hfind ht rfl
  | call k argument =>
      have smaller : argument.size.cost < (Term.call k argument).size.cost :=
        Size.cost_lt_of_load (Nat.le_max_left _ _) (Nat.le_refl _) (Nat.lt_succ_self _)
      refine (hfind argument ht smaller).bind fun found hfound => ?_
      refine (Settles.mapM_all fun c hc => call_folds k (hfound.2 c hc)).mono fun ts hts => ?_
      refine ⟨fun empty => hfound.1 (List.length_eq_zero_iff.1 ?_), hts.2⟩
      rw [← hts.1, empty, List.length_nil]
  | inv i u => exact absurd rfl (hinv i u)
  | num n => exact .pure (.singleton rfl)
  | const c => exact .pure (.singleton rfl)
  | empty => exact ht.elim
  | var name index => exact ht.elim

theorem compute_folds (hfind : FoldsBelow Folded A finds t.size) (ht : t.IsGround) (key : String) :
    Settles Folded A (fun depth => compute options rule (finds depth) t key) AllNumbers := by
  have byRule (hinv : ∀ i u, t ≠ .inv i u) : Settles Folded A (fun depth => do
      let found ← kept options (← candidatesByRule rule (finds depth) t)
      note (.found found.length key)
      modify fun s => { s with cache := (key, found) :: s.cache }
      return found) AllNumbers := by
    refine (candidatesByRule_folds hfind ht hinv).bind fun ts hts => ?_
    refine (kept_folds hts).bind fun found hfound => (Settles.note rfl).bind fun _ _ => ?_
    exact (Settles.remember fun cache hcache => hcache.cons hfound).bind fun _ _ => .pure hfound
  cases t with
  | inv i operand =>
      have smaller : operand.size.cost < (Term.inv i operand).size.cost := by
        have heavier := Term.load_le_weight operand
        cases i with
        | neg => exact Size.cost_lt_of_load (Nat.le_refl _) (Nat.le_refl _) (Nat.lt_succ_of_le heavier)
        | recip =>
            exact Size.cost_lt_of_recips (Nat.le_max_left _ _) (Nat.le_refl _) heavier
              (Nat.lt_succ_self _)
      refine (hfind operand ht smaller).bind fun found hfound => ?_
      refine (Settles.mapM_all fun c hc => .ofExcept fun u hu =>
        inverted_isNumber (hfound.2 c hc) hu).mono fun ts hts => ?_
      refine ⟨fun empty => hfound.1 (List.length_eq_zero_iff.1 ?_), hts.2⟩
      rw [← hts.1, empty, List.length_nil]
  | _ => exact byRule nofun

/-- A ground term that is smaller than all at work has only numbers as candidates. -/
theorem candidatesWithin_folds (ht : t.IsGround)
    (hA : ∀ v : Term α, v.IsGround → v.text ∈ A → t.size.cost < v.size.cost) :
    Settles Folded A (fun depth => candidatesWithin options rule depth t) AllNumbers := by
  generalize hcost : t.size.cost = cost at hA
  induction cost using WellFoundedLT.induction generalizing A t with
  | ind cost ih =>
      subst hcost
      have ordered := Term.sorted_cost_le t
      have ground := Term.sorted_ground ht
      refine .succ (.get fun s hactive hcache => ?_) rfl
      cases hfound : s.cache.lookup t.sorted.text with
      | some found => exact .pure (hcache _ _ hfound)
      | none =>
          -- a term at work is larger, so that it is written differently
          have fresh : ¬s.active.contains t.sorted.text = true := fun busy =>
            absurd (hA _ ground (hactive ▸ List.contains_iff_mem.1 busy)) (not_lt_of_ge ordered)
          refine .ite (fun busy => absurd busy fresh) fun _ => .working (compute_folds ?_ ground _)
          intro u hu hlt
          refine ih _ (hlt.trans_le ordered) hu rfl fun v hv hmem => ?_
          rcases List.mem_cons.1 hmem with same | hmem
          · rw [Term.size_eq_of_text_eq hv ground same]
            exact hlt
          · exact (hlt.trans_le ordered).trans (hA v hv hmem)

theorem simplified_folds (ht : t.IsGround) :
    Settles Folded A (fun depth => simplified (candidatesWithin options rule depth) t)
      fun u => u.isNumber = true := by
  have plain {u : Term α} (hu : u.isNumber = true) : u.withoutTrivialPowers.sorted = u := by
    cases u <;> first | rfl | cases hu
  have body : Settles Folded A (fun depth => afresh do
      let input := t.expanded.withExponents
      let found := (← candidatesWithin options rule depth input).map Term.withoutTrivialPowers
      let best := ((Term.simplest? found).getD input.withoutTrivialPowers).sorted
      note (.simplified t.text best.text found.length (← get).cache.length)
      return best) fun u => u.isNumber = true := by
    have ground := Term.withExponents_ground (Term.expanded_ground ht)
    refine .afresh ((candidatesWithin_folds ground fun _ _ h => absurd h List.not_mem_nil).bind fun found hfound => ?_) .empty
    have best : ∃ u ∈ found, Term.simplest? (found.map Term.withoutTrivialPowers) =
        some u.withoutTrivialPowers := by
      cases hbest : Term.simplest? (found.map Term.withoutTrivialPowers) with
      | none =>
          cases found with
          | nil => exact absurd rfl hfound.1
          | cons u us => cases hbest
      | some b =>
          obtain ⟨u, hu, rfl⟩ := List.mem_map.1 (Term.simplest?_mem hbest)
          exact ⟨u, hu, rfl⟩
    obtain ⟨u, hu, hbest⟩ := best
    refine .get fun s _ _ => (Settles.note rfl).bind fun _ _ => .pure ?_
    rw [hbest, Option.getD_some, plain (hfound.2 u hu)]
    exact hfound.2 u hu
  cases t with
  | empty => exact ht.elim
  | _ => exact body

end Search

namespace Term

variable {α : Type} [Scalar α] [Scalar.Legible α] [Scalar.Worded α] {t : Term α}

/-- A term without variables is simplified to a number or has no value, once the search may go deep
enough.  It never remains an operation. -/
theorem simplify_isNumber_of_ground (h : t.IsGround) :
    (∀ options u, t.simplify options = .ok u → u.isNumber = true) ∧
      ∀ most, ∃ depth, (∀ deeper ≥ depth, t.simplify ⟨most, deeper⟩ = t.simplify ⟨most, depth⟩) ∧
        ((∃ u, t.simplify ⟨most, depth⟩ = .ok u ∧ u.isNumber = true) ∨
          ∃ e, t.simplify ⟨most, depth⟩ = .error (.domain e)) := by
  have folds (options : SearchOptions) : Search.Settles Search.Folded []
      (fun depth => Search.simplified (Search.candidatesWithin options factorings depth) t)
      fun u => u.isNumber = true := Search.simplified_folds h
  have number (options : SearchOptions) (u : Term α) (hu : t.simplify options = .ok u) :
      u.isNumber = true :=
    ((folds options).ensures options.depth SearchState.start rfl .empty u _ (Prod.ext hu rfl)).1
  refine ⟨number, fun most => ?_⟩
  obtain ⟨depth, r, same, shallow⟩ := (folds ⟨most, 0⟩).settled SearchState.start rfl .empty
  have outcome (deeper : ℕ) (hd : deeper ≥ depth) : t.simplify ⟨most, deeper⟩ = r.1 := by
    rw [← same deeper hd, Search.candidatesWithin_congr most 0 deeper]
    rfl
  refine ⟨depth, fun deeper hd => (outcome deeper hd).trans (outcome depth (Nat.le_refl _)).symm, ?_⟩
  cases hr : t.simplify ⟨most, depth⟩ with
  | ok u => exact .inl ⟨u, rfl, number _ u hr⟩
  | error e =>
      cases e with
      | domain e => exact .inr ⟨e, rfl⟩
      | tooDeep => exact absurd ((outcome depth (Nat.le_refl _)).symm.trans hr) shallow

set_option maxRecDepth 100000 in
/-- A power over a negated sum. -/
theorem simplify_isNumber_of_ground_quotient :
    let t : Term ℚ :=
      bin .div (bin .pow (num 6) (num 2)) (inv .neg (bin .add (num 4) (call .abs (num 5))))
    t.IsGround ∧ t.simplify {} = .ok (num (-4)) ∧
      (∀ options u, t.simplify options = .ok u → u.isNumber = true) ∧
      ∀ most, ∃ depth, (∀ deeper ≥ depth, t.simplify ⟨most, deeper⟩ = t.simplify ⟨most, depth⟩) ∧
        ((∃ u, t.simplify ⟨most, depth⟩ = .ok u ∧ u.isNumber = true) ∨
          ∃ e, t.simplify ⟨most, depth⟩ = .error (.domain e)) := by
  intro t
  have ground : t.IsGround := ⟨⟨trivial, trivial⟩, trivial, trivial⟩
  have value : t.simplify {} = .ok (num (-4)) := ok_of_toOption (by decide +kernel)
  exact ⟨ground, value, simplify_isNumber_of_ground ground⟩

end Term

end AlgebraicTerms
