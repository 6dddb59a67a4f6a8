import AlgebraicTerms.Proofs.Search.Power
import AlgebraicTerms.Proofs.Search.Sum
import AlgebraicTerms.Proofs.Term.Choice
import AlgebraicTerms.Proofs.Term.Forms
import AlgebraicTerms.Simplify

/-!
# The search is sound

Every candidate of a term with a value has that value, however deep the search goes, provided that
the rule for common factors is exact.  The induction is on the depth: a finder one level deeper is
sound if its callee is.
-/

namespace AlgebraicTerms

variable {α : Type} [Scalar α]

namespace Search

theorem distinct_sublist (seen : List String) (ts : List (Term α)) :
    (distinct seen ts).Sublist ts := by
  induction ts generalizing seen with
  | nil => exact .refl _
  | cons t ts ih =>
      rw [distinct]
      split
      · exact (ih seen).cons t
      · exact (ih _).cons_cons t

theorem distinct_ne_nil {ts : List (Term α)} (h : ts ≠ []) : distinct [] ts ≠ [] := by
  cases ts with
  | nil => exact absurd rfl h
  | cons t ts =>
      rw [distinct, if_neg]
      · exact List.cons_ne_nil _ _
      · exact Bool.false_ne_true

variable [Scalar.Exact α] {K : Type*} [Field K] {ρ : Assignment K} {J : Cache α → Prop}
  {A : List String} {find : Finder α} {rule : Term.FactoringRule α} {options : SearchOptions}
  {t u : Term α} {ts us : List (Term α)} {a : K}

theorem Found.sublist (h : Found ρ t a ts) (hus : us.Sublist ts) (hne : us ≠ []) :
    Found ρ t a us :=
  ⟨⟨hne, fun u hu => h.values.2 u (hus.subset hu)⟩,
    fun hs u hu => h.literal hs u (hus.subset hu)⟩

theorem kept_found (h : Found ρ t a ts) : Ensures J A (kept options ts) (Found ρ t a) := by
  have unique := h.sublist (distinct_sublist [] ts) (distinct_ne_nil h.values.1)
  rw [kept]
  split
  · exact .pure unique
  · rename_i most _
    dsimp only
    split
    · refine (Ensures.note _).bind fun _ _ => .pure ?_
      refine unique.sublist (List.take_sublist _ _) fun empty => ?_
      rcases List.take_eq_nil_iff.1 empty with zero | empty
      · omega
      · exact unique.values.1 empty
    · exact .pure unique

variable [Scalar.Legible α] [CharZero K]

theorem simplified_simplifies (hfind : Finds (Remembered ρ) [] ρ find) :
    Simplifies (Remembered ρ) A ρ (simplified find) := by
  intro t a h
  have input := Term.withExponents_hasValue (Term.expanded_hasValue h)
  have search : Ensures (Remembered ρ) A (afresh do
      let input := t.expanded.withExponents
      let found := (← find input).map Term.withoutTrivialPowers
      let best := ((Term.simplest? found).getD input.withoutTrivialPowers).sorted
      note (.simplified t.text best.text found.length (← get).cache.length)
      return best) fun u => u.HasValue ρ a := by
    refine .afresh ?_ .empty
    refine (hfind.all input).bind fun found hfound => ?_
    have all := hfound.map fun t ht => Term.withoutTrivialPowers_hasValue ht
    refine .get fun s _ _ => (Ensures.note _).bind fun _ _ => .pure (Term.sorted_hasValue ?_)
    cases hbest : Term.simplest? (found.map Term.withoutTrivialPowers) with
    | none => exact Term.withoutTrivialPowers_hasValue input
    | some best => exact all.2 best (Term.simplest?_mem hbest)
  cases t with
  | empty => cases h
  | _ => exact search

theorem candidatesByRule_found (hrule : rule.Exact ρ)
    (hsimplify : t.shape = .other → Simplifies J A ρ (simplified find))
    (hfind : t.shape = .other → Finds J A ρ find) (h : t.HasValue ρ a) :
    Ensures J A (candidatesByRule rule find t) (Found ρ t a) := by
  have own (literal : t.shape ≠ .other → t.shape = .literal) :
      Ensures J A (pure [t] : Search α (List (Term α))) (Found ρ t a) := by
    refine .pure ⟨.single h, fun hs c hc => ?_⟩
    obtain rfl := List.eq_of_mem_singleton hc
    exact literal hs
  cases t with
  | bin op l r =>
      cases op with
      | add =>
          by_cases hs : (Term.bin .add l r).shape = .other
          · exact (sum_all (hfind hs) (hsimplify hs) hrule h).mono fun us hus => .of_shape hus hs
          · exact sum_literal h hs
      | sub =>
          exact (difference_all (hfind rfl) (hsimplify rfl) hrule h).mono fun us hus =>
            .of_shape hus rfl
      | mul =>
          by_cases hs : (Term.bin .mul l r).shape = .other
          · exact (product_all (hfind hs) h).mono fun us hus => .of_shape hus hs
          · exact product_literal h hs
      | div => exact (quotient_all (hfind rfl) h).mono fun us hus => .of_shape hus rfl
      | mod => cases h
      | pow => exact (power_all (hfind rfl) h).mono fun us hus => .of_shape hus rfl
  | num n => exact own fun hs => h.num_literal hs h
  | call k t => cases h
  | _ => exact own fun hs => absurd rfl hs

theorem compute_found (hrule : rule.Exact ρ)
    (hsimplify : Simplifies (Remembered ρ) A ρ (simplified find))
    (hfind : t.shape = .other → Finds (Remembered ρ) A ρ find) (h : t.HasValue ρ a) :
    Ensures (Remembered ρ) A (compute options rule find t t.text) (Found ρ t a) := by
  have byRule : Ensures (Remembered ρ) A (do
      let found ← kept options (← candidatesByRule rule find t)
      note (.found found.length t.text)
      modify fun s => { s with cache := (t.text, found) :: s.cache }
      return found) (Found ρ t a) := by
    refine (candidatesByRule_found hrule (fun _ => hsimplify) hfind h).bind fun all hall => ?_
    refine (kept_found hall).bind fun found hfound => ?_
    refine (Ensures.note _).bind fun _ _ => ?_
    exact (Ensures.remember fun cache hcache => hcache.cons h hfound).bind fun _ _ => .pure hfound
  cases t with
  | inv i operand =>
      have hoperand : ∃ b, operand.HasValue ρ b := by
        cases h with
        | neg h => exact ⟨_, h⟩
        | recip h _ => exact ⟨_, h⟩
      obtain ⟨b, hb⟩ := hoperand
      refine ((hfind rfl).all hb).bind fun found hfound => ?_
      have inverses : Ensures (Remembered ρ) A (found.mapM fun c => ofExcept (c.inverted i))
          fun us => us.length = found.length ∧ ∀ u ∈ us, u.HasValue ρ a :=
        .mapM_all fun c hc => .ofExcept fun u hu => Term.inverted_hasValue h
          (fun d hd => hb.unique hd ▸ hfound.2 c hc) hu
      refine inverses.mono fun us hus => .of_shape ⟨fun empty => hfound.1 ?_, hus.2⟩ rfl
      rw [← List.length_eq_zero_iff, ← hus.1, empty, List.length_nil]
  | _ => exact byRule

/-! ## Soundness -/

/-- Whether a finder is sound whatever is at work, as long as that is quiet. -/
def Sound (ρ : Assignment K) (find : Finder α) : Prop :=
  ∀ A, Quiet α ρ A → Finds (Remembered ρ) A ρ find

theorem candidatesVia_sound (hrule : rule.Exact ρ) (hfind : Sound ρ find) :
    Sound ρ (candidatesVia options rule find) := by
  intro A hA t a h
  have hsorted := Term.sorted_hasValue h
  have asFound {ts : List (Term α)} (hts : Found ρ t.sorted a ts) : Found ρ t a ts :=
    ⟨hts.values, fun hs => hts.literal (Term.sorted_shape hs)⟩
  refine .get fun s hactive hcache => ?_
  split
  · rename_i found hfound
    exact .pure (asFound (hcache _ _ hfound _ _ rfl hsorted))
  · split
    · rename_i busy
      refine (Ensures.note _).bind fun _ _ => .pure (.of_shape (.single hsorted) ?_)
      by_contra hs
      rw [hactive, List.contains_iff_mem] at busy
      exact hA _ _ hsorted (Term.sorted_shape hs) busy
    · refine .working ((compute_found hrule ?_ ?_ hsorted).mono fun ts => asFound)
      · exact simplified_simplifies (hfind [] .nil)
      · exact fun hs => hfind _ (hA.cons hsorted hs)

theorem candidatesWithin_sound (hrule : rule.Exact ρ) (depth : ℕ) :
    Sound ρ (candidatesWithin options rule depth) := by
  induction depth with
  | zero => exact fun A hA t a h => .throw _
  | succ depth ih => exact candidatesVia_sound hrule ih

end Search

/-- What the search ensures holds of the simplest form. -/
theorem Term.of_simplifyBy {J : Search.Cache α → Prop} {P : Term α → Prop}
    {rule : FactoringRule α} {options : SearchOptions} {t r : Term α}
    (h : Search.Ensures J [] (Search.simplified (Search.candidates options rule) t) P)
    (empty : J []) (hr : t.simplifyBy rule options = .ok r) : P r := by
  cases hrun : (Search.simplified (Search.candidates options rule) t).run SearchState.start with
  | mk result state =>
      rw [simplifyBy, simplifyLoggedBy, hrun] at hr
      subst hr
      exact (h _ rfl empty r state hrun).1

/-- Simplification keeps the value of a term if the rule for common factors is exact. -/
theorem Term.simplifyBy_hasValue [Scalar.Exact α] [Scalar.Legible α] {K : Type*} [Field K]
    [CharZero K] {ρ : Assignment K} {rule : FactoringRule α} {options : SearchOptions}
    {t r : Term α} {a : K} (hrule : rule.Exact ρ) (h : t.HasValue ρ a)
    (hr : t.simplifyBy rule options = .ok r) : r.HasValue ρ a := by
  refine of_simplifyBy (Search.simplified_simplifies ?_ t a h) .empty hr
  exact Search.candidatesWithin_sound hrule options.depth [] .nil

end AlgebraicTerms
