import AlgebraicTerms.Proofs.Search.State
import AlgebraicTerms.Proofs.Scalar.Rational
import AlgebraicTerms.Proofs.Simplify

/-!
# Searching with and without memory

What is remembered of a term is what a search without memory finds (`candidates_eq_fresh`), as long
as no term is met again while it is at work, and no two terms that are asked for have the same text.
Otherwise what was searched before may show.  A list that was found inside of a search for an
enclosing term has that term as it is, and terms with the same text have one entry
(`memory_shows`).
-/

namespace AlgebraicTerms

namespace Search

variable {α : Type} [Scalar α]

/-! ## The search without memory -/

/-- The candidates of a term in canonical order, which are not remembered. -/
def plainly (options : SearchOptions) (rule : Term.FactoringRule α) (find : Finder α) (t : Term α) :
    Search α (List (Term α)) :=
  match t with
  | .inv i operand => find operand >>= List.mapM fun c => ofExcept (c.inverted i)
  | t => candidatesByRule rule find t >>= kept options

/-- The candidates of a term, found again whenever they are asked for. -/
def plainWithin (options : SearchOptions) (rule : Term.FactoringRule α) : Nat → Finder α
  | 0, _ => throw .tooDeep
  | depth + 1, t => plainly options rule (plainWithin options rule depth) t.sorted

variable {options : SearchOptions} {rule : Term.FactoringRule α} {find : Finder α}
  {s u : SearchState α} {t : Term α} {found : List (Term α)} {depth : ℕ}

theorem plainly_by_rule (hinv : ∀ i operand, t ≠ .inv i operand) :
    plainly options rule find t = (candidatesByRule rule find t >>= kept options) := by
  cases t with
  | inv i operand => exact absurd rfl (hinv i operand)
  | _ => rfl

/-! ## Confined searches -/

/-- The candidates of a term, which fails if it or a term in a nested call is not in `D`. -/
def candidatesAmong (D : Term α → Prop) [DecidablePred D] (options : SearchOptions)
    (rule : Term.FactoringRule α) : Nat → Finder α
  | 0, _ => throw .tooDeep
  | depth + 1, t =>
    if D t.sorted then candidatesVia options rule (candidatesAmong D options rule depth) t
    else throw .tooDeep

variable {D : Term α → Prop} [DecidablePred D]

/-- Whether the second of two searches does what the first does, unless that goes too deep. -/
def Frees {β : Type} (m : Bool → Search α β) : Prop :=
  ∀ s, ((m false).run s).1 ≠ .error .tooDeep → (m true).run s = (m false).run s

omit [Scalar α] in
/-- Steps that do what is done without the confinement can be done one after the other. -/
theorem frees_sequential : Sequential (α := α) fun _ m => Frees m where
  pure b s _ := rfl
  bind := by
    intro β γ m f hm hf s shallow
    have first := hm s
    rw [run_bind] at shallow ⊢
    rw [run_bind]
    cases hrun : (m false).run s with
    | mk r u =>
        rw [hrun] at shallow first
        cases r with
        | error e =>
            have failed : e ≠ .tooDeep := fun deep => shallow (deep ▸ rfl)
            rw [first fun deep => failed (Except.error.inj deep)]
        | ok b =>
            rw [first fun deep => by cases deep]
            exact hf b u shallow
  fail e s _ := rfl
  note e s _ := rfl

theorem simplified_frees {finder : Bool → Finder α} (hfind : ∀ t, Frees fun i => finder i t)
    (t : Term α) : Frees fun i => simplified (finder i) t := by
  by_cases empty : t = .empty
  · rw [empty]
    exact fun s _ => rfl
  · intro s shallow
    rw [simplified_run _ empty] at shallow
    exact simplified_congr (hfind _ _ fun deep => shallow (by rw [deep]; rfl))

theorem compute_frees (finder : Bool → Finder α) (hfind : ∀ t, Frees fun i => finder i t)
    (t : Term α) (key : String) : Frees fun i => compute options rule (finder i) t key := by
  by_cases inverse : ∃ i operand, t = .inv i operand
  · obtain ⟨i, operand, rfl⟩ := inverse
    exact frees_sequential.inverses finder hfind i operand
  · have hinv : ∀ i operand, t ≠ .inv i operand := fun i operand h => inverse ⟨i, operand, h⟩
    have byRule := frees_sequential.candidatesByRule finder hfind (simplified_frees hfind) rule t
    simp only [compute_by_rule hinv]
    exact frees_sequential.bind (f := fun _ => store options key) byRule fun all s _ => rfl

/-- A confined search does what the search does, unless it goes too deep or asks for a term that is
not in `D`. -/
theorem candidatesAmong_run (options : SearchOptions) (rule : Term.FactoringRule α) (depth : ℕ)
    (t : Term α) : Frees fun free =>
      if free then candidatesWithin options rule depth t
      else candidatesAmong D options rule depth t := by
  induction depth generalizing t with
  | zero => exact fun s shallow => absurd rfl shallow
  | succ depth ih =>
      intro s shallow
      let finder (free : Bool) : Finder α := fun t =>
        if free then candidatesWithin options rule depth t
        else candidatesAmong D options rule depth t
      have among : candidatesAmong D options rule (depth + 1) t =
          if D t.sorted then candidatesVia options rule (finder false) t else throw .tooDeep := rfl
      show (candidatesVia options rule (finder true) t).run s =
        (candidatesAmong D options rule (depth + 1) t).run s
      change ((candidatesAmong D options rule (depth + 1) t).run s).1 ≠ _ at shallow
      rw [among] at shallow ⊢
      by_cases inside : D t.sorted
      · rw [if_pos inside] at shallow ⊢
        refine candidatesVia_congr fun new idle => ?_
        rw [candidatesVia_run new idle, working_run] at shallow
        exact compute_frees finder ih t.sorted t.sorted.text _ shallow
      · rw [if_neg inside] at shallow
        exact absurd rfl shallow

/-! ## What is remembered -/

/-- Whether searches of growing depth find the given result from some depth on, in all states. -/
def Eventually {β : Type} (m : ℕ → Search α β) (b : β) : Prop :=
  ∃ depth, ∀ deeper ≥ depth, ∀ s, ((m deeper).run s).1 = .ok b

/-- Whether every remembered list is what a search without memory finds for a term in `D`. -/
def Truthful (D : Term α → Prop) (options : SearchOptions) (rule : Term.FactoringRule α)
    (cache : Cache α) : Prop :=
  ∀ key found, cache.lookup key = some found → ∃ t, D t ∧ t.text = key ∧
    Eventually (fun depth => plainly options rule (plainWithin options rule depth) t) found

/-- Whether searches without memory, of growing depth, find what the first search does in a state
that remembers the truth.  That search remembers the truth as well. -/
structure Mirrored (D : Term α → Prop) (options : SearchOptions) (rule : Term.FactoringRule α)
    {β : Type} (m : Option ℕ → Search α β) : Prop where
  log : ∀ s, s.log <:+ ((m none).run s).2.log
  found : ∀ s b u, Truthful D options rule s.cache → (m none).run s = (.ok b, u) → Acyclic u.log →
    Truthful D options rule u.cache ∧ Eventually (fun depth => m (some depth)) b

omit [Scalar α] in
theorem Eventually.bind {β γ : Type} {m : ℕ → Search α β} {f : ℕ → β → Search α γ} {b : β} {c : γ}
    (hm : Eventually m b) (hf : Eventually (fun depth => f depth b) c) :
    Eventually (fun depth => m depth >>= f depth) c := by
  obtain ⟨depth, hm⟩ := hm
  obtain ⟨depth', hf⟩ := hf
  refine ⟨max depth depth', fun deeper hdeeper s => ?_⟩
  have first := hm deeper (Nat.le_trans (Nat.le_max_left depth depth') hdeeper) s
  rw [run_bind]
  cases hrun : (m deeper).run s with
  | mk r u =>
      rw [hrun] at first
      cases first
      exact hf deeper (Nat.le_trans (Nat.le_max_right depth depth') hdeeper) u

/-- Steps that searches without memory do as well can be done one after the other. -/
theorem mirrored_sequential (D : Term α → Prop) (options : SearchOptions)
    (rule : Term.FactoringRule α) : Sequential fun _ m => Mirrored D options rule m where
  pure b := by
    refine ⟨fun s => List.suffix_rfl, fun s c u hs hrun _ => ?_⟩
    cases hrun
    exact ⟨hs, 0, fun _ _ _ => rfl⟩
  bind := by
    intro β γ m f hm hf
    refine ⟨fun s => ?_, fun s c u hs hrun quiet => ?_⟩
    · have first := hm.log s
      rw [run_bind]
      cases hrun : (m none).run s with
      | mk r v =>
          rw [hrun] at first
          cases r with
          | ok b => exact first.trans ((hf b).log v)
          | error e => exact first
    · rw [run_bind] at hrun
      cases hfirst : (m none).run s with
      | mk r v =>
          rw [hfirst] at hrun
          cases r with
          | error e => cases hrun
          | ok b =>
              dsimp only at hrun
              have written := (hf b).log v
              rw [hrun] at written
              obtain ⟨truth, first⟩ := hm.found s b v hs hfirst (quiet.suffix written)
              obtain ⟨truth', second⟩ := (hf b).found v c u truth hrun quiet
              exact ⟨truth', first.bind second⟩
  fail e := by
    refine ⟨fun s => List.suffix_rfl, fun s c u hs hrun _ => ?_⟩
    cases hrun
  note e := by
    refine ⟨fun s => List.suffix_cons e s.log, fun s c u hs hrun _ => ?_⟩
    cases hrun
    exact ⟨hs, 0, fun _ _ _ => rfl⟩

variable {finder : Option ℕ → Finder α}

omit [DecidablePred D] in
theorem simplified_mirrored (hfind : ∀ t, Mirrored D options rule fun i => finder i t) (t : Term α) :
    Mirrored D options rule fun i => simplified (finder i) t := by
  by_cases empty : t = .empty
  · rw [empty]
    exact (mirrored_sequential D options rule).pure Term.empty
  · have input := hfind t.expanded.withExponents
    refine ⟨fun s => ?_, fun s r u hs hrun quiet => ?_⟩
    · obtain ⟨events, state⟩ := simplified_state (finder none) empty s
      rw [state]
      exact (input.log { SearchState.start with log := s.log }).trans (List.suffix_append _ _)
    · obtain ⟨events, state⟩ := simplified_state (finder none) empty s
      have result := simplified_run (finder none) empty s
      rw [hrun] at state result
      cases hfound : (finder none t.expanded.withExponents).run
          { SearchState.start with log := s.log } with
      | mk r' v =>
          rw [hfound] at state result
          cases r' with
          | error e => cases result
          | ok found =>
              dsimp only at state
              have quiet' : Acyclic v.log := by
                apply quiet.suffix
                rw [state]
                exact List.suffix_append events v.log
              have truth : Truthful D options rule ([] : Cache α) := by
                intro key found h
                cases h
              obtain ⟨_, depth, finds⟩ := input.found _ found v truth hfound quiet'
              refine ⟨?_, depth, fun deeper hdeeper w => ?_⟩
              · rw [state]
                exact hs
              · rw [simplified_run _ empty, finds deeper hdeeper]
                exact result.symm

/-! ### Calls -/

omit [DecidablePred D] in
/-- The list of a new entry must be found without memory. -/
theorem Truthful.cons {cache : Cache α} (h : Truthful D options rule cache) (ht : D t)
    (finds : Eventually (fun depth => plainly options rule (plainWithin options rule depth) t) found) :
    Truthful D options rule ((t.text, found) :: cache) := by
  intro key found' known
  by_cases same : key = t.text
  · rw [same] at known ⊢
    cases List.lookup_cons_self.symm.trans known
    exact ⟨t, ht, rfl, finds⟩
  · rw [List.lookup_cons, beq_eq_false_iff_ne.2 same] at known
    exact h key found' known

/-- A search without memory goes one level deeper for the rule of a term. -/
theorem Eventually.called
    (h : Eventually (fun depth =>
      plainly options rule (plainWithin options rule depth) t.sorted) found) :
    Eventually (fun depth => plainWithin options rule depth t) found := by
  obtain ⟨least, h⟩ := h
  refine ⟨least + 1, fun deeper hdeeper s => ?_⟩
  cases deeper with
  | zero => omega
  | succ deeper => exact h deeper (Nat.le_of_succ_le_succ hdeeper) s

/-- What the candidates of a rule are pruned to is also found without memory. -/
theorem Eventually.kept {all : List (Term α)} (hinv : ∀ i operand, t ≠ .inv i operand)
    (h : Eventually (fun depth => candidatesByRule rule (plainWithin options rule depth) t) all) :
    Eventually (fun depth => plainly options rule (plainWithin options rule depth) t)
      (pruned options all) := by
  have keeps : Eventually (fun _ => Search.kept options all) (pruned options all) := by
    refine ⟨0, fun _ _ s => ?_⟩
    obtain ⟨events, hkept⟩ := kept_run options all s
    rw [hkept]
  simp only [plainly_by_rule hinv]
  exact h.bind keeps

section Calls

variable (finder) (hfind : ∀ t, Mirrored D options rule fun i => finder i t)

include hfind

omit [DecidablePred D] in
/-- A call only adds to the log. -/
theorem candidatesVia_log (s : SearchState α) (t : Term α) :
    s.log <:+ ((candidatesVia options rule (finder none) t).run s).2.log := by
  have mirrored := mirrored_sequential D options rule
  have call := candidatesVia_call options rule (finder none) s t
  generalize (candidatesVia options rule (finder none) t).run s = result at call ⊢
  cases call with
  | known => exact List.suffix_rfl
  | busy => exact List.suffix_cons _ s.log
  | @inverse i operand r u inverse new idle hrun =>
      have written := (mirrored.inverses finder hfind i operand).log (s.enter t.sorted.text)
      rw [hrun] at written
      exact written
  | failed hinv new idle hrun =>
      have byRule := mirrored.candidatesByRule finder hfind (simplified_mirrored hfind) rule t.sorted
      have written := byRule.log (s.enter t.sorted.text)
      rw [hrun] at written
      exact written
  | found hinv new idle hrun active cache log =>
      have byRule := mirrored.candidatesByRule finder hfind (simplified_mirrored hfind) rule t.sorted
      have written := byRule.log (s.enter t.sorted.text)
      rw [hrun] at written
      exact written.trans log

omit [DecidablePred D] in
/-- A call that looks its term up finds what is found without memory, since no other term in `D` has
the same text.  One that searches it does if the calls nested in it do. -/
theorem candidatesVia_found (injective : ∀ t u, D t → D u → t.text = u.text → t = u)
    (plain : ∀ depth, finder (some depth) = plainWithin options rule depth) (inside : D t.sorted)
    (hs : Truthful D options rule s.cache)
    (hrun : (candidatesVia options rule (finder none) t).run s = (.ok found, u))
    (quiet : Acyclic u.log) : Truthful D options rule u.cache ∧
      Eventually (fun depth => plainWithin options rule depth t) found := by
  have mirrored := mirrored_sequential D options rule
  have call := candidatesVia_call options rule (finder none) s t
  rw [hrun] at call
  cases call with
  | known known =>
      obtain ⟨v, hv, same, finds⟩ := hs _ _ known
      rw [injective v t.sorted hv inside same] at finds
      exact ⟨hs, finds.called⟩
  | busy =>
      have met := quiet _ List.mem_cons_self
      cases met
  | @inverse i operand r u inverse new idle operands =>
      obtain ⟨truth, finds⟩ := (mirrored.inverses finder hfind i operand).found (s.enter t.sorted.text)
        found u hs operands quiet
      refine ⟨truth, Eventually.called ?_⟩
      rw [inverse]
      simp only [plain] at finds
      exact finds
  | @found all u v hinv new idle ruled active cache log =>
      obtain ⟨truth, finds⟩ :=
        (mirrored.candidatesByRule finder hfind (simplified_mirrored hfind) rule t.sorted).found
          (s.enter t.sorted.text) all u hs ruled (quiet.suffix log)
      simp only [plain] at finds
      have finds := finds.kept hinv
      rw [← cache] at truth
      exact ⟨truth.cons inside finds, finds.called⟩

end Calls

/-- A search that remembers the truth finds what is found without memory. -/
theorem candidatesAmong_mirrored (options : SearchOptions) (rule : Term.FactoringRule α)
    (injective : ∀ t u, D t → D u → t.text = u.text → t = u) (depth : ℕ) (t : Term α) :
    Mirrored D options rule fun i =>
      i.elim (candidatesAmong D options rule depth t) fun depth =>
        plainWithin options rule depth t := by
  induction depth generalizing t with
  | zero =>
      refine ⟨fun s => List.suffix_rfl, fun s c u hs hrun _ => ?_⟩
      cases hrun
  | succ depth ih =>
      let finder (i : Option ℕ) : Finder α := fun t =>
        i.elim (candidatesAmong D options rule depth t) fun depth => plainWithin options rule depth t
      have among : candidatesAmong D options rule (depth + 1) t =
          if D t.sorted then candidatesVia options rule (finder none) t else throw .tooDeep := rfl
      simp only [among]
      by_cases inside : D t.sorted
      · simp only [if_pos inside]
        exact ⟨fun s => candidatesVia_log finder ih s t, fun s found u hs hrun quiet =>
          candidatesVia_found finder ih injective (fun _ => rfl) inside hs hrun quiet⟩
      · simp only [if_neg inside]
        refine ⟨fun s => List.suffix_rfl, fun s found u hs hrun _ => ?_⟩
        cases hrun

/-! ## A used search and a new one -/

/-- Whether a call, and every call nested in it, is for a term in `D`: it does the same if it fails
for all others. -/
def AsksOnly (D : Term α → Prop) [DecidablePred D] (options : SearchOptions)
    (rule : Term.FactoringRule α) (t : Term α) (s : SearchState α) : Prop :=
  (candidatesAmong D options rule options.depth t).run s = (candidates options rule t).run s

theorem asksOnly_of_ne_tooDeep
    (h : ((candidatesAmong D options rule options.depth t).run s).1 ≠ .error .tooDeep) :
    AsksOnly D options rule t s :=
  (candidatesAmong_run options rule options.depth t s h).symm

theorem asksOnly_of_ok (h : ((candidatesAmong D options rule options.depth t).run s).1 = .ok found) :
    AsksOnly D options rule t s :=
  asksOnly_of_ne_tooDeep (h ▸ nofun)

/-- The states of a search after calls that succeeded, and that were for terms in `D`. -/
inductive Used (D : Term α → Prop) [DecidablePred D] (options : SearchOptions)
    (rule : Term.FactoringRule α) : SearchState α → Prop
  | new : Used D options rule SearchState.start
  | call {s u : SearchState α} {found : List (Term α)} (hs : Used D options rule s) (t : Term α)
      (asks : AsksOnly D options rule t s) (hrun : (candidates options rule t).run s = (.ok found, u)) :
      Used D options rule u

theorem Used.truthful (injective : ∀ t u, D t → D u → t.text = u.text → t = u)
    (hs : Used D options rule s) (acyclic : Acyclic s.log) :
    Truthful D options rule s.cache := by
  induction hs with
  | new =>
      intro key found h
      cases h
  | @call s u found hs t asks hrun ih =>
      have mirrored := candidatesAmong_mirrored options rule injective options.depth t
      have among := asks.trans hrun
      have written : s.log <:+ ((candidatesAmong D options rule options.depth t).run s).2.log :=
        mirrored.log s
      rw [among] at written
      exact (mirrored.found s found u (ih (acyclic.suffix written)) among acyclic).1

/-- A search that was used for other terms finds the same candidates as a new one, if no two different
terms that either asks for have the same text, and neither meets a term again while it is at work. -/
theorem candidates_eq_fresh (injective : ∀ t u, D t → D u → t.text = u.text → t = u)
    (hs : Used D options rule s) {ts us : List (Term α)} {s' u' : SearchState α}
    (asks : AsksOnly D options rule t s) (hrun : (candidates options rule t).run s = (.ok us, s'))
    (asks' : AsksOnly D options rule t SearchState.start)
    (hrun' : (candidates options rule t).run SearchState.start = (.ok ts, u'))
    (acyclic : Acyclic s'.log) (acyclic' : Acyclic u'.log) : us = ts := by
  have mirrored := candidatesAmong_mirrored options rule injective options.depth t
  have among := asks.trans hrun
  have written : s.log <:+ ((candidatesAmong D options rule options.depth t).run s).2.log :=
    mirrored.log s
  rw [among] at written
  have unwritten : Acyclic (SearchState.start : SearchState α).log :=
    fun key hkey => absurd hkey List.not_mem_nil
  obtain ⟨_, depth, used⟩ := mirrored.found s us s'
    (hs.truthful injective (acyclic.suffix written)) among acyclic
  obtain ⟨_, depth', new⟩ := mirrored.found .start ts u'
    (Used.new.truthful injective unwritten) (asks'.trans hrun') acyclic'
  -- A depth at which the search without memory finds both lists
  have same := (used (max depth depth') (Nat.le_max_left depth depth') .start).symm.trans
    (new (max depth depth') (Nat.le_max_right depth depth') .start)
  exact Except.ok.inj same

omit [Scalar α] [DecidablePred D] in
theorem run_of_toOption {β : Type} {m : Search α β} {b : β} (h : (m.run s).1.toOption = some b) :
    m.run s = (.ok b, (m.run s).2) := by
  cases hrun : m.run s with
  | mk r u =>
      rw [hrun] at h
      cases r with
      | error e => cases h
      | ok c => rw [Option.some.inj h]

set_option maxRecDepth 100000 in
/-- After a search for `a+b`, what is known of `a` is used for `a*2`. -/
theorem candidates_eq_fresh_double :
    let find : Finder ℚ := candidates {} Term.factorings
    let a : Term ℚ := .var "a" none
    let b : Term ℚ := .var "b" none
    let power (t : Term ℚ) : Term ℚ := .bin .pow t (.num 1)
    let asked := [a, b, power a, power b, .num 1, .bin .add a b, .bin .mul (.num 2) a]
    let s := ((find (.bin .add a b)).run .start).2
    Used (∃ u ∈ asked, u = ·) {} Term.factorings s ∧ s.cache.length = 6 ∧
      ((find (.bin .mul a (.num 2))).run s).1 = ((find (.bin .mul a (.num 2))).run .start).1 := by
  intro find a b power asked s
  let product : Term ℚ := .bin .mul a (.num 2)
  have apart : ∀ t ∈ asked, ∀ u ∈ asked, t.text = u.text → t = u := by decide +kernel
  have injective (t u : Term ℚ) (ht : ∃ v ∈ asked, v = t) (hu : ∃ v ∈ asked, v = u) :
      t.text = u.text → t = u := by
    obtain ⟨t, ht, rfl⟩ := ht
    obtain ⟨u, hu, rfl⟩ := hu
    exact apart t ht u hu
  have sum := run_of_toOption (m := find (.bin .add a b)) (s := .start)
    (b := [.bin .add (power a) (power b)]) (by decide +kernel)
  have asksSum := run_of_toOption (s := .start) (b := [.bin .add (power a) (power b)])
    (m := candidatesAmong (∃ u ∈ asked, u = ·) {} Term.factorings 10000 (.bin .add a b)) (by decide +kernel)
  have used : Used (∃ u ∈ asked, u = ·) {} Term.factorings s :=
    Used.new.call (.bin .add a b) (asksOnly_of_ok (congrArg Prod.fst asksSum)) sum
  have old := run_of_toOption (m := find product) (s := s) (b := [.bin .mul (.num 2) (power a)])
    (by decide +kernel)
  have asksOld := run_of_toOption (s := s) (b := [.bin .mul (.num 2) (power a)])
    (m := candidatesAmong (∃ u ∈ asked, u = ·) {} Term.factorings 10000 product) (by decide +kernel)
  have new := run_of_toOption (m := find product) (s := .start)
    (b := [.bin .mul (.num 2) (power a)]) (by decide +kernel)
  have asksNew := run_of_toOption (s := .start) (b := [.bin .mul (.num 2) (power a)])
    (m := candidatesAmong (∃ u ∈ asked, u = ·) {} Term.factorings 10000 product) (by decide +kernel)
  have same := candidates_eq_fresh injective used (asksOnly_of_ok (congrArg Prod.fst asksOld)) old
    (asksOnly_of_ok (congrArg Prod.fst asksNew)) new (by unfold Acyclic; decide +kernel)
    (by unfold Acyclic; decide +kernel)
  refine ⟨used, by decide +kernel, ?_⟩
  rw [old, new]

omit [Scalar α] [DecidablePred D] in
theorem exists_run {β γ : Type} {m : Search α β} {f : β → γ} {c : γ}
    (h : (m.run s).1.toOption.map f = some c) : ∃ b, m.run s = (.ok b, (m.run s).2) ∧ f b = c := by
  obtain ⟨b, hb, hf⟩ := Option.map_eq_some_iff.1 h
  exact ⟨b, run_of_toOption hb, hf⟩

set_option maxRecDepth 100000 in
/-- The products of `a^(-1)` with the number `-3` and with the negated `3` have the same text, and so
the candidates of the one are taken for those of the other.  Inside of `x+x^(1+b)` there is a sum that
is factored by way of `x+x^(1+b)`, and not to the end then. -/
theorem memory_shows :
    (∃ e e' : Term ℚ, ∃ found us ts s s' u',
      (candidates {} Term.factorings e).run .start = (.ok found, s) ∧
      (candidates {} Term.factorings e').run s = (.ok us, s') ∧
      (candidates {} Term.factorings e').run .start = (.ok ts, u') ∧
      us.map Term.text ≠ ts.map Term.text ∧ Acyclic s'.log ∧ Acyclic u'.log) ∧
    ∃ e e' : Term ℚ, ∃ found us ts s s' u',
      (candidates { mostCandidates := some 1 } Term.factorings e).run .start = (.ok found, s) ∧
      (candidates { mostCandidates := some 1 } Term.factorings e').run s = (.ok us, s') ∧
      (candidates { mostCandidates := some 1 } Term.factorings e').run .start = (.ok ts, u') ∧
      us.map Term.text ≠ ts.map Term.text := by
  let a : Term ℚ := .var "a" none
  let inverse : Term ℚ := .bin .pow a (.num (-1))
  let literal : Term ℚ := .bin .mul inverse (.num (-3))
  let negated : Term ℚ := .bin .mul inverse (.inv .neg (.num 3))
  let b : Term ℚ := .bin .pow (.var "b" none) (.num 1)
  let more : Term ℚ := .bin .sub (.bin .add (.num 1) b) (.num 1)
  let less : Term ℚ := .bin .sub (.bin .sub (.num 1) b) (.num 1)
  let power (e : Term ℚ) : Term ℚ := .bin .pow (.var "x" none) e
  let outer : Term ℚ := .bin .add (power (.num 1)) (power (.bin .add (.num 1) (.var "b" none)))
  let inner : Term ℚ := .bin .add (power (.bin .sub (.bin .sub (.num 1) b) less))
    (power (.bin .sub (.num 1) less))
  constructor
  · let find : Finder ℚ := candidates {} Term.factorings
    let s := ((find literal).run .start).2
    obtain ⟨found, hfound, _⟩ := exists_run (s := .start) (m := find literal)
      (f := List.map Term.text) (c := ["-3*a^(-1)"]) (by decide +kernel)
    obtain ⟨us, hus, texts⟩ := exists_run (s := s) (m := find negated)
      (f := List.map Term.text) (c := ["-3*a^(-1)"]) (by decide +kernel)
    obtain ⟨ts, hts, texts'⟩ := exists_run (s := .start) (m := find negated)
      (f := List.map Term.text) (c := ["-3*1 / a"]) (by decide +kernel)
    refine ⟨literal, negated, found, us, ts, _, _, _, hfound, hus, hts, ?_,
      by unfold Acyclic; decide +kernel, by unfold Acyclic; decide +kernel⟩
    rw [texts, texts']
    decide
  · let find : Finder ℚ := candidates { mostCandidates := some 1 } Term.factorings
    let s := ((find outer).run .start).2
    obtain ⟨found, hfound, _⟩ := exists_run (s := .start) (m := find outer)
      (f := List.length) (c := 1) (by decide +kernel)
    obtain ⟨us, hus, texts⟩ := exists_run (s := s) (m := find inner) (f := List.map Term.text)
      (c := ["x^(1+b^1-1)*(x^(1-(1+b^1-1))+x^(1+b^1-(1+b^1-1)))"]) (by decide +kernel)
    obtain ⟨ts, hts, texts'⟩ := exists_run (s := .start) (m := find inner) (f := List.map Term.text)
      (c := ["x^(1+b^1-1)*x^(1-b^1-1)*(x^(1-b^1-(1-b^1-1))+x^(1-(1-b^1-1)))"]) (by decide +kernel)
    refine ⟨outer, inner, found, us, ts, _, _, _, hfound, hus, hts, ?_⟩
    rw [texts, texts']
    decide

end Search

end AlgebraicTerms
