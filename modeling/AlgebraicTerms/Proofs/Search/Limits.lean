import AlgebraicTerms.Proofs.Search.State
import AlgebraicTerms.Proofs.Simplify

/-!
# Large limits

A search that returns keeps only finitely many candidates of finitely many terms, and calls itself
only so deep.  So a limit on the candidates that is large enough drops none, and the search with that
limit does the same, step by step (`simplify_eventually_unlimited`).
-/

namespace AlgebraicTerms

namespace Search

variable {α β : Type}

/-- A search without a limit on the candidates, or with a limit and with calls nested deeper. -/
abbrev Limit := Option (ℕ × ℕ)

/-- The options with the limit. -/
def Limit.options (limit : Limit) : SearchOptions := { mostCandidates := limit.map Prod.fst }

/-- How much deeper calls may be nested. -/
def Limit.deeper : Limit → ℕ
  | none => 0
  | some (_, deeper) => deeper

/-- Whether the searches with a limit do what the one without does where it returns, from some limit
on. -/
def Approaches (m : Limit → Search α β) : Prop :=
  ∀ s, ((m none).run s).1 ≠ .error .tooDeep →
    ∃ enough, ∀ most ≥ enough, ∀ deeper, (m (some (most, deeper))).run s = (m none).run s

theorem Approaches.const (m : Search α β) : Approaches fun _ => m :=
  fun _ _ => ⟨0, fun _ _ _ => rfl⟩

theorem Approaches.bind {γ : Type} {m : Limit → Search α β} {f : Limit → β → Search α γ}
    (hm : Approaches m) (hf : ∀ b, Approaches fun limit => f limit b) :
    Approaches fun limit => m limit >>= f limit := by
  intro s returns
  have first := hm s
  simp only [run_bind] at returns ⊢
  cases hrun : (m none).run s with
  | mk r u =>
      rw [hrun] at returns first
      cases r with
      | error e =>
          have failed : e ≠ .tooDeep := fun deep => returns (deep ▸ rfl)
          obtain ⟨enough, same⟩ := first fun deep => failed (Except.error.inj deep)
          refine ⟨enough, fun most large deeper => ?_⟩
          rw [same most large deeper]
      | ok b =>
          obtain ⟨enough, same⟩ := first fun failed => by cases failed
          obtain ⟨enough', same'⟩ := hf b u returns
          refine ⟨max enough enough', fun most large deeper => ?_⟩
          rw [same most (by omega) deeper]
          exact same' most (by omega) deeper

theorem approaches_sequential : Sequential (α := α) fun _ m => Approaches m where
  pure b := .const (pure b)
  bind := .bind
  fail e := .const (throw (.domain e))
  note e := .const (note e)

variable [Scalar α]

/-- A limit of as many candidates as there are drops none. -/
theorem kept_approaches (ts : List (Term α)) : Approaches fun limit => kept limit.options ts := by
  intro s _
  refine ⟨(distinct [] ts).length, fun most large deeper => ?_⟩
  have few : ¬ (distinct [] ts).length > max most 1 := by omega
  show (if (distinct [] ts).length > max most 1 then _ else pure (distinct [] ts) :
    Search α (List (Term α))).run s = _
  rw [if_neg few]
  rfl

variable {rule : Term.FactoringRule α} {finder : Limit → Finder α} {depth : ℕ}

theorem simplified_approaches (hfind : ∀ t, Approaches fun limit => finder limit t) (t : Term α) :
    Approaches fun limit => simplified (finder limit) t := by
  by_cases empty : t = .empty
  · rw [empty]
    exact .const (pure Term.empty)
  · intro s returns
    rw [simplified_run _ empty] at returns
    have inner := hfind t.expanded.withExponents { SearchState.start with log := s.log }
    obtain ⟨enough, same⟩ := inner fun failed => returns (by rw [failed]; rfl)
    exact ⟨enough, fun most large deeper => simplified_congr (same most large deeper)⟩

variable (finder) (hfind : ∀ t, Approaches fun limit => finder limit t)

include hfind

theorem compute_approaches (t : Term α) (key : String) :
    Approaches fun limit => compute limit.options rule (finder limit) t key := by
  by_cases inverse : ∃ i operand, t = .inv i operand
  · obtain ⟨i, operand, rfl⟩ := inverse
    exact approaches_sequential.inverses finder hfind i operand
  · have hinv : ∀ i operand, t ≠ .inv i operand := fun i operand h => inverse ⟨i, operand, h⟩
    have byRule := approaches_sequential.candidatesByRule finder hfind (simplified_approaches hfind)
      rule t
    simp only [compute_by_rule hinv]
    refine byRule.bind fun all => ?_
    refine (kept_approaches all).bind fun found => ?_
    exact .const (note (.found found.length key) >>= fun _ => do
      modify fun s => { s with cache := (key, found) :: s.cache }
      return found)

theorem candidatesVia_approaches (t : Term α) :
    Approaches fun limit => candidatesVia limit.options rule (finder limit) t := by
  intro s returns
  by_cases idle : s.cache.lookup t.sorted.text = none ∧ t.sorted.text ∉ s.active
  · rw [candidatesVia_run idle.1 idle.2, working_run] at returns
    obtain ⟨enough, same⟩ := compute_approaches finder hfind t.sorted t.sorted.text
      (s.enter t.sorted.text) returns
    exact ⟨enough, fun most large deeper =>
      candidatesVia_congr fun _ _ => same most large deeper⟩
  · exact ⟨0, fun most _ deeper =>
      candidatesVia_congr fun new free => absurd ⟨new, free⟩ idle⟩

omit hfind in
theorem candidatesWithin_approaches (rule : Term.FactoringRule α) (depth : ℕ) (t : Term α) :
    Approaches fun limit => candidatesWithin limit.options rule (depth + limit.deeper) t := by
  induction depth generalizing t with
  | zero => exact fun s returns => absurd rfl returns
  | succ depth ih =>
      have step (limit : Limit) : candidatesWithin limit.options rule (depth + 1 + limit.deeper) t =
          candidatesVia limit.options rule
            (candidatesWithin limit.options rule (depth + limit.deeper)) t := by
        rw [Nat.add_right_comm]
        rfl
      simp only [step]
      exact candidatesVia_approaches _ ih t

end Search

namespace Term

variable {α : Type} [Scalar α]

/-- If simplification without a limit returns a term or an error, it returns the same with every limit
from some limit on, also if calls may be nested deeper. -/
theorem simplify_eventually_unlimited (t : Term α) (depth : ℕ)
    (returns : t.simplify ⟨none, depth⟩ ≠ .error .tooDeep) :
    ∃ enough, ∀ most ≥ enough, ∀ deeper ≥ depth,
      t.simplify ⟨some most, deeper⟩ = t.simplify ⟨none, depth⟩ := by
  have search : Search.Approaches fun limit =>
      Search.simplified (Search.candidatesWithin limit.options factorings (depth + limit.deeper)) t :=
    Search.simplified_approaches (Search.candidatesWithin_approaches factorings depth) t
  have outcome (most : Option ℕ) (deepest : ℕ) : t.simplify ⟨most, deepest⟩ =
      ((Search.simplified (Search.candidatesWithin ⟨most, 10000⟩ factorings deepest) t).run .start).1 := by
    rw [Search.candidatesWithin_congr most 10000 deepest]
    rfl
  rw [outcome] at returns
  obtain ⟨enough, same⟩ := search .start returns
  refine ⟨enough, fun most large deeper hdeeper => ?_⟩
  obtain ⟨more, rfl⟩ := Nat.exists_eq_add_of_le hdeeper
  rw [outcome, outcome]
  exact congrArg Prod.fst (same most large more)

set_option maxRecDepth 100000 in
/-- `a^2+2*a*b+b^2` becomes `(a+b)^2` with a large limit, and `a*(a+2*b)+b^2` if only one candidate
is kept. -/
theorem simplify_eventually_unlimited_square :
    let a : Term ℚ := var "a" none
    let b : Term ℚ := var "b" none
    let square (a b : Term ℚ) := bin .add (bin .add (bin .pow a (num 2))
      (bin .mul (bin .mul (num 2) a) b)) (bin .pow b (num 2))
    let closed := bin .pow (bin .add a b) (num 2)
    let factored := bin .add (bin .mul a (bin .add a (bin .mul (num 2) b))) (bin .pow b (num 2))
    (square a b).simplify ⟨some 1, 40⟩ = .ok factored ∧
      ∃ enough, ∀ most ≥ enough, ∀ deeper ≥ 40, (square a b).simplify ⟨some most, deeper⟩ = .ok closed := by
  intro a b square closed factored
  have one : (square a b).simplify ⟨some 1, 40⟩ = .ok factored := ok_of_toOption (by decide +kernel)
  have unlimited : (square a b).simplify ⟨none, 40⟩ = .ok closed := ok_of_toOption (by decide +kernel)
  have returns : (square a b).simplify ⟨none, 40⟩ ≠ .error .tooDeep := by
    rw [unlimited]
    exact fun failed => by cases failed
  obtain ⟨enough, same⟩ := simplify_eventually_unlimited (square a b) 40 returns
  refine ⟨one, enough, fun most large deeper hdeeper => ?_⟩
  rw [same most large deeper hdeeper, unlimited]

end Term

end AlgebraicTerms
