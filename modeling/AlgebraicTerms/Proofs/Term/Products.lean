import AlgebraicTerms.Proofs.Term.Operands
import AlgebraicTerms.Term.Expansion

/-!
# Products multiplied out

The products that factors multiply out to are one product, of the factors that are no sums, that all
sums are distributed over.  They are made of these factors and of the summands of the sums
(`exists_mem_expandedProducts`).
-/

namespace AlgebraicTerms

namespace Term

variable {α : Type} {t q : Term α} {ts : List (Term α)} {ps : List (List (Term α))}

theorem operands_of_isSum (h : t.isSum = true) : t.operands = t.operandsIn .sum := by
  cases t with
  | bin op l r =>
      have hop : Chain.of? op = some .sum := by cases op <;> first | rfl | cases h
      exact operands_of_chain hop l r
  | _ => cases h

/-- The factors that are no sums are a product that the sums are multiplied with. -/
theorem expandedProducts_eq (ts : List (Term α)) :
    expandedProducts ts = (ts.filter isSum).foldl distribute [ts.filter (!·.isSum)] := by
  rw [expandedProducts]
  split
  · rename_i none
    rw [List.isEmpty_iff.1 none]
    split
    · rename_i empty
      rw [empty]
      rfl
    · rename_i first rest cons
      rw [cons, List.foldl_cons, distribute, List.flatMap_singleton]
  · rfl

theorem exists_mem_distribute (hps : ps ≠ []) (ht : t.operands ≠ []) :
    (∃ p ∈ distribute ps t, q ∈ p) ↔ (∃ p ∈ ps, q ∈ p) ∨ q ∈ t.operands := by
  constructor
  · rintro ⟨p, hp, hq⟩
    obtain ⟨p', hp', hp⟩ := List.mem_flatMap.1 hp
    obtain ⟨u, hu, rfl⟩ := List.mem_map.1 hp
    rcases List.mem_cons.1 hq with rfl | hq
    · exact .inr hu
    · exact .inl ⟨p', hp', hq⟩
  · have product {p : List (Term α)} {u : Term α} (hp : p ∈ ps) (hu : u ∈ t.operands) :
        u :: p ∈ distribute ps t := List.mem_flatMap.2 ⟨p, hp, List.mem_map_of_mem hu⟩
    rintro (⟨p, hp, hq⟩ | hq)
    · obtain ⟨u, hu⟩ := List.exists_mem_of_ne_nil _ ht
      exact ⟨u :: p, product hp hu, List.mem_cons_of_mem u hq⟩
    · obtain ⟨p, hp⟩ := List.exists_mem_of_ne_nil _ hps
      exact ⟨q :: p, product hp hq, List.mem_cons_self⟩

theorem distribute_ne_nil (hps : ps ≠ []) (ht : t.operands ≠ []) : distribute ps t ≠ [] := by
  obtain ⟨u, hu⟩ := List.exists_mem_of_ne_nil _ ht
  obtain ⟨p, hp, _⟩ := (exists_mem_distribute hps ht).2 (.inr hu)
  exact List.ne_nil_of_mem hp

/-- The products are made of the factors that are no sums and of the summands of the others. -/
theorem exists_mem_expandedProducts : (∃ p ∈ expandedProducts ts, q ∈ p) ↔
    q ∈ ts ∧ q.isSum = false ∨ ∃ s ∈ ts, s.isSum = true ∧ q ∈ s.operands := by
  have fold {ss : List (Term α)} {ps : List (List (Term α))} (hps : ps ≠ []) :
      (∃ p ∈ ss.foldl distribute ps, q ∈ p) ↔ (∃ p ∈ ps, q ∈ p) ∨ ∃ s ∈ ss, q ∈ s.operands := by
    induction ss generalizing ps with
    | nil => simp
    | cons s ss ih =>
        have hne := operands_ne_nil s
        rw [List.foldl_cons, ih (distribute_ne_nil hps hne), exists_mem_distribute hps hne,
          or_assoc]
        simp
  rw [expandedProducts_eq, fold (List.cons_ne_nil _ _)]
  simp [and_assoc]

end Term

end AlgebraicTerms
