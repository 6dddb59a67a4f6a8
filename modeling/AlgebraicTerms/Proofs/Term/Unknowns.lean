import AlgebraicTerms.Proofs.Term.Forms
import AlgebraicTerms.Search.Sum
import Mathlib.Data.List.Flatten
import Mathlib.Data.List.Nodup
import Mathlib.Data.List.Perm.Subperm

/-!
# The unknowns of a term

The places at which variables occur, from left to right.  Taking a term apart keeps them, and
converting it or putting operands together and in order adds none.  The value of a term depends on the
variables that occur in it and on no others.
-/

namespace AlgebraicTerms

namespace Term

variable {α : Type}

/-- A variable by its name and index. -/
abbrev Unknown := String × Option String

/-- The variables of the term, each as often as it occurs. -/
def unknowns : Term α → List Unknown
  | var name index => [(name, index)]
  | call _ t | inv _ t => t.unknowns
  | bin _ l r => l.unknowns ++ r.unknowns
  | _ => []

def allUnknowns (ts : List (Term α)) : List Unknown := ts.flatMap unknowns

theorem nodup_of_subperm {vs ws : List Unknown} (h : vs.Subperm ws) (nodup : ws.Nodup) :
    vs.Nodup := by
  obtain ⟨xs, perm, sublist⟩ := h
  exact perm.nodup_iff.1 (nodup.sublist sublist)

variable {c : Chain} {t u : Term α} {ts us : List (Term α)}

@[simp] theorem allUnknowns_cons : allUnknowns (t :: ts) = t.unknowns ++ allUnknowns ts := rfl

theorem allUnknowns_singleton : allUnknowns [t] = t.unknowns := List.append_nil _

@[simp] theorem allUnknowns_append : allUnknowns (ts ++ us) = allUnknowns ts ++ allUnknowns us :=
  List.flatMap_append

theorem allUnknowns_perm (h : ts.Perm us) : (allUnknowns ts).Perm (allUnknowns us) :=
  h.flatMap_right _

theorem allUnknowns_map {f : Term α → Term α} (hf : ∀ t, (f t).unknowns = t.unknowns) :
    allUnknowns (ts.map f) = allUnknowns ts := by
  rw [allUnknowns, List.flatMap_map]
  exact congrArg (ts.flatMap ·) (funext hf)

theorem allUnknowns_map_sublist {f : Term α → Term α}
    (hf : ∀ t ∈ ts, (f t).unknowns.Sublist t.unknowns) :
    (allUnknowns (ts.map f)).Sublist (allUnknowns ts) := by
  rw [allUnknowns, List.flatMap_map]
  exact .flatMap_right ts hf

/-- Terms with at most one variable each, all different. -/
theorem allUnknowns_nodup (single : ∀ t ∈ ts, t.unknowns.length ≤ 1)
    (apart : ts.Pairwise fun t u => t.unknowns ≠ u.unknowns) : (allUnknowns ts).Nodup := by
  have own {t : Term α} {v : Unknown} (ht : t ∈ ts) (hv : v ∈ t.unknowns) : t.unknowns = [v] :=
    ((List.singleton_sublist.2 hv).eq_of_length_le (single t ht)).symm
  refine List.nodup_flatMap.2 ⟨fun t ht => ?_, apart.imp_of_mem fun ht hu differ v hv hv' => ?_⟩
  · cases hns : t.unknowns with
    | nil => exact List.nodup_nil
    | cons v ns =>
        rw [← hns, own ht (hns ▸ List.mem_cons_self)]
        exact List.nodup_singleton v
  · exact differ ((own ht hv).trans (own hu hv').symm)

theorem allUnknowns_splice {op : Operator} :
    allUnknowns (c.splice op ts us) = allUnknowns ts ++ allUnknowns us := by
  rw [Chain.splice, allUnknowns_append]
  split
  · rfl
  · rw [allUnknowns_map (f := .inv c.inverse) fun _ => rfl]

/-- The operands of a term have its variables. -/
theorem operandsIn_unknowns (c : Chain) (t : Term α) :
    allUnknowns (t.operandsIn c) = t.unknowns := by
  induction t with
  | bin op l r ihl ihr =>
      rw [operandsIn]
      split
      · rw [allUnknowns_splice, ihl, ihr]
        rfl
      · exact List.append_nil _
  | _ => exact List.append_nil _

/-! ## Conversions -/

section Conversions

variable [Scalar α]

theorem unknowns_of_isNumber (h : t.isNumber = true) : t.unknowns = [] := by
  cases t <;> first | rfl | cases h

theorem not_isNumber_of_mem_unknowns {v : Unknown} (h : v ∈ t.unknowns) : t.isNumber = false := by
  refine Bool.eq_false_iff.2 fun number => ?_
  rw [unknowns_of_isNumber number] at h
  cases h

theorem append_unknowns (c : Chain) (t u : Term α) :
    (c.append t u).unknowns.Sublist (t.unknowns ++ u.unknowns) := by
  unfold Chain.append
  split
  · exact List.sublist_append_left _ _
  · split
    · exact List.sublist_append_right _ _
    · split
      · split <;> exact .refl _
      · split <;> exact .refl _
      · exact .refl _

/-- Joining operands adds no variables. -/
theorem join_unknowns (c : Chain) (ts : List (Term α)) :
    (c.join ts).unknowns.Sublist (allUnknowns ts) := by
  cases ts with
  | nil => exact .refl _
  | cons t ts =>
      show (ts.foldl c.append t).unknowns.Sublist (t.unknowns ++ allUnknowns ts)
      induction ts generalizing t with
      | nil => exact List.sublist_append_left _ _
      | cons u us ih =>
          refine (ih (c.append t u)).trans ?_
          rw [allUnknowns_cons, ← List.append_assoc]
          exact (append_unknowns c t u).append_right _

theorem sorted_unknowns (t : Term α) : t.sorted.unknowns.Subperm t.unknowns := by
  have inOrder {c : Chain} {ts : List (Term α)} {ns : List Unknown}
      (h : (allUnknowns ts).Subperm ns) : (c.join (sortByKey ts)).unknowns.Subperm ns :=
    (join_unknowns c _).subperm.trans ((allUnknowns_perm (sortByKey_perm ts)).symm.subperm.trans h)
  have own {t : Term α} {ns : List Unknown} (h : t.unknowns.Subperm ns) :
      (allUnknowns [t]).Subperm ns := by
    rwa [allUnknowns_singleton]
  have both (t : Term α) : t.sorted.unknowns.Subperm t.unknowns ∧
      ∀ c, (allUnknowns (t.sortedOperands c)).Subperm t.unknowns := by
    induction t with
    | bin op l r ihl ihr =>
        cases hop : Chain.of? op with
        | none =>
            simp only [sorted, sortedOperands, hop]
            exact ⟨.refl _, fun c => own (.refl _)⟩
        | some c =>
            have operands : (allUnknowns (c.splice op (l.sortedOperands c)
                (r.sortedOperands c))).Subperm (l.unknowns ++ r.unknowns) := by
              rw [allUnknowns_splice]
              exact (ihl.2 c).append (ihr.2 c)
            simp only [sorted, sortedOperands, hop]
            refine ⟨inOrder operands, fun c' => ?_⟩
            split
            · exact operands
            · exact own (inOrder operands)
    | call k t ih | inv i t ih =>
        exact ⟨ih.1, fun c => own ih.1⟩
    | _ => exact ⟨.refl _, fun c => own (.refl _)⟩
  exact (both t).1

theorem withExponents_unknowns (t : Term α) : t.withExponents.unknowns = t.unknowns := by
  induction t with
  | bin op l r ihl ihr =>
      cases op with
      | pow => rfl
      | _ => exact congrArg₂ (· ++ ·) ihl ihr
  | inv i t ih => exact ih
  | call k t ih => exact List.append_nil _
  | _ => rfl

theorem negationsAsProducts_unknowns (t : Term α) :
    t.negationsAsProducts.unknowns = t.unknowns := by
  have both (t : Term α) : t.negationsAsProducts.unknowns = t.unknowns ∧
      (inv .neg t).negationsAsProducts.unknowns = t.unknowns := by
    induction t with
    | bin op l r ihl ihr => exact ⟨congrArg₂ (· ++ ·) ihl.1 ihr.1, rfl⟩
    | inv i t ih =>
        cases i with
        | neg => exact ⟨ih.2, ih.1⟩
        | recip => exact ⟨rfl, rfl⟩
    | _ => exact ⟨rfl, rfl⟩
  exact (both t).1

theorem withoutTrivialPowers_unknowns (t : Term α) :
    t.withoutTrivialPowers.unknowns.Sublist t.unknowns := by
  induction t with
  | bin op l r ihl ihr =>
      cases op with
      | pow =>
          rw [withoutTrivialPowers]
          split
          · exact ihl.trans (List.sublist_append_left _ _)
          · split
            · exact List.nil_sublist _
            · exact ihl.append ihr
      | _ => exact ihl.append ihr
  | inv i t ih | call k t ih => exact ih
  | _ => exact .refl _

theorem negated_unknowns (t : Term α) : t.negated.unknowns = t.unknowns := by
  cases t with
  | inv i t => cases i <;> rfl
  | _ => rfl

theorem withCoefficient_unknowns (t : Term α) :
    t.withCoefficient.unknowns.Sublist t.unknowns := by
  have gathered (ts : List (Term α)) (g : Gathered α) : allUnknowns (ts.foldl Gathered.add g).factors =
      allUnknowns g.factors ++ allUnknowns ts := by
    induction ts generalizing g with
    | nil => exact (List.append_nil _).symm
    | cons t ts ih =>
        rw [List.foldl_cons, ih, allUnknowns_cons, ← List.append_assoc]
        congr 1
        cases hn : t.number? with
        | some n =>
            have number : t.isNumber = true := by rw [isNumber, hn]; rfl
            simp only [Gathered.add, hn, unknowns_of_isNumber number, List.append_nil]
        | none =>
            cases t with
            | inv i t =>
                cases i <;> exact allUnknowns_append.trans (congrArg _ (List.append_nil _))
            | num n | const c => cases hn
            | _ => exact allUnknowns_append.trans (congrArg _ (List.append_nil _))
  have toTerm (g : Gathered α) : g.toTerm.unknowns.Sublist (allUnknowns g.factors) := by
    rw [Gathered.toTerm]
    split
    · exact join_unknowns _ _
    · split
      · exact join_unknowns _ _
      · split
        · exact List.nil_sublist _
        · split
          · exact join_unknowns _ _
          · exact join_unknowns _ _
  cases t with
  | bin op l r =>
      cases op with
      | mul =>
          have whole := toTerm ((bin .mul l r).operands.foldl Gathered.add ⟨Scalar.one, []⟩)
          rw [gathered, operands_of_chain rfl, operandsIn_unknowns] at whole
          exact whole
      | _ => exact .refl _
  | _ => exact .refl _

theorem finishSum_unknowns (t : Term α) : (Search.finishSum t).unknowns.Sublist t.unknowns := by
  refine (join_unknowns _ _).trans ?_
  refine (allUnknowns_map_sublist fun t _ => withCoefficient_unknowns t).trans ?_
  rw [summands, allUnknowns_cons, operandsIn_unknowns]
  exact .refl _

end Conversions

/-! ## Values -/

section Values

variable [Scalar α] [Scalar.Exact α] {K : Type*} [Field K] {ρ ρ' : Assignment K} {a : K}

/-- A value depends only on the variables that occur. -/
theorem HasValue.congr (h : t.HasValue ρ a) (hρ : ∀ v ∈ t.unknowns, ρ v.1 v.2 = ρ' v.1 v.2) :
    t.HasValue ρ' a := by
  have left {l r : Term α} (hρ : ∀ v ∈ l.unknowns ++ r.unknowns, ρ v.1 v.2 = ρ' v.1 v.2) :
      ∀ v ∈ l.unknowns, ρ v.1 v.2 = ρ' v.1 v.2 := fun v hv => hρ v (List.mem_append_left _ hv)
  have right {l r : Term α} (hρ : ∀ v ∈ l.unknowns ++ r.unknowns, ρ v.1 v.2 = ρ' v.1 v.2) :
      ∀ v ∈ r.unknowns, ρ v.1 v.2 = ρ' v.1 v.2 := fun v hv => hρ v (List.mem_append_right _ hv)
  induction h with
  | num n => exact .num n
  | @var name index legible =>
      have same : ρ name index = ρ' name index := hρ (name, index) List.mem_cons_self
      rw [same]
      exact .var legible
  | neg _ ih => exact .neg (ih hρ)
  | recip _ hne ih => exact .recip (ih hρ) hne
  | add _ _ ihl ihr => exact .add (ihl (left hρ)) (ihr (right hρ))
  | sub _ _ ihl ihr => exact .sub (ihl (left hρ)) (ihr (right hρ))
  | mul _ _ ihl ihr => exact .mul (ihl (left hρ)) (ihr (right hρ))
  | div _ _ hne ihl ihr => exact .div (ihl (left hρ)) (ihr (right hρ)) hne
  | pow _ _ hne ihl ihr => exact .pow (ihl (left hρ)) (ihr (right hρ)) hne
  | zeroPow _ _ literal ihl ihr => exact .zeroPow (ihl (left hρ)) (ihr (right hρ)) literal

end Values

end Term

end AlgebraicTerms
