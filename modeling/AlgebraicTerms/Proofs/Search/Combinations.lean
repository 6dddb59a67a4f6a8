import AlgebraicTerms.Search
import Mathlib.Algebra.BigOperators.Fin
import Mathlib.Data.Fintype.BigOperators
import Mathlib.Data.List.OfFn
import Mathlib.Data.List.Sections

/-!
# Combinations

The combinations of lists are the sections of them, in the order of their numbers: the number of a
combination, written with one digit for each list and the digit of the first list last, has as its
digits the positions at which the lists are read (`combinations_enumerate`).
-/

namespace AlgebraicTerms

variable {α : Type}

/-- Lists that are added to the combinations of others come behind them. -/
theorem foldl_combinations (combos lists : List (List α)) :
    lists.foldl (fun combos list => list.flatMap fun x => combos.map fun combo => combo ++ [x])
        combos =
      lists.sections.flatMap fun rest => combos.map (· ++ rest) := by
  induction lists generalizing combos with
  | nil => simp
  | cons list lists ih =>
      rw [List.foldl_cons, ih]
      simp only [List.sections, List.flatMap_assoc, List.flatMap_map, List.map_flatMap,
        List.map_map, Function.comp_def, List.append_assoc, List.cons_append, List.nil_append]

theorem combinations_eq_sections (lists : List (List α)) : combinations lists = lists.sections := by
  rw [combinations, foldl_combinations]
  simp

theorem combinations_ne_nil {lists : List (List α)} (h : ∀ list ∈ lists, list ≠ []) :
    combinations lists ≠ [] := by
  rw [combinations_eq_sections]
  induction lists with
  | nil => exact List.cons_ne_nil _ _
  | cons list lists ih =>
      obtain ⟨some, rest⟩ := List.forall_mem_cons.1 h
      obtain ⟨x, hx⟩ := List.exists_mem_of_ne_nil _ some
      obtain ⟨xs, hxs⟩ := List.exists_mem_of_ne_nil _ (ih rest)
      have both : x :: xs ∈ (list :: lists).sections :=
        List.mem_sections.2 (.cons hx (List.mem_sections.1 hxs))
      exact List.ne_nil_of_mem both

/-! ## Numbers of combinations -/

/-- How many combinations there are of the lists before the given one. -/
def combinationsBefore (lists : List (List α)) (i : Nat) : Nat :=
  ((lists.take i).map List.length).prod

theorem length_pos_of_lt_prod {lists : List (List α)} {k : Nat}
    (hk : k < (lists.map List.length).prod) (i : Fin lists.length) : 0 < lists[i].length := by
  refine Nat.pos_of_ne_zero fun empty => ?_
  have zero : 0 ∈ lists.map List.length :=
    List.mem_map.2 ⟨lists[i], List.getElem_mem i.isLt, empty⟩
  rw [List.prod_eq_zero zero] at hk
  exact Nat.not_lt_zero k hk

/-- The position at which a combination reads a list: a digit of the number of the combination. -/
def positionIn (lists : List (List α)) (k : Fin (lists.map List.length).prod)
    (i : Fin lists.length) : Fin lists[i].length :=
  ⟨k / combinationsBefore lists i % lists[i].length, Nat.mod_lt _ (length_pos_of_lt_prod k.isLt i)⟩

variable {list : List α} {lists : List (List α)}

/-- Behind its last digit, a number goes on with the digits of the quotient. -/
theorem digit_succ (list : List α) (lists : List (List α)) (k i : Nat) :
    k / combinationsBefore (list :: lists) (i + 1) = k / list.length / combinationsBefore lists i := by
  have before : combinationsBefore (list :: lists) (i + 1) =
      list.length * combinationsBefore lists i := List.prod_cons
  rw [before, Nat.div_div_eq_div_mul]

/-- A number is known by its digits. -/
theorem positionIn_injective (lists : List (List α)) : Function.Injective (positionIn lists) := by
  induction lists with
  | nil => exact fun k k' _ => Subsingleton.elim (α := Fin 1) k k'
  | cons list lists ih =>
      intro k k' same
      have digit (i : Fin (lists.length + 1)) := congrArg Fin.val (congrFun same i)
      have last : k.val % list.length = k'.val % list.length := by
        have h := digit 0
        simpa [positionIn, combinationsBefore] using h
      have bound (k : Fin ((list :: lists).map List.length).prod) :
          k.val / list.length < (lists.map List.length).prod :=
        Nat.div_lt_of_lt_mul k.isLt
      have rest : k.val / list.length = k'.val / list.length := by
        refine congrArg Fin.val (@ih ⟨_, bound k⟩ ⟨_, bound k'⟩ ?_)
        funext i
        have h := digit i.succ
        simp only [positionIn, Fin.val_succ, digit_succ] at h
        exact Fin.ext h
      refine Fin.ext ?_
      rw [← Nat.div_add_mod k.val list.length, rest, last, Nat.div_add_mod]

/-- Every way to read the lists has one number. -/
theorem positionIn_bijective (lists : List (List α)) : Function.Bijective (positionIn lists) := by
  refine (Fintype.bijective_iff_injective_and_card _).2 ⟨positionIn_injective lists, ?_⟩
  have each (i : Fin lists.length) : Fintype.card (Fin lists[i].length) = lists[i].length :=
    Fintype.card_fin _
  rw [Fintype.card_fin, Fintype.card_pi, Finset.prod_congr rfl fun i _ => each i]
  exact (Fin.prod_univ_fun_getElem lists List.length).symm

/-- The combination with the given number. -/
def combinationAt (lists : List (List α)) (k : Fin (lists.map List.length).prod) : List α :=
  List.ofFn fun i => lists[i][positionIn lists k i]

/-- The first list is read at the remainder of the number, and the others as by the quotient. -/
theorem combinationAt_cons (k : Fin (lists.map List.length).prod) (j : Fin list.length)
    (bound : list.length * k + j < ((list :: lists).map List.length).prod) :
    combinationAt (list :: lists) ⟨list.length * k + j, bound⟩ =
      list[j] :: combinationAt lists k := by
  have remainder : (list.length * k + j) % list.length = j := by
    rw [Nat.mul_add_mod, Nat.mod_eq_of_lt j.isLt]
  have quotient : (list.length * k + j) / list.length = k := by
    rw [Nat.mul_add_div (Nat.zero_lt_of_lt j.isLt), Nat.div_eq_of_lt j.isLt, Nat.add_zero]
  refine (List.ofFn_succ ..).trans (congrArg₂ List.cons ?_ (congrArg List.ofFn (funext fun i => ?_)))
  · have first : (positionIn (list :: lists) ⟨list.length * k + j, bound⟩ 0).val = j := by
      simpa [positionIn, combinationsBefore] using remainder
    exact getElem_congr_idx (c := list) first
  · have later : (positionIn (list :: lists) ⟨list.length * k + j, bound⟩ i.succ).val =
        positionIn lists k i := by
      simp only [positionIn, Fin.val_succ, digit_succ, quotient]
      rfl
    exact getElem_congr_idx (c := lists[i]) later

/-- The sections of lists in the order of their numbers. -/
theorem sections_eq_ofFn (lists : List (List α)) :
    lists.sections = List.ofFn (combinationAt lists) := by
  induction lists with
  | nil => rfl
  | cons list lists ih =>
      have rows : List.ofFn (combinationAt (list :: lists)) = _ :=
        List.ofFn_mul' (m := list.length) (n := (lists.map List.length).prod)
          (combinationAt (list :: lists))
      rw [rows, List.sections, ih, List.flatMap, List.map_ofFn]
      congr 2
      funext k
      refine (List.ofFn_getElem_eq_map list fun x => x :: combinationAt lists k).symm.trans ?_
      exact congrArg List.ofFn (funext fun j => (combinationAt_cons k j _).symm)

/-- The combination with number `k` reads each list at its digit of `k`, so that every choice of
positions has exactly one number, and the position in the first list changes fastest. -/
theorem combinations_enumerate (lists : List (List α)) :
    (combinations lists).length = (lists.map List.length).prod ∧
      (combinations lists = List.ofFn fun k : Fin (lists.map List.length).prod =>
        List.ofFn fun i : Fin lists.length => lists[i][positionIn lists k i]) ∧
      (∀ k i, (positionIn lists k i).val =
        k / ((lists.take i).map List.length).prod % lists[i].length) ∧
      Function.Bijective (positionIn lists) ∧
      (∀ list : List α, combinations (list :: lists) =
        (combinations lists).flatMap fun rest => list.map (· :: rest)) ∧
      combinations ([] : List (List α)) = [[]] := by
  have numbered : combinations lists = List.ofFn (combinationAt lists) :=
    (combinations_eq_sections lists).trans (sections_eq_ofFn lists)
  have length : (combinations lists).length = (lists.map List.length).prod := by
    rw [numbered, List.length_ofFn]
  refine ⟨length, numbered, fun _ _ => rfl, positionIn_bijective lists, ?_, rfl⟩
  intro list
  rw [combinations_eq_sections, combinations_eq_sections, List.sections]

/-- Two lists with two elements each, and one without any. -/
example : combinations [["a", "b"], ["c", "d"]] = [["a", "c"], ["b", "c"], ["a", "d"], ["b", "d"]] ∧
    combinations [["a", "b"], []] = [] := ⟨rfl, rfl⟩

end AlgebraicTerms
