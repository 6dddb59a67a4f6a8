import AlgebraicTerms.Proofs.Scalar.Worded
import AlgebraicTerms.Proofs.Term.Ground
import AlgebraicTerms.Proofs.Term.Meaning
import Mathlib.Data.Prod.Lex

/-!
# Sizes of ground terms

A measure that gets smaller with every call of the search on a ground term.  The number of nodes does
not: `sin(x)*cos(x)^(-1)` calls for `tan(x)^1`, and `a^2*b^2` for `a*b`.  What counts is first how
deep powers are nested in exponents, then how many sums and differences there are, then a load that
every other operation adds to, and last how deep reciprocals are nested.

Sizes are the values of a meaning of terms, so that terms that are written alike have the same size.
-/

namespace AlgebraicTerms

/-- What a ground term has of each measure, and whether it is a call, the number `1` or `-1`. -/
@[ext]
structure Size where
  depth : ℕ
  sums : ℕ
  load : ℕ
  recips : ℕ
  isCall : Bool
  isOne : Bool
  isNegOne : Bool
  deriving DecidableEq

namespace Size

/-- The size of a number or name that adds the given load. -/
def plain (load : ℕ) : Size := ⟨0, 0, load, 0, false, false, false⟩

/-- The load that a factor adds to a product.  There a call is written as a power. -/
def weight (s : Size) : ℕ := s.load + s.isCall.toNat

def asFactor (s : Size) : Size := { s with load := s.weight, isCall := false }

/-- The load that an exponent adds to a power.  Factors with the same exponent are only merged if it
is not `1` or `-1`. -/
def exponentLoad (s : Size) : ℕ := s.load - 13 + if s.isOne || s.isNegOne then 1 else 7

def negation (s : Size) : Size := ⟨s.depth, s.sums, s.weight + 1, s.recips, false, false, s.isOne⟩

/-- Sizes with the given sizes of numbers. -/
def meaning {α : Type} (number : α → Size) : Meaning α Size where
  empty := plain 13
  number := number
  const _ := plain 13
  var _ _ := plain 13
  call _ s := ⟨max s.depth 1, s.sums, s.load + 1, 0, true, false, false⟩
  inv
    | .neg, s => s.negation
    | .recip, s => ⟨max s.depth 1, s.sums, s.weight, s.recips + 1, false, false, false⟩
  bin
    | .add, a, b | .sub, a, b => ⟨max a.depth b.depth, a.sums + b.sums + 1, 13, 0, false, false, false⟩
    | .mul, a, b | .mod, a, b =>
      ⟨max a.depth b.depth, a.sums + b.sums, a.weight + b.weight, max a.recips b.recips, false, false,
        false⟩
    | .div, a, b =>
      ⟨max (max a.depth b.depth) 1, a.sums + b.sums, a.weight + b.weight,
        max a.recips (b.recips + 1), false, false, false⟩
    | .pow, a, b =>
      ⟨max a.depth (b.depth + 1), a.sums + b.sums, a.load + b.exponentLoad, 0, false, false, false⟩

/-- Sizes are compared by depth, then by sums, by load and by reciprocals. -/
def cost (s : Size) : ℕ ×ₗ ℕ ×ₗ ℕ ×ₗ ℕ :=
  toLex (s.depth, toLex (s.sums, toLex (s.load, s.recips)))

variable {s t : Size}

theorem cost_lt_of_depth (h : s.depth < t.depth) : s.cost < t.cost :=
  Prod.Lex.toLex_lt_toLex.2 (.inl h)

theorem cost_lt_of_sums (hd : s.depth ≤ t.depth) (h : s.sums < t.sums) : s.cost < t.cost := by
  rcases Nat.lt_or_eq_of_le hd with hd | hd
  · exact cost_lt_of_depth hd
  · exact Prod.Lex.toLex_lt_toLex.2 (.inr ⟨hd, Prod.Lex.toLex_lt_toLex.2 (.inl h)⟩)

theorem cost_lt_of_load (hd : s.depth ≤ t.depth) (hs : s.sums ≤ t.sums) (h : s.load < t.load) :
    s.cost < t.cost := by
  rcases Nat.lt_or_eq_of_le hs with hs | hs
  · exact cost_lt_of_sums hd hs
  · rcases Nat.lt_or_eq_of_le hd with hd | hd
    · exact cost_lt_of_depth hd
    · exact Prod.Lex.toLex_lt_toLex.2 (.inr ⟨hd, Prod.Lex.toLex_lt_toLex.2
        (.inr ⟨hs, Prod.Lex.toLex_lt_toLex.2 (.inl h)⟩)⟩)

theorem cost_lt_of_recips (hd : s.depth ≤ t.depth) (hs : s.sums ≤ t.sums) (hl : s.load ≤ t.load)
    (h : s.recips < t.recips) : s.cost < t.cost := by
  rcases Nat.lt_or_eq_of_le hl with hl | hl
  · exact cost_lt_of_load hd hs hl
  · rcases Nat.lt_or_eq_of_le hs with hs | hs
    · exact cost_lt_of_sums hd hs
    · rcases Nat.lt_or_eq_of_le hd with hd | hd
      · exact cost_lt_of_depth hd
      · exact Prod.Lex.toLex_lt_toLex.2 (.inr ⟨hd, Prod.Lex.toLex_lt_toLex.2
          (.inr ⟨hs, Prod.Lex.toLex_lt_toLex.2 (.inr ⟨hl, h⟩)⟩)⟩)

/-- Whether a size is at most another, where the load counts only if no sum got lost. -/
structure Shrinks (s t : Size) : Prop where
  depth : s.depth ≤ t.depth
  sums : s.sums ≤ t.sums
  load : s.sums = t.sums → s.load ≤ t.load
  weight : s.sums = t.sums → s.weight ≤ t.weight
  recips : s.sums = t.sums → s.recips ≤ t.recips

theorem Shrinks.refl (s : Size) : s.Shrinks s :=
  ⟨le_refl _, le_refl _, fun _ => le_refl _, fun _ => le_refl _, fun _ => le_refl _⟩

theorem Shrinks.cost_le (h : s.Shrinks t) : s.cost ≤ t.cost := by
  rcases Nat.lt_or_eq_of_le h.depth with hd | hd
  · exact (cost_lt_of_depth hd).le
  · rcases Nat.lt_or_eq_of_le h.sums with hs | hs
    · exact (cost_lt_of_sums hd.le hs).le
    · rcases Nat.lt_or_eq_of_le (h.load hs) with hl | hl
      · exact (cost_lt_of_load hd.le hs.le hl).le
      · rcases Nat.lt_or_eq_of_le (h.recips hs) with hr | hr
        · exact (cost_lt_of_recips hd.le hs.le hl.le hr).le
        · rw [cost, cost, hd, hs, hl, hr]

end Size

namespace Term

variable {α : Type} [Scalar α]

def ofNumber (n : α) : Size :=
  if Scalar.isNegative n then (⟨0, 0, 13, 0, false, numberText (-n) == "1", false⟩ : Size).negation
  else ⟨0, 0, 13, 0, false, numberText n == "1", false⟩

def size (t : Term α) : Size := t.eval (Size.meaning ofNumber)

/-- The sums in the operands of a chain. -/
def totalSums (ts : List (Term α)) : ℕ := (ts.map (·.size.sums)).sum

/-- The load that factors add to a product. -/
def totalWeight (ts : List (Term α)) : ℕ := (ts.map (·.size.weight)).sum

variable {c : Chain} {t u : Term α} {ts us : List (Term α)}

theorem thirteen_le_load (t : Term α) : 13 ≤ t.size.load := by
  induction t with
  | num n =>
      show 13 ≤ (ofNumber n).load
      rw [ofNumber]
      split
      · exact Nat.le_succ 13
      · exact Nat.le_refl 13
  | call k t ih => exact Nat.le_succ_of_le ih
  | inv i t ih =>
      have heavier : t.size.load ≤ t.size.weight := Nat.le_add_right _ _
      cases i with
      | neg => exact Nat.le_succ_of_le (ih.trans heavier)
      | recip => exact ih.trans heavier
  | bin op l r ihl _ =>
      have heavier : l.size.load ≤ l.size.weight := Nat.le_add_right _ _
      cases op with
      | add | sub => exact Nat.le_refl 13
      | mul | div | mod => exact (ihl.trans heavier).trans (Nat.le_add_right _ _)
      | pow => exact ihl.trans (Nat.le_add_right _ _)
  | _ => exact Nat.le_refl 13

theorem load_le_weight (t : Term α) : t.size.load ≤ t.size.weight := Nat.le_add_right _ _

theorem thirteen_le_weight (t : Term α) : 13 ≤ t.size.weight :=
  (thirteen_le_load t).trans (load_le_weight t)

/-- Numbers and names have no operations. -/
theorem size_of_isNumber (h : t.isNumber = true) :
    t.size.depth = 0 ∧ t.size.sums = 0 ∧ t.size.weight ≤ 14 ∧ t.size.recips = 0 ∧
      t.size.isCall = false := by
  cases t with
  | num n =>
      show (ofNumber n).depth = 0 ∧ (ofNumber n).sums = 0 ∧ (ofNumber n).weight ≤ 14 ∧
        (ofNumber n).recips = 0 ∧ (ofNumber n).isCall = false
      rw [ofNumber]
      split
      · exact ⟨rfl, rfl, Nat.le_refl 14, rfl, rfl⟩
      · exact ⟨rfl, rfl, Nat.le_succ 13, rfl, rfl⟩
  | const c => exact ⟨rfl, rfl, Nat.le_succ 13, rfl, rfl⟩
  | _ => cases h

theorem totalSums_perm (h : ts.Perm us) : totalSums ts = totalSums us := (h.map _).sum_eq

theorem totalWeight_perm (h : ts.Perm us) : totalWeight ts = totalWeight us := (h.map _).sum_eq

theorem totalSums_append (ts us : List (Term α)) :
    totalSums (ts ++ us) = totalSums ts + totalSums us := by
  rw [totalSums, List.map_append, List.sum_append, totalSums, totalSums]

theorem totalWeight_append (ts us : List (Term α)) :
    totalWeight (ts ++ us) = totalWeight ts + totalWeight us := by
  rw [totalWeight, List.map_append, List.sum_append, totalWeight, totalWeight]

theorem totalSums_map_inv (i : Inverse) (ts : List (Term α)) :
    totalSums (ts.map (inv i)) = totalSums ts := by
  rw [totalSums, List.map_map, totalSums]
  exact congrArg List.sum (List.map_congr_left fun t _ => by cases i <;> rfl)

theorem totalWeight_map_recip (ts : List (Term α)) :
    totalWeight (ts.map (inv .recip)) = totalWeight ts := by
  rw [totalWeight, List.map_map, totalWeight]
  exact congrArg List.sum (List.map_congr_left fun t _ => rfl)

/-! ## Chains -/

theorem append_product_size (t u : Term α) :
    (Chain.product.append t u).size.depth ≤ max t.size.depth u.size.depth ∧
      (Chain.product.append t u).size.sums ≤ t.size.sums + u.size.sums ∧
      (Chain.product.append t u).size.weight ≤ t.size.weight + u.size.weight ∧
      (Chain.product.append t u).size.recips ≤ max t.size.recips u.size.recips := by
  have direct : (bin .mul t u).size.depth ≤ max t.size.depth u.size.depth ∧
      (bin .mul t u).size.sums ≤ t.size.sums + u.size.sums ∧
      (bin .mul t u).size.weight ≤ t.size.weight + u.size.weight ∧
      (bin .mul t u).size.recips ≤ max t.size.recips u.size.recips :=
    ⟨le_refl _, le_refl _, le_refl _, le_refl _⟩
  unfold Chain.append
  split
  · exact ⟨le_max_left _ _, Nat.le_add_right _ _, Nat.le_add_right _ _, le_max_left _ _⟩
  · split
    · exact ⟨le_max_right _ _, Nat.le_add_left _ _, Nat.le_add_left _ _, le_max_right _ _⟩
    · split
      · rename_i i operand _
        split
        · rename_i same
          subst same
          refine ⟨?_, le_refl _, le_refl _, le_refl _⟩
          show max (max t.size.depth operand.size.depth) 1 ≤ max t.size.depth (max operand.size.depth 1)
          rw [max_assoc]
        · exact direct
      · rw [if_neg fun h => nomatch h.1]
        exact direct
      · exact direct

/-- A joined product has no more than its factors together. -/
theorem join_product_size (hne : ts ≠ []) :
    (∀ d, (∀ t ∈ ts, t.size.depth ≤ d) → (Chain.product.join ts).size.depth ≤ d) ∧
      (Chain.product.join ts).size.sums ≤ totalSums ts ∧
      (Chain.product.join ts).size.weight ≤ totalWeight ts ∧
      ∀ n, (∀ t ∈ ts, t.size.recips ≤ n) → (Chain.product.join ts).size.recips ≤ n := by
  cases ts with
  | nil => exact absurd rfl hne
  | cons t ts =>
      rw [Chain.join]
      clear hne
      induction ts generalizing t with
      | nil => exact ⟨fun d h => h t List.mem_cons_self, le_refl _, le_refl _,
          fun n h => h t List.mem_cons_self⟩
      | cons u ts ih =>
          obtain ⟨hd, hs, hw, hr⟩ := append_product_size t u
          obtain ⟨ihd, ihs, ihw, ihr⟩ := ih (Chain.product.append t u)
          rw [List.foldl_cons]
          simp only [totalSums, totalWeight, List.map_cons, List.sum_cons] at ihs ihw ⊢
          refine ⟨fun d h => ihd d (List.forall_mem_cons.2 ⟨hd.trans ?_, ?_⟩), by omega, by omega,
            fun n h => ihr n (List.forall_mem_cons.2 ⟨hr.trans ?_, ?_⟩)⟩
          · exact max_le (h t List.mem_cons_self) (h u (List.mem_cons_of_mem _ List.mem_cons_self))
          · exact fun v hv => h v (List.mem_cons_of_mem _ (List.mem_cons_of_mem _ hv))
          · exact max_le (h t List.mem_cons_self) (h u (List.mem_cons_of_mem _ List.mem_cons_self))
          · exact fun v hv => h v (List.mem_cons_of_mem _ (List.mem_cons_of_mem _ hv))

/-- Whether the term is a sum or difference, by its size. -/
def LooksSum (t : Term α) : Prop := t.size.load = 13 ∧ t.size.weight = 13 ∧ t.size.recips = 0

theorem append_sum_size (t u : Term α) :
    (Chain.sum.append t u).size.depth ≤ max t.size.depth u.size.depth ∧
      ((Chain.sum.append t u).size.sums < t.size.sums + u.size.sums + 1 ∨
        (Chain.sum.append t u).size.sums = t.size.sums + u.size.sums + 1 ∧
          (Chain.sum.append t u).LooksSum) := by
  unfold Chain.append
  split
  · exact ⟨le_max_left _ _, .inl (Nat.lt_succ_of_le (Nat.le_add_right _ _))⟩
  · split
    · exact ⟨le_max_right _ _, .inl (Nat.lt_succ_of_le (Nat.le_add_left _ _))⟩
    · split
      · rename_i i operand _
        split
        · rename_i same
          subst same
          exact ⟨le_refl _, .inr ⟨rfl, rfl, rfl, rfl⟩⟩
        · exact ⟨le_refl _, .inr ⟨rfl, rfl, rfl, rfl⟩⟩
      · rename_i n _
        split
        · have size (m : α) := size_of_isNumber (t := num m) rfl
          refine ⟨?_, .inr ⟨?_, rfl, rfl, rfl⟩⟩
          · show max t.size.depth (num (-n)).size.depth ≤ _
            rw [(size (-n)).1, (size n).1]
          · show t.size.sums + (num (-n)).size.sums + 1 = _
            rw [(size (-n)).2.1, (size n).2.1]
        · exact ⟨le_refl _, .inr ⟨rfl, rfl, rfl, rfl⟩⟩
      · exact ⟨le_refl _, .inr ⟨rfl, rfl, rfl, rfl⟩⟩

/-- A joined sum has one sum less than summands, or even fewer if some of them are zero. -/
theorem join_sum_size (hne : ts ≠ []) :
    (∀ d, (∀ t ∈ ts, t.size.depth ≤ d) → (Chain.sum.join ts).size.depth ≤ d) ∧
      (Chain.sum.join ts).size.sums + 1 ≤ totalSums ts + ts.length ∧
      (2 ≤ ts.length → (Chain.sum.join ts).size.sums + 1 < totalSums ts + ts.length ∨
        (Chain.sum.join ts).LooksSum) := by
  cases ts with
  | nil => exact absurd rfl hne
  | cons t ts =>
      rw [Chain.join]
      clear hne
      induction ts generalizing t with
      | nil =>
          refine ⟨fun d h => h t List.mem_cons_self, le_refl _, fun h => absurd h ?_⟩
          exact Nat.not_succ_le_self 1
      | cons u ts ih =>
          obtain ⟨hd, hs⟩ := append_sum_size t u
          obtain ⟨ihd, ihs, ihl⟩ := ih (Chain.sum.append t u)
          rw [List.foldl_cons]
          refine ⟨fun d h => ihd d (List.forall_mem_cons.2 ⟨hd.trans ?_, ?_⟩), ?_, fun _ => ?_⟩
          · exact max_le (h t List.mem_cons_self) (h u (List.mem_cons_of_mem _ List.mem_cons_self))
          · exact fun v hv => h v (List.mem_cons_of_mem _ (List.mem_cons_of_mem _ hv))
          · simp only [totalSums, List.map_cons, List.sum_cons, List.length_cons] at ihs ⊢
            omega
          · cases ts with
            | nil =>
                rw [List.foldl_nil]
                simp only [totalSums, List.map_cons, List.sum_cons, List.length_cons, List.map_nil,
                  List.sum_nil, List.length_nil]
                rcases hs with hs | ⟨_, hlooks⟩
                · exact .inl (by omega)
                · exact .inr hlooks
            | cons v ts =>
                refine (ihl (Nat.le_add_left _ _)).imp_left fun hlt => ?_
                simp only [totalSums, List.map_cons, List.sum_cons, List.length_cons] at hlt ⊢
                omega

/-! ## Operands -/

/-- The factors of a product of the given size, where weights and reciprocals count only if no sum
got lost. -/
structure FactorsOf (s : Size) (ts : List (Term α)) : Prop where
  depth : ∀ t ∈ ts, t.size.depth ≤ s.depth
  sums : totalSums ts ≤ s.sums
  weight : totalSums ts = s.sums → totalWeight ts ≤ s.weight
  recips : totalSums ts = s.sums → ∀ t ∈ ts, t.size.recips ≤ s.recips

/-- The summands of a sum of the given size. -/
structure SummandsOf (s : Size) (ts : List (Term α)) : Prop where
  depth : ∀ t ∈ ts, t.size.depth ≤ s.depth
  count : totalSums ts + ts.length ≤ s.sums + 1

theorem FactorsOf.single {s : Size} (h : t.size.Shrinks s) : FactorsOf s [t] := by
  have sums : totalSums [t] = t.size.sums := Nat.add_zero _
  have weight : totalWeight [t] = t.size.weight := Nat.add_zero _
  refine ⟨fun u hu => ?_, sums ▸ h.sums, fun same => ?_, fun same u hu => ?_⟩
  · exact List.eq_of_mem_singleton hu ▸ h.depth
  · exact weight ▸ h.weight (sums ▸ same)
  · exact List.eq_of_mem_singleton hu ▸ h.recips (sums ▸ same)

theorem SummandsOf.single {s : Size} (h : t.size.Shrinks s) : SummandsOf s [t] := by
  refine ⟨fun u hu => List.eq_of_mem_singleton hu ▸ h.depth, ?_⟩
  exact Nat.succ_le_succ h.sums

theorem FactorsOf.of_perm {s : Size} (h : FactorsOf s ts) (perm : ts.Perm us) : FactorsOf s us := by
  have sums := totalSums_perm perm
  refine ⟨fun u hu => h.depth u (perm.mem_iff.2 hu), sums ▸ h.sums, fun same => ?_,
    fun same u hu => h.recips (sums ▸ same) u (perm.mem_iff.2 hu)⟩
  exact totalWeight_perm perm ▸ h.weight (sums ▸ same)

theorem SummandsOf.of_perm {s : Size} (h : SummandsOf s ts) (perm : ts.Perm us) :
    SummandsOf s us := by
  refine ⟨fun u hu => h.depth u (perm.mem_iff.2 hu), ?_⟩
  rw [← totalSums_perm perm, ← perm.length_eq]
  exact h.count

theorem FactorsOf.mul (h : FactorsOf t.size ts) (h' : FactorsOf u.size us) :
    FactorsOf (bin .mul t u).size (ts ++ us) := by
  have hs := h.sums
  have hs' := h'.sums
  have total := totalSums_append ts us
  have sums : (bin .mul t u).size.sums = t.size.sums + u.size.sums := rfl
  refine ⟨fun v hv => ?_, by omega, fun same => ?_, fun same v hv => ?_⟩
  · show v.size.depth ≤ max t.size.depth u.size.depth
    rcases List.mem_append.1 hv with hv | hv
    · exact le_max_of_le_left (h.depth v hv)
    · exact le_max_of_le_right (h'.depth v hv)
  · rw [totalWeight_append]
    show _ ≤ t.size.weight + u.size.weight
    exact Nat.add_le_add (h.weight (by omega)) (h'.weight (by omega))
  · show v.size.recips ≤ max t.size.recips u.size.recips
    rcases List.mem_append.1 hv with hv | hv
    · exact le_max_of_le_left (h.recips (by omega) v hv)
    · exact le_max_of_le_right (h'.recips (by omega) v hv)

theorem FactorsOf.div (h : FactorsOf t.size ts) (h' : FactorsOf u.size us) :
    FactorsOf (bin .div t u).size (ts ++ us.map (inv .recip)) := by
  have hs := h.sums
  have hs' := h'.sums
  have total := totalSums_append ts (us.map (inv .recip))
  rw [totalSums_map_inv] at total
  have sums : (bin .div t u).size.sums = t.size.sums + u.size.sums := rfl
  refine ⟨fun v hv => ?_, by omega, fun same => ?_, fun same v hv => ?_⟩
  · show v.size.depth ≤ max (max t.size.depth u.size.depth) 1
    rcases List.mem_append.1 hv with hv | hv
    · exact le_max_of_le_left (le_max_of_le_left (h.depth v hv))
    · obtain ⟨w, hw, rfl⟩ := List.mem_map.1 hv
      exact max_le_max_right 1 (le_max_of_le_right (h'.depth w hw))
  · rw [totalWeight_append, totalWeight_map_recip]
    show _ ≤ t.size.weight + u.size.weight
    exact Nat.add_le_add (h.weight (by omega)) (h'.weight (by omega))
  · show v.size.recips ≤ max t.size.recips (u.size.recips + 1)
    rcases List.mem_append.1 hv with hv | hv
    · exact le_max_of_le_left (h.recips (by omega) v hv)
    · obtain ⟨w, hw, rfl⟩ := List.mem_map.1 hv
      exact le_max_of_le_right (Nat.succ_le_succ (h'.recips (by omega) w hw))

theorem FactorsOf.splice {op : Operator} (hop : Chain.of? op = some .product)
    (h : FactorsOf t.size ts) (h' : FactorsOf u.size us) :
    FactorsOf (bin op t u).size (Chain.product.splice op ts us) := by
  cases op with
  | mul => exact h.mul h'
  | div => exact h.div h'
  | _ => cases hop

theorem SummandsOf.splice {op : Operator} (hop : Chain.of? op = some .sum)
    (h : SummandsOf t.size ts) (h' : SummandsOf u.size us) :
    SummandsOf (bin op t u).size (Chain.sum.splice op ts us) := by
  have depth : (bin op t u).size.depth = max t.size.depth u.size.depth := by
    cases op <;> first | rfl | cases hop
  have sums : (bin op t u).size.sums = t.size.sums + u.size.sums + 1 := by
    cases op <;> first | rfl | cases hop
  have left : ∀ v ∈ ts, v.size.depth ≤ max t.size.depth u.size.depth :=
    fun v hv => le_max_of_le_left (h.depth v hv)
  have right : ∀ v ∈ us, v.size.depth ≤ max t.size.depth u.size.depth :=
    fun v hv => le_max_of_le_right (h'.depth v hv)
  have hc := h.count
  have hc' := h'.count
  have parts : (∀ v ∈ Chain.sum.splice op ts us, v.size.depth ≤ max t.size.depth u.size.depth) ∧
      totalSums (Chain.sum.splice op ts us) = totalSums ts + totalSums us := by
    rw [Chain.splice]
    split
    · exact ⟨List.forall_mem_append.2 ⟨left, right⟩, totalSums_append ts us⟩
    · refine ⟨List.forall_mem_append.2 ⟨left, fun v hv => ?_⟩, ?_⟩
      · obtain ⟨w, hw, rfl⟩ := List.mem_map.1 hv
        exact right w hw
      · rw [totalSums_append, totalSums_map_inv]
  refine ⟨depth ▸ parts.1, ?_⟩
  rw [parts.2, length_splice]
  omega

/-- Nothing gets lost when a product is taken apart. -/
theorem totals_operandsIn (t : Term α) : totalSums (t.operandsIn .product) = t.size.sums ∧
    totalWeight (t.operandsIn .product) = t.size.weight := by
  induction t with
  | bin op l r ihl ihr =>
      rw [operandsIn]
      split
      · rename_i hop
        cases op with
        | mul =>
            have splice : Chain.product.splice .mul (l.operandsIn .product) (r.operandsIn .product) =
                l.operandsIn .product ++ r.operandsIn .product := rfl
            rw [splice, totalSums_append, totalWeight_append, ihl.1, ihl.2, ihr.1, ihr.2]
            exact ⟨rfl, rfl⟩
        | div =>
            have splice : Chain.product.splice .div (l.operandsIn .product) (r.operandsIn .product) =
                l.operandsIn .product ++ (r.operandsIn .product).map (inv .recip) := rfl
            rw [splice, totalSums_append, totalWeight_append, totalSums_map_inv,
              totalWeight_map_recip, ihl.1, ihl.2, ihr.1, ihr.2]
            exact ⟨rfl, rfl⟩
        | _ => cases hop
      · exact ⟨Nat.add_zero _, Nat.add_zero _⟩
  | _ => exact ⟨Nat.add_zero _, Nat.add_zero _⟩

theorem factorsOf_operandsIn (t : Term α) : FactorsOf t.size (t.operandsIn .product) := by
  induction t with
  | bin op l r ihl ihr =>
      rw [operandsIn]
      split
      · exact .splice ‹_› ihl ihr
      · exact .single (.refl _)
  | _ => exact .single (.refl _)

theorem summandsOf_operandsIn (t : Term α) : SummandsOf t.size (t.operandsIn .sum) := by
  induction t with
  | bin op l r ihl ihr =>
      rw [operandsIn]
      split
      · exact .splice ‹_› ihl ihr
      · exact .single (.refl _)
  | _ => exact .single (.refl _)

/-- A product that is joined again shrinks. -/
theorem FactorsOf.join {s : Size} (h : FactorsOf s ts) (hne : ts ≠ []) (hs : s.isCall = false) :
    (Chain.product.join ts).size.Shrinks s := by
  obtain ⟨hd, hsums, hw, hr⟩ := join_product_size hne
  have plain : s.weight = s.load := by rw [Size.weight, hs]; rfl
  have kept (same : (Chain.product.join ts).size.sums = s.sums) : totalSums ts = s.sums :=
    Nat.le_antisymm h.sums (same ▸ hsums)
  have weight (same : (Chain.product.join ts).size.sums = s.sums) :
      (Chain.product.join ts).size.weight ≤ s.weight := hw.trans (h.weight (kept same))
  exact ⟨hd _ h.depth, hsums.trans h.sums,
    fun same => (load_le_weight _).trans ((weight same).trans_eq plain), weight,
    fun same => hr _ (h.recips (kept same))⟩

/-- A sum that is joined again shrinks. -/
theorem SummandsOf.join {s : Size} (h : SummandsOf s ts) (hlength : 2 ≤ ts.length)
    (hload : 13 ≤ s.load) : (Chain.sum.join ts).size.Shrinks s := by
  have hne : ts ≠ [] := by
    rintro rfl
    exact absurd hlength (Nat.not_succ_le_zero 1)
  obtain ⟨hd, hsums, hlooks⟩ := join_sum_size hne
  have hc := h.count
  have looks (same : (Chain.sum.join ts).size.sums = s.sums) : (Chain.sum.join ts).LooksSum :=
    (hlooks hlength).resolve_left (by omega)
  refine ⟨hd _ h.depth, by omega, fun same => (looks same).1 ▸ hload, fun same => ?_,
    fun same => (looks same).2.2 ▸ Nat.zero_le _⟩
  exact (looks same).2.1 ▸ hload.trans (Nat.le_add_right _ _)

/-! ## Canonical order -/

theorem length_sortedOperands_pos (c : Chain) (t : Term α) : 0 < (t.sortedOperands c).length := by
  rw [sortedOperands_eq_map, List.length_map]
  exact List.length_pos_iff.2 (operandsIn_ne_nil c t)

/-- Putting a term in order does not make it larger, nor its operands together. -/
theorem sorted_sizes (t : Term α) : t.sorted.size.Shrinks t.size ∧
    FactorsOf t.size (t.sortedOperands .product) ∧ SummandsOf t.size (t.sortedOperands .sum) := by
  have single {t u : Term α} (h : t.size.Shrinks u.size) :
      t.size.Shrinks u.size ∧ FactorsOf u.size [t] ∧ SummandsOf u.size [t] :=
    ⟨h, .single h, .single h⟩
  induction t with
  | call k t ih =>
      refine single ⟨max_le_max_right 1 ih.1.depth, ih.1.sums, fun same => ?_, fun same => ?_,
        fun _ => Nat.le_refl 0⟩
      · exact Nat.succ_le_succ (ih.1.load same)
      · exact Nat.succ_le_succ (Nat.succ_le_succ (ih.1.load same))
  | inv i t ih =>
      cases i with
      | neg =>
          exact single ⟨ih.1.depth, ih.1.sums, fun same => Nat.succ_le_succ (ih.1.weight same),
            fun same => Nat.succ_le_succ (ih.1.weight same), ih.1.recips⟩
      | recip =>
          exact single ⟨max_le_max_right 1 ih.1.depth, ih.1.sums, ih.1.weight, ih.1.weight,
            fun same => Nat.succ_le_succ (ih.1.recips same)⟩
  | bin op l r ihl ihr =>
      simp only [sorted, sortedOperands]
      cases hop : Chain.of? op with
      | none => exact single (.refl _)
      | some c =>
          have perm := sortByKey_perm
            (c.splice op (sortedOperands c l) (sortedOperands c r))
          have pos := length_sortedOperands_pos c l
          have pos' := length_sortedOperands_pos c r
          cases c with
          | sum =>
              have operands := SummandsOf.splice hop ihl.2.2 ihr.2.2
              have joined := (operands.of_perm perm).join
                (by rw [← perm.length_eq, length_splice]; omega) (thirteen_le_load _)
              exact ⟨joined, .single joined, operands⟩
          | product =>
              have operands := FactorsOf.splice hop ihl.2.1 ihr.2.1
              have joined := (operands.of_perm perm).join
                (List.ne_nil_of_length_pos (by rw [← perm.length_eq, length_splice]; omega))
                (by cases op <;> rfl)
              exact ⟨joined, operands, .single joined⟩
  | _ => exact single (.refl _)

theorem sorted_cost_le (t : Term α) : t.sorted.size.cost ≤ t.size.cost := (sorted_sizes t).1.cost_le

/-! ## Equivalent forms -/

/-- Only the number one has the size of a one. -/
theorem isOne_size (h : t.size.isOne = true) :
    ∃ n, t = num n ∧ Scalar.isNegative n = false ∧ numberText n = "1" := by
  cases t with
  | num n =>
      have size : (num n).size = ofNumber n := rfl
      rw [size, ofNumber] at h
      split at h
      · cases h
      · exact ⟨n, rfl, Bool.eq_false_of_not_eq_true ‹_›, beq_iff_eq.1 h⟩
  | inv i t => cases i <;> cases h
  | bin op l r => cases op <;> cases h
  | _ => cases h

/-- Only minus one and the negation of one have the size of a minus one. -/
theorem isNegOne_size (h : t.size.isNegOne = true) :
    (∃ n, t = num n ∧ Scalar.isNegative n = true ∧ numberText (-n) = "1") ∨
      ∃ u, t = inv .neg u ∧ u.size.isOne = true := by
  cases t with
  | num n =>
      have size : (num n).size = ofNumber n := rfl
      rw [size, ofNumber] at h
      split at h
      · exact .inl ⟨n, rfl, ‹_›, beq_iff_eq.1 h⟩
      · cases h
  | inv i t =>
      cases i with
      | neg => exact .inr ⟨t, rfl, h⟩
      | recip => cases h
  | bin op l r => cases op <;> cases h
  | _ => cases h

theorem exponentLoad_of_isUnit (h : t.size.isOne = true ∨ t.size.isNegOne = true) :
    t.size.exponentLoad = t.size.load - 13 + 1 := by
  rw [Size.exponentLoad, if_pos (Bool.or_eq_true _ _ ▸ h)]

theorem exponentLoad_of_not_isUnit (h : t.size.isOne = false) (h' : t.size.isNegOne = false) :
    t.size.exponentLoad = t.size.load - 13 + 7 := by
  rw [Size.exponentLoad, h, h', Bool.or_false, if_neg Bool.false_ne_true]

theorem exponentLoad_le (t : Term α) : t.size.exponentLoad ≤ t.size.load - 13 + 7 := by
  rw [Size.exponentLoad]
  split <;> omega

theorem exponentLoad_pos (t : Term α) : 0 < t.size.exponentLoad := by
  rw [Size.exponentLoad]
  split <;> omega

theorem negationsAsProducts_size (t : Term α) :
    t.negationsAsProducts.size.depth = t.size.depth ∧
      t.negationsAsProducts.size.sums = t.size.sums := by
  induction t using negationsAsProducts.induct with
  | case1 t ih =>
      rw [negationsAsProducts]
      exact ih
  | case2 t _ =>
      obtain ⟨hd, hs, _⟩ := size_of_isNumber (t := num (Scalar.negOne : α)) rfl
      rw [negationsAsProducts]
      · constructor
        · show max (num Scalar.negOne).size.depth t.size.depth = t.size.depth
          rw [hd, Nat.zero_max]
        · show (num Scalar.negOne).size.sums + t.size.sums = t.size.sums
          rw [hs, Nat.zero_add]
      · assumption
  | case3 op l r ihl ihr =>
      have sides (l r : Term α) : (bin op l r).size = (Size.meaning ofNumber).bin op l.size r.size := rfl
      rw [negationsAsProducts, sides, sides]
      cases op <;> simp only [Size.meaning, ihl, ihr, and_self]
  | case4 t _ _ _ =>
      rw [negationsAsProducts]
      · exact ⟨rfl, rfl⟩
      all_goals assumption

section

variable [Scalar.Legible α] [Scalar.Worded α]

theorem toList_numberText_minus {n : α} (h : Scalar.isNegative n = true) :
    (numberText n).toList = '-' :: (numberText (-n)).toList := by
  rw [numberText, Scalar.Legible.not_isZero_of_isNegative h, if_neg Bool.false_ne_true,
    Scalar.Worded.text_of_isNegative h, numberText, Scalar.Legible.not_isZero_neg h,
    if_neg Bool.false_ne_true, String.toList_append]
  rfl

theorem exists_of_bringsMinus {t : Term α} (h : t.bringsMinus = true) :
    ∃ s, t.text.toList = '-' :: s := by
  cases t with
  | num n => exact ⟨_, toList_numberText_minus h⟩
  | inv i t =>
      cases i with
      | neg => exact ⟨_, by rw [text, String.toList_append]; rfl⟩
      | recip => cases h
  | _ => cases h

/-- Only terms that are written `1` or `-1` have the size of a unit. -/
theorem text_of_isUnit (h : t.size.isOne = true ∨ t.size.isNegOne = true) :
    t.text = "1" ∨ t.text = "-1" := by
  rcases h with h | h
  · obtain ⟨n, rfl, _, htext⟩ := isOne_size h
    exact .inl htext
  · refine .inr (String.toList_inj.1 ?_)
    obtain ⟨n, rfl, hneg, htext⟩ | ⟨u, rfl, hone⟩ := isNegOne_size h
    · rw [text, toList_numberText_minus hneg, htext]
      rfl
    · obtain ⟨n, rfl, hneg, htext⟩ := isOne_size hone
      have bare : (isSum (num n) || leadsMinus (num n)) = false := hneg
      rw [text, bare, parenthesized, if_neg Bool.false_ne_true, String.toList_append, text, htext]
      rfl

omit [Scalar.Worded α] in
theorem size_one : (num (Scalar.one : α)).size = ⟨0, 0, 13, 0, false, true, false⟩ := by
  have text : numberText (Scalar.one : α) = "1" := by
    rw [numberText, Scalar.one, Scalar.Legible.not_isZero_one, if_neg Bool.false_ne_true,
      Scalar.Legible.text_one]
  show ofNumber Scalar.one = _
  rw [ofNumber, text, Scalar.one, Scalar.Legible.not_isNegative_one, if_neg Bool.false_ne_true]
  rfl

theorem size_negOne : (num (Scalar.negOne : α)).size = ⟨0, 0, 14, 0, false, false, true⟩ := by
  have text : numberText (Scalar.ofNat 1 : α) = "1" := by
    rw [numberText, Scalar.Legible.not_isZero_one, if_neg Bool.false_ne_true,
      Scalar.Legible.text_one]
  show ofNumber Scalar.negOne = _
  rw [ofNumber, Scalar.negOne, Scalar.Worded.isNegative_neg Scalar.Legible.text_one, if_pos rfl,
    Scalar.Worded.neg_neg, text]
  rfl

omit [Scalar.Worded α] in
theorem withExponents_size (h : t.IsGround) : t.withExponents.size = t.size.asFactor := by
  induction t with
  | num n =>
      show ofNumber n = (ofNumber n).asFactor
      rw [ofNumber]
      split <;> rfl
  | var _ _ => exact h.elim
  | empty => exact h.elim
  | const c => rfl
  | call k t _ =>
      have base : (bin .pow (call k t) (num (Scalar.one : α))).size =
          (Size.meaning ofNumber).bin .pow (call k t).size (num (Scalar.one : α)).size := rfl
      rw [withExponents, base, size_one]
      show (⟨max (max t.size.depth 1) 1, t.size.sums + 0, _, _, _, _, _⟩ : Size) = _
      rw [max_assoc, max_self]
      rfl
  | inv i t ih =>
      have operand : (inv i t.withExponents).size = (Size.meaning ofNumber).inv i t.withExponents.size :=
        rfl
      rw [withExponents, operand, ih h]
      cases i <;> rfl
  | bin op l r ihl ihr =>
      have sides : (bin op l.withExponents r.withExponents).size =
          (Size.meaning ofNumber).bin op l.withExponents.size r.withExponents.size := rfl
      cases op with
      | pow => rfl
      | _ =>
          rw [withExponents, sides, ihl h.1, ihr h.2]
          · rfl
          all_goals exact nofun

/-- The opposite of a unit is a unit. -/
theorem exponentLoad_neg (n : α) :
    (num (-n)).size.exponentLoad ≤ (num n).size.exponentLoad + 2 := by
  have size (m : α) : (num m).size = ofNumber m := rfl
  have heaviest : (num (-n)).size.exponentLoad ≤ 8 := by
    have hload := (size_of_isNumber (t := num (-n)) rfl).2.2.1
    have hle := exponentLoad_le (num (-n))
    have hweight := load_le_weight (num (-n))
    omega
  by_cases hone : (num n).size.isOne = true
  · obtain ⟨m, hm, hneg, htext⟩ := isOne_size hone
    cases hm
    have text : Scalar.text n = "1" := by
      rw [numberText] at htext
      split at htext
      · exact absurd htext (by decide)
      · exact htext
    rw [size (-n), ofNumber, Scalar.Worded.isNegative_neg text, if_pos rfl, Scalar.Worded.neg_neg,
      htext]
    exact Nat.le_add_left 2 _
  · by_cases hneg : (num n).size.isNegOne = true
    · obtain ⟨m, hm, hnegative, htext⟩ | ⟨u, hu, _⟩ := isNegOne_size hneg
      · cases hm
        rw [size (-n), ofNumber, Scalar.Legible.not_isNegative_neg hnegative,
          if_neg Bool.false_ne_true, htext]
        exact (Nat.le_succ 1).trans (Nat.le_add_left 2 _)
      · cases hu
    · have heavy := exponentLoad_of_not_isUnit (Bool.eq_false_of_not_eq_true hone)
        (Bool.eq_false_of_not_eq_true hneg)
      omega

/-- Negating an exponent adds little to its load. -/
theorem negated_size (t : Term α) : t.negated.size.depth ≤ t.size.depth ∧
    t.negated.size.sums ≤ t.size.sums ∧
    t.negated.size.exponentLoad ≤ t.size.exponentLoad + 2 := by
  have negation {u : Term α} (h : ∀ v, u ≠ inv .neg v) (h' : u.isNumber = false) :
      (inv .neg u).size.exponentLoad ≤ u.size.exponentLoad + 2 := by
    have hone : u.size.isOne = false := by
      refine Bool.eq_false_of_not_eq_true fun hone => ?_
      obtain ⟨n, rfl, _⟩ := isOne_size hone
      cases h'
    have hneg : u.size.isNegOne = false := by
      refine Bool.eq_false_of_not_eq_true fun hneg => ?_
      obtain ⟨n, rfl, _⟩ | ⟨v, rfl, _⟩ := isNegOne_size hneg
      · cases h'
      · exact h v rfl
    have heavy := exponentLoad_of_not_isUnit hone hneg
    have hload := thirteen_le_load u
    have hle := exponentLoad_le (inv .neg u)
    have hsize : (inv .neg u).size.load = u.size.load + u.size.isCall.toNat + 1 := rfl
    have hcall := Bool.toNat_le u.size.isCall
    omega
  cases t with
  | inv i u =>
      cases i with
      | neg =>
          refine ⟨le_refl _, le_refl _, ?_⟩
          show u.size.exponentLoad ≤ (inv .neg u).size.exponentLoad + 2
          have hle := exponentLoad_le u
          have hload := thirteen_le_load u
          have hsize : (inv .neg u).size.load = u.size.load + u.size.isCall.toNat + 1 := rfl
          cases hone : u.size.isOne with
          | true =>
              rw [exponentLoad_of_isUnit (.inl hone)]
              have pos := exponentLoad_of_isUnit (t := inv .neg u) (.inr hone)
              omega
          | false =>
              have heavy := exponentLoad_of_not_isUnit (t := inv .neg u) rfl hone
              omega
      | recip => exact ⟨le_refl _, le_refl _, negation nofun rfl⟩
  | num n =>
      obtain ⟨hd, hs, _⟩ := size_of_isNumber (t := num (-n)) rfl
      exact ⟨hd ▸ Nat.zero_le _, hs ▸ Nat.zero_le _, exponentLoad_neg n⟩
  | const c =>
      obtain ⟨hd, hs, hw, _⟩ := size_of_isNumber (t := num (-(Scalar.constant c : α))) rfl
      refine ⟨hd ▸ Nat.zero_le _, hs ▸ Nat.zero_le _, ?_⟩
      show (num (-(Scalar.constant c : α))).size.exponentLoad ≤ 7 + 2
      have hle := exponentLoad_le (num (-(Scalar.constant c : α)))
      have hweight := load_le_weight (num (-(Scalar.constant c : α)))
      omega
  | _ => exact ⟨le_refl _, le_refl _, negation nofun rfl⟩

/-- A factor becomes little heavier when its reciprocal is written as a power. -/
theorem reciprocalAsPower_size (hu : t.reciprocalAsPower = .ok u) :
    u.size.depth ≤ t.size.depth ∧ u.size.sums ≤ t.size.sums ∧
      u.size.weight ≤ t.size.weight + 2 := by
  rcases reciprocalAsPower_cases hu with rfl | rfl | ⟨b, e, rfl, rfl⟩ | ⟨x, n, rfl, _, _, rfl⟩ |
    ⟨x, rfl, rfl⟩
  · exact ⟨le_refl _, le_refl _, Nat.le_add_right _ 2⟩
  · refine ⟨?_, le_refl _, Nat.le_add_right _ 2⟩
    exact (le_max_left _ 1).trans (le_max_left _ 1)
  · obtain ⟨hd, hs, hl⟩ := negated_size e
    refine ⟨?_, Nat.add_le_add_left hs _, Nat.add_le_add_left hl _⟩
    exact (max_le_max_left _ (Nat.succ_le_succ hd)).trans (le_max_left _ 1)
  · obtain ⟨hd, hs, hw, _⟩ := size_of_isNumber (t := num (Scalar.one / n)) rfl
    refine ⟨hd ▸ Nat.zero_le _, hs ▸ Nat.zero_le _, ?_⟩
    have hweight : 13 ≤ (inv .recip x).size.weight := thirteen_le_weight _
    omega
  · have base : (bin .pow x (num (Scalar.negOne : α))).size =
        (Size.meaning ofNumber).bin .pow x.size (num (Scalar.negOne : α)).size := rfl
    rw [base, size_negOne]
    exact ⟨le_refl _, le_refl _, Nat.add_le_add_right (load_le_weight x) 2⟩

end

end Term

end AlgebraicTerms
