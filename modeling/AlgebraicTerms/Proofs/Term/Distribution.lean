import AlgebraicTerms.Proofs.Term.Definite
import AlgebraicTerms.Proofs.Term.Monomials

/-!
# Multiplying out

A definite term keeps its value when its products are multiplied out (`expanded_eval`).

The summands of a sum go to the products as they are, so a product in one of them stays what it is.
Hence a term of numbers, variables, sums, differences and products has only products without sums
after that iff no factor of its outermost products has a product of a sum in it
(`expanded_isDistributed`).
-/

namespace AlgebraicTerms

namespace Term

variable {α : Type} [Scalar α] {t u q l r : Term α} {ts : List (Term α)} {c : Chain}

/-! ## Values -/

section Values

variable {F : Type*} [Field F] {I : Interpretation α F}

variable [Scalar.Legible α]

/-- A definite term keeps its value when its products are multiplied out. -/
theorem expanded_eval (negOne : I.number (Scalar.negOne : α) = -1) (ht : t.Definite) :
    t.expanded.eval I.meaning = t.eval I.meaning := by
  have laws : Distributes (fun t u : Term α => t.eval I.meaning = u.eval I.meaning) Definite := {
    toNegations := eval_negations negOne
    chains := Definite.joinLaws I
    distrib := fun _ _ _ => add_mul _ _ _ }
  exact (laws.expanded Definite.arrangeable Definite.inherited Scalar.Legible.isFinite_one ht).symm

/-- The product of two differences under a quotient. -/
theorem expanded_eval_differences :
    let v (name : String) : Term ℚ := .var name none
    let minus (t : Term ℚ) := bin .mul (.num (-1)) t
    let t := bin .div (.bin .mul (.bin .sub (v "a") (.num 2)) (.bin .sub (v "b") (v "c"))) (v "d")
    let front := bin .add (.bin .mul (v "b") (v "a")) (.bin .mul (minus (v "c")) (v "a"))
    let back := [bin .mul (v "b") (minus (.num 2)), .bin .mul (minus (v "c")) (minus (.num 2))]
    t.expanded = .bin .div (back.foldl (bin .add) front) (v "d") ∧
      ∀ (var : String → ℝ) (call : Keyword → ℝ → ℝ),
        let I := Interpretation.reals var call
        t.expanded.eval I.meaning = t.eval I.meaning := by
  intro v minus t front back
  have a : (v "a").Definite := Legible.definite ⟨by decide, rfl, rfl, nofun⟩
  have b : (v "b").Definite := Legible.definite ⟨by decide, rfl, rfl, nofun⟩
  have c : (v "c").Definite := Legible.definite ⟨by decide, rfl, rfl, nofun⟩
  have d : (v "d").Definite := Legible.definite ⟨by decide, rfl, rfl, nofun⟩
  have definite : t.Definite := ⟨⟨⟨a, rfl⟩, b, c⟩, d⟩
  refine ⟨by with_unfolding_all rfl, fun var call => ?_⟩
  exact expanded_eval (Interpretation.reals_fullyExact var call).negOne definite

end Values

/-! ## Products without sums -/

/-- Whether no product in the term has a sum or difference among its factors. -/
def IsDistributed : Term α → Prop
  | bin op l r => l.IsDistributed ∧ r.IsDistributed ∧
    (op = .mul → ∀ f ∈ (bin op l r).operands, f.isSum = false)
  | call _ t | inv _ t => t.IsDistributed
  | _ => True

/-- Whether the factors of the outermost products have no products of sums in them. -/
def IsShallow : Term α → Prop
  | bin .mul l r => ∀ f ∈ (bin .mul l r).operands, f.IsDistributed
  | bin _ l r => l.IsShallow ∧ r.IsShallow
  | _ => True

inductive IsLeaf : Term α → Prop
  | num (n : α) : IsLeaf (num n)
  | var (name : String) (index : Option String) : IsLeaf (var name index)

/-- Numbers and variables under sums, differences and products. -/
inductive IsElementary : Term α → Prop
  | leaf {t : Term α} : IsLeaf t → IsElementary t
  | add {l r : Term α} : IsElementary l → IsElementary r → IsElementary (bin .add l r)
  | sub {l r : Term α} : IsElementary l → IsElementary r → IsElementary (bin .sub l r)
  | mul {l r : Term α} : IsElementary l → IsElementary r → IsElementary (bin .mul l r)

omit [Scalar α] in
theorem isDistributed_of_summands (h : ∀ u ∈ t.operandsIn .sum, u.IsDistributed) :
    t.IsDistributed := by
  induction t with
  | bin op l r ihl ihr =>
      rw [operandsIn] at h
      split at h
      · rename_i hop
        obtain ⟨hl, hr⟩ := List.forall_mem_append.1 h
        refine ⟨ihl hl, ihr ?_, ?_⟩
        · split at hr
          · exact hr
          · exact fun u hu => hr (inv _ u) (List.mem_map_of_mem hu)
        · rintro rfl
          cases hop
      · exact List.forall_mem_singleton.1 h
  | _ => exact List.forall_mem_singleton.1 h

/-! ## What is multiplied out -/

theorem mem_parenthesized {c : Char} {needed : Bool} {s : String} (h : c ∈ s.toList) :
    c ∈ (parenthesized needed s).toList := by
  cases needed with
  | false => exact h
  | true => simp [parenthesized, h]

/-- The text of an operation has the texts of its sides in it. -/
theorem mem_text_of_side {c : Char} {op : Operator}
    (h : c ∈ l.text.toList ∨ c ∈ r.text.toList) : c ∈ (bin op l r).text.toList := by
  cases op with
  | add =>
      rw [text, String.toList_append, List.mem_append]
      refine h.imp_right fun hr => ?_
      split
      · exact hr
      · rw [String.toList_append, List.mem_append]
        exact .inr (mem_parenthesized hr)
  | sub =>
      simp only [text, String.toList_append, List.mem_append]
      exact h.imp .inl mem_parenthesized
  | _ =>
      simp only [text, String.toList_append, List.mem_append]
      exact h.imp (fun hl => .inl (mem_parenthesized hl)) mem_parenthesized

/-- A product of a sum is written with a star. -/
theorem star_mem_text (h : ¬t.IsDistributed) : '*' ∈ t.text.toList := by
  induction t with
  | bin op l r ihl ihr =>
      by_cases hl : l.IsDistributed
      · by_cases hr : r.IsDistributed
        · have product : op = .mul := by
            by_contra other
            exact h ⟨hl, hr, fun same => absurd same other⟩
          subst product
          have mem : Operator.mul.toChar ∈ (bin .mul l r).text.toList := mem_text_bin nofun
          exact mem
        · exact mem_text_of_side (.inr (ihr hr))
      · exact mem_text_of_side (.inl (ihl hl))
  | call k t ih =>
      have inner := ih h
      simp [text, inner]
  | inv i t ih =>
      cases i <;> simp [text, mem_parenthesized (ih h)]
  | _ => exact absurd trivial h

theorem isDistributed_of_reads (h : t.reads c.identityText = true) : t.IsDistributed := by
  by_contra star
  have mem := star_mem_text star
  rw [reads_iff.1 h] at mem
  cases c <;> exact absurd mem (by decide)

/-- Operands that are joined stay in the term, but for identities. -/
theorem isDistributed_of_join (h : (c.join ts).IsDistributed) : ∀ t ∈ ts, t.IsDistributed := by
  have append {chain t : Term α} (h : (c.append chain t).IsDistributed) :
      chain.IsDistributed ∧ t.IsDistributed := by
    unfold Chain.append at h
    split at h
    · rename_i reads
      exact ⟨h, isDistributed_of_reads reads⟩
    · split at h
      · rename_i reads
        exact ⟨isDistributed_of_reads reads, h⟩
      · split at h
        · split at h <;> exact ⟨h.1, h.2.1⟩
        · split at h <;> exact ⟨h.1, trivial⟩
        · exact ⟨h.1, h.2.1⟩
  cases ts with
  | nil => exact fun _ ht => absurd ht List.not_mem_nil
  | cons t ts =>
      rw [List.forall_mem_cons]
      rw [Chain.join] at h
      induction ts generalizing t with
      | nil => exact ⟨h, fun _ hu => absurd hu List.not_mem_nil⟩
      | cons u ts ih =>
          obtain ⟨first, rest⟩ := ih _ h
          exact ⟨(append first).1, List.forall_mem_cons.2 ⟨(append first).2, rest⟩⟩

theorem isDistributed_of_negationsAsProducts (h : t.negationsAsProducts.IsDistributed) :
    t.IsDistributed := by
  -- a sum among the factors is a sum without negations as well
  have sum {t : Term α} (h : ∀ f ∈ t.negationsAsProducts.operandsIn .product, f.isSum = false) :
      ∀ f ∈ t.operandsIn .product, f.isSum = false := by
    induction t with
    | bin op l r ihl ihr =>
        cases op with
        | mul =>
            obtain ⟨hl, hr⟩ := List.forall_mem_append.1 h
            exact List.forall_mem_append.2 ⟨ihl hl, ihr hr⟩
        | div =>
            obtain ⟨hl, _⟩ := List.forall_mem_append.1 h
            exact List.forall_mem_append.2 ⟨ihl hl, List.forall_mem_map.2 fun _ _ => rfl⟩
        | add | sub | mod | pow =>
            have top : (bin _ l.negationsAsProducts r.negationsAsProducts).isSum = false :=
              h _ List.mem_cons_self
            exact List.forall_mem_singleton.2 top
    | inv i t _ => exact List.forall_mem_singleton.2 rfl
    | _ => exact h
  induction t using Term.negationsAsProducts.induct with
  | case1 t ih =>
      rw [Term.negationsAsProducts] at h
      exact ih h
  | case2 t hne =>
      rw [Term.negationsAsProducts] at h
      · exact h.2.1
      · assumption
  | case3 op l r ihl ihr =>
      refine ⟨ihl h.1, ihr h.2.1, ?_⟩
      rintro rfl
      exact sum (t := bin .mul l r) (h.2.2 rfl)
  | case4 t _ _ _ =>
      rw [Term.negationsAsProducts] at h
      · exact h
      all_goals assumption

/-- A product of a sum inside of a factor is not multiplied out. -/
theorem isShallow_of_expanded (h : t.expanded.IsDistributed) : t.IsShallow := by
  induction t with
  | bin op l r ihl ihr =>
      cases op with
      | mul =>
          have factor {p : List (Term α)} (hp : p ∈ expandedProducts (bin .mul l r).operands) :
              ∀ q ∈ p, q.IsDistributed := by
            have products := isDistributed_of_join (isDistributed_of_negationsAsProducts h)
            exact isDistributed_of_join (products _ (List.mem_map_of_mem hp))
          intro f hf
          cases hsum : f.isSum with
          | false =>
              obtain ⟨p, hp, hq⟩ := exists_mem_expandedProducts.2 (.inl ⟨hf, hsum⟩)
              exact factor hp f hq
          | true =>
              refine isDistributed_of_summands fun u hu => ?_
              rw [← operands_of_isSum hsum] at hu
              obtain ⟨p, hp, hq⟩ := exists_mem_expandedProducts.2 (.inr ⟨f, hf, hsum, hu⟩)
              exact factor hp u hq
      | _ => exact ⟨ihl h.1, ihr h.2.1⟩
  | _ => trivial

/-! ## Complete distribution -/

theorem arePlain_isLeaf : ArePlain (IsLeaf (α := α)) where
  numbers n := .num n
  not_inv i u h := by cases h
  eq_pow op l r h := by cases h
  unsigned t h := by cases h <;> rfl

theorem isDistributed_of_sumOf (h : SumOf (ProductOf IsLeaf) t) : t.IsDistributed := by
  have product {t : Term α} (h : ProductOf IsLeaf t) : t.IsDistributed := by
    induction h with
    | leaf h => cases h <;> trivial
    | mul hl hr ihl ihr =>
        have factors := (ProductOf.mul hl hr).operandsIn fun u => arePlain_isLeaf.operandsIn _
        exact ⟨ihl, ihr, fun _ f hf => arePlain_isLeaf.not_isSum (factors f hf)⟩
  induction h with
  | leaf h => exact product h
  | add _ _ ihl ihr => exact ⟨ihl, ihr, nofun⟩
  | sub _ _ ihl ihr => exact ⟨ihl, ihr, nofun⟩

namespace IsElementary

theorem factors (h : t.IsElementary) :
    ∀ f ∈ t.operandsIn .product, f.IsElementary ∧ (f.isSum = false → IsLeaf f) := by
  induction h with
  | leaf h =>
      rw [arePlain_isLeaf.operandsIn _ h]
      exact List.forall_mem_singleton.2 ⟨.leaf h, fun _ => h⟩
  | add hl hr => exact List.forall_mem_singleton.2 ⟨.add hl hr, nofun⟩
  | sub hl hr => exact List.forall_mem_singleton.2 ⟨.sub hl hr, nofun⟩
  | mul _ _ ihl ihr => exact List.forall_mem_append.2 ⟨ihl, ihr⟩

omit [Scalar α] in
theorem sumOf (h : t.IsElementary) (distributed : t.IsDistributed) :
    SumOf (ProductOf IsLeaf) t := by
  have product {t : Term α} (h : t.IsElementary)
      (factors : ∀ f ∈ t.operandsIn .product, f.isSum = false) : ProductOf IsLeaf t := by
    induction h with
    | leaf h => exact .leaf h
    | add _ _ | sub _ _ => cases List.forall_mem_singleton.1 factors
    | mul _ _ ihl ihr =>
        obtain ⟨hl, hr⟩ := List.forall_mem_append.1 factors
        exact .mul (ihl hl) (ihr hr)
  induction h with
  | leaf h => exact .leaf (.leaf h)
  | add _ _ ihl ihr => exact .add (ihl distributed.1) (ihr distributed.2.1)
  | sub _ _ ihl ihr => exact .sub (ihl distributed.1) (ihr distributed.2.1)
  | mul hl hr => exact .leaf (product (.mul hl hr) (distributed.2.2 rfl))

end IsElementary

/-- Factors without products of sums are multiplied out to a sum of products. -/
theorem expanded_product (hl : l.IsElementary) (hr : r.IsElementary)
    (shallow : (bin .mul l r).IsShallow) :
    SumOf (ProductOf IsLeaf) (bin .mul l r).expanded := by
  let Signed : Term α → Prop := SignedOf (ProductOf IsLeaf)
  have elementary := (IsElementary.mul hl hr).factors
  have factor : ∀ p ∈ expandedProducts (bin .mul l r).operands, ∀ q ∈ p, Signed q := by
    intro p hp q hq
    rcases exists_mem_expandedProducts.1 ⟨p, hp, hq⟩ with ⟨hq, other⟩ | ⟨s, hs, sum, hq⟩
    · exact .leaf (.leaf ((elementary q hq).2 other))
    · have summands := ((elementary s hs).1.sumOf (shallow s hs)).mono fun _ => SignedOf.leaf
      rw [operands_of_isSum sum] at hq
      exact summands.operandsIn (fun u => arePlain_isLeaf.operandsIn_sum_of_signed)
        (fun u => .neg) q hq
  have direct (i : Inverse) (u : Term α) : ¬ProductOf IsLeaf (inv i u) := fun h => by
    cases h with
    | leaf h => cases h
  have products : ∀ q ∈ (expandedProducts (bin .mul l r).operands).map Chain.product.join,
      ProductOf Signed q := by
    refine List.forall_mem_map.2 fun p hp => ?_
    refine join_productOf (factor p hp) (fun n => .leaf (.leaf (.num n))) ?_
    rintro u (h | h)
    exact direct _ _ h
  have unsigned (u : Term α) (hu : ProductOf Signed (inv .neg u)) : ProductOf Signed u := by
    cases hu with
    | leaf h => exact .leaf (h.of_neg direct)
  have row := join_rowOf products (fun n => .leaf (.leaf (.leaf (.num n)))) unsigned
  exact row.negationsAsProducts fun _ => arePlain_isLeaf.negationsAsProducts_product

/-- The products of an elementary term are multiplied out completely iff no factor of an outermost
product has a product of a sum in it. -/
theorem expanded_isDistributed (h : t.IsElementary) : t.expanded.IsDistributed ↔ t.IsShallow := by
  refine ⟨isShallow_of_expanded, fun shallow => ?_⟩
  induction h with
  | leaf h => cases h <;> trivial
  | add _ _ ihl ihr => exact ⟨ihl shallow.1, ihr shallow.2, nofun⟩
  | sub _ _ ihl ihr => exact ⟨ihl shallow.1, ihr shallow.2, nofun⟩
  | mul hl hr => exact isDistributed_of_sumOf (expanded_product hl hr shallow)

/-- `(a+2*b)*(a-b)*3` is multiplied out completely. -/
theorem expanded_isDistributed_differences :
    let v (name : String) : Term ℚ := .var name none
    let t := bin .mul (.bin .mul (.bin .add (v "a") (.bin .mul (.num 2) (v "b")))
      (.bin .sub (v "a") (v "b"))) (.num 3)
    t.IsElementary ∧ t.IsShallow ∧ t.expanded.IsDistributed := by
  intro v t
  have letter (name : String) : (v name).IsElementary := .leaf (.var name none)
  have number (n : ℚ) : (num n).IsElementary := .leaf (.num n)
  have elementary : t.IsElementary :=
    .mul (.mul (.add (letter "a") (.mul (number 2) (letter "b"))) (.sub (letter "a") (letter "b")))
      (number 3)
  have product : (bin .mul (.num 2) (v "b")).IsDistributed :=
    ⟨trivial, trivial, fun _ => List.forall_mem_cons.2 ⟨rfl, List.forall_mem_singleton.2 rfl⟩⟩
  have shallow : t.IsShallow :=
    List.forall_mem_cons.2 ⟨⟨trivial, product, nofun⟩,
      List.forall_mem_cons.2 ⟨⟨trivial, trivial, nofun⟩, List.forall_mem_singleton.2 trivial⟩⟩
  refine ⟨elementary, shallow, ?_⟩
  rw [expanded_isDistributed elementary]
  exact shallow

/-- `2*(a+3*(b+a))` is multiplied out to `a*2+3*(b+a)*2`. -/
theorem expanded_leaves_product :
    let v (name : String) : Term ℚ := .var name none
    let inner := bin .mul (.num 3) (.bin .add (v "b") (v "a"))
    let t := bin .mul (.num 2) (.bin .add (v "a") inner)
    t.IsElementary ∧
      t.expanded = .bin .add (.bin .mul (v "a") (.num 2)) (.bin .mul inner (.num 2)) ∧
      ¬t.expanded.IsDistributed := by
  intro v inner t
  have letter (name : String) : (v name).IsElementary := .leaf (.var name none)
  have number (n : ℚ) : (num n).IsElementary := .leaf (.num n)
  have expansion : t.expanded =
      .bin .add (.bin .mul (v "a") (.num 2)) (.bin .mul inner (.num 2)) := by
    with_unfolding_all rfl
  refine ⟨?_, expansion, ?_⟩
  · exact .mul (number 2) (.add (letter "a") (.mul (number 3) (.add (letter "b") (letter "a"))))
  · rw [expansion]
    intro distributed
    have factors := distributed.2.1.2.2 rfl (.bin .add (v "b") (v "a"))
    have sum : (bin .add (v "b") (v "a")).isSum = false :=
      factors (List.mem_cons_of_mem _ List.mem_cons_self)
    cases sum

end Term

end AlgebraicTerms
