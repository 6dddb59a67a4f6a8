import AlgebraicTerms.Proofs.Scalar.PartialRational
import AlgebraicTerms.Proofs.Term.Ranking
import AlgebraicTerms.Proofs.Term.Regrouping

/-!
# Sorting twice

Sorting joins the operands of a chain, and an operand may have become an operation of that chain while
it was sorted, as the sum in `c+1*(b+a)`, or its minus has been joined, as in `-(a+b)+c`.  Such an
operand is on the right of an operation of its own chain, and the next time its operands are sorted
into the chain.  If there is none, sorting leaves what is sorted as it is, and otherwise it does not.
It is written the same nevertheless if its operands are in order already and need no parentheses
(`sorted_sorted`).
-/

namespace AlgebraicTerms

namespace Term

variable {α : Type} [Scalar α] {c : Chain} {op : Operator} {t l r chain : Term α}
  {ts : List (Term α)}

/-- Whether the operands of chains are in order. -/
def IsOrdered : Term α → Prop
  | bin op l r => ∀ c, Chain.of? op = some c →
    l.IsOrdered ∧ r.IsOrdered ∧ InOrder ((bin op l r).operandsIn c)
  | call _ t | inv _ t => t.IsOrdered
  | _ => True

theorem IsOrdered.descending : Descending (IsOrdered (α := α)) :=
  ⟨fun hop h => ⟨(h _ hop).1, (h _ hop).2.1⟩, .rfl⟩

theorem IsOrdered.operandsIn (h : t.IsOrdered) (c : Chain) : InOrder (t.operandsIn c) := by
  cases t with
  | bin op l r =>
      by_cases hop : Chain.of? op = some c
      · exact (h c hop).2.2
      · rw [Term.operandsIn, if_neg hop]
        exact List.pairwise_singleton _ _
  | _ => exact List.pairwise_singleton _ _

/-- A chain that is in order and nests to the left is left as it is. -/
theorem sorted_of_isOrdered (joined : t.IsJoined) (left : t.NestsLeft) (ordered : t.IsOrdered) :
    t.sorted = t := by
  induction t using operandsInduction with
  | chain c op l r hop ih =>
      have operands : ((bin op l r).operandsIn c).map sorted = (bin op l r).operandsIn c := by
        refine (List.map_congr_left fun u hu => ?_).trans (List.map_id _)
        exact ih u hu (IsJoined.descending.operandsIn joined u hu)
          (NestsLeft.descending.operandsIn left u hu) (IsOrdered.descending.operandsIn ordered u hu)
      rw [sorted_eq_join_ordered c, orderedOperands, operands,
        sortByKey_of_inOrder (ordered c hop).2.2, join_operandsIn joined left]
  | other op l r hop => rw [sorted, hop]
  | call k t ih => exact congrArg (call k) (ih joined left ordered)
  | inv i t ih => exact congrArg (inv i) (ih joined left ordered)
  | _ => rfl

/-! ## Chains in order -/

theorem attach_isOrdered (hchain : chain.IsOrdered) (ht : t.IsOrdered)
    (inOrder : InOrder ((c.attach chain t).operandsIn c)) : (c.attach chain t).IsOrdered := by
  obtain ⟨op, r, hop, operand, attached⟩ := Chain.exists_attach_operand c t
  rw [attached] at inOrder ⊢
  intro c' hop'
  obtain rfl : c' = c := Option.some.inj (hop'.symm.trans hop)
  exact ⟨hchain, (Chain.right_iff .rfl (fun _ => trivial) operand).2 ht, inOrder⟩

section Ordered

variable [Scalar.Ranked α]

/-- Operands in order are joined to a chain in order if none of them nests to the right in it. -/
theorem join_isOrdered (graded : ∀ t ∈ ts, t.Graded) (inOrder : InOrder ts)
    (ordered : ∀ t ∈ ts, t.NestsLeft → t.IsOrdered) (left : (c.join ts).NestsLeft) :
    (c.join ts).IsOrdered ∧
      (ts ≠ [] → ∀ u ∈ (c.join ts).operandsIn c, ∃ t ∈ ts, u.sortKey.AtMost t.sortKey) := by
  induction ts using List.reverseRecOn with
  | nil => exact ⟨trivial, fun hne => absurd rfl hne⟩
  | append_singleton ts t ih =>
      obtain ⟨gradedInit, gradedLast⟩ := List.forall_mem_append.1 graded
      obtain ⟨orderedInit, orderedLast⟩ := List.forall_mem_append.1 ordered
      obtain ⟨inOrderInit, _, between⟩ := List.pairwise_append.1 inOrder
      replace gradedLast := List.forall_mem_singleton.1 gradedLast
      replace orderedLast := List.forall_mem_singleton.1 orderedLast
      have last : t ∈ ts ++ [t] := List.mem_append_right ts List.mem_cons_self
      have alone (left : t.NestsLeft) : t.IsOrdered ∧ (ts ++ [t] ≠ [] →
          ∀ u ∈ t.operandsIn c, ∃ v ∈ ts ++ [t], u.sortKey.AtMost v.sortKey) :=
        ⟨orderedLast left, fun _ u hu => ⟨t, last, atMost_of_mem hu⟩⟩
      by_cases hne : ts = []
      · subst hne
        exact alone left
      rw [Chain.join_concat hne] at left ⊢
      rcases Chain.append_cases c (c.join ts) t with ⟨_, same⟩ | ⟨_, _, same⟩ | ⟨_, _, same⟩
      · rw [same] at left ⊢
        obtain ⟨ordered, bounded⟩ := ih gradedInit inOrderInit orderedInit left
        refine ⟨ordered, fun _ u hu => ?_⟩
        obtain ⟨v, hv, first⟩ := bounded hne u hu
        exact ⟨v, List.mem_append_left [t] hv, first⟩
      · rw [same] at left ⊢
        exact alone left
      · rw [same] at left ⊢
        obtain ⟨leftInit, leftLast, operands⟩ := nestsLeft_of_attach left
        obtain ⟨ordered, bounded⟩ := ih gradedInit inOrderInit orderedInit leftInit
        have key : (c.readBack t).sortKey = t.sortKey := Chain.sortKey_readBack c t
        have after : ∀ u ∈ (c.join ts).operandsIn c, u.sortKey.AtMost t.sortKey := by
          intro u hu
          obtain ⟨v, hv, first⟩ := bounded hne u hu
          have gradedChain := Graded.arrangeable.join (c := c) hne gradedInit
          have ranked := (Graded.arrangeable.operandsIn gradedChain u hu).isRanked
          exact first.trans ranked (gradedInit v hv).isRanked gradedLast.isRanked
            (between v hv t List.mem_cons_self)
        refine ⟨attach_isOrdered ordered (orderedLast leftLast) ?_, fun _ => ?_⟩
        · rw [operands]
          refine List.pairwise_append.2 ⟨ordered.operandsIn c, List.pairwise_singleton _ _, ?_⟩
          intro u hu
          rw [List.forall_mem_singleton, key]
          exact after u hu
        · rw [operands]
          refine List.forall_mem_append.2 ⟨fun u hu => ⟨t, last, after u hu⟩, ?_⟩
          rw [List.forall_mem_singleton, key]
          exact ⟨t, last, .refl _⟩

theorem sorted_isOrdered (graded : t.Graded) (left : t.sorted.NestsLeft) : t.sorted.IsOrdered := by
  induction t using operandsInduction with
  | chain c op l r hop ih =>
      have operands := Graded.arrangeable.operandsIn (c := c) graded
      have sorted : ∀ u ∈ (bin op l r).operandsIn c, u.sorted.Graded :=
        fun u hu => Graded.arrangeable.sorted (operands u hu)
      rw [sorted_eq_join_ordered c] at left ⊢
      refine (join_isOrdered (forall_mem_orderedOperands.2 sorted) ?_ ?_ left).1
      · exact sortByKey_inOrder (List.forall_mem_map.2 sorted)
      · exact forall_mem_orderedOperands.2 fun u hu => ih u hu (operands u hu)
  | other op l r hop =>
      rw [Term.sorted, hop]
      exact fun c hop' => absurd (hop'.symm.trans hop) (Option.some_ne_none c)
  | call k t ih => exact ih graded left
  | inv i t ih => exact ih graded left
  | _ => trivial

end Ordered

/-! ## Keys of sorted terms -/

section Keys

variable [Scalar.Ranked α]

/-- Operands that are no identities give a chain their greatest degree and the sum of their weights. -/
theorem join_key (hne : ts ≠ []) (proper : ∀ u ∈ ts, u.reads c.identityText = false) (n : α) :
    (Scalar.lt n (c.join ts).degree = false ↔ ∀ u ∈ ts, Scalar.lt n u.degree = false) ∧
      (c.join ts).weight = (ts.map weight).sum := by
  induction ts using List.reverseRecOn with
  | nil => exact absurd rfl hne
  | append_singleton ts t ih =>
      by_cases init : ts = []
      · subst init
        rw [List.nil_append, List.forall_mem_singleton, List.map_singleton, List.sum_singleton]
        exact ⟨.rfl, rfl⟩
      · obtain ⟨degree, weight⟩ := ih init (List.forall_mem_append.1 proper).1
        obtain ⟨op, r, hop, operand, attached⟩ := Chain.exists_attach_operand c t
        have key : r.sortKey = t.sortKey := by
          rw [← Chain.sortKey_readBack c t, ← operand, sortKey_operand]
        have degrees : r.degree = t.degree := congrArg SortKey.degree key
        have weights : r.weight = t.weight := congrArg SortKey.weight key
        rw [(join_concat_of_proper init proper).2, attached]
        refine ⟨?_, ?_⟩
        · rw [degree_of_chain hop, Scalar.Ranked.not_lt_greater, degree, degrees,
            List.forall_mem_append, List.forall_mem_singleton]
        · rw [weight_of_chain hop, weight, weights, List.map_append, List.sum_append,
            List.map_singleton, List.sum_singleton]

/-- Sorting keeps the degree and the weight of a joined chain. -/
theorem IsJoined.sorted_key (joined : t.IsJoined) :
    (∀ n, Scalar.lt n t.sorted.degree = false ↔ Scalar.lt n t.degree = false) ∧
      t.sorted.weight = t.weight := by
  induction t using operandsInduction with
  | chain c op l r hop ih =>
      have inner := IsJoined.descending.operandsIn (c := c) joined
      have key := join_key orderedOperands_ne_nil (joined.orderedOperands_proper hop)
      rw [sorted_eq_join_ordered c]
      refine ⟨fun n => ?_, ?_⟩
      · rw [(key n).1, forall_mem_orderedOperands, not_lt_degree c]
        exact forall₂_congr fun u hu => (ih u hu (inner u hu)).1 n
      · rw [(key Scalar.zero).2, ← (orderedOperands_perm.map weight).sum_eq, weight_eq_sum c,
          List.map_map]
        exact congrArg List.sum (List.map_congr_left fun u hu => (ih u hu (inner u hu)).2)
  | other op l r hop =>
      rw [Term.sorted, hop]
      exact ⟨fun _ => .rfl, rfl⟩
  | call k t ih => exact ih joined
  | inv i t ih => exact ih joined
  | _ => exact ⟨fun _ => .rfl, rfl⟩

theorem IsJoined.sorted_atMost (joined : t.IsJoined) :
    t.sorted.sortKey.AtMost t.sortKey ∧ t.sortKey.AtMost t.sorted.sortKey := by
  obtain ⟨degree, weight⟩ := joined.sorted_key
  have least := (degree t.degree).2 (SortKey.lt_irrefl t.degree)
  have greatest := (degree t.sorted.degree).1 (SortKey.lt_irrefl t.sorted.degree)
  refine ⟨SortKey.atMost_iff.2 ⟨least, .inr ?_⟩, SortKey.atMost_iff.2 ⟨greatest, .inr ?_⟩⟩
  · exact weight.le
  · exact weight.ge

/-- Operands of joined chains that are in order stay in order when they are sorted one by one. -/
theorem InOrder.map_sorted (h : InOrder ts) (graded : ∀ t ∈ ts, t.Graded)
    (joined : ∀ t ∈ ts, t.IsJoined) : InOrder (ts.map sorted) := by
  refine List.pairwise_map.2 (h.imp_of_mem fun {t u} ht hu place => ?_)
  have ranked {v : Term α} (hv : v ∈ ts) := (graded v hv).isRanked
  have rankedSorted {v : Term α} (hv : v ∈ ts) := (Graded.arrangeable.sorted (graded v hv)).isRanked
  have first := (joined t ht).sorted_atMost.1.trans (rankedSorted ht) (ranked ht) (ranked hu) place
  exact first.trans (rankedSorted ht) (ranked hu) (rankedSorted hu) (joined u hu).sorted_atMost.2

end Keys

/-! ## Chains that are sorted already -/

/-- What is read back from a chain and sorted to what was joined to it is sorted. -/
theorem sorted_of_readBack (h : t = c.readBack t.sorted) : t.sorted = t := by
  cases hs : t.sorted with
  | num n =>
      rw [hs, Chain.readBack] at h
      split at h
      · rw [h] at hs
        cases hs
      · exact h.symm
  | _ =>
      rw [hs] at h
      exact h.symm

variable [Scalar.Ranked α]

/-- A joined chain that sorting leaves as it is nests to the left. -/
theorem nestsLeft_of_sorted (joined : t.IsJoined) (graded : t.Graded) (fixed : t.sorted = t) :
    t.NestsLeft := by
  induction t using operandsInduction with
  | chain c op l r hop ih =>
      have joinedOperands := IsJoined.descending.operandsIn (c := c) joined
      have gradedOperands := Graded.arrangeable.operandsIn (c := c) graded
      have rejoined : c.join ((bin op l r).orderedOperands c) = bin op l r := by
        rw [← sorted_eq_join_ordered, fixed]
      obtain ⟨left, t, us, ordered, operands⟩ :=
        (operands_of_join orderedOperands_ne_nil (joined.orderedOperands_proper hop)).2
          (by rw [rejoined, length_orderedOperands])
      rw [rejoined] at left operands
      -- the operands have the keys of the sorted operands, and those are in order
      have inOrder : InOrder ((bin op l r).operandsIn c) := by
        have sorted : InOrder ((bin op l r).orderedOperands c) :=
          sortByKey_inOrder (List.forall_mem_map.2 fun u hu =>
            Graded.arrangeable.sorted (gradedOperands u hu))
        have keys : ((bin op l r).operandsIn c).map sortKey =
            ((bin op l r).orderedOperands c).map sortKey := by
          rw [operands, ordered, List.map_cons, List.map_cons, List.map_map]
          exact congrArg _ (List.map_congr_left fun u _ => Chain.sortKey_readBack c u)
        rw [InOrder, ← List.pairwise_map (f := sortKey)] at sorted ⊢
        rwa [keys]
      -- so sorting left every operand at its place
      have places : (bin op l r).orderedOperands c = ((bin op l r).operandsIn c).map sorted :=
        sortByKey_of_inOrder (inOrder.map_sorted gradedOperands joinedOperands)
      have fixedOperands : ∀ u ∈ (bin op l r).operandsIn c, u.sorted = u := by
        rw [ordered, operands, List.map_cons, List.map_map] at places
        obtain ⟨first, rest⟩ := List.cons.inj places
        rw [operands]
        refine List.forall_mem_cons.2 ⟨first.symm, List.forall_mem_map.2 fun u hu => ?_⟩
        have same : u = (c.readBack u).sorted :=
          List.map_inj_left.1 ((List.map_id us).trans rest) u hu
        exact sorted_of_readBack (congrArg c.readBack same)
      refine left ?_
      rw [places]
      refine List.forall_mem_map.2 fun u hu => ?_
      rw [fixedOperands u hu]
      exact ih u hu (joinedOperands u hu) (gradedOperands u hu) (fixedOperands u hu)
  | other op l r hop =>
      exact fun c hop' => absurd (hop'.symm.trans hop) (Option.some_ne_none c)
  | call k t ih => exact ih joined graded (call.inj fixed).2
  | inv i t ih => exact ih joined graded (inv.inj fixed).2
  | _ => trivial

/-- A chain that is in order and nests openly is written the same when it is sorted. -/
theorem sorted_resembles (joined : t.IsJoined) (graded : t.Graded) (ordered : t.IsOrdered)
    (nests : t.NestsOpenly) : Resembles t.sorted t := by
  induction t using operandsInduction with
  | chain c op l r hop ih =>
      have joinedOperands := IsJoined.descending.operandsIn (c := c) joined
      have gradedOperands := Graded.arrangeable.operandsIn (c := c) graded
      have places : (bin op l r).orderedOperands c = ((bin op l r).operandsIn c).map sorted :=
        sortByKey_of_inOrder ((ordered c hop).2.2.map_sorted gradedOperands joinedOperands)
      rw [sorted_eq_join_ordered c, places]
      refine .trans (.join_map fun u hu => ?_) (join_operandsIn_resembles joined nests)
      exact ih u hu (joinedOperands u hu) (gradedOperands u hu)
        (IsOrdered.descending.operandsIn ordered u hu) (NestsOpenly.descending.operandsIn nests u hu)
  | other op l r hop =>
      rw [sorted, hop]
      exact .refl _
  | call k t ih => exact .call k (ih joined graded ordered nests)
  | inv i t ih => exact .inv i (ih joined graded ordered nests)
  | _ => exact .refl _

/-- A sorted term that is sorted again is written the same if it is in order and nests openly, and is the
same iff it nests to the left. -/
theorem sorted_sorted (graded : t.Graded) :
    (t.sorted.IsOrdered → t.sorted.NestsOpenly → t.sorted.sorted.text = t.sorted.text) ∧
      (t.sorted.sorted = t.sorted ↔ t.sorted.NestsLeft) := by
  have joined := sorted_isJoined t
  have gradedSorted := Graded.arrangeable.sorted graded
  refine ⟨fun ordered nests => ?_, fun fixed => ?_, fun left => ?_⟩
  · exact (sorted_resembles joined gradedSorted ordered nests).text_eq
  · exact nestsLeft_of_sorted joined gradedSorted fixed
  · exact sorted_of_isOrdered joined left (sorted_isOrdered graded left)

/-- `(0+c*b)*a` is sorted to `a*(b*c)`, and that to `(a*b)*c`.  `c-b/a` is sorted to `c-1 / a*b`. -/
theorem sorted_sorted_products :
    let v (name : String) : Term ℚ := .var name none
    let t := bin .mul (bin .add (num 0) (bin .mul (v "c") (v "b"))) (v "a")
    let u := bin .sub (v "c") (bin .div (v "b") (v "a"))
    t.sorted = bin .mul (v "a") (bin .mul (v "b") (v "c")) ∧ t.sorted.sorted ≠ t.sorted ∧
      t.sorted.sorted.text = t.sorted.text ∧
      u.sorted = bin .sub (v "c") (bin .mul (inv .recip (v "a")) (v "b")) ∧
      u.sorted.sorted = u.sorted := by
  intro v t u
  have first : t.sorted = bin .mul (v "a") (bin .mul (v "b") (v "c")) := by
    subst t v
    with_unfolding_all rfl
  have second : u.sorted = bin .sub (v "c") (bin .mul (inv .recip (v "a")) (v "b")) := by
    subst u v
    with_unfolding_all rfl
  obtain ⟨written, same⟩ := sorted_sorted (t := t) ⟨⟨trivial, trivial, trivial⟩, trivial⟩
  have ordered : (bin .mul (v "a") (bin .mul (v "b") (v "c"))).IsOrdered := by
    have inOrder : InOrder [v "a", v "b", v "c"] := by
      unfold InOrder SortKey.AtMost
      decide +kernel
    rintro _ ⟨⟩
    refine ⟨trivial, ?_, inOrder⟩
    rintro _ ⟨⟩
    exact ⟨trivial, trivial, inOrder.of_cons⟩
  have nests : (bin .mul (v "a") (bin .mul (v "b") (v "c"))).NestsOpenly := by
    rintro _ ⟨⟩
    refine ⟨trivial, ?_, fun _ => ⟨rfl, trivial⟩⟩
    rintro _ ⟨⟩
    exact ⟨trivial, trivial, nofun⟩
  have left : (bin .sub (v "c") (bin .mul (inv .recip (v "a")) (v "b"))).NestsLeft := by
    rintro _ ⟨⟩
    refine ⟨trivial, ?_, rfl⟩
    rintro _ ⟨⟩
    exact ⟨trivial, trivial, rfl⟩
  refine ⟨first, ?_, written ?_ ?_, second, ?_⟩
  · rw [Ne, same, first]
    exact fun left => nomatch (left .product rfl).2.2
  · rw [first]
    exact ordered
  · rw [first]
    exact nests
  · refine (sorted_sorted (t := u) ⟨trivial, trivial, trivial⟩).2.2 ?_
    rw [second]
    exact left

/-- `-(a+b)+c` is sorted to `c-(a+b)`, with the sum on the right of a minus, and that to `-a-b+c`.  A
power whose exponent is no number has no place in the order. -/
theorem sorted_moves :
    (let v (name : String) : Term ℚ := .var name none
      let t := bin .add (inv .neg (bin .add (v "a") (v "b"))) (v "c")
      t.sorted.text = "c-(a+b)" ∧ t.sorted.sorted.text = "-a-b+c") ∧
    (let v (name : String) : Term PartialRational := .var name none
      let power := bin .pow (v "x") (num ⟨none⟩)
      let square := bin .pow (v "c") (num Scalar.two)
      let t := bin .mul (bin .add (num Scalar.zero) (bin .mul (v "a") power)) square
      t.sorted.text = "a*x^NaN*c^2" ∧ t.sorted.sorted.text = "a*c^2*x^NaN") := by
  decide +kernel

end Term

end AlgebraicTerms
