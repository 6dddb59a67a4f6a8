import AlgebraicTerms.Proofs.Term.Order
import AlgebraicTerms.Proofs.Term.Products
import AlgebraicTerms.Proofs.Term.Sorted
import Mathlib.Data.Multiset.Bind

/-!
# Rearranged products

Exchanging the two sides of a product rearranges the products it multiplies out to, and the factors of
each, but leaves the first product in front.  Joining a chain treats its first operand differently:
a reciprocal stays a node of its own there and is a divisor elsewhere.  Where that makes no
difference, and the keys tell all operands apart, both sides have the same expansion in canonical
order (`expanded_mul_comm`).
-/

namespace AlgebraicTerms

variable {α : Type} [Scalar α]

namespace Term

/-- A summand or factor as it is searched for. -/
def prepared (t : Term α) : Term α := t.negationsAsProducts.withExponents

theorem mem_text_bin {op : Operator} {l r : Term α} (h : op = .add → r.bringsMinus = false) :
    op.toChar ∈ (bin op l r).text.toList := by
  cases op with
  | add =>
      rw [text, h rfl]
      simp [Operator.toChar]
  | _ => simp [text, Operator.symbol, Operator.toChar]

theorem inv_reads (c : Chain) (i : Inverse) (t : Term α) :
    (inv i t).reads c.identityText = false := by
  have other (sign : Char) (h : sign ∈ (inv i t).text.toList)
      (none : sign ∉ c.identityText.toList) : (inv i t).reads c.identityText = false :=
    Bool.eq_false_iff.2 fun reads => none (reads_iff.1 reads ▸ h)
  cases i with
  | neg => exact other '-' (by simp [text]) (by cases c <;> decide)
  | recip => exact other ' ' (by simp [text]) (by cases c <;> decide)

end Term

namespace Chain

open Term

variable {c : Chain} {chain t : Term α} {ts us : List (Term α)}

/-- A chain with one more operand, where neither is the identity. -/
def attach (c : Chain) (chain t : Term α) : Term α :=
  match t with
  | .inv i operand => if i = c.inverse then .bin c.inverseOp chain operand else .bin c.op chain t
  | .num n =>
    if c = .sum ∧ Scalar.isNegative n then .bin .sub chain (.num (-n)) else .bin c.op chain t
  | _ => .bin c.op chain t

/-- The operands that are not the identity. -/
def proper (c : Chain) (ts : List (Term α)) : List (Term α) := ts.filter (!·.reads c.identityText)

/-- A chain of two operands is an operation, and does not read like the identity. -/
theorem exists_attach (c : Chain) (chain t : Term α) :
    ∃ op r, c.attach chain t = .bin op chain r ∧ of? op = some c ∧
      (op = .add → r.bringsMinus = false) := by
  have direct (h : c = .sum → t.bringsMinus = false) : ∃ op r, bin c.op chain t = .bin op chain r ∧
      of? op = some c ∧ (op = .add → r.bringsMinus = false) := by
    refine ⟨c.op, t, rfl, c.of?_op, fun hop => h ?_⟩
    cases c with
    | sum => rfl
    | product => cases hop
  cases t with
  | inv i operand =>
      rw [attach]
      split
      · refine ⟨c.inverseOp, operand, rfl, c.of?_inverseOp, ?_⟩
        cases c <;> exact nofun
      · rename_i hne
        refine direct fun hc => ?_
        subst hc
        cases i with
        | neg => exact absurd rfl hne
        | recip => rfl
  | num n =>
      rw [attach]
      split
      · rename_i h
        exact ⟨.sub, _, rfl, by rw [h.1]; rfl, nofun⟩
      · rename_i h
        exact direct fun hc => Bool.eq_false_iff.2 fun hn => h ⟨hc, hn⟩
  | _ => exact direct fun _ => rfl

theorem attach_reads (c c' : Chain) (chain t : Term α) :
    (c.attach chain t).reads c'.identityText = false := by
  obtain ⟨op, r, h, _, hminus⟩ := exists_attach c chain t
  refine Bool.eq_false_iff.2 fun hreads => ?_
  have mem := mem_text_bin (l := chain) hminus
  rw [← h, reads_iff.1 hreads] at mem
  cases op <;> cases c' <;> exact absurd mem (by decide)

theorem append_of_proper (hchain : chain.reads c.identityText = false)
    (ht : t.reads c.identityText = false) : c.append chain t = c.attach chain t := by
  unfold append
  rw [if_neg (Bool.eq_false_iff.1 ht), if_neg (Bool.eq_false_iff.1 hchain)]
  rfl

/-- The identity adds nothing, what is added to the identity is the chain, and otherwise there are two
operands. -/
theorem append_cases (c : Chain) (chain t : Term α) :
    t.reads c.identityText = true ∧ c.append chain t = chain ∨
    t.reads c.identityText = false ∧ chain.reads c.identityText = true ∧ c.append chain t = t ∨
    t.reads c.identityText = false ∧ chain.reads c.identityText = false ∧
      c.append chain t = c.attach chain t := by
  cases ht : t.reads c.identityText with
  | true => exact .inl ⟨rfl, if_pos ht⟩
  | false =>
      cases hchain : chain.reads c.identityText with
      | true =>
          refine .inr (.inl ⟨rfl, rfl, ?_⟩)
          exact (if_neg (Bool.eq_false_iff.1 ht)).trans (if_pos hchain)
      | false => exact .inr (.inr ⟨rfl, rfl, append_of_proper hchain ht⟩)

theorem foldl_append_of_proper (hchain : chain.reads c.identityText = false) :
    ts.foldl c.append chain = (c.proper ts).foldl c.attach chain := by
  induction ts generalizing chain with
  | nil => rfl
  | cons t ts ih =>
      rw [List.foldl_cons, proper, List.filter_cons]
      cases ht : t.reads c.identityText with
      | true =>
          unfold append
          rw [if_pos ht]
          exact ih hchain
      | false =>
          rw [append_of_proper hchain ht]
          exact ih (attach_reads c c chain t)

/-- Only operands other than the identity are joined, if there are any. -/
theorem join_eq (c : Chain) (ts : List (Term α)) :
    c.join ts = match c.proper ts with
      | [] => ts.head?.getD (.num (Scalar.ofNat c.identity))
      | t :: us => us.foldl c.attach t := by
  have start (chain : Term α) (hchain : chain.reads c.identityText = true) (ts : List (Term α)) :
      ts.foldl c.append chain = match c.proper ts with
        | [] => chain
        | t :: us => us.foldl c.attach t := by
    induction ts with
    | nil => rfl
    | cons t ts ih =>
        rw [List.foldl_cons, proper, List.filter_cons]
        cases ht : t.reads c.identityText with
        | true =>
            unfold append
            rw [if_pos ht]
            exact ih
        | false =>
            have first : c.append chain t = t := by
              unfold append
              rw [if_neg (Bool.eq_false_iff.1 ht), if_pos hchain]
            rw [first]
            exact foldl_append_of_proper ht
  cases ts with
  | nil => rfl
  | cons t ts =>
      rw [join, proper, List.filter_cons]
      cases ht : t.reads c.identityText with
      | true => exact start t ht ts
      | false => exact foldl_append_of_proper ht

end Chain

namespace Term

variable {c : Chain} {t q : Term α} {ts us p p' : List (Term α)}

/-- The sorted operands that a term adds to a chain after its first operand. -/
def tailOperands (c : Chain) : Term α → List (Term α)
  | inv i t =>
    if i = c.inverse then (t.prepared.sortedOperands c).map (inv i)
    else (inv i t).prepared.sortedOperands c
  | num n => if c = .sum ∧ Scalar.isNegative n then [inv .neg (num (-n))] else [num n]
  | t => t.prepared.sortedOperands c

theorem sortedOperands_attach (c : Chain) (chain t : Term α) :
    (c.attach chain t).prepared.sortedOperands c =
      chain.prepared.sortedOperands c ++ t.tailOperands c := by
  have direct (t : Term α) : (bin c.op chain t).prepared.sortedOperands c =
      chain.prepared.sortedOperands c ++ t.prepared.sortedOperands c := by
    cases c <;> rfl
  cases t with
  | inv i operand =>
      rw [Chain.attach, tailOperands]
      by_cases hi : i = c.inverse
      · rw [if_pos hi, if_pos hi, hi]
        cases c <;> rfl
      · rw [if_neg hi, if_neg hi]
        exact direct _
  | num n =>
      rw [Chain.attach, tailOperands]
      by_cases hn : c = .sum ∧ Scalar.isNegative n = true
      · rw [if_pos hn, if_pos hn, hn.1]
        rfl
      · rw [if_neg hn, if_neg hn]
        exact direct _
  | _ => exact direct _

theorem sortedOperands_foldl_attach (c : Chain) (t : Term α) (ts : List (Term α)) :
    (ts.foldl c.attach t).prepared.sortedOperands c =
      t.prepared.sortedOperands c ++ ts.flatMap (tailOperands c) := by
  induction ts generalizing t with
  | nil => rw [List.flatMap_nil, List.append_nil, List.foldl_nil]
  | cons u ts ih =>
      rw [List.foldl_cons, ih, sortedOperands_attach, List.flatMap_cons, List.append_assoc]

/-! ## Factors -/

/-- Whether a factor means the same in front of a product as elsewhere in it: if it reads `1` it is
the number, and if it is a reciprocal, then of a term that is no product and has no negation below
an operator. -/
def Movable (t : Term α) : Prop :=
  (t.reads "1" = true → t = num Scalar.one) ∧
    ∀ u ∈ t.operandOf? .recip, u.isBinary [.mul, .div] = false ∧ u.negationsAsProducts = u

instance [DecidableEq α] (t : Term α) : Decidable t.Movable := inferInstanceAs (Decidable (_ ∧ _))

theorem sortedOperands_of_not_product (h : t.isBinary [.mul, .div] = false) :
    t.withExponents.sortedOperands .product = [t.withExponents.sorted] := by
  cases t with
  | bin op l r => cases op <;> first | rfl | cases h
  | _ => rfl

theorem Movable.tailOperands (h : q.Movable) :
    q.prepared.sortedOperands .product = q.tailOperands .product := by
  cases q with
  | inv i u =>
      rw [Term.tailOperands]
      cases i with
      | neg => rfl
      | recip =>
          obtain ⟨hu, same⟩ := h.2 u rfl
          show _ = (u.prepared.sortedOperands .product).map (inv .recip)
          rw [prepared, prepared, same, sortedOperands_of_not_product hu]
          rfl
  | num n => rfl
  | _ => rfl

/-- The sorted factors of a joined product. -/
theorem sortedOperands_join (hp : ∀ q ∈ p, q.Movable) :
    (Chain.product.join p).prepared.sortedOperands .product =
      if Chain.product.proper p = [] then [num Scalar.one]
      else (Chain.product.proper p).flatMap (tailOperands .product) := by
  rw [Chain.join_eq]
  cases hproper : Chain.product.proper p with
  | nil =>
      rw [if_pos rfl]
      cases p with
      | nil => rfl
      | cons q p =>
          have one : q.reads "1" = true := by
            by_contra hq
            have mem : q ∈ Chain.product.proper (q :: p) :=
              List.mem_filter.2 ⟨List.mem_cons_self, by simpa [Chain.identityText] using hq⟩
            rw [hproper] at mem
            cases mem
          rw [List.head?_cons, Option.getD_some, (hp q List.mem_cons_self).1 one]
          rfl
  | cons q rest =>
      have mem : q ∈ Chain.product.proper p := hproper ▸ List.mem_cons_self
      rw [if_neg (List.cons_ne_nil _ _), List.flatMap_cons,
        ← (hp q (List.mem_filter.1 mem).1).tailOperands]
      exact sortedOperands_foldl_attach .product q rest

/-- The order of the factors of a product does not matter if the keys tell them apart. -/
theorem join_sorted_of_perm (h : p.Perm p') (hp : ∀ q ∈ p, q.Movable) [Scalar.Ordered α]
    (hkeys : ∀ t ∈ (Chain.product.join p).prepared.sortedOperands .product,
      ∀ u ∈ (Chain.product.join p).prepared.sortedOperands .product, t.Comparable u) :
    (Chain.product.join p).prepared.sorted = (Chain.product.join p').prepared.sorted := by
  have hp' : ∀ q ∈ p', q.Movable := fun q hq => hp q (h.mem_iff.2 hq)
  have proper : (Chain.product.proper p).Perm (Chain.product.proper p') := h.filter _
  rw [sorted_eq_join .product, sorted_eq_join .product (Chain.product.join p').prepared]
  refine congrArg _ (sortByKey_eq_of_perm ?_ hkeys)
  rw [sortedOperands_join hp, sortedOperands_join hp']
  by_cases hnil : Chain.product.proper p = []
  · rw [if_pos hnil, if_pos (List.perm_nil.1 (hnil ▸ proper.symm))]
  · have hnil' : Chain.product.proper p' ≠ [] := fun hnil' => hnil (List.perm_nil.1 (hnil' ▸ proper))
    rw [if_neg hnil, if_neg hnil']
    exact proper.flatMap_right _

/-! ## Summands -/

theorem operands_of_product {op : Operator} {l r : Term α} (hop : Chain.of? op = some .product) :
    (bin op l r).prepared.sortedOperands .sum = [(bin op l r).prepared.sorted] ∧
      (bin op l r).tailOperands .sum = [(bin op l r).prepared.sorted] := by
  cases op <;> first | exact ⟨rfl, rfl⟩ | cases hop

/-- A rearranged product joins to the same term, or both join to operations. -/
theorem join_of_perm (h : p.Perm p') (hp : ∀ q ∈ p, q.Movable) :
    Chain.product.join p = Chain.product.join p' ∨
      (∃ op l r, Chain.product.join p = bin op l r ∧ Chain.of? op = some .product) ∧
        ∃ op l r, Chain.product.join p' = bin op l r ∧ Chain.of? op = some .product := by
  have proper : (Chain.product.proper p).Perm (Chain.product.proper p') := h.filter _
  have long {p : List (Term α)} {a b : Term α} {rest : List (Term α)}
      (hlong : Chain.product.proper p = a :: b :: rest) :
      ∃ op l r, Chain.product.join p = bin op l r ∧ Chain.of? op = some .product := by
    have step (rest : List (Term α)) (t : Term α)
        (ht : ∃ op l r, t = bin op l r ∧ Chain.of? op = some .product) :
        ∃ op l r, rest.foldl Chain.product.attach t = bin op l r ∧
          Chain.of? op = some .product := by
      induction rest generalizing t with
      | nil => exact ht
      | cons u rest ih =>
          obtain ⟨op, r, hattach, hop, _⟩ := Chain.exists_attach .product t u
          exact ih _ ⟨op, t, r, hattach, hop⟩
    obtain ⟨op, r, hattach, hop, _⟩ := Chain.exists_attach .product a b
    rw [Chain.join_eq, hlong]
    exact step rest _ ⟨op, a, r, hattach, hop⟩
  match hlist : Chain.product.proper p, hlist' : Chain.product.proper p' with
  | [], [] =>
      -- all factors read `1`, so they are the number one
      have one {p : List (Term α)} (hp : ∀ q ∈ p, q.Movable) (hnil : Chain.product.proper p = []) :
          Chain.product.join p = num Scalar.one := by
        rw [Chain.join_eq, hnil]
        cases p with
        | nil => rfl
        | cons q p =>
            have all := List.filter_eq_nil_iff.1 hnil q List.mem_cons_self
            exact (hp q List.mem_cons_self).1 (by simpa [Chain.identityText] using all)
      exact .inl ((one hp hlist).trans (one (fun q hq => hp q (h.mem_iff.2 hq)) hlist').symm)
  | [a], [b] =>
      rw [hlist, hlist'] at proper
      obtain rfl := List.singleton_perm_singleton.1 proper
      refine .inl ?_
      rw [Chain.join_eq, Chain.join_eq, hlist, hlist']
  | a :: b :: rest, a' :: b' :: rest' => exact .inr ⟨long hlist, long hlist'⟩
  | [], _ :: _ | _ :: _, [] | [_], _ :: _ :: _ | _ :: _ :: _, [_] =>
      rw [hlist, hlist'] at proper
      exact absurd proper.length_eq (by simp)

/-- A product is the same summand whatever the order of its factors is. -/
theorem summand_of_perm (h : p.Perm p') (hp : ∀ q ∈ p, q.Movable)
    (hsorted : (Chain.product.join p).prepared.sorted = (Chain.product.join p').prepared.sorted) :
    (Chain.product.join p).prepared.sortedOperands .sum =
        (Chain.product.join p').prepared.sortedOperands .sum ∧
      (Chain.product.join p).tailOperands .sum = (Chain.product.join p').tailOperands .sum := by
  rcases join_of_perm h hp with same | ⟨⟨op, l, r, hbin, hop⟩, op', l', r', hbin', hop'⟩
  · rw [same]
    exact ⟨rfl, rfl⟩
  · rw [hbin, hbin'] at hsorted ⊢
    rw [(operands_of_product hop).1, (operands_of_product hop').1, (operands_of_product hop).2,
      (operands_of_product hop').2, hsorted]
    exact ⟨rfl, rfl⟩

theorem join_ne_zero_of_perm (h : p.Perm p') (hp : ∀ q ∈ p, q.Movable)
    (hzero : (Chain.product.join p).reads "0" = false) :
    (Chain.product.join p').reads "0" = false := by
  rcases join_of_perm h hp with same | ⟨_, op, l, r, hbin, hop⟩
  · rwa [← same]
  · refine Bool.eq_false_iff.2 fun zero => ?_
    have symbol : op.toChar ∈ (bin op l r).text.toList := mem_text_bin (by rintro rfl; cases hop)
    rw [← hbin, reads_iff.1 zero] at symbol
    cases op <;> exact absurd symbol (by decide)

/-! ## Products multiplied out -/

/-- Products, regardless of their order and of that of their factors. -/
def unordered (ps : List (List (Term α))) : Multiset (Multiset (Term α)) :=
  Multiset.ofList (ps.map Multiset.ofList)

/-- The products of every term of a sum with every product, in no order. -/
def multiply (ps : Multiset (Multiset (Term α))) (sum : Term α) : Multiset (Multiset (Term α)) :=
  ps.bind fun p => (sum.operands : Multiset (Term α)).map (· ::ₘ p)

omit [Scalar α] in
theorem multiply_comm (ps : Multiset (Multiset (Term α))) (s s' : Term α) :
    multiply (multiply ps s) s' = multiply (multiply ps s') s := by
  simp only [multiply, Multiset.bind_assoc, Multiset.bind_map]
  refine Multiset.bind_congr fun p _ => ?_
  rw [Multiset.bind_map_comm]
  simp only [Multiset.cons_swap]

omit [Scalar α] in
theorem unordered_distribute (ps : List (List (Term α))) (s : Term α) :
    unordered (distribute ps s) = multiply (unordered ps) s := by
  induction ps with
  | nil => rfl
  | cons p ps ih =>
      have split : unordered (distribute (p :: ps) s) =
          unordered (s.operands.map (· :: p)) + unordered (distribute ps s) := by
        rw [distribute, List.flatMap_cons, unordered, List.map_append, ← Multiset.coe_add]
        rfl
      have head : unordered (p :: ps) = (p : Multiset (Term α)) ::ₘ unordered ps := rfl
      rw [split, ih, head, multiply, multiply, Multiset.cons_bind]
      refine congrArg (· + _) ?_
      rw [unordered, List.map_map, Multiset.map_coe]
      rfl

omit [Scalar α] in
theorem unordered_foldl (ss : List (Term α)) (ps : List (List (Term α))) :
    unordered (ss.foldl distribute ps) = ss.foldl multiply (unordered ps) := by
  induction ss generalizing ps with
  | nil => rfl
  | cons s ss ih => rw [List.foldl_cons, List.foldl_cons, ih, unordered_distribute]

omit [Scalar α] in
theorem unordered_expandedProducts (h : ts.Perm us) :
    unordered (expandedProducts ts) = unordered (expandedProducts us) := by
  have others : unordered [ts.filter (!·.isSum)] = unordered [us.filter (!·.isSum)] :=
    congrArg (fun m : Multiset (Term α) => ({m} : Multiset (Multiset (Term α))))
      (Multiset.coe_eq_coe.2 (h.filter _))
  rw [expandedProducts_eq, expandedProducts_eq, unordered_foldl, unordered_foldl, others]
  have comm : RightCommutative (multiply (α := α)) := ⟨multiply_comm⟩
  exact (h.filter isSum).foldl_eq _

/-- The first operand of a sum. -/
def firstOperand (t : Term α) : Term α := t.operands.head?.getD .empty

omit [Scalar α] in
/-- The first product has the first operand of every sum. -/
theorem exists_foldl_distribute (ss : List (Term α)) (p : List (Term α))
    (ps : List (List (Term α))) :
    ∃ q qs, ss.foldl distribute (p :: ps) = q :: qs ∧ q.Perm (ss.map firstOperand ++ p) := by
  induction ss generalizing p ps with
  | nil => exact ⟨p, ps, rfl, .refl _⟩
  | cons s ss ih =>
      obtain ⟨a, as, hs⟩ := List.exists_cons_of_ne_nil (operands_ne_nil s)
      have head : distribute (p :: ps) s = (a :: p) :: (as.map (· :: p) ++ distribute ps s) := by
        rw [distribute, List.flatMap_cons, hs, List.map_cons, List.cons_append, distribute, hs]
      have first : s.firstOperand = a := by rw [firstOperand, hs, List.head?_cons, Option.getD_some]
      rw [List.foldl_cons, head]
      obtain ⟨q, qs, hfold, hq⟩ := ih (a :: p)
        (as.map (· :: p) ++ distribute ps s)
      refine ⟨q, qs, hfold, hq.trans ?_⟩
      rw [List.map_cons, first]
      exact List.perm_middle

omit [Scalar α] in
/-- Rearranged factors multiply out to rearranged products, of which the first stays in front. -/
theorem exists_expandedProducts (h : ts.Perm us) : ∃ p ps q qs, expandedProducts ts = p :: ps ∧
    expandedProducts us = q :: qs ∧ p.Perm q ∧ unordered ps = unordered qs := by
  obtain ⟨p, ps, hts, hp⟩ := exists_foldl_distribute (ts.filter isSum) (ts.filter (!·.isSum)) []
  obtain ⟨q, qs, hus, hq⟩ := exists_foldl_distribute (us.filter isSum) (us.filter (!·.isSum)) []
  rw [← expandedProducts_eq] at hts hus
  have first : p.Perm q :=
    hp.trans ((((h.filter isSum).map firstOperand).append (h.filter _)).trans hq.symm)
  refine ⟨p, ps, q, qs, hts, hus, first, ?_⟩
  have same := unordered_expandedProducts h
  rw [hts, hus] at same
  have consed : (p : Multiset (Term α)) ::ₘ unordered ps = (q : Multiset (Term α)) ::ₘ unordered qs :=
    same
  rw [Multiset.coe_eq_coe.2 first] at consed
  exact (Multiset.cons_inj_right _).1 consed

omit [Scalar α] in
theorem exists_of_unordered {ps qs : List (List (Term α))} (h : unordered ps = unordered qs)
    (hp : p ∈ ps) : ∃ q ∈ qs, p.Perm q := by
  have mem : (p : Multiset (Term α)) ∈ unordered ps := List.mem_map_of_mem hp
  rw [h] at mem
  obtain ⟨q, hq, same⟩ := List.mem_map.1 mem
  exact ⟨q, hq, (Multiset.coe_eq_coe.1 same).symm⟩

omit [Scalar α] in
/-- A list made from products in no order. -/
theorem flatMap_perm {β : Type} {f : List (Term α) → List β} {ps qs : List (List (Term α))}
    (h : unordered ps = unordered qs) (hf : ∀ p ∈ ps, ∀ q, p.Perm q → f p = f q) :
    (ps.flatMap f).Perm (qs.flatMap f) := by
  have perm : (ps.map Multiset.ofList).Perm (qs.map Multiset.ofList) := Multiset.coe_eq_coe.1 h
  obtain ⟨rs, hmap, hperm⟩ :=
    (congrFun (congrFun (List.eq_map_comp_perm Multiset.ofList) _) qs).mpr perm
  have same : ps.flatMap f = rs.flatMap f := by
    clear h perm hperm
    induction ps generalizing rs with
    | nil => rw [List.map_eq_nil_iff.1 hmap.symm]
    | cons p ps ih =>
        cases rs with
        | nil => cases hmap
        | cons r rs =>
            obtain ⟨hpr, hmap⟩ := List.cons.inj hmap
            rw [List.flatMap_cons, List.flatMap_cons,
              hf p List.mem_cons_self r (Multiset.coe_eq_coe.1 hpr),
              ih (fun q hq => hf q (List.mem_cons_of_mem _ hq)) rs hmap]
  rw [same]
  exact hperm.flatMap_right f

/-! ## Products of two terms -/

/-- Whether the keys tell all terms of a list apart. -/
def ToldApart (ts : List (Term α)) : Prop := ∀ t ∈ ts, ∀ u ∈ ts, t.Comparable u

instance [DecidableEq α] (ts : List (Term α)) : Decidable (ToldApart ts) :=
  inferInstanceAs (Decidable (∀ t ∈ ts, ∀ u ∈ ts, t.Comparable u))

/-- The products that a product of two terms multiplies out to. -/
def products (x y : Term α) : List (List (Term α)) := expandedProducts (bin .mul x y).operands

/-- Whether the sides of a product can be exchanged: no product reads `0`, every factor means the same
wherever it stands, and the keys tell apart the factors of each product, and the products. -/
structure Exchangeable (x y : Term α) : Prop where
  movable : ∀ p ∈ products x y, ∀ q ∈ p, q.Movable
  nonzero : ∀ p ∈ products x y, (Chain.product.join p).reads "0" = false
  factors : ∀ p ∈ products x y, ToldApart ((Chain.product.join p).prepared.sortedOperands .product)
  summands : ToldApart ((bin .mul x y).expanded.withExponents.sortedOperands .sum)

instance [DecidableEq α] (x y : Term α) : Decidable (x.Exchangeable y) :=
  decidable_of_iff (_ ∧ _ ∧ _ ∧ _) ⟨fun h => ⟨h.1, h.2.1, h.2.2.1, h.2.2.2⟩,
    fun h => ⟨h.movable, h.nonzero, h.factors, h.summands⟩⟩

/-- The sorted summands of products that are multiplied out. -/
theorem sortedOperands_products {ps : List (List (Term α))}
    (hps : ∀ q ∈ p :: ps, (Chain.product.join q).reads "0" = false) :
    (Chain.sum.join ((p :: ps).map Chain.product.join)).prepared.sortedOperands .sum =
      (Chain.product.join p).prepared.sortedOperands .sum ++
        ps.flatMap fun q => (Chain.product.join q).tailOperands .sum := by
  have proper : Chain.sum.proper ((p :: ps).map Chain.product.join) =
      (p :: ps).map Chain.product.join := by
    refine List.filter_eq_self.2 fun t ht => ?_
    obtain ⟨q, hq, rfl⟩ := List.mem_map.1 ht
    simpa [Chain.identityText] using hps q hq
  rw [Chain.join_eq, proper, List.map_cons]
  rw [← List.flatMap_map]
  exact sortedOperands_foldl_attach .sum _ _

theorem expanded_mul_comm [Scalar.Ordered α] {x y : Term α} (h : x.Exchangeable y) :
    (bin .mul x y).expanded.withExponents.sorted =
      (bin .mul y x).expanded.withExponents.sorted := by
  have rearranged : (bin .mul x y).operands.Perm (bin .mul y x).operands := by
    rw [operands_of_chain rfl, operands_of_chain rfl]
    exact List.perm_append_comm
  obtain ⟨p, ps, q, qs, hp, hq, hpq, hrest⟩ := exists_expandedProducts rearranged
  have expansion (x y : Term α) : (bin .mul x y).expanded.withExponents =
      (Chain.sum.join ((expandedProducts (bin .mul x y).operands).map
        Chain.product.join)).prepared := rfl
  have hsummands := h.summands
  obtain ⟨movable, nonzero, factors, _⟩ := h
  rw [products, hp] at movable nonzero factors
  rw [expansion, hp] at hsummands ⊢
  rw [expansion, hq]
  have summand {p' q' : List (Term α)} (hp' : p' ∈ p :: ps) (hperm : p'.Perm q') :=
    summand_of_perm hperm (movable p' hp') (join_sorted_of_perm hperm (movable p' hp') (factors p' hp'))
  have nonzero' : ∀ q' ∈ q :: qs, (Chain.product.join q').reads "0" = false := by
    intro q' hq'
    have origin : ∃ p' ∈ p :: ps, p'.Perm q' := by
      rcases List.mem_cons.1 hq' with rfl | hq'
      · exact ⟨p, List.mem_cons_self, hpq⟩
      · obtain ⟨p', hp', hperm⟩ := exists_of_unordered hrest.symm hq'
        exact ⟨p', List.mem_cons_of_mem _ hp', hperm.symm⟩
    obtain ⟨p', hp', hperm⟩ := origin
    exact join_ne_zero_of_perm hperm (movable p' hp') (nonzero p' hp')
  rw [sorted_eq_join .sum, sorted_eq_join .sum (Chain.sum.join ((q :: qs).map _)).prepared]
  refine congrArg _ (sortByKey_eq_of_perm ?_ hsummands)
  rw [sortedOperands_products nonzero, sortedOperands_products nonzero',
    (summand List.mem_cons_self hpq).1]
  refine .append_left _ (flatMap_perm hrest fun p' hp' q' hperm => ?_)
  exact (summand (List.mem_cons_of_mem _ hp') hperm).2

end Term

end AlgebraicTerms
