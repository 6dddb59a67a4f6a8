import AlgebraicTerms.Proofs.Term.Arrangeable
import AlgebraicTerms.Proofs.Term.Rearranged

/-!
# Joined chains

Sorting joins operands to chains.  The operations of a joined chain are what joining makes of the
operands on their right, and none of these is written as the identity.  If no right operand is an
operation of the chain itself, the chain is its operands joined again (`join_operandsIn`).  Otherwise
it has more operands than it was joined of (`operands_of_join`).
-/

namespace AlgebraicTerms

variable {α : Type} [Scalar α]

namespace Chain

open Term

variable {c : Chain} {op : Operator} {chain t r : Term α} {ts us : List (Term α)} {p : Term α → Prop}

/-- An operand as it is found in a chain it was joined to, where negative numbers are subtracted. -/
def readBack (c : Chain) : Term α → Term α
  | .num n => if c = .sum ∧ Scalar.isNegative n then .inv .neg (.num (-n)) else .num n
  | t => t

theorem exists_attach_operand (c : Chain) (t : Term α) :
    ∃ op r, of? op = some c ∧ c.operand op r = c.readBack t ∧
      ∀ chain, c.attach chain t = .bin op chain r := by
  have direct (t : Term α) : ∃ op r, of? op = some c ∧ c.operand op r = t ∧
      ∀ chain, bin c.op chain t = .bin op chain r :=
    ⟨c.op, t, c.of?_op, if_pos rfl, fun _ => rfl⟩
  cases t with
  | inv i t =>
      by_cases same : i = c.inverse
      · refine ⟨c.inverseOp, t, c.of?_inverseOp, ?_, fun _ => if_pos same⟩
        rw [operand, if_neg c.inverseOp_ne_op, ← same]
        rfl
      · obtain ⟨op, r, hop, operand, attached⟩ := direct (.inv i t)
        exact ⟨op, r, hop, operand, fun chain => (if_neg same).trans (attached chain)⟩
  | num n =>
      by_cases negative : c = .sum ∧ Scalar.isNegative n = true
      · obtain ⟨rfl, hn⟩ := negative
        rw [readBack, if_pos ⟨rfl, hn⟩]
        exact ⟨.sub, _, rfl, rfl, fun _ => if_pos ⟨rfl, hn⟩⟩
      · obtain ⟨op, r, hop, operand, attached⟩ := direct (.num n)
        rw [readBack, if_neg negative]
        exact ⟨op, r, hop, operand, fun chain => (if_neg negative).trans (attached chain)⟩
  | _ => exact direct _

theorem attach_readBack (c : Chain) (chain t : Term α) :
    c.attach chain (c.readBack t) = c.attach chain t := by
  cases t with
  | num n =>
      rw [readBack]
      split
      · rename_i negative
        rw [attach, attach, if_pos negative, negative.1]
        rfl
      · rfl
  | _ => rfl

theorem readBack_reads (h : t.reads c.identityText = false) :
    (c.readBack t).reads c.identityText = false := by
  cases t with
  | num n =>
      rw [readBack]
      split
      · exact inv_reads c .neg _
      · exact h
  | _ => exact h

theorem sortKey_readBack (c : Chain) (t : Term α) : (c.readBack t).sortKey = t.sortKey := by
  cases t with
  | num n =>
      rw [readBack]
      split <;> rfl
  | _ => rfl

/-- What an operation has on its right and the operand that it adds share the properties that do not
tell inverses apart. -/
theorem right_iff (inverse : ∀ {i : Inverse} {t : Term α}, p (.inv i t) ↔ p t)
    (numbers : ∀ n : α, p (.num n)) (h : c.operand op r = c.readBack t) : p r ↔ p t := by
  have readBack : p (c.readBack t) ↔ p t := by
    cases t with
    | num n =>
        rw [Chain.readBack]
        split
        · exact ⟨fun _ => numbers n, fun _ => inverse.2 (numbers _)⟩
        · exact .rfl
    | _ => exact .rfl
  have operand : p (c.operand op r) ↔ p r := operand_iff inverse
  rw [← operand, h, readBack]

/-- What is joined by an operation of a chain is joined by the same one to any other chain. -/
theorem append_of_rejoined {l : Term α} (rejoined : c.append l (c.operand op r) = .bin op l r)
    (left : l.reads c.identityText = false) (right : (c.operand op r).reads c.identityText = false)
    (first : chain.reads c.identityText = false) :
    c.append chain (c.operand op r) = .bin op chain r := by
  obtain ⟨op', r', _, _, attached⟩ := exists_attach_operand c (c.operand op r)
  rw [append_of_proper left right, attached] at rejoined
  rw [append_of_proper first right, attached, (bin.inj rejoined).1, (bin.inj rejoined).2.2]

theorem join_append (hne : ts ≠ []) : c.join (ts ++ us) = us.foldl c.append (c.join ts) := by
  cases ts with
  | nil => exact absurd rfl hne
  | cons t ts => rw [List.cons_append, join, join, List.foldl_append]

theorem join_concat (hne : ts ≠ []) : c.join (ts ++ [t]) = c.append (c.join ts) t := join_append hne

end Chain

namespace Term

variable {c : Chain} {op : Operator} {t u l r chain : Term α} {ts : List (Term α)}

/-- Whether the term is an operation of the chain. -/
def isIn (c : Chain) : Term α → Bool
  | bin op _ _ => Chain.of? op = some c
  | _ => false

/-- Whether no operation of a chain has an operation of the chain as its right operand. -/
def NestsLeft : Term α → Prop
  | bin op l r => ∀ c, Chain.of? op = some c → l.NestsLeft ∧ r.NestsLeft ∧ r.isIn c = false
  | call _ t | inv _ t => t.NestsLeft
  | _ => True

/-- Whether the operations of chains are what joining makes of their operands. -/
def IsJoined : Term α → Prop
  | bin op l r => ∀ c, Chain.of? op = some c →
    l.IsJoined ∧ r.IsJoined ∧ c.append l (c.operand op r) = bin op l r
  | call _ t | inv _ t => t.IsJoined
  | _ => True

omit [Scalar α] in
theorem NestsLeft.descending : Descending (NestsLeft (α := α)) :=
  ⟨fun hop h => ⟨(h _ hop).1, (h _ hop).2.1⟩, .rfl⟩

theorem IsJoined.descending : Descending (IsJoined (α := α)) :=
  ⟨fun hop h => ⟨(h _ hop).1, (h _ hop).2.1⟩, .rfl⟩

omit [Scalar α] in
theorem operandsIn_of_not_isIn (h : t.isIn c = false) : t.operandsIn c = [t] := by
  cases t with
  | bin op l r => rw [operandsIn, if_neg (of_decide_eq_false h)]
  | _ => rfl

omit [Scalar α] in
theorem operandsIn_concat (hop : Chain.of? op = some c) (hr : r.isIn c = false) :
    (bin op l r).operandsIn c = l.operandsIn c ++ [c.operand op r] := by
  rw [operandsIn_bin hop, operandsIn_of_not_isIn hr, List.map_singleton]

omit [Scalar α] in
theorem two_le_length_operandsIn (hop : Chain.of? op = some c) :
    2 ≤ ((bin op l r).operandsIn c).length := by
  have left := List.length_pos_iff.2 (operandsIn_ne_nil c l)
  have right := List.length_pos_iff.2 (operandsIn_ne_nil c r)
  rw [operandsIn_bin hop, List.length_append, List.length_map]
  omega

omit [Scalar α] in
theorem not_isIn_of_length (h : (t.operandsIn c).length ≤ 1) : t.isIn c = false := by
  cases t with
  | bin op l r =>
      refine decide_eq_false fun hop => ?_
      have two := two_le_length_operandsIn (l := l) (r := r) hop
      omega
  | _ => rfl

theorem nestsLeft_of_attach (left : (c.attach chain t).NestsLeft) :
    chain.NestsLeft ∧ t.NestsLeft ∧
      (c.attach chain t).operandsIn c = chain.operandsIn c ++ [c.readBack t] := by
  obtain ⟨op, r, hop, operand, attached⟩ := Chain.exists_attach_operand c t
  rw [attached] at left ⊢
  obtain ⟨hchain, right, hr⟩ := left c hop
  refine ⟨hchain, (Chain.right_iff .rfl (fun _ => trivial) operand).1 right, ?_⟩
  rw [operandsIn_concat hop hr, operand]

/-! ## Joined chains -/

theorem append_isJoined (hchain : chain.IsJoined) (ht : t.IsJoined) :
    (c.append chain t).IsJoined := by
  rcases Chain.append_cases c chain t with ⟨_, same⟩ | ⟨_, _, same⟩ | ⟨none, first, same⟩
  · rwa [same]
  · rwa [same]
  · obtain ⟨op, r, hop, operand, attached⟩ := Chain.exists_attach_operand c t
    rw [same, attached]
    intro c' hop'
    obtain rfl : c' = c := Option.some.inj (hop'.symm.trans hop)
    refine ⟨hchain, (Chain.right_iff .rfl (fun _ => trivial) operand).2 ht, ?_⟩
    rw [operand, Chain.append_of_proper first (Chain.readBack_reads none), Chain.attach_readBack,
      attached]

theorem join_isJoined (h : ∀ t ∈ ts, t.IsJoined) : (c.join ts).IsJoined := by
  induction ts using List.reverseRecOn with
  | nil => trivial
  | append_singleton ts t ih =>
      obtain ⟨hts, ht⟩ := List.forall_mem_append.1 h
      by_cases hne : ts = []
      · subst hne
        exact List.forall_mem_singleton.1 ht
      · rw [Chain.join_concat hne]
        exact append_isJoined (ih hts) (List.forall_mem_singleton.1 ht)

theorem sorted_isJoined (t : Term α) : t.sorted.IsJoined := by
  induction t using operandsInduction with
  | chain c op l r hop ih =>
      rw [sorted_eq_join_ordered c]
      exact join_isJoined (forall_mem_orderedOperands.2 ih)
  | other op l r hop =>
      rw [sorted, hop]
      exact fun c hop' => absurd (hop'.symm.trans hop) (Option.some_ne_none c)
  | call k t ih => exact ih
  | inv i t ih => exact ih
  | _ => trivial

/-- A chain that nests to the left is its operands joined. -/
theorem join_operandsIn (joined : t.IsJoined) (left : t.NestsLeft) :
    c.join (t.operandsIn c) = t := by
  induction t with
  | bin op l r ihl _ =>
      by_cases hop : Chain.of? op = some c
      · obtain ⟨joinedLeft, _, rejoined⟩ := joined c hop
        obtain ⟨leftLeft, _, hr⟩ := left c hop
        rw [operandsIn_concat hop hr, Chain.join_concat (operandsIn_ne_nil c l), ihl joinedLeft leftLeft,
          rejoined]
      · rw [operandsIn, if_neg hop]
        rfl
  | _ => rfl

/-! ## Operands that are no identities -/

omit [Scalar α] in
theorem bin_ne_left : bin op l r ≠ l := fun h => by
  have size := congrArg sizeOf h
  rw [bin.sizeOf_spec] at size
  omega

omit [Scalar α] in
theorem bin_ne_operand : bin op l r ≠ c.operand op r := fun h => by
  rw [Chain.operand] at h
  split at h
  · have size := congrArg sizeOf h
    rw [bin.sizeOf_spec] at size
    omega
  · cases h

/-- Neither side of a joined operation is an identity. -/
theorem IsJoined.sides_proper (h : (bin op l r).IsJoined) (hop : Chain.of? op = some c) :
    l.reads c.identityText = false ∧ (c.operand op r).reads c.identityText = false ∧
      ∀ c', (bin op l r).reads (Chain.identityText c') = false := by
  have joined := (h c hop).2.2
  rcases Chain.append_cases c l (c.operand op r) with ⟨_, same⟩ | ⟨_, _, same⟩ | ⟨none, first, same⟩
  · exact absurd (joined.symm.trans same) bin_ne_left
  · exact absurd (joined.symm.trans same) bin_ne_operand
  · refine ⟨first, none, fun c' => ?_⟩
    rw [← joined, same, Chain.attach_reads]

theorem IsJoined.operands_proper (joined : t.IsJoined) (h : t.reads c.identityText = false) :
    ∀ u ∈ t.operandsIn c, u.reads c.identityText = false := by
  induction t with
  | bin op l r ihl ihr =>
      by_cases hop : Chain.of? op = some c
      · obtain ⟨left, right, _⟩ := joined.sides_proper hop
        rw [operandsIn_bin hop]
        refine List.forall_mem_append.2 ⟨ihl (joined c hop).1 left, List.forall_mem_map.2 ?_⟩
        intro u hu
        unfold Chain.operand at right ⊢
        split at right
        · rename_i same
          rw [if_pos same]
          exact ihr (joined c hop).2.1 right u hu
        · rename_i other
          rw [if_neg other]
          exact inv_reads c c.inverse u
      · rw [operandsIn, if_neg hop]
        exact List.forall_mem_singleton.2 h
  | _ => exact List.forall_mem_singleton.2 h

/-- Operands that are no identities are attached to one another. -/
theorem join_concat_of_proper (hne : ts ≠ [])
    (h : ∀ u ∈ ts ++ [t], u.reads c.identityText = false) :
    (c.join ts).reads c.identityText = false ∧ c.join (ts ++ [t]) = c.attach (c.join ts) t := by
  have init : (c.join ts).reads c.identityText = false := by
    have proper := (List.forall_mem_append.1 h).1
    cases ts with
    | nil => exact absurd rfl hne
    | cons u ts =>
        obtain ⟨hu, hts⟩ := List.forall_mem_cons.1 proper
        clear h hne proper
        induction ts generalizing u with
        | nil => exact hu
        | cons v ts ih =>
            obtain ⟨hv, hts⟩ := List.forall_mem_cons.1 hts
            refine ih (c.append u v) ?_ hts
            rw [Chain.append_of_proper hu hv]
            exact Chain.attach_reads c c u v
  have last := h t (List.mem_append_right ts List.mem_cons_self)
  exact ⟨init, (Chain.join_concat hne).trans (Chain.append_of_proper init last)⟩

theorem IsJoined.sorted_reads (joined : t.IsJoined) (h : t.reads c.identityText = false) :
    t.sorted.reads c.identityText = false := by
  induction t using operandsInduction generalizing c with
  | chain c' op l r hop ih =>
      have operands : ∀ u ∈ (bin op l r).orderedOperands c', u.reads c'.identityText = false :=
        forall_mem_orderedOperands.2 fun u hu => ih u hu (IsJoined.descending.operandsIn joined u hu)
          (joined.operands_proper ((joined.sides_proper hop).2.2 c') u hu)
      have length := two_le_length_operandsIn (l := l) (r := r) hop
      rw [← length_orderedOperands] at length
      rw [sorted_eq_join_ordered c']
      rcases List.eq_nil_or_concat ((bin op l r).orderedOperands c') with none | ⟨init, last, split⟩
      · exact absurd none orderedOperands_ne_nil
      · rw [List.concat_eq_append] at split
        rw [split] at operands length ⊢
        have some : init ≠ [] := by
          rintro rfl
          exact Nat.not_succ_le_self 1 length
        rw [(join_concat_of_proper some operands).2, Chain.attach_reads]
  | other op l r hop =>
      rw [Term.sorted, hop]
      exact h
  | call k t ih =>
      refine Bool.eq_false_iff.2 fun reads => ?_
      have paren : '(' ∈ (call k t.sorted).text.toList := by simp [text]
      have written : (call k t.sorted).text = c.identityText := reads_iff.1 reads
      rw [written] at paren
      cases c <;> exact absurd paren (by decide)
  | inv i t ih => exact inv_reads c i _
  | _ => exact h

/-- No sorted operand of a joined operation is an identity. -/
theorem IsJoined.orderedOperands_proper (joined : (bin op l r).IsJoined)
    (hop : Chain.of? op = some c) :
    ∀ u ∈ (bin op l r).orderedOperands c, u.reads c.identityText = false :=
  forall_mem_orderedOperands.2 fun u hu =>
    (IsJoined.descending.operandsIn joined u hu).sorted_reads
      (joined.operands_proper ((joined.sides_proper hop).2.2 c) u hu)

/-- A chain of operands that are no identities has at least as many operands.  If it has no more, then
it nests to the left, and its operands are those that it was joined of. -/
theorem operands_of_join (hne : ts ≠ []) (proper : ∀ u ∈ ts, u.reads c.identityText = false) :
    ts.length ≤ ((c.join ts).operandsIn c).length ∧
      (((c.join ts).operandsIn c).length ≤ ts.length →
        ((∀ u ∈ ts, u.NestsLeft) → (c.join ts).NestsLeft) ∧
          ∃ t us, ts = t :: us ∧ (c.join ts).operandsIn c = t :: us.map c.readBack) := by
  induction ts using List.reverseRecOn with
  | nil => exact absurd rfl hne
  | append_singleton ts t ih =>
      by_cases init : ts = []
      · subst init
        refine ⟨List.length_pos_iff.2 (operandsIn_ne_nil c t), fun short => ?_⟩
        refine ⟨List.forall_mem_singleton.1, t, [], rfl, ?_⟩
        exact operandsIn_of_not_isIn (not_isIn_of_length short)
      · obtain ⟨long, shape⟩ := ih init (List.forall_mem_append.1 proper).1
        obtain ⟨op, r, hop, operand, attached⟩ := Chain.exists_attach_operand c t
        have right := List.length_pos_iff.2 (operandsIn_ne_nil c r)
        have length : ((bin op (c.join ts) r).operandsIn c).length =
            ((c.join ts).operandsIn c).length + (r.operandsIn c).length := by
          rw [operandsIn_bin hop, List.length_append, List.length_map]
        rw [(join_concat_of_proper init proper).2, attached, length, List.length_append,
          List.length_singleton]
        refine ⟨by omega, fun short => ?_⟩
        have hr : r.isIn c = false := not_isIn_of_length (by omega)
        obtain ⟨left, u, us, rfl, operands⟩ := shape (by omega)
        refine ⟨fun hts => ?_, u, us ++ [t], rfl, ?_⟩
        · obtain ⟨hinit, hlast⟩ := List.forall_mem_append.1 hts
          intro c' hop'
          obtain rfl : c' = c := Option.some.inj (hop'.symm.trans hop)
          refine ⟨left hinit, ?_, hr⟩
          exact (Chain.right_iff .rfl (fun _ => trivial) operand).2 (List.forall_mem_singleton.1 hlast)
        · rw [operandsIn_concat hop hr, operands, operand, List.map_append]
          rfl

end Term

end AlgebraicTerms
