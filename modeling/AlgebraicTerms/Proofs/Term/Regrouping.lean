import AlgebraicTerms.Proofs.Term.Joined
import AlgebraicTerms.Proofs.Term.Spelling

/-!
# Regrouped chains

A sum on the right of a plus needs no parentheses unless it begins with a minus, and a product on the
right of a star is written like the single factors unless it begins with a minus, a reciprocal or a
remainder.  So a chain with such sums and products in it is written as its operands are when they are
joined one by one (`join_operandsIn_resembles`).
-/

namespace AlgebraicTerms

namespace Term

variable {α : Type} [Scalar α] {c : Chain} {op : Operator}
  {t u v l r l' r' chain chain' : Term α} {ts : List (Term α)}

/-- Whether terms differ only in how their chains are grouped, and are written the same. -/
inductive Resembles : Term α → Term α → Prop
  | refl (t : Term α) : Resembles t t
  | chain {c : Chain} {op op' : Operator} {l r l' r' : Term α} : Chain.of? op = some c →
      Chain.of? op' = some c → (bin op l r).text = (bin op' l' r').text →
      (bin op l r).leadsMinus = (bin op' l' r').leadsMinus → Resembles (bin op l r) (bin op' l' r')
  | call (k : Keyword) {t u : Term α} : Resembles t u → Resembles (call k t) (call k u)
  | inv (i : Inverse) {t u : Term α} : Resembles t u → Resembles (inv i t) (inv i u)

/-- A minus in front of an operation of a chain is the one in front of its left side. -/
theorem leadsMinus_of_chain (hop : Chain.of? op = some c) :
    (bin op l r).leadsMinus = (!l.leftEnclosed op && l.leadsMinus) := by
  cases op with
  | add | sub => rfl
  | mul | div => rw [leadsMinus, leftEnclosed, Bool.not_or]
  | mod | pow => cases hop

namespace Resembles

theorem trans (h : Resembles t u) (h' : Resembles u v) : Resembles t v := by
  induction h generalizing v with
  | refl => exact h'
  | chain hop hop' text leads =>
      cases h' with
      | refl => exact .chain hop hop' text leads
      | chain hop₁ hop₂ text' leads' =>
          obtain rfl := Option.some.inj (hop'.symm.trans hop₁)
          exact .chain hop hop₂ (text.trans text') (leads.trans leads')
  | call k h ih =>
      cases h' with
      | refl => exact .call k h
      | call _ h' => exact .call k (ih h')
  | inv i h ih =>
      cases h' with
      | refl => exact .inv i h
      | inv _ h' => exact .inv i (ih h')

theorem leadsMinus_eq (h : Resembles t u) : t.leadsMinus = u.leadsMinus := by
  cases h with
  | chain _ _ _ leads => exact leads
  | inv i _ => cases i <;> rfl
  | _ => rfl

theorem bringsMinus_eq (h : Resembles t u) : t.bringsMinus = u.bringsMinus := by
  cases h with
  | inv i _ => cases i <;> rfl
  | _ => rfl

theorem isNegation_eq (h : Resembles t u) : t.isNegation = u.isNegation := by
  cases h with
  | inv i _ => cases i <;> rfl
  | _ => rfl

theorem isBinary_eq (h : Resembles t u) {ops : List Operator}
    (closed : ∀ c : Chain, ops.contains c.op = ops.contains c.inverseOp) :
    t.isBinary ops = u.isBinary ops := by
  have primary {op : Operator} {c : Chain} (hop : Chain.of? op = some c) :
      ops.contains op = ops.contains c.op := by
    rcases Chain.op_or_inverseOp hop with rfl | rfl
    · rfl
    · exact (closed c).symm
  cases h with
  | chain hop hop' _ _ => exact (primary hop).trans (primary hop').symm
  | _ => rfl

theorem isOperation_eq (h : Resembles t u) : t.isOperation = u.isOperation := by
  cases h <;> rfl

theorem isInverse_eq (h : Resembles t u) : t.isInverse = u.isInverse := by
  cases h <;> rfl

theorem leftEnclosed_eq (h : Resembles t u) : t.leftEnclosed op = u.leftEnclosed op := by
  have sum : t.isSum = u.isSum := h.isBinary_eq fun c => by cases c <;> rfl
  cases op <;> simp only [leftEnclosed, sum, h.isNegation_eq, h.leadsMinus_eq, h.isOperation_eq]

theorem rightEnclosed_eq (h : Resembles t u) : t.rightEnclosed op = u.rightEnclosed op := by
  have sum : t.isSum = u.isSum := h.isBinary_eq fun c => by cases c <;> rfl
  have remainder : t.isBinary [.add, .sub, .mod] = u.isBinary [.add, .sub, .mod] :=
    h.isBinary_eq fun c => by cases c <;> rfl
  have factor : t.isBinary [.add, .sub, .mul, .div, .mod] =
      u.isBinary [.add, .sub, .mul, .div, .mod] := h.isBinary_eq fun c => by cases c <;> rfl
  cases op <;> simp only [rightEnclosed, sum, remainder, factor, h.bringsMinus_eq, h.isInverse_eq,
    h.leadsMinus_eq, h.isOperation_eq]

theorem text_eq (h : Resembles t u) : t.text = u.text := by
  induction h with
  | refl => rfl
  | chain _ _ text _ => exact text
  | call k h ih => rw [text, text, ih]
  | @inv i t u h ih =>
      have sum : t.isSum = u.isSum := h.isBinary_eq fun c => by cases c <;> rfl
      cases i <;> simp only [text, ih, sum, h.leadsMinus_eq, h.isOperation_eq]

theorem reads_eq (h : Resembles t u) (s : String) : t.reads s = u.reads s :=
  congrArg (· == s) h.text_eq

/-- Sides that are written the same make operations of a chain that are written the same. -/
theorem bin (hop : Chain.of? op = some c) (hl : Resembles l l') (hr : Resembles r r') :
    Resembles (bin op l r) (bin op l' r') := by
  refine .chain hop hop ?_ ?_
  · by_cases plain : op = .add → r.bringsMinus = false
    · rw [text_bin plain, text_bin (hr.bringsMinus_eq ▸ plain), hl.text_eq, hr.text_eq,
        hl.leftEnclosed_eq, hr.rightEnclosed_eq]
    · obtain ⟨rfl, brings⟩ := Classical.not_imp.1 plain
      rw [Bool.not_eq_false] at brings
      rw [text_add brings, text_add (hr.bringsMinus_eq ▸ brings), hl.text_eq, hr.text_eq]
  · rw [leadsMinus_of_chain hop, leadsMinus_of_chain hop, hl.leftEnclosed_eq, hl.leadsMinus_eq]

theorem attach (hchain : Resembles chain chain') (ht : Resembles t u) :
    Resembles (c.attach chain t) (c.attach chain' u) := by
  have direct {t u : Term α} (h : Resembles t u) :
      Resembles (.bin c.op chain t) (.bin c.op chain' u) := .bin c.of?_op hchain h
  cases ht with
  | refl =>
      obtain ⟨op, r, hop, _, attached⟩ := Chain.exists_attach_operand c t
      rw [attached, attached]
      exact .bin hop hchain (.refl r)
  | chain hop hop' text leads => exact direct (.chain hop hop' text leads)
  | call k h => exact direct (.call k h)
  | inv i h =>
      rw [Chain.attach, Chain.attach]
      split
      · exact .bin c.of?_inverseOp hchain h
      · exact direct (.inv i h)

theorem append (hchain : Resembles chain chain') (ht : Resembles t u) :
    Resembles (c.append chain t) (c.append chain' u) := by
  have last := ht.reads_eq c.identityText
  have first := hchain.reads_eq c.identityText
  unfold Chain.append
  rw [last, first]
  split
  · exact hchain
  · split
    · exact ht
    · exact attach hchain ht

theorem foldl_append (h : Resembles chain chain') (ts : List (Term α)) :
    Resembles (ts.foldl c.append chain) (ts.foldl c.append chain') := by
  induction ts generalizing chain chain' with
  | nil => exact h
  | cons t ts ih => exact ih (h.append (.refl t))

theorem join_map {f : Term α → Term α} (h : ∀ t ∈ ts, Resembles (f t) t) :
    Resembles (c.join (ts.map f)) (c.join ts) := by
  cases ts with
  | nil => exact .refl _
  | cons t ts =>
      obtain ⟨ht, hts⟩ := List.forall_mem_cons.1 h
      rw [List.map_cons, Chain.join, Chain.join]
      clear h
      generalize f t = front at ht
      induction ts generalizing front t with
      | nil => exact ht
      | cons u ts ih =>
          obtain ⟨hu, hts⟩ := List.forall_mem_cons.1 hts
          exact ih _ hts _ (ht.append hu)

end Resembles

/-! ## Chains within chains -/

/-- Whether a factor begins with no minus, reciprocal or remainder of its own. -/
def StartsPlainly : Term α → Prop
  | bin .mul l _ | bin .div l _ => l.StartsPlainly
  | bin .mod _ _ | inv .recip _ => False
  | num n => Scalar.isNegative n = false
  | _ => True

/-- Whether a chain is written the same on the right of a plus or star as its operands one by one. -/
def Continues (c : Chain) (t : Term α) : Prop :=
  match c with
  | .sum => t.leadsMinus = false
  | .product => t.StartsPlainly

/-- Whether the operations of a chain on the right side of others stand behind the plus of sums and the
star of products, and are written like the single operands there. -/
def NestsOpenly : Term α → Prop
  | bin op l r => ∀ c, Chain.of? op = some c →
    l.NestsOpenly ∧ r.NestsOpenly ∧ (r.isIn c = true → op = c.op ∧ r.Continues c)
  | call _ t | inv _ t => t.NestsOpenly
  | _ => True

theorem NestsOpenly.descending : Descending (NestsOpenly (α := α)) :=
  ⟨fun hop h => ⟨(h _ hop).1, (h _ hop).2.1⟩, .rfl⟩

/-- No minus is in front of a product if its first factor has parentheses there as behind a star. -/
theorem not_leadsMinus_of_enclosed (hop : Chain.of? op = some .product)
    (same : l.rightEnclosed .mul = l.leftEnclosed op) : (bin op l r).leadsMinus = false := by
  rw [leadsMinus_of_chain hop, ← same, rightEnclosed]
  cases l.leadsMinus with
  | false => exact Bool.and_false _
  | true => rw [Bool.or_true, Bool.not_true, Bool.false_and]

/-- A factor that starts plainly has parentheses as a sum or negation only. -/
theorem StartsPlainly.rightEnclosed_eq (h : t.StartsPlainly) :
    t.rightEnclosed .mul = (t.isSum || t.isNegation) := by
  induction t with
  | bin op l r ihl _ =>
      cases op with
      | add | sub | pow => rfl
      | mul => exact not_leadsMinus_of_enclosed rfl (ihl h)
      | div => exact not_leadsMinus_of_enclosed rfl (ihl h)
      | mod => cases h
  | num n => exact h
  | inv i t _ =>
      cases i with
      | neg => rfl
      | recip => cases h
  | _ => rfl

namespace Continues

theorem left (hop : Chain.of? op = some c) (h : (bin op l r).Continues c) : l.Continues c := by
  cases c <;> cases op <;> first | exact h | cases hop

theorem not_bringsMinus (h : t.Continues c) : c.op = .add → t.bringsMinus = false := by
  cases c with
  | sum =>
      have leads : t.leadsMinus = false := h
      exact fun _ => Bool.eq_false_iff.2 fun brings =>
        absurd (leadsMinus_of_bringsMinus brings) (Bool.eq_false_iff.1 leads)
  | product => exact nofun

theorem attach_eq (h : t.Continues c) : c.attach chain t = bin c.op chain t := by
  cases t with
  | inv i t => cases c <;> cases i <;> first | rfl | cases h
  | num n =>
      have positive : Scalar.isNegative n = false := by cases c <;> exact h
      rw [Chain.attach, positive, if_neg (fun both => Bool.false_ne_true both.2)]
  | _ => rfl

/-- It is in parentheses on the right of a chain if it is in parentheses at the front. -/
theorem rightEnclosed_eq (hop : Chain.of? op = some c) (h : t.Continues c) :
    t.rightEnclosed c.op = t.leftEnclosed op := by
  cases c with
  | sum =>
      have leads : t.leadsMinus = false := h
      rw [Chain.op, rightEnclosed, leads, Bool.and_false]
      cases op <;> first | rfl | cases hop
  | product =>
      rw [Chain.op, StartsPlainly.rightEnclosed_eq h]
      cases op <;> first | rfl | cases hop

theorem append_eq (h : t.Continues c) (first : chain.reads c.identityText = false)
    (proper : t.reads c.identityText = false) : c.append chain t = bin c.op chain t := by
  rw [Chain.append_of_proper first proper, h.attach_eq]

theorem bin_reads (h : t.Continues c) : (bin c.op chain t).reads c.identityText = false := by
  rw [← h.attach_eq, Chain.attach_reads]

theorem not_rightEnclosed (hop : Chain.of? op = some c) (h : l.Continues c) :
    (bin op l r).rightEnclosed c.op = false := by
  have same := h.rightEnclosed_eq hop
  cases c with
  | sum =>
      have leads : l.leadsMinus = false := h
      rw [Chain.op, rightEnclosed, leadsMinus_of_chain hop, leads, Bool.and_false, Bool.and_false]
  | product =>
      have factor : (bin op l r).isBinary [.add, .sub, .mod] = false := by
        cases op <;> first | rfl | cases hop
      rw [Chain.op, rightEnclosed, factor, not_leadsMinus_of_enclosed hop same, Bool.or_false]

end Continues

/-- Behind an operation there is the same, whatever is on its left. -/
theorem exists_text_tail (op : Operator) (r : Term α) :
    ∃ tail, ∀ l : Term α, (bin op l r).text = parenthesized (l.leftEnclosed op) l.text ++ tail := by
  by_cases plain : op = .add → r.bringsMinus = false
  · refine ⟨op.symbol ++ parenthesized (r.rightEnclosed op) r.text, fun l => ?_⟩
    rw [text_bin plain, String.append_assoc]
  · obtain ⟨rfl, brings⟩ := Classical.not_imp.1 plain
    rw [Bool.not_eq_false] at brings
    exact ⟨r.text, fun l => text_add brings⟩

/-- A chain takes in an operation on its right. -/
theorem bin_regroup (hop : Chain.of? op = some c) (h : l.Continues c) :
    Resembles (bin op (bin c.op chain l) r) (bin c.op chain (bin op l r)) := by
  have own := c.of?_op
  have front (l : Term α) : (bin c.op chain l).leftEnclosed op = false := by
    cases c <;> cases op <;> first | rfl | cases hop
  refine .chain hop own ?_ ?_
  · obtain ⟨tail, written⟩ := exists_text_tail op r
    have first := h.not_bringsMinus
    rw [written, front, text_bin first, text_bin fun _ => rfl, written,
      h.not_rightEnclosed hop, h.rightEnclosed_eq hop]
    simp only [parenthesized, Bool.false_eq_true, if_false, String.append_assoc]
  · rw [leadsMinus_of_chain hop, front, leadsMinus_of_chain own, leadsMinus_of_chain own]
    rfl

/-- A chain takes in the operands of a chain on its right one by one. -/
theorem foldl_append_resembles (joined : t.IsJoined) (nests : t.NestsOpenly) (h : t.Continues c)
    (first : chain.reads c.identityText = false) (proper : t.reads c.identityText = false) :
    Resembles ((t.operandsIn c).foldl c.append chain) (bin c.op chain t) := by
  induction t generalizing chain with
  | bin op l r ihl ihr =>
      by_cases hop : Chain.of? op = some c
      · obtain ⟨joinedLeft, joinedRight, rejoined⟩ := joined c hop
        obtain ⟨nestsLeft, nestsRight, inside⟩ := nests c hop
        obtain ⟨properLeft, properRight, _⟩ := joined.sides_proper hop
        have left := h.left hop
        have start := ihl joinedLeft nestsLeft left first properLeft
        refine .trans ?_ (bin_regroup hop left)
        cases hr : r.isIn c with
        | true =>
            obtain ⟨rfl, right⟩ := inside hr
            rw [Chain.operand, if_pos rfl] at properRight
            rw [operandsIn, if_pos hop, Chain.splice, if_pos rfl, List.foldl_append]
            refine (start.foldl_append (r.operandsIn c)).trans ?_
            exact ihr joinedRight nestsRight right left.bin_reads properRight
        | false =>
            rw [operandsIn_concat hop hr, List.foldl_append]
            refine (start.append (.refl (c.operand op r))).trans ?_
            rw [Chain.append_of_rejoined rejoined properLeft properRight left.bin_reads]
            exact .refl _
      · rw [operandsIn, if_neg hop, List.foldl_cons, List.foldl_nil, h.append_eq first proper]
        exact .refl _
  | _ => exact h.append_eq first proper ▸ .refl _

/-- A chain that nests openly is written as its operands joined. -/
theorem join_operandsIn_resembles (joined : t.IsJoined) (nests : t.NestsOpenly) :
    Resembles (c.join (t.operandsIn c)) t := by
  induction t with
  | bin op l r ihl _ =>
      by_cases hop : Chain.of? op = some c
      · obtain ⟨joinedLeft, joinedRight, rejoined⟩ := joined c hop
        obtain ⟨nestsLeft, nestsRight, inside⟩ := nests c hop
        obtain ⟨properLeft, properRight, _⟩ := joined.sides_proper hop
        have start := ihl joinedLeft nestsLeft
        cases hr : r.isIn c with
        | true =>
            obtain ⟨rfl, right⟩ := inside hr
            rw [Chain.operand, if_pos rfl] at properRight
            rw [operandsIn, if_pos hop, Chain.splice, if_pos rfl,
              Chain.join_append (operandsIn_ne_nil c l)]
            refine (start.foldl_append (r.operandsIn c)).trans ?_
            exact foldl_append_resembles joinedRight nestsRight right properLeft properRight
        | false =>
            rw [operandsIn_concat hop hr, Chain.join_concat (operandsIn_ne_nil c l)]
            exact rejoined ▸ start.append (.refl (c.operand op r))
      · rw [operandsIn, if_neg hop]
        exact .refl _
  | _ => exact .refl _

end Term

end AlgebraicTerms
