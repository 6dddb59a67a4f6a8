import AlgebraicTerms.Proofs.Term.Display
import AlgebraicTerms.Proofs.Term.Names
import AlgebraicTerms.Proofs.Term.Size
import AlgebraicTerms.Term.Traversal

/-!
# Trivial powers

Trivial powers are removed from the root down, and a power is kept or not by what its exponent is
written as before anything is removed from that.  An exponent that is itself a power may only then
become `1` or `0`: it collapses.  So no trivial power is left iff no exponent collapses, and only then
does a second pass leave the text as it is (`withoutTrivialPowers_lacks_iff`), since every pass that
removes a power makes the text shorter.
-/

namespace AlgebraicTerms

namespace Term

variable {α : Type} [Scalar α] {t u l r l' r' : Term α} {op : Operator}

def isTrivialExponent (t : Term α) : Bool := t.reads "1" || t.reads "0"

def isTrivialPower : Term α → Bool
  | bin .pow _ exponent => exponent.isTrivialExponent
  | _ => false

/-- Whether no node, at any depth, is a trivial power. -/
def LacksTrivialPowers (t : Term α) : Prop := ∀ u ∈ t.postOrder, u.isTrivialPower = false

/-- Whether the term is a power that removing trivial powers turns into what is written `1` or `0`. -/
def collapses : Term α → Bool
  | bin .pow base exponent =>
    exponent.reads "0" || exponent.reads "1" && (base.isTrivialExponent || base.collapses)
  | _ => false

/-- Whether no exponent collapses, of the powers that are reached.  Those in the base of a zeroth power
are not, since the base is dropped with it. -/
def keepsExponents : Term α → Bool
  | bin .pow base exponent =>
    if exponent.reads "1" then base.keepsExponents
    else if exponent.reads "0" then true
    else !exponent.collapses && base.keepsExponents && exponent.keepsExponents
  | bin _ l r => l.keepsExponents && r.keepsExponents
  | inv _ t | call _ t => t.keepsExponents
  | _ => true

/-! ## Nodes -/

theorem lacks_bin_iff : (bin op l r).LacksTrivialPowers ↔
    l.LacksTrivialPowers ∧ r.LacksTrivialPowers ∧ (bin op l r).isTrivialPower = false := by
  simp only [LacksTrivialPowers, postOrder, List.forall_mem_append, List.forall_mem_singleton,
    and_assoc]

theorem lacks_inv_iff {i : Inverse} : (inv i t).LacksTrivialPowers ↔ t.LacksTrivialPowers := by
  simp [LacksTrivialPowers, postOrder, isTrivialPower, or_imp, forall_and]

theorem lacks_call_iff {k : Keyword} : (call k t).LacksTrivialPowers ↔ t.LacksTrivialPowers := by
  simp [LacksTrivialPowers, postOrder, isTrivialPower, or_imp, forall_and]

theorem lacks_num (n : α) : (num n).LacksTrivialPowers :=
  List.forall_mem_singleton.2 rfl

/-! ## Removal -/

theorem not_reads_one (zero : t.reads "0" = true) : t.reads "1" = false := by
  refine Bool.eq_false_iff.2 fun one => ?_
  have same := (reads_iff.1 one).symm.trans (reads_iff.1 zero)
  exact absurd same (by decide)

/-- What becomes of a power is decided by how its exponent is written. -/
theorem withoutTrivialPowers_pow (l r : Term α) :
    (r.reads "1" = true ∧ (bin .pow l r).withoutTrivialPowers = l.withoutTrivialPowers) ∨
      (r.reads "0" = true ∧ (bin .pow l r).withoutTrivialPowers = num Scalar.one) ∨
      (r.isTrivialExponent = false ∧ (bin .pow l r).withoutTrivialPowers =
        bin .pow l.withoutTrivialPowers r.withoutTrivialPowers) := by
  rw [withoutTrivialPowers, isTrivialExponent]
  cases one : r.reads "1" with
  | true => exact .inl ⟨rfl, rfl⟩
  | false =>
      cases zero : r.reads "0" with
      | true => exact .inr (.inl ⟨rfl, rfl⟩)
      | false => exact .inr (.inr ⟨rfl, rfl⟩)

/-- Where there are no trivial powers, none is removed. -/
theorem withoutTrivialPowers_of_lacks (h : t.LacksTrivialPowers) : t.withoutTrivialPowers = t := by
  induction t with
  | bin op l r ihl ihr =>
      obtain ⟨hl, hr, nontrivial⟩ := lacks_bin_iff.1 h
      cases op with
      | pow =>
          obtain ⟨one, zero⟩ := Bool.or_eq_false_iff.1 nontrivial
          rw [withoutTrivialPowers, one, zero, ihl hl, ihr hr]
          rfl
      | _ => exact congrArg₂ (bin _) (ihl hl) (ihr hr)
  | inv i t ih => exact congrArg (inv i) (ih (lacks_inv_iff.1 h))
  | call k t ih => exact congrArg (call k) (ih (lacks_call_iff.1 h))
  | _ => rfl

/-! ## Exponents -/

section

variable [Scalar.Legible α]

theorem text_num_one : (num (Scalar.one : α)).text = "1" := by
  rw [text, numberText, Scalar.one, Scalar.Legible.not_isZero_one, if_neg Bool.false_ne_true,
    Scalar.Legible.text_one]

variable [Scalar.Worded α]

/-- Only a number or a variable is written as a trivial exponent. -/
theorem not_isTrivialExponent (noNumber : ∀ n, t ≠ num n)
    (noVariable : ∀ name index, t ≠ var name index) : t.isTrivialExponent = false := by
  have minus (l r : Term α) (_ : t = bin .add l r) (hr : r.bringsMinus = true) :
      '-' ∈ r.text.toList := by
    obtain ⟨s, hs⟩ := exists_of_bringsMinus hr
    rw [hs]
    exact List.mem_cons_self
  have apart (s : String) {d : Char} (hd : d.isDigit = true) (hs : s.toList = [d]) :
      t.reads s = false := by
    refine Bool.eq_false_iff.2 fun h => ?_
    have written : t.text.toList = [d] := by rw [reads_iff.1 h, hs]
    rcases leaf_of_text_digit minus hd written with ⟨n, h⟩ | ⟨name, index, h⟩
    · exact noNumber n h
    · exact noVariable name index h
  exact Bool.or_eq_false_iff.2 ⟨apart "1" (d := '1') rfl rfl, apart "0" (d := '0') rfl rfl⟩

/-- An exponent is trivial after the removal if it was so before or collapses. -/
theorem isTrivialExponent_withoutTrivialPowers (t : Term α) :
    t.withoutTrivialPowers.isTrivialExponent = (t.isTrivialExponent || t.collapses) := by
  have composite (op : Operator) (l r : Term α) : (bin op l r).isTrivialExponent = false :=
    not_isTrivialExponent nofun nofun
  induction t with
  | bin op l r ihl _ =>
      cases op with
      | pow =>
          rw [composite, Bool.false_or, collapses]
          rcases withoutTrivialPowers_pow l r with ⟨one, removed⟩ | ⟨zero, removed⟩ | ⟨kept, removed⟩
          · have zero : r.reads "0" = false :=
              Bool.eq_false_iff.2 fun zero => Bool.eq_false_iff.1 (not_reads_one zero) one
            rw [removed, ihl, one, zero, Bool.false_or, Bool.true_and]
          · rw [removed, zero, isTrivialExponent, reads_iff.2 text_num_one, Bool.true_or,
              Bool.true_or]
          · obtain ⟨one, zero⟩ := Bool.or_eq_false_iff.1 kept
            rw [removed, composite, one, zero, Bool.false_and, Bool.false_or]
      | _ =>
          rw [composite]
          exact composite _ _ _
  | inv i t =>
      rw [not_isTrivialExponent (t := inv i t) nofun nofun]
      exact not_isTrivialExponent (t := inv i t.withoutTrivialPowers) nofun nofun
  | call k t =>
      rw [not_isTrivialExponent (t := call k t) nofun nofun]
      exact not_isTrivialExponent (t := call k t.withoutTrivialPowers) nofun nofun
  | _ => exact (Bool.or_false _).symm

/-- No trivial power is left iff no exponent collapses. -/
theorem lacks_withoutTrivialPowers_iff (t : Term α) :
    t.withoutTrivialPowers.LacksTrivialPowers ↔ t.keepsExponents = true := by
  induction t with
  | bin op l r ihl ihr =>
      cases op with
      | pow =>
          rw [keepsExponents]
          rcases withoutTrivialPowers_pow l r with ⟨one, removed⟩ | ⟨zero, removed⟩ | ⟨kept, removed⟩
          · rw [removed, if_pos one]
            exact ihl
          · rw [removed, if_neg (Bool.eq_false_iff.1 (not_reads_one zero)), if_pos zero]
            exact iff_of_true (lacks_num _) rfl
          · have exponent : r.withoutTrivialPowers.isTrivialExponent = r.collapses := by
              rw [isTrivialExponent_withoutTrivialPowers, kept, Bool.false_or]
            obtain ⟨one, zero⟩ := Bool.or_eq_false_iff.1 kept
            rw [removed, lacks_bin_iff, ihl, ihr, isTrivialPower, exponent,
              if_neg (Bool.eq_false_iff.1 one), if_neg (Bool.eq_false_iff.1 zero)]
            simp only [Bool.and_eq_true, Bool.not_eq_true']
            tauto
      | _ =>
          refine lacks_bin_iff.trans ?_
          refine (and_congr ihl ((and_iff_left rfl).trans ihr)).trans ?_
          exact Bool.and_eq_true_iff.symm
  | inv i t ih => exact lacks_inv_iff.trans ih
  | call k t ih => exact lacks_call_iff.trans ih
  | _ => exact iff_of_true (List.forall_mem_singleton.2 rfl) rfl

end

/-! ## Texts -/

/-- The characters that the term takes as the left operand of an operator. -/
def leftWidth (op : Operator) (t : Term α) : Nat := t.text.length + 2 * (t.leftEnclosed op).toNat

/-- The characters that the term takes as the right operand of an operator. -/
def rightWidth (op : Operator) (t : Term α) : Nat := t.text.length + 2 * (t.rightEnclosed op).toNat

/-- The characters that the term takes with the operator before it. -/
def tailWidth (op : Operator) (t : Term α) : Nat :=
  if op = .add ∧ t.bringsMinus = true then t.text.length else t.rightWidth op + 1

theorem tailWidth_pow (t : Term α) : t.tailWidth .pow = t.rightWidth .pow + 1 :=
  if_neg fun h => Operator.noConfusion h.1

theorem length_text_bin (op : Operator) (l r : Term α) :
    (bin op l r).text.length = l.leftWidth op + r.tailWidth op := by
  by_cases brings : op = .add ∧ r.bringsMinus = true
  · rw [tailWidth, if_pos brings]
    obtain ⟨rfl, hr⟩ := brings
    rw [text_add hr, String.length_append]
    rfl
  · have plain (hop : op = .add) : r.bringsMinus = false :=
      Bool.eq_false_iff.2 fun hr => brings ⟨hop, hr⟩
    have symbol : op.symbol.length = 1 := by cases op <;> rfl
    rw [tailWidth, if_neg brings, text_bin plain, String.length_append, String.length_append,
      Formula.length_parenthesized, Formula.length_parenthesized, symbol, leftWidth, rightWidth]
    omega

/-- Whether the first term is shorter than the second wherever it takes its place, with the parentheses
that it needs there. -/
structure ShorterThan (u t : Term α) : Prop where
  left (op : Operator) : u.leftWidth op < t.leftWidth op
  right (op : Operator) : u.rightWidth op < t.rightWidth op
  /-- Where a minus comes to the front, parentheses may follow further outside. -/
  minus : u.leadsMinus = true → t.leadsMinus = false → u.text.length + 2 < t.text.length
  /-- A summand that goes without a plus still does. -/
  brings : t.bringsMinus = true → u.bringsMinus = true

/-- Whether two terms are nodes of one kind, so that only a leading minus tells apart where they are
written in parentheses. -/
structure SameKind (u t : Term α) : Prop where
  binary (ops : List Operator) : u.isBinary ops = t.isBinary ops
  negation : u.isNegation = t.isNegation
  inverse : u.isInverse = t.isInverse
  operation : u.isOperation = t.isOperation
  brings : u.bringsMinus = t.bringsMinus

namespace SameKind

theorem leftEnclosed (h : SameKind u t) (op : Operator) :
    (u.leftEnclosed op).toNat ≤
      (t.leftEnclosed op).toNat + (u.leadsMinus && !t.leadsMinus).toNat := by
  have sum : u.isSum = t.isSum := h.binary _
  cases op <;> simp only [Term.leftEnclosed, sum, h.negation, h.operation] <;>
    cases u.leadsMinus <;> cases t.leadsMinus <;> simp [Bool.toNat_le]

theorem rightEnclosed (h : SameKind u t) (op : Operator) :
    (u.rightEnclosed op).toNat ≤
      (t.rightEnclosed op).toNat + (u.leadsMinus && !t.leadsMinus).toNat := by
  have sum : u.isSum = t.isSum := h.binary _
  cases op <;> simp only [Term.rightEnclosed, sum, h.binary, h.inverse, h.operation, h.brings] <;>
    cases u.leadsMinus <;> cases t.leadsMinus <;> simp [Bool.toNat_le]

/-- Between nodes of one kind, it is enough to compare the texts and what a new minus costs. -/
theorem shorterThan (h : SameKind u t)
    (shorter : u.text.length + 2 * (u.leadsMinus && !t.leadsMinus).toNat < t.text.length) :
    u.ShorterThan t where
  left op := by
    have enclosed := h.leftEnclosed op
    unfold leftWidth
    omega
  right op := by
    have enclosed := h.rightEnclosed op
    unfold rightWidth
    omega
  minus hu ht := by
    rw [hu, ht] at shorter
    exact shorter
  brings ht := h.brings.trans ht

end SameKind

/-- The base of a power is in parentheses wherever any operand is. -/
theorem not_enclosed (h : t.leftEnclosed .pow = false) (op : Operator) :
    t.leftEnclosed op = false ∧ t.rightEnclosed op = false := by
  cases t with
  | bin op' l r => cases h
  | inv i t => cases h
  | _ =>
      have plain : leadsMinus _ = false := h
      cases op <;> simp [leftEnclosed, rightEnclosed, isSum, isBinary, isNegation, isInverse,
        isOperation, plain]

theorem width_le (op : Operator) (t : Term α) :
    t.leftWidth op ≤ t.leftWidth .pow ∧ t.rightWidth op ≤ t.leftWidth .pow := by
  unfold leftWidth rightWidth
  cases h : t.leftEnclosed .pow with
  | false =>
      obtain ⟨left, right⟩ := not_enclosed h op
      rw [left, right]
      exact ⟨Nat.le_refl _, Nat.le_refl _⟩
  | true =>
      have left := Bool.toNat_le (t.leftEnclosed op)
      have right := Bool.toNat_le (t.rightEnclosed op)
      rw [Bool.toNat_true]
      omega

/-- A term that is shorter even in parentheses is shorter everywhere. -/
theorem ShorterThan.of_leftWidth (shorter : u.leftWidth .pow < t.text.length)
    (plain : t.bringsMinus = false) : u.ShorterThan t where
  left op := Nat.lt_add_right _ (Nat.lt_of_le_of_lt (width_le op u).1 shorter)
  right op := Nat.lt_add_right _ (Nat.lt_of_le_of_lt (width_le op u).2 shorter)
  minus hu _ := by
    have enclosed : u.leftEnclosed .pow = true := by
      rw [leftEnclosed, hu, Bool.or_true]
    rw [leftWidth, enclosed] at shorter
    exact shorter
  brings ht := absurd ht (Bool.eq_false_iff.1 plain)

theorem leadsMinus_bin (op : Operator) (l r : Term α) :
    (bin op l r).leadsMinus = (!l.leftEnclosed op && l.leadsMinus) := by
  cases op <;> simp [leadsMinus, leftEnclosed]

namespace ShorterThan

theorem length_lt (h : u.ShorterThan t) : u.text.length < t.text.length := h.left .add

/-- The left operand makes up for a minus that comes to the front of the whole operation. -/
theorem leftWidth_lt (h : l'.ShorterThan l) (op : Operator) (r r' : Term α) :
    l'.leftWidth op + 2 * ((bin op l' r').leadsMinus && !(bin op l r).leadsMinus).toNat <
      l.leftWidth op := by
  have length := h.length_lt
  cases new : (bin op l' r').leadsMinus && !(bin op l r).leadsMinus with
  | false => exact h.left op
  | true =>
      rw [leadsMinus_bin, leadsMinus_bin, Bool.and_eq_true, Bool.and_eq_true, Bool.not_eq_true',
        Bool.not_eq_true', Bool.and_eq_false_iff, Bool.not_eq_false'] at new
      -- What hid the minus before is gone: parentheses, or characters in front of it.
      obtain ⟨⟨bare, leads⟩, before⟩ := new
      rw [leftWidth, leftWidth, bare]
      rcases before with enclosed | plain
      · rw [enclosed]
        show l'.text.length + 2 < l.text.length + 2
        omega
      · have minus := h.minus leads plain
        show l'.text.length + 2 < _
        omega

theorem tailWidth_lt (h : r'.ShorterThan r) (op : Operator) : r'.tailWidth op < r.tailWidth op := by
  have length := h.length_lt
  have right := h.right op
  have outside : r.text.length ≤ r.rightWidth op := Nat.le_add_right _ _
  unfold tailWidth
  by_cases brings : op = .add ∧ r.bringsMinus = true
  · rw [if_pos brings, if_pos ⟨brings.1, h.brings brings.2⟩]
    exact length
  · rw [if_neg brings]
    split <;> omega

/-- An operation gets shorter with its operands. -/
theorem bin (op : Operator) (hl : l' = l ∨ l'.ShorterThan l) (hr : r' = r ∨ r'.ShorterThan r)
    (some : l'.ShorterThan l ∨ r'.ShorterThan r) :
    (bin op l' r').ShorterThan (bin op l r) := by
  have kind : SameKind (Term.bin op l' r') (Term.bin op l r) := ⟨fun _ => rfl, rfl, rfl, rfl, rfl⟩
  have left : l'.leftWidth op +
      2 * ((Term.bin op l' r').leadsMinus && !(Term.bin op l r).leadsMinus).toNat ≤
        l.leftWidth op := by
    rcases hl with rfl | hl
    · rw [leadsMinus_bin, leadsMinus_bin, Bool.and_not_self]
      exact Nat.le_refl _
    · exact (hl.leftWidth_lt op r r').le
  have tail : r'.tailWidth op ≤ r.tailWidth op := by
    rcases hr with rfl | hr
    · exact Nat.le_refl _
    · exact (hr.tailWidth_lt op).le
  refine kind.shorterThan ?_
  rw [length_text_bin, length_text_bin]
  rcases some with hl | hr
  · have less := hl.leftWidth_lt op r r'
    omega
  · have less := hr.tailWidth_lt op
    omega

theorem inv (i : Inverse) (h : u.ShorterThan t) : (inv i u).ShorterThan (inv i t) := by
  have kind : SameKind (Term.inv i u) (Term.inv i t) := by
    cases i <;> exact ⟨fun _ => rfl, rfl, rfl, rfl, rfl⟩
  have longer (sign : String) (op : Operator) :
      (sign ++ parenthesized (u.rightEnclosed op) u.text).length <
        (sign ++ parenthesized (t.rightEnclosed op) t.text).length := by
    rw [String.length_append, String.length_append, Formula.length_parenthesized,
      Formula.length_parenthesized]
    exact Nat.add_lt_add_left (h.right op) _
  refine kind.shorterThan ?_
  cases i with
  | neg => exact longer "-" .sub
  | recip => exact longer "1 / " .pow

theorem call (k : Keyword) (h : u.ShorterThan t) : (call k u).ShorterThan (call k t) := by
  have kind : SameKind (Term.call k u) (Term.call k t) := ⟨fun _ => rfl, rfl, rfl, rfl, rfl⟩
  refine kind.shorterThan ?_
  have length := h.length_lt
  show (k.name ++ "(" ++ u.text ++ ")").length + 0 < (k.name ++ "(" ++ t.text ++ ")").length
  simp only [String.length_append]
  omega

end ShorterThan

variable [Scalar.Legible α]

theorem leftWidth_one : (num (Scalar.one : α)).leftWidth .pow = 1 := by
  have plain : (num (Scalar.one : α)).leftEnclosed .pow = false :=
    Scalar.Legible.not_isNegative_one
  rw [leftWidth, plain, text_num_one]
  rfl

/-- Removing trivial powers makes the text shorter, if there are any. -/
theorem withoutTrivialPowers_shorterThan (t : Term α) :
    t.LacksTrivialPowers ∨ t.withoutTrivialPowers.ShorterThan t := by
  have same {t : Term α} (h : t.LacksTrivialPowers ∨ t.withoutTrivialPowers.ShorterThan t) :
      t.withoutTrivialPowers = t ∨ t.withoutTrivialPowers.ShorterThan t :=
    h.imp_left withoutTrivialPowers_of_lacks
  induction t with
  | bin op l r ihl ihr =>
      have sides (kept : (bin op l r).withoutTrivialPowers =
            bin op l.withoutTrivialPowers r.withoutTrivialPowers)
          (plain : (bin op l r).isTrivialPower = false) : (bin op l r).LacksTrivialPowers ∨
            (bin op l r).withoutTrivialPowers.ShorterThan (bin op l r) := by
        by_cases lacks : l.LacksTrivialPowers ∧ r.LacksTrivialPowers
        · exact .inl (lacks_bin_iff.2 ⟨lacks.1, lacks.2, plain⟩)
        · refine .inr (kept ▸ .bin op (same ihl) (same ihr) ?_)
          tauto
      cases op with
      | pow =>
          rcases withoutTrivialPowers_pow l r with ⟨one, removed⟩ | ⟨zero, removed⟩ | ⟨kept, removed⟩
          -- The base may need the parentheses of the power, but the exponent is gone.
          · have base : l.withoutTrivialPowers.leftWidth .pow ≤ l.leftWidth .pow := by
              rcases same ihl with unchanged | shorter
              · rw [unchanged]
              · exact (shorter.left .pow).le
            right
            rw [removed]
            refine .of_leftWidth ?_ rfl
            rw [length_text_bin, tailWidth_pow]
            omega
          · have exponent : r.text.length = 1 := by
              rw [reads_iff.1 zero]
              rfl
            have outside : r.text.length ≤ r.rightWidth .pow := Nat.le_add_right _ _
            right
            rw [removed]
            refine .of_leftWidth ?_ rfl
            rw [length_text_bin, tailWidth_pow, leftWidth_one]
            omega
          · exact sides removed kept
      | _ => exact sides rfl rfl
  | inv i t ih => exact ih.imp lacks_inv_iff.2 (.inv i)
  | call k t ih => exact ih.imp lacks_call_iff.2 (.call k)
  | _ => exact .inl (List.forall_mem_singleton.2 rfl)

/-- The removal leaves no trivial power iff no exponent collapses, and it leaves a text that a second
removal keeps iff that is so. -/
theorem withoutTrivialPowers_lacks_iff [Scalar.Worded α] (t : Term α) :
    (t.withoutTrivialPowers.LacksTrivialPowers ↔ t.keepsExponents = true) ∧
      (t.withoutTrivialPowers.withoutTrivialPowers.text = t.withoutTrivialPowers.text ↔
        t.keepsExponents = true) := by
  have lacks := lacks_withoutTrivialPowers_iff t
  refine ⟨lacks, Iff.trans ⟨fun same => ?_, fun h => ?_⟩ lacks⟩
  · rcases withoutTrivialPowers_shorterThan t.withoutTrivialPowers with h | shorter
    · exact h
    · exact absurd (congrArg String.length same) shorter.length_lt.ne
  · rw [withoutTrivialPowers_of_lacks h]

/-- `(sin(x^1)^0+y)^(z^1)/a^(b^2)` keeps its exponents. -/
theorem withoutTrivialPowers_lacks_iff_quotient :
    let v (name : String) : Term ℚ := .var name none
    let base := bin .add (.bin .pow (.call .sin (.bin .pow (v "x") (.num 1))) (.num 0)) (v "y")
    let t := bin .div (.bin .pow base (.bin .pow (v "z") (.num 1)))
      (.bin .pow (v "a") (.bin .pow (v "b") (.num 2)))
    t.withoutTrivialPowers = .bin .div (.bin .pow (.bin .add (.num 1) (v "y")) (v "z"))
        (.bin .pow (v "a") (.bin .pow (v "b") (.num 2))) ∧
      t.withoutTrivialPowers.LacksTrivialPowers ∧
      t.withoutTrivialPowers.withoutTrivialPowers.text = t.withoutTrivialPowers.text := by
  intro v base t
  have keeps : t.keepsExponents = true := by with_unfolding_all rfl
  obtain ⟨lacks, twice⟩ := withoutTrivialPowers_lacks_iff t
  exact ⟨by with_unfolding_all rfl, lacks.2 keeps, twice.2 keeps⟩

/-- The exponent of `x^(1^1)` collapses, and `x^1` is left. -/
theorem withoutTrivialPowers_leaves_power :
    let t : Term ℚ := bin .pow (.var "x" none) (.bin .pow (.num 1) (.num 1))
    ¬t.withoutTrivialPowers.LacksTrivialPowers ∧
      t.withoutTrivialPowers.text = "x^1" ∧ t.withoutTrivialPowers.withoutTrivialPowers.text = "x" := by
  intro t
  have left : t.withoutTrivialPowers = bin .pow (.var "x" none) (.num 1) := by
    with_unfolding_all rfl
  have text : t.withoutTrivialPowers.text = "x^1" := by
    rw [left]
    with_unfolding_all rfl
  have again : t.withoutTrivialPowers.withoutTrivialPowers.text = "x" := by
    rw [left]
    with_unfolding_all rfl
  refine ⟨fun lacks => ?_, text, again⟩
  rw [withoutTrivialPowers_of_lacks lacks, text] at again
  exact absurd again (by decide)

end Term

end AlgebraicTerms
