import AlgebraicTerms.Proofs.Formula.Nesting

/-!
# What the nesting limit counts

The limit is meant for the groups and the chained powers around an operand, `Formula.enclosures`.  A
reader counts what it holds back instead.  That is more where a sum or a product waits for a tighter
operation on its right (`Formula.waiting`), and less where a group is an operand of chained powers
before their last (`Formula.unnoticed`).  The nesting that is measured is between the two bounds that
they give (`counted`, `deepest_le_enclosures`), so they matter only close to the limit
(`parse_isTooDeep_iff_enclosures`).
-/

namespace AlgebraicTerms

namespace Formula

variable {α : Type}

/-- Whether the formula is an operation without parentheses around it. -/
def isOperation : Formula α → Bool
  | binary .. => true
  | _ => false

/-- Whether the formula is a power without parentheses around it. -/
def isPower : Formula α → Bool
  | binary .pow .. => true
  | _ => false

/-- Whether the formula is in parentheses, those of a keyword call included. -/
def isGroup : Formula α → Bool
  | paren .. | call .. => true
  | _ => false

/-- The greatest number of groups and chained powers around an operand.  A power is chained if it has a
power without parentheses on its right. -/
def enclosures : Formula α → Nat
  | paren _ inner | call _ _ _ inner => inner.enclosures + 1
  | minus _ f => f.enclosures
  | binary op _ l r =>
    max l.enclosures r.enclosures + if op = .pow ∧ r.isPower = true then 1 else 0
  | _ => 0

/-- The greatest number of sums and products around an operand that have an operation on their right,
which binds tighter and is read first. -/
def waiting : Formula α → Nat
  | paren _ f | call _ _ _ f | minus _ f => f.waiting
  | binary op _ l r =>
    max l.waiting r.waiting + if op ≠ .pow ∧ r.isOperation = true then 1 else 0
  | _ => 0

/-- The greatest number of chained powers around an operand that are not counted.  The base of a power
is read before the next power is seen, and with one level less if the power is an exponent itself.
This counts only if the base is a group. -/
def unnoticed (isExponent : Bool) : Formula α → Nat
  | paren _ f | call _ _ _ f | minus _ f => f.unnoticed false
  | binary .pow _ l r =>
    max (l.unnoticed false + if l.isGroup = true then isExponent.toNat + r.isPower.toNat else 0)
      (r.unnoticed true)
  | binary _ _ l r => max (l.unnoticed false) (r.unnoticed false)
  | _ => 0

/-! ## Powers -/

theorem isOperand_left {s : Span} {l r : Formula α} (nested : (binary .pow s l r).WellNested) :
    l.IsOperand :=
  ⟨nested.1, nested.2.2.1⟩

/-- The exponent of a power is a power or an operand. -/
theorem isOperand_right {s : Span} {l r : Formula α} (nested : (binary .pow s l r).WellNested)
    (power : ¬r.isPower = true) : r.IsOperand := by
  refine ⟨nested.2.1, ?_⟩
  have tight : Operator.pow.precedence.rank ≤ r.tightness := nested.2.2.2
  cases r with
  | minus s f => simp [tightness, Operator.precedence, Precedence.rank] at tight
  | binary op s l r =>
      cases op <;> simp [tightness, Operator.precedence, Precedence.rank, isPower] at tight power
  | _ => simp [tightness]

theorem enclosures_of_not_isGroup {f : Formula α} (h : f.IsOperand) (bare : ¬f.isGroup = true) :
    f.enclosures = 0 := by
  cases f with
  | paren _ _ | call _ _ _ _ => exact absurd rfl bare
  | minus s f => exact absurd h.2 (by simp [tightness, Precedence.rank])
  | binary op s l r => exact absurd h.2 (by cases op <;>
      simp [tightness, Operator.precedence, Precedence.rank])
  | _ => rfl

namespace Place

theorem nesting_after_pow (p : Place) :
    (p.after .pow).nesting = p.level + p.afterSum.toNat + p.afterProduct.toNat + p.powers :=
  nesting_of_power (Nat.succ_ne_zero p.powers)

theorem powers_after {op : Operator} (p : Place) (h : op ≠ .pow) : (p.after op).powers = 0 := by
  cases op <;> first | rfl | exact absurd rfl h

end Place

/-- What a power measures at the least. -/
theorem le_deepest_of_isPower {f : Formula α} (nested : f.WellNested) (power : f.isPower = true)
    (p : Place) : p.level + p.powers ≤ f.deepest p := by
  cases f with
  | binary op s l r =>
      cases op <;> try cases power
      have next := p.nesting_after_pow
      rw [deepest, placeAfter_of_isOperand (isOperand_left nested)]
      omega
  | _ => cases power

/-! ## At least the enclosures -/

/-- Whether the operand at the place is an exponent. -/
def Place.isExponent (p : Place) : Bool := p.powers ≠ 0

theorem Place.isExponent_of_powers {p : Place} (h : p.powers = 0) : p.isExponent = false := by
  rw [Place.isExponent, h]
  rfl

theorem Place.le_nesting_of_isExponent (p : Place) :
    p.level + p.powers ≤ p.nesting + p.isExponent.toNat := by
  by_cases h : p.powers = 0
  · have outside := p.level_le_nesting
    omega
  · have exponent : p.isExponent.toNat = 1 := by
      rw [Place.isExponent, decide_eq_true h, Bool.toNat_true]
    rw [Place.nesting_of_power h]
    omega

/-- From every place the enclosures are measured, those apart that are not noticed.  The bound `b` is
what encloses the formula, and for an operand `m` is what its place lacks of that. -/
structure Counted (f : Formula α) : Prop where
  outside : ∀ (p : Place) (b : Nat), (p.powers = 0 ∨ f.isPower = true) → b ≤ p.level + p.powers →
    b + f.enclosures ≤ max b (f.deepest p) + f.unnoticed p.isExponent
  operand : f.IsOperand → ∀ (p : Place) (b m : Nat) (isExponent : Bool), b ≤ p.nesting + m →
    b + f.enclosures ≤ max b (f.deepest p) + m + f.unnoticed isExponent

namespace Counted

theorem of_operand {f : Formula α} (h : f.IsOperand)
    (operand : ∀ (p : Place) (b m : Nat) (isExponent : Bool), b ≤ p.nesting + m →
      b + f.enclosures ≤ max b (f.deepest p) + m + f.unnoticed isExponent) : f.Counted := by
  refine ⟨fun p b start hb => ?_, fun _ => operand⟩
  have none : p.powers = 0 := start.resolve_right fun power => by
    cases f with
    | binary op s l r => exact absurd h.2 (by cases op <;>
        simp [tightness, Operator.precedence, Precedence.rank])
    | _ => cases power
  have outside := p.level_le_nesting
  exact operand p b 0 p.isExponent (by omega)

theorem atom {f : Formula α} (h : f.IsOperand) (bare : ¬f.isGroup = true) : f.Counted := by
  refine of_operand h fun p b m isExponent _ => ?_
  rw [enclosures_of_not_isGroup h bare]
  omega

/-- A group is measured with what is inside of it. -/
theorem group {inner : Formula α} (inside : inner.Counted) {p : Place} {b m : Nat}
    (hb : b ≤ p.nesting + m) : b + (inner.enclosures + 1) ≤
      max b (max (p.nesting + 1) (inner.deepest (Place.first (p.nesting + 1)))) + m +
        inner.unnoticed false := by
  have covered := inside.outside (Place.first (p.nesting + 1)) (p.nesting + 1) (.inl rfl)
    (Nat.le_refl _)
  rw [show (Place.first (p.nesting + 1)).isExponent = false from rfl] at covered
  omega

/-- A power is measured with its base and its exponent. -/
theorem power {s : Span} {l r : Formula α} (nested : (binary .pow s l r).WellNested)
    (left : l.Counted) (right : r.Counted) : (binary .pow s l r).Counted := by
  have base := isOperand_left nested
  refine ⟨fun p b _ hb => ?_, fun operand => absurd operand.2 (by
    simp [tightness, Operator.precedence, Precedence.rank])⟩
  have nesting := p.nesting_after_pow
  have lacking := p.le_nesting_of_isExponent
  have next : (p.after .pow).isExponent = true := rfl
  have level : (p.after .pow).level + (p.after .pow).powers = p.level + p.powers + 1 := rfl
  have below := left.operand base p (b + r.isPower.toNat) (p.isExponent.toNat + r.isPower.toNat)
    false (by omega)
  rw [enclosures, deepest, unnoticed, placeAfter_of_isOperand base]
  by_cases chained : r.isPower = true
  · have above := right.outside (p.after .pow) (b + 1) (.inr chained) (by omega)
    have measured := le_deepest_of_isPower nested.2.1 chained (p.after .pow)
    rw [chained, Bool.toNat_true] at below
    rw [next] at above
    rw [if_pos ⟨rfl, chained⟩, chained, Bool.toNat_true]
    by_cases isGroup : l.isGroup = true
    · rw [if_pos isGroup]
      omega
    · rw [if_neg isGroup, enclosures_of_not_isGroup base isGroup]
      omega
  · have above := right.operand (isOperand_right nested chained) (p.after .pow) b 0 true (by omega)
    rw [Bool.eq_false_iff.2 chained, Bool.toNat_false] at below
    rw [if_neg fun h => chained h.2, Bool.eq_false_iff.2 chained, Bool.toNat_false]
    by_cases isGroup : l.isGroup = true
    · rw [if_pos isGroup]
      omega
    · rw [if_neg isGroup, enclosures_of_not_isGroup base isGroup]
      omega

/-- A sum or a product is measured with its operands. -/
theorem operation {op : Operator} {s : Span} {l r : Formula α} (hop : op ≠ .pow) (left : l.Counted)
    (right : r.Counted) : (binary op s l r).Counted := by
  refine ⟨fun p b start hb => ?_, fun operand => absurd operand.2 (by
    cases op <;> simp [tightness, Operator.precedence, Precedence.rank])⟩
  have first : p.powers = 0 := start.resolve_right fun power => by
    cases op <;> first | exact absurd rfl hop | cases power
  have level : ((l.placeAfter p).after op).level = p.level :=
    (Place.level_after _ op).trans (level_placeAfter p l)
  have none : ((l.placeAfter p).after op).powers = 0 := Place.powers_after _ hop
  have below := left.outside p b (.inl first) hb
  have above := right.outside ((l.placeAfter p).after op) b (.inl none) (by omega)
  have parts : (binary op s l r).unnoticed false = max (l.unnoticed false) (r.unnoticed false) := by
    cases op <;> first | rfl | exact absurd rfl hop
  rw [Place.isExponent_of_powers first] at below ⊢
  rw [Place.isExponent_of_powers none] at above
  rw [enclosures, deepest, parts, if_neg fun h => hop h.1]
  omega

end Counted

theorem counted {f : Formula α} (nested : f.WellNested) : f.Counted := by
  induction f with
  | empty s => exact nested.elim
  | number | var | const => exact .atom ⟨nested, Nat.lt_succ_self _⟩ (by simp [isGroup])
  | paren s inner ih | call name s t inner ih =>
      exact .of_operand ⟨nested, Nat.lt_succ_self _⟩ fun p b m isExponent hb => (ih nested).group hb
  | minus s f ih =>
      refine ⟨fun p b start hb => ?_, fun operand => absurd operand.2 (by
        simp [tightness, Precedence.rank])⟩
      have first : p.powers = 0 := start.resolve_right (by simp [isPower])
      have covered := (ih nested.1).outside p b (.inl first) hb
      rw [Place.isExponent_of_powers first] at covered ⊢
      exact covered
  | binary op s l r ihl ihr =>
      have left := ihl nested.1
      have right := ihr nested.2.1
      by_cases hop : op = .pow
      · subst hop
        exact .power nested left right
      · exact .operation hop left right

/-! ## At most the enclosures -/

/-- What a formula tighter than a sum is before holds back no sum of its own. -/
theorem afterSum_placeAfter {f : Formula α} (nested : f.WellNested)
    (tight : Precedence.factor.rank ≤ f.tightness) (p : Place) :
    (f.placeAfter p).afterSum = p.afterSum := by
  induction f generalizing p with
  | minus s f _ => exact absurd tight (by simp [tightness, Precedence.rank])
  | binary op s l r ihl ihr =>
      obtain ⟨nestedLeft, nestedRight, side⟩ := nested
      have tightLeft : Precedence.factor.rank ≤ l.tightness := by
        cases op <;> simp only [tightness, Operator.precedence, Operator.associativity,
          Precedence.rank] at tight side ⊢ <;> omega
      have tightRight : Precedence.factor.rank ≤ r.tightness := by
        cases op <;> simp only [tightness, Operator.precedence, Operator.associativity,
          Precedence.rank] at tight side ⊢ <;> omega
      have after : ((l.placeAfter p).after op).afterSum = (l.placeAfter p).afterSum := by
        cases op <;> first
          | rfl
          | exact absurd tight (by simp [tightness, Operator.precedence, Precedence.rank])
      rw [placeAfter, ihr nestedRight tightRight, after, ihl nestedLeft tightLeft]
  | _ => rfl

/-- The left operand binds as tight as its operation at the least. -/
theorem tightness_le_left {op : Operator} {s : Span} {l r : Formula α}
    (nested : (binary op s l r).WellNested) : (binary op s l r).tightness ≤ l.tightness := by
  have side := nested.2.2
  cases op <;> first | exact side.1 | exact Nat.le_of_lt side.1

/-- What is not an operation on the right of an operator is an operand. -/
theorem tight_of_not_isOperation {op : Operator} {s : Span} {l r : Formula α}
    (nested : (binary op s l r).WellNested) (operand : ¬r.isOperation = true) :
    Precedence.power.rank < r.tightness := by
  have side := nested.2.2
  cases r with
  | minus s f =>
      cases op <;> simp [tightness, Operator.precedence, Operator.associativity,
        Precedence.rank] at side
  | binary => exact absurd rfl operand
  | _ => simp [tightness]

theorem placeAfter_after_of_isSum {op : Operator} (h : op.isSum = true) (p : Place)
    (l : Formula α) : (l.placeAfter p).after op = ⟨p.level, true, false, 0⟩ := by
  rw [Place.after, if_pos h, level_placeAfter]

/-- The first factors of a product hold back nothing more than the sum before it. -/
theorem placeAfter_after_of_isProduct {op : Operator} {s : Span} {l r : Formula α}
    (nested : (binary op s l r).WellNested) (h : op.isProduct = true) (p : Place) :
    (l.placeAfter p).after op = ⟨p.level, p.afterSum, true, 0⟩ := by
  have tight : Precedence.factor.rank ≤ l.tightness := by
    have side := nested.2.2
    revert h
    cases op <;> first | exact fun _ => side.1 | simp [Operator.isProduct, Operator.precedence]
  have sum : ¬op.isSum = true := by
    revert h
    cases op <;> decide
  rw [Place.after, if_neg sum, if_pos h, level_placeAfter, afterSum_placeAfter nested.1 tight]

/-- All that the place holds back. -/
def Place.total (p : Place) : Nat :=
  p.level + p.afterSum.toNat + p.afterProduct.toNat + p.powers

/-- Only operators that bind looser than the formula are held back at its place, and `b` covers them. -/
structure Place.Covers (p : Place) (f : Formula α) (b : Nat) : Prop where
  nesting : p.nesting ≤ b
  total : f.tightness ≤ Precedence.power.rank → p.total ≤ b
  factor : f.tightness ≤ Precedence.factor.rank → p.afterProduct = false ∧ p.powers = 0
  term : f.tightness ≤ Precedence.term.rank → p.afterSum = false

namespace Place.Covers

variable {p : Place} {f g : Formula α} {b : Nat}

theorem first (f : Formula α) (b : Nat) : (Place.first b).Covers f b :=
  ⟨Nat.le_refl _, fun _ => Nat.le_refl _, fun _ => ⟨rfl, rfl⟩, fun _ => rfl⟩

theorem operand (tight : Precedence.power.rank < f.tightness) (h : p.nesting ≤ b) :
    p.Covers f b := by
  have tight : 3 < f.tightness := tight
  refine ⟨h, fun loose => ?_, fun loose => ?_, fun loose => ?_⟩
  all_goals
    rw [Precedence.rank] at loose
    omega

theorem mono (h : p.Covers f b) (tighter : f.tightness ≤ g.tightness) : p.Covers g b :=
  ⟨h.nesting, fun loose => h.total (tighter.trans loose), fun loose => h.factor (tighter.trans loose),
    fun loose => h.term (tighter.trans loose)⟩

/-- On the right of an operator one more is held back than around the operation, but an operand there
is not nested in it. -/
theorem after {op : Operator} {s : Span} {l r : Formula α} (nested : (binary op s l r).WellNested)
    (h : p.Covers (binary op s l r) b) : ((l.placeAfter p).after op).nesting ≤ b ∧
      ((l.placeAfter p).after op).Covers r (b + 1) := by
  have total : p.total ≤ b := h.total (by
    cases op <;> simp [tightness, Operator.precedence, Precedence.rank])
  rw [Place.total] at total
  by_cases hop : op = .pow
  · subst hop
    have nesting := p.nesting_after_pow
    have tight : 3 ≤ r.tightness := nested.2.2.2
    rw [placeAfter_of_isOperand (isOperand_left nested)]
    refine ⟨by omega, by omega, fun _ => Nat.succ_le_succ total, fun loose => ?_, fun loose => ?_⟩
    all_goals
      rw [Precedence.rank] at loose
      omega
  · by_cases sum : op.isSum = true
    · have tight : 1 < r.tightness := by
        have side := nested.2.2
        revert hop sum
        cases op <;> first | exact fun _ _ => side.2 | simp [Operator.isSum, Operator.precedence]
      rw [placeAfter_after_of_isSum sum]
      refine ⟨show p.level ≤ b by omega, show p.level ≤ b + 1 by omega, fun _ => ?_,
        fun _ => ⟨rfl, rfl⟩, fun loose => absurd tight (Nat.not_lt.2 loose)⟩
      show p.level + 1 + 0 + 0 ≤ b + 1
      omega
    · have product : op.isProduct = true := by revert hop sum; cases op <;> decide
      have tight : 2 < r.tightness := by
        have side := nested.2.2
        revert hop sum
        cases op <;> first | exact fun _ _ => side.2 | simp [Operator.isSum, Operator.precedence]
      rw [placeAfter_after_of_isProduct nested product]
      refine ⟨show p.level + p.afterSum.toNat ≤ b by omega,
        show p.level + p.afterSum.toNat ≤ b + 1 by omega, fun _ => ?_,
        fun loose => absurd tight (Nat.not_lt.2 loose),
        fun loose => absurd tight (Nat.not_lt.2 (Nat.le_succ_of_le loose))⟩
      show p.level + p.afterSum.toNat + 1 + 0 ≤ b + 1
      omega

end Place.Covers

theorem enclosures_add_waiting_left (op : Operator) (s : Span) (l r : Formula α) :
    l.enclosures + l.waiting ≤
      (binary op s l r).enclosures + (binary op s l r).waiting := by
  rw [enclosures, waiting]
  omega

/-- An operation on the right of an operator is in a chained power or waited for. -/
theorem enclosures_add_waiting_right {op : Operator} {s : Span} {l r : Formula α}
    (nested : (binary op s l r).WellNested) : r.enclosures + r.waiting + r.isOperation.toNat ≤
      (binary op s l r).enclosures + (binary op s l r).waiting := by
  rw [enclosures, waiting]
  by_cases operation : r.isOperation = true
  · by_cases hop : op = .pow
    · subst hop
      have power : r.isPower = true := by
        by_contra other
        have tight := (isOperand_right nested other).2
        cases r with
        | binary op s l r =>
            revert tight
            cases op <;> simp [tightness, Operator.precedence, Precedence.rank]
        | _ => cases operation
      rw [operation, if_pos ⟨rfl, power⟩, Bool.toNat_true]
      omega
    · rw [operation, if_neg fun h => hop h.1, if_pos ⟨hop, rfl⟩, Bool.toNat_true]
      omega
  · rw [Bool.eq_false_iff.2 operation, Bool.toNat_false]
    omega

theorem deepest_le_enclosures {f : Formula α} (nested : f.WellNested) {p : Place} {b : Nat}
    (h : p.Covers f b) : f.deepest p ≤ b + f.enclosures + f.waiting := by
  induction f generalizing p b with
  | paren _ inner ih | call _ _ _ inner ih =>
      have nesting := h.nesting
      have inside := ih nested (.first inner (p.nesting + 1))
      rw [enclosures, deepest, waiting]
      omega
  | minus s f ih => exact ih nested.1 (h.mono f.term_le_tightness)
  | binary op s l r ihl ihr =>
      have left := ihl nested.1 (h.mono (tightness_le_left nested))
      have onLeft := enclosures_add_waiting_left op s l r
      have onRight := enclosures_add_waiting_right nested
      obtain ⟨nesting, covers⟩ := h.after nested
      rw [deepest]
      by_cases operation : r.isOperation = true
      · have right := ihr nested.2.1 covers
        rw [operation, Bool.toNat_true] at onRight
        omega
      · have right := ihr nested.2.1 (.operand (tight_of_not_isOperation nested operation) nesting)
        omega
  | _ => exact Nat.zero_le _

/-! ## The limit -/

section Limit

variable [Scalar α] {vocabulary : Vocabulary} {text : String} {f : Formula α}

/-- A source is refused exactly if it has more enclosures than the limit, unless what waits brings it
over the limit or what is not noticed keeps it below. -/
theorem parse_isTooDeep_iff_enclosures (nested : f.WellNested)
    (hy : f.Yields (TokenTree.ofSource vocabulary text.toList))
    (apart : f.enclosures + f.waiting ≤ mostNesting ∨
      mostNesting + f.unnoticed false < f.enclosures) :
    IsTooDeep (parse (α := α) vocabulary text) ↔ mostNesting < f.enclosures := by
  have atMost := deepest_le_enclosures nested (.first f 0)
  have atLeast := (counted nested).outside (Place.first 0) 0 (.inl rfl) (Nat.zero_le _)
  rw [show (Place.first 0).isExponent = false from rfl] at atLeast
  rw [parse_isTooDeep_iff nested hy]
  omega

end Limit

/-! ## Towers of powers -/

/-- A tower of `n` powers of `a` from an offset, with a formula at the top. -/
def tower (offset : Nat) (top : Formula Float) : Nat → Formula Float
  | 0 => top
  | n + 1 => .binary .pow ⟨offset + 1, offset + 2⟩ (.var ⟨offset, offset + 1⟩ "a" none)
      (tower (offset + 2) top n)

def towerTrees (offset : Nat) (top : List TokenTree) : Nat → List TokenTree
  | 0 => top
  | n + 1 => .var ⟨offset, offset + 1⟩ "a" none :: .char ⟨offset + 1, offset + 2⟩ '^' ::
      towerTrees (offset + 2) top n

def towerText (top : List Char) : Nat → List Char
  | 0 => top
  | n + 1 => 'a' :: '^' :: towerText top n

section Tower

variable {offset n : Nat} {top : Formula Float}

theorem tower_tightness (h : Precedence.power.rank ≤ top.tightness) :
    Precedence.power.rank ≤ (tower offset top n).tightness := by
  cases n with
  | zero => exact h
  | succ n => exact Nat.le_refl _

theorem tower_wellNested (nested : top.WellNested) (h : Precedence.power.rank ≤ top.tightness) :
    (tower offset top n).WellNested := by
  induction n generalizing offset with
  | zero => exact nested
  | succ n ih => exact ⟨trivial, ih, Nat.le_refl _, tower_tightness h⟩

theorem tower_yields {ts : List TokenTree} (hy : top.Yields ts) :
    (tower offset top n).Yields (towerTrees offset ts n) := by
  induction n generalizing offset with
  | zero => exact hy
  | succ n ih => exact ⟨_, _, rfl, ih, rfl⟩

end Tower

set_option maxRecDepth 8000 in
/-- A tower of 66 powers has 65 chained ones. -/
theorem parse_isTooDeep_tower :
    ((tower 0 (.var ⟨132, 133⟩ "a" none) 66).WellNested ∧
      (tower 0 (.var ⟨132, 133⟩ "a" none) 66).Yields
        (TokenTree.ofSource .bare (String.ofList (towerText ['a'] 66)).toList)) ∧
      mostNesting + (tower 0 (.var ⟨132, 133⟩ "a" none) 66).unnoticed false <
        (tower 0 (.var ⟨132, 133⟩ "a" none) 66).enclosures ∧
      (IsTooDeep (parse (α := Float) .bare (String.ofList (towerText ['a'] 66))) ↔
        mostNesting < (tower 0 (.var ⟨132, 133⟩ "a" none) 66).enclosures) := by
  have trees : TokenTree.ofSource .bare (String.ofList (towerText ['a'] 66)).toList =
      towerTrees 0 [.var ⟨132, 133⟩ "a" none] 66 := by
    rw [String.toList_ofList]
    rfl
  have nested : (tower 0 (.var ⟨132, 133⟩ "a" none) 66).WellNested :=
    tower_wellNested trivial (Nat.le_succ _)
  have hy : (tower 0 (.var ⟨132, 133⟩ "a" none) 66).Yields
      (TokenTree.ofSource .bare (String.ofList (towerText ['a'] 66)).toList) := by
    rw [trees]
    exact tower_yields rfl
  have many : mostNesting + (tower 0 (.var ⟨132, 133⟩ "a" none) 66).unnoticed false <
      (tower 0 (.var ⟨132, 133⟩ "a" none) 66).enclosures := by decide
  exact ⟨⟨nested, hy⟩, many, parse_isTooDeep_iff_enclosures nested hy (.inr many)⟩

set_option maxRecDepth 8000 in
/-- A product before a tower is counted though it encloses nothing, and a group below the top of a
tower counts one less than it encloses. -/
theorem parse_isTooDeep_ne_enclosures :
    (¬∀ (text : String) (f : Formula Float), f.WellNested →
      f.Yields (TokenTree.ofSource .bare text.toList) →
        IsTooDeep (parse (α := Float) .bare text) → mostNesting < f.enclosures) ∧
      ¬∀ (text : String) (f : Formula Float), f.WellNested →
        f.Yields (TokenTree.ofSource .bare text.toList) →
          mostNesting < f.enclosures → IsTooDeep (parse (α := Float) .bare text) := by
  constructor
  · intro claim
    let f : Formula Float := .binary .mul ⟨1, 2⟩ (.var ⟨0, 1⟩ "a" none)
      (tower 2 (.var ⟨132, 133⟩ "a" none) 65)
    have nested : f.WellNested :=
      ⟨trivial, tower_wellNested trivial (Nat.le_succ _), Nat.le_succ_of_le (Nat.le_succ _),
        tower_tightness (Nat.le_succ _)⟩
    have trees : TokenTree.ofSource .bare (String.ofList ('a' :: '*' :: towerText ['a'] 65)).toList =
        .var ⟨0, 1⟩ "a" none :: .char ⟨1, 2⟩ '*' ::
          towerTrees 2 [.var ⟨132, 133⟩ "a" none] 65 := by
      rw [String.toList_ofList]
      rfl
    have hy : f.Yields (TokenTree.ofSource .bare
        (String.ofList ('a' :: '*' :: towerText ['a'] 65)).toList) := by
      rw [trees]
      exact ⟨_, _, rfl, tower_yields rfl, rfl⟩
    have deep : mostNesting < f.deepest (Place.first 0) := by decide
    have few : ¬mostNesting < f.enclosures := by decide
    exact few (claim _ f nested hy ((parse_isTooDeep_iff nested hy).2 deep))
  · intro claim
    let f : Formula Float := tower 0 (.binary .pow ⟨131, 132⟩
      (.paren ⟨128, 131⟩ (.var ⟨129, 130⟩ "a" none)) (.var ⟨132, 133⟩ "a" none)) 64
    have nested : f.WellNested :=
      tower_wellNested ⟨trivial, trivial, Nat.le_refl _, Nat.le_succ _⟩ (Nat.le_refl _)
    have trees : TokenTree.ofSource .bare
        (String.ofList (towerText ['(', 'a', ')', '^', 'a'] 64)).toList =
          towerTrees 0 [.group ⟨128, 131⟩ [.var ⟨129, 130⟩ "a" none], .char ⟨131, 132⟩ '^',
            .var ⟨132, 133⟩ "a" none] 64 := by
      rw [String.toList_ofList]
      rfl
    have hy : f.Yields (TokenTree.ofSource .bare
        (String.ofList (towerText ['(', 'a', ')', '^', 'a'] 64)).toList) := by
      rw [trees]
      exact tower_yields ⟨_, _, ⟨_, rfl, rfl⟩, rfl, rfl⟩
    have shallow : ¬mostNesting < f.deepest (Place.first 0) := by decide
    have many : mostNesting < f.enclosures := by decide
    exact shallow ((parse_isTooDeep_iff nested hy).1 (claim _ f nested hy many))

end Formula

end AlgebraicTerms
