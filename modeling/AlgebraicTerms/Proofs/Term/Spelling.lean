import AlgebraicTerms.Proofs.Formula.Grammar
import AlgebraicTerms.Proofs.Scalar.Legible
import AlgebraicTerms.Term

/-!
# The formula of a term's text

The text of a term leaves out parentheses, so it is read as a tree of another shape: `a*(b*c)` is
written `a*b*c` and read as `(a*b)*c`, and `(-2)*b` is read with a minus around the whole product.
`Term.formula` builds that tree from the term by recursion, with `Formula.graft` where operands lose
their parentheses, and `Term.spelled` says that it is well nested and has the tokens of the text.
-/

namespace AlgebraicTerms

namespace Formula

variable {α : Type}

/-! ## Joining formulas without parentheses -/

/-- The formula of `f`, an operator and `g` side by side.  Where `g` is a chain of operators that bind
as tightly, its first operand goes to `f`. -/
def graft (op : Operator) (f : Formula α) : Formula α → Formula α
  | binary op' s l r =>
    if op'.precedence = op.precedence then binary op' s (graft op f l) r
    else binary op .nowhere f (binary op' s l r)
  | g => binary op .nowhere f g

/-- As `graft`, but a minus before `f` covers the whole product. -/
def glue (op : Operator) : (f g : Formula α) → Formula α
  | minus s f, g => if op.isProduct then minus s (f.graft op g) else (minus s f).graft op g
  | f, g => f.graft op g

/-- The formula of a sum, whose right side may bring a minus. -/
def plus (f : Formula α) : Formula α → Formula α
  | minus s g => binary .sub s f g
  | g => f.graft .add g

def enclosed (needed : Bool) (f : Formula α) : Formula α :=
  if needed then paren .nowhere f else f

def isMinus : Formula α → Bool
  | minus .. => true
  | _ => false

/-- Whether the first token is a minus. -/
def startsMinus : Formula α → Bool
  | minus .. => true
  | binary _ _ l _ => l.startsMinus
  | _ => false

theorem startsMinus_of_tight {f : Formula α} (hf : f.WellNested)
    (h : Precedence.factor.rank ≤ f.tightness) : f.startsMinus = false := by
  induction f with
  | minus s f => exact absurd h (by simp [tightness, Precedence.rank])
  | binary op s l r ihl _ =>
      obtain ⟨hl, _, hside⟩ := hf
      refine ihl hl ?_
      cases op <;> simp only [tightness, Operator.precedence, Operator.associativity,
        Precedence.rank] at h hside ⊢ <;> omega
  | _ => rfl

theorem graft_of_tight {op : Operator} {f g : Formula α} (h : op.precedence.rank < g.tightness) :
    f.graft op g = binary op .nowhere f g := by
  cases g with
  | binary op' s l r =>
      have apart : op'.precedence ≠ op.precedence := by
        intro same
        rw [tightness, same] at h
        omega
      rw [graft, if_neg apart]
  | _ => rfl

theorem graft_tightness (op : Operator) (f g : Formula α) :
    (f.graft op g).tightness = op.precedence.rank := by
  cases g with
  | binary op' s l r =>
      by_cases same : op'.precedence = op.precedence
      · rw [graft, if_pos same, tightness, same]
      · rw [graft, if_neg same, tightness]
  | _ => rfl

theorem graft_startsMinus (op : Operator) (f g : Formula α) :
    (f.graft op g).startsMinus = f.startsMinus := by
  induction g with
  | binary op' s l r ihl _ =>
      by_cases same : op'.precedence = op.precedence
      · rw [graft, if_pos same, startsMinus, ihl]
      · rw [graft, if_neg same, startsMinus]
  | _ => rfl

theorem associativity_of_precedence {op op' : Operator} (h : op'.precedence = op.precedence) :
    op'.associativity = op.associativity := by
  revert h
  cases op <;> cases op' <;> decide

/-- Operators nest to the left in a graft. -/
theorem graft_wellNested {op : Operator} (hop : op.associativity = .left) {f g : Formula α}
    (hf : f.WellNested) (hft : op.precedence.rank ≤ f.tightness) (hg : g.WellNested)
    (hgt : op.precedence.rank ≤ g.tightness) (hminus : g.startsMinus = false) :
    (f.graft op g).WellNested := by
  have direct (h : op.precedence.rank < g.tightness) : (f.graft op g).WellNested := by
    rw [graft_of_tight h]
    refine ⟨hf, hg, ?_⟩
    rw [hop]
    exact ⟨hft, h⟩
  induction g with
  | binary op' s l r ihl _ =>
      by_cases same : op'.precedence = op.precedence
      · obtain ⟨hl, hr, hside⟩ := hg
        have left := associativity_of_precedence same
        rw [left, hop, same] at hside
        rw [graft, if_pos same]
        refine ⟨ihl hl hside.1 hminus fun h => ?_, hr, ?_⟩
        · rw [graft_of_tight h]
          refine ⟨hf, hl, ?_⟩
          rw [hop]
          exact ⟨hft, h⟩
        · rw [left, hop, same]
          exact ⟨Nat.le_of_eq (graft_tightness op f l).symm, hside.2⟩
      · refine direct (Nat.lt_of_le_of_ne hgt fun h => same ?_)
        rw [tightness] at h
        revert h
        cases op <;> cases op' <;> decide
  | minus s g => cases hminus
  | empty s => exact hg.elim
  | _ => exact direct (Nat.lt_succ_of_lt (Operator.rank_of_left hop))

theorem glue_of_isMinus {op : Operator} (hop : op.isProduct = true) (s : Span) (f g : Formula α) :
    (minus s f).glue op g = minus s (f.graft op g) := by
  rw [glue, if_pos hop]

theorem glue_of_not_isProduct {op : Operator} (hop : ¬op.isProduct = true) (f g : Formula α) :
    f.glue op g = f.graft op g := by
  cases f with
  | minus s f => rw [glue, if_neg hop]
  | _ => rfl

theorem glue_of_not_isMinus {op : Operator} {f g : Formula α} (h : f.isMinus = false) :
    f.glue op g = f.graft op g := by
  cases f with
  | minus s f => cases h
  | _ => rfl

/-- The factors of a product are either tight enough or, first of all, a minus. -/
theorem glue_wellNested {op : Operator} (hop : op.isProduct = true) {f g : Formula α}
    (hf : f.WellNested) (hft : f.isMinus = true ∨ Precedence.factor.rank ≤ f.tightness)
    (hg : g.WellNested) (hgt : Precedence.factor.rank ≤ g.tightness) :
    (f.glue op g).WellNested := by
  obtain ⟨hrank, hassoc⟩ := Operator.rank_of_isProduct hop
  have hminus := startsMinus_of_tight hg hgt
  have grafted {f : Formula α} (hf : f.WellNested) (h : Precedence.factor.rank ≤ f.tightness) :
      (f.graft op g).WellNested := by
    refine graft_wellNested hassoc hf ?_ hg ?_ hminus
    · rw [hrank]
      exact h
    · rw [hrank]
      exact hgt
  cases hf' : f.isMinus with
  | true =>
      cases f with
      | minus s f =>
          rw [glue_of_isMinus hop]
          refine ⟨grafted hf.1 hf.2, ?_⟩
          rw [graft_tightness, hrank]
          exact Nat.le_refl _
      | _ => cases hf'
  | false =>
      rw [glue_of_not_isMinus hf']
      refine grafted hf (hft.resolve_left ?_)
      rw [hf']
      decide

theorem glue_tight {op : Operator} (hop : op.isProduct = true) (f g : Formula α) :
    (f.glue op g).isMinus = true ∨ Precedence.factor.rank ≤ (f.glue op g).tightness := by
  cases hf : f.isMinus with
  | true =>
      cases f with
      | minus s f =>
          rw [glue_of_isMinus hop]
          exact .inl rfl
      | _ => cases hf
  | false =>
      rw [glue_of_not_isMinus hf, graft_tightness, (Operator.rank_of_isProduct hop).1]
      exact .inr (Nat.le_refl _)

theorem glue_startsMinus {op : Operator} (f g : Formula α) :
    (f.glue op g).startsMinus = f.startsMinus := by
  cases f with
  | minus s f =>
      rw [glue]
      split
      · rfl
      · exact graft_startsMinus _ _ _
  | _ => exact graft_startsMinus _ _ _

theorem plus_of_not_isMinus {f g : Formula α} (h : g.isMinus = false) :
    f.plus g = f.graft .add g := by
  cases g with
  | minus s g => cases h
  | _ => rfl

theorem plus_wellNested {f g : Formula α} (hf : f.WellNested) (hg : g.WellNested)
    (h : g.isMinus = true ∨ g.startsMinus = false) : (f.plus g).WellNested := by
  cases hg' : g.isMinus with
  | true =>
      cases g with
      | minus s g => exact ⟨hf, hg.1, f.term_le_tightness, hg.2⟩
      | _ => cases hg'
  | false =>
      rw [plus_of_not_isMinus hg']
      refine graft_wellNested rfl hf f.term_le_tightness hg g.term_le_tightness (h.resolve_left ?_)
      rw [hg']
      decide

theorem plus_startsMinus (f g : Formula α) : (f.plus g).startsMinus = f.startsMinus := by
  cases g with
  | minus s g => rfl
  | _ => exact graft_startsMinus _ _ _

theorem enclosed_wellNested (needed : Bool) {f : Formula α} (hf : f.WellNested) :
    (f.enclosed needed).WellNested := by
  cases needed <;> exact hf

/-- Parentheses make an operand of a formula that is not tight enough. -/
theorem enclosed_tight {needed : Bool} {f : Formula α} {n : Nat} (hn : n ≤ Precedence.power.rank + 1)
    (h : needed = false → n ≤ f.tightness) : n ≤ (f.enclosed needed).tightness := by
  cases needed with
  | false => exact h rfl
  | true => exact hn

/-- The formula of an operation whose operands are spelled. -/
def combine (op : Operator) (f g : Formula α) : Formula α :=
  if op = .add then f.plus g else f.glue op g

theorem combine_startsMinus (op : Operator) (f g : Formula α) :
    (f.combine op g).startsMinus = f.startsMinus := by
  rw [combine]
  split
  · exact plus_startsMinus f g
  · exact glue_startsMinus f g

variable [Scalar α]

theorem graft_yields {op : Operator} {f g : Formula α} {ts us : List TokenTree} (hf : f.Yields ts)
    (hg : g.Yields us) : (f.graft op g).Yields (ts ++ .char .nowhere op.toChar :: us) := by
  induction g generalizing us with
  | binary op' s l r ihl _ =>
      by_cases same : op'.precedence = op.precedence
      · obtain ⟨ps, qs, hp, hq, rfl⟩ := hg
        rw [graft, if_pos same]
        exact ⟨_, qs, ihl hp, hq, by rw [List.append_assoc, List.cons_append]⟩
      · rw [graft, if_neg same]
        exact ⟨ts, us, hf, hg, rfl⟩
  | _ => exact ⟨ts, us, hf, hg, rfl⟩

theorem glue_yields {op : Operator} {f g : Formula α} {ts us : List TokenTree} (hf : f.Yields ts)
    (hg : g.Yields us) : (f.glue op g).Yields (ts ++ .char .nowhere op.toChar :: us) := by
  cases f with
  | minus s f =>
      obtain ⟨ps, hp, rfl⟩ := id hf
      rw [glue]
      split
      · exact ⟨_, graft_yields hp hg, rfl⟩
      · exact graft_yields hf hg
  | _ => exact graft_yields hf hg

theorem enclosed_yields {needed : Bool} {f : Formula α} {ts : List TokenTree} (hf : f.Yields ts) :
    (f.enclosed needed).Yields (if needed then [.group .nowhere ts] else ts) := by
  cases needed with
  | false => exact hf
  | true => exact ⟨ts, hf, rfl⟩

theorem combine_yields {op : Operator} {f g : Formula α} {ts us : List TokenTree}
    (h : op = .add → g.isMinus = false) (hf : f.Yields ts) (hg : g.Yields us) :
    (f.combine op g).Yields (ts ++ .char .nowhere op.toChar :: us) := by
  by_cases hop : op = .add
  · subst hop
    rw [combine, if_pos rfl, plus_of_not_isMinus (h rfl)]
    exact graft_yields hf hg
  · rw [combine, if_neg hop]
    exact glue_yields hf hg

/-- A minus on the right side of a sum takes the place of the operator. -/
theorem plus_yields {f g : Formula α} {ts us : List TokenTree} (h : g.isMinus = true)
    (hf : f.Yields ts) (hg : g.Yields us) : (f.plus g).Yields (ts ++ us) := by
  cases g with
  | minus s g =>
      obtain ⟨ps, hp, rfl⟩ := hg
      exact ⟨ts, ps, hf, hp, rfl⟩
  | _ => cases h

end Formula

namespace Term

variable {α : Type}

theorem isSum_of_isBinary {ops : List Operator} (hadd : ops.contains .add = true)
    (hsub : ops.contains .sub = true) {t : Term α} (h : t.isBinary ops = false) :
    t.isSum = false := by
  cases t with
  | bin op l r =>
      cases op with
      | add =>
          rw [isBinary, hadd] at h
          cases h
      | sub =>
          rw [isBinary, hsub] at h
          cases h
      | _ => rfl
  | _ => rfl

theorem isBinary_of_isSum {t : Term α} (h : t.isSum = true) {ops : List Operator}
    (hadd : ops.contains .add = true) (hsub : ops.contains .sub = true) : t.isBinary ops = true := by
  cases t with
  | bin op l r =>
      cases op with
      | add => exact hadd
      | sub => exact hsub
      | mul | div | mod | pow => cases h
  | _ => cases h

variable [Scalar α]

/-! ## Terms that can be read again -/

/-- Whether the term is written with finite numbers and with names that the registry takes for
variables. -/
def Legible : Term α → Prop
  | empty => False
  | num n => Scalar.isFinite n = true
  | const _ => True
  | var name index =>
    Token.IsLetters name.toList ∧ Vocabulary.registry.isKeyword name = false ∧
      Vocabulary.registry.isConstant name = false ∧ ∀ ds ∈ index, Token.IsDigits ds.toList
  | call _ t | inv _ t => t.Legible
  | bin _ l r => l.Legible ∧ r.Legible

/-- Whether the left operand of an operator is written in parentheses. -/
def leftEnclosed (op : Operator) (l : Term α) : Bool :=
  match op with
  | .add | .sub => false
  | .mul | .div => l.isSum || l.isNegation
  | .mod => l.isSum || l.isNegation || l.leadsMinus
  | .pow => l.isOperation || l.leadsMinus

/-- Whether the right operand of an operator is written in parentheses. -/
def rightEnclosed (op : Operator) (r : Term α) : Bool :=
  match op with
  | .add => !r.bringsMinus && r.leadsMinus
  | .sub => r.isSum || r.leadsMinus
  | .mul => r.isBinary [.add, .sub, .mod] || r.leadsMinus
  | .div | .mod => r.isBinary [.add, .sub, .mul, .div, .mod] || r.isInverse || r.leadsMinus
  | .pow => r.isOperation || r.leadsMinus

/-- The formula that the text of the term is read as, without places. -/
def formula : Term α → Formula α
  | empty => .empty .nowhere
  | num n =>
    if Scalar.isZero n then .number .nowhere (Scalar.ofNat 0)
    else if Scalar.isNegative n then .minus .nowhere (.number .nowhere (-n))
    else .number .nowhere n
  | const c => .const .nowhere c.name
  | var name index => .var .nowhere name index
  | call k t => .call k.name .nowhere .nowhere t.formula
  | inv .neg t => .minus .nowhere (t.formula.enclosed (t.isSum || t.leadsMinus))
  | inv .recip t =>
    .binary .div .nowhere (.number .nowhere (Scalar.ofNat 1))
      (t.formula.enclosed (t.isOperation || t.leadsMinus))
  | bin op l r =>
    (l.formula.enclosed (l.leftEnclosed op)).combine op (r.formula.enclosed (r.rightEnclosed op))

theorem text_bin {op : Operator} {l r : Term α} (h : op = .add → r.bringsMinus = false) :
    (bin op l r).text = parenthesized (l.leftEnclosed op) l.text ++ op.symbol ++
      parenthesized (r.rightEnclosed op) r.text := by
  cases op with
  | add =>
      rw [text, h rfl]
      simp only [leftEnclosed, rightEnclosed, h rfl, Bool.not_false, Bool.true_and]
      exact (String.append_assoc ..).symm
  | sub => rfl
  | mul => rfl
  | div => simp [text, leftEnclosed, rightEnclosed]
  | mod => rfl
  | pow => rfl

theorem text_add {l r : Term α} (h : r.bringsMinus = true) :
    (bin .add l r).text = l.text ++ r.text := by
  rw [text, if_pos h]

/-- What the formula of a term has in common with the term. -/
structure Fits (f : Formula α) (t : Term α) : Prop where
  wellNested : f.WellNested
  startsMinus : f.startsMinus = t.leadsMinus
  isMinus : t.bringsMinus = true → f.isMinus = true
  factors : t.isSum = false → f.isMinus = true ∨ Precedence.factor.rank ≤ f.tightness
  powers : t.isBinary [.add, .sub, .mul, .div, .mod] = false → t.isInverse = false →
    t.leadsMinus = false → Precedence.power.rank ≤ f.tightness
  operands : t.isOperation = false → t.leadsMinus = false →
    Precedence.power.rank < f.tightness

namespace Fits

variable {f : Formula α} {t : Term α}

theorem tight (h : Fits f t) (hsum : t.isSum = false) (hminus : t.leadsMinus = false) :
    Precedence.factor.rank ≤ f.tightness := by
  refine (h.factors hsum).resolve_left fun hf => ?_
  have starts := h.startsMinus
  rw [hminus] at starts
  cases f with
  | minus s f => cases starts
  | _ => cases hf

theorem not_isMinus (h : Fits f t) (hminus : t.leadsMinus = false) : f.isMinus = false := by
  have starts := h.startsMinus
  rw [hminus] at starts
  cases f with
  | minus s f => cases starts
  | _ => rfl

end Fits

theorem isSum_of_leftEnclosed {op : Operator} (hop : op.isProduct = true) {l : Term α}
    (h : l.leftEnclosed op = false) : l.isSum = false := by
  cases op with
  | mul | div | mod => simp_all [leftEnclosed]
  | add | sub | pow => cases hop

/-- The left operand of a product is tight enough. -/
theorem leftEnclosed_factors {op : Operator} (hop : op.isProduct = true) {l : Term α} {f : Formula α}
    (h : Fits f l) : (f.enclosed (l.leftEnclosed op)).isMinus = true ∨
      Precedence.factor.rank ≤ (f.enclosed (l.leftEnclosed op)).tightness := by
  cases hl : l.leftEnclosed op with
  | true =>
      right
      simp [Formula.enclosed, Formula.tightness, Precedence.rank]
  | false => exact h.factors (isSum_of_leftEnclosed hop hl)

theorem startsMinus_enclosed {needed : Bool} {f : Formula α} {t : Term α} (h : Fits f t)
    (hminus : needed = false → t.leadsMinus = false) : (f.enclosed needed).startsMinus = false := by
  cases needed with
  | true => rfl
  | false => exact h.startsMinus.trans (hminus rfl)

/-- An operation starts with a minus iff its left operand does, outside parentheses. -/
theorem startsMinus_leftEnclosed (op : Operator) {l : Term α} (r : Term α) {f : Formula α}
    (h : Fits f l) :
    (f.enclosed (l.leftEnclosed op)).startsMinus = (bin op l r).leadsMinus := by
  have plain : (f.enclosed false).startsMinus = l.leadsMinus := h.startsMinus
  have inside : (f.enclosed true).startsMinus = false := rfl
  cases op with
  | add | sub => exact plain
  | mul | div =>
      rw [leftEnclosed, leadsMinus]
      cases l.isSum <;> cases l.isNegation <;> simp [plain, inside]
  | mod => exact startsMinus_enclosed h fun hl => by simp_all [leftEnclosed]
  | pow => exact startsMinus_enclosed h fun hl => by simp_all [leftEnclosed]

/-- The right operand of an operator is tight enough. -/
theorem rightEnclosed_tight {op : Operator} {r : Term α} {f : Formula α} (h : Fits f r)
    (hop : op ≠ .add) : op.precedence.rank < (f.enclosed (r.rightEnclosed op)).tightness ∨
      op = .mul ∧ Precedence.factor.rank ≤ (f.enclosed (r.rightEnclosed op)).tightness := by
  cases hr : r.rightEnclosed op with
  | true =>
      left
      cases op <;> simp [Formula.enclosed, Formula.tightness, Operator.precedence, Precedence.rank]
  | false =>
      cases op with
      | add => exact absurd rfl hop
      | sub =>
          left
          simp only [rightEnclosed, Bool.or_eq_false_iff] at hr
          exact h.tight hr.1 hr.2
      | mul =>
          right
          simp only [rightEnclosed, Bool.or_eq_false_iff] at hr
          exact ⟨rfl, h.tight (isSum_of_isBinary rfl rfl hr.1) hr.2⟩
      | div | mod =>
          left
          simp only [rightEnclosed, Bool.or_eq_false_iff] at hr
          exact h.powers hr.1.1 hr.1.2 hr.2
      | pow =>
          left
          simp only [rightEnclosed, Bool.or_eq_false_iff] at hr
          exact h.operands hr.1 hr.2

theorem leftEnclosed_operand {l : Term α} {f : Formula α} (h : Fits f l) :
    Precedence.power.rank < (f.enclosed (l.leftEnclosed .pow)).tightness := by
  refine Formula.enclosed_tight (n := Precedence.power.rank + 1) (Nat.le_refl _) fun hl => ?_
  simp only [leftEnclosed, Bool.or_eq_false_iff] at hl
  exact h.operands hl.1 hl.2

theorem rightEnclosed_add {r : Term α} {f : Formula α} (h : Fits f r) :
    (f.enclosed (r.rightEnclosed .add)).isMinus = r.bringsMinus ∧
      (r.bringsMinus = true ∨ (f.enclosed (r.rightEnclosed .add)).startsMinus = false) := by
  simp only [rightEnclosed]
  cases hbrings : r.bringsMinus with
  | true => exact ⟨h.isMinus hbrings, .inl rfl⟩
  | false =>
      cases hleads : r.leadsMinus with
      | true => exact ⟨rfl, .inr rfl⟩
      | false => exact ⟨h.not_isMinus hleads, .inr (h.startsMinus.trans hleads)⟩

theorem combine_fits {op : Operator} {l r : Term α} {f g : Formula α} (hl : Fits f l)
    (hr : Fits g r) : Fits ((f.enclosed (l.leftEnclosed op)).combine op
      (g.enclosed (r.rightEnclosed op))) (bin op l r) := by
  have leftNested := Formula.enclosed_wellNested (l.leftEnclosed op) hl.wellNested
  have rightNested := Formula.enclosed_wellNested (r.rightEnclosed op) hr.wellNested
  have starts := (Formula.combine_startsMinus op (f.enclosed (l.leftEnclosed op))
    (g.enclosed (r.rightEnclosed op))).trans (startsMinus_leftEnclosed op r hl)
  by_cases hadd : op = .add
  · subst hadd
    refine ⟨?_, starts, (nomatch ·), (nomatch ·), (nomatch ·), (nomatch ·)⟩
    obtain ⟨brings, plain⟩ := rightEnclosed_add hr
    rw [Formula.combine, if_pos rfl]
    refine Formula.plus_wellNested leftNested rightNested ?_
    rw [brings]
    exact plain
  · have right := rightEnclosed_tight hr hadd
    by_cases hproduct : op.isProduct = true
    · have left := leftEnclosed_factors hproduct hl
      have factors : Precedence.factor.rank ≤ (g.enclosed (r.rightEnclosed op)).tightness := by
        rcases right with h | h
        · rw [(Operator.rank_of_isProduct hproduct).1] at h
          exact Nat.le_of_lt h
        · exact h.2
      rw [Formula.combine, if_neg hadd] at starts ⊢
      refine ⟨Formula.glue_wellNested hproduct leftNested left rightNested factors, starts,
        (nomatch ·), fun _ => Formula.glue_tight hproduct _ _, fun h => ?_, (nomatch ·)⟩
      cases op with
      | mul | div | mod => cases h
      | add | sub | pow => cases hproduct
    · have tight := right.resolve_right fun h => hproduct (by rw [h.1]; rfl)
      rw [Formula.combine, if_neg hadd, Formula.glue_of_not_isProduct hproduct,
        Formula.graft_of_tight tight] at starts ⊢
      cases op with
      | add => exact absurd rfl hadd
      | sub =>
          exact ⟨⟨leftNested, rightNested, Formula.term_le_tightness _, tight⟩, starts,
            (nomatch ·), (nomatch ·), (nomatch ·), (nomatch ·)⟩
      | mul | div | mod => exact absurd rfl hproduct
      | pow =>
          refine ⟨⟨leftNested, rightNested, leftEnclosed_operand hl, Nat.le_of_lt tight⟩, starts,
            (nomatch ·), fun _ => .inr ?_, fun _ _ _ => Nat.le_refl _, (nomatch ·)⟩
          exact Nat.le_succ _

theorem leadsMinus_of_isNegation {t : Term α} (h : t.isNegation = true) : t.leadsMinus = true := by
  cases t with
  | inv i t => cases i <;> first | rfl | cases h
  | _ => cases h

theorem leadsMinus_of_bringsMinus {t : Term α} (h : t.bringsMinus = true) :
    t.leadsMinus = true := by
  cases t with
  | num n => exact h
  | inv i t => cases i <;> first | rfl | cases h
  | _ => cases h

theorem fits_of_operand {f : Formula α} {t : Term α} (hf : f.WellNested)
    (tight : Precedence.power.rank < f.tightness) (hminus : t.leadsMinus = false) : Fits f t := by
  have factors : Precedence.factor.rank ≤ f.tightness := Nat.le_of_succ_le (Nat.le_of_lt tight)
  refine ⟨hf, ?_, fun h => ?_, fun _ => .inr factors, fun _ _ _ => Nat.le_of_lt tight,
    fun _ _ => tight⟩
  · rw [Formula.startsMinus_of_tight hf factors, hminus]
  · rw [leadsMinus_of_bringsMinus h] at hminus
    cases hminus

/-- The formula of a term is well nested, and looks like the term from outside. -/
theorem formula_fits [Scalar.Legible α] {t : Term α} (ht : t.Legible) : Fits t.formula t := by
  induction t with
  | empty => exact ht.elim
  | num n =>
      cases hneg : Scalar.isNegative n with
      | true =>
          rw [formula, Scalar.Legible.not_isZero_of_isNegative hneg, hneg]
          exact ⟨⟨trivial, Nat.le_of_lt (Nat.lt_succ_of_lt (Nat.lt_succ_self _))⟩, hneg.symm,
            fun _ => rfl, fun _ => .inl rfl, fun _ _ h => absurd (hneg.symm.trans h) (by decide),
            fun _ h => absurd (hneg.symm.trans h) (by decide)⟩
      | false =>
          rw [formula, hneg]
          cases Scalar.isZero n <;> exact fits_of_operand trivial (Nat.lt_succ_self _) hneg
  | const c | var name index => exact fits_of_operand trivial (Nat.lt_succ_self _) rfl
  | call k t ih => exact fits_of_operand (ih ht).wellNested (Nat.lt_succ_self _) rfl
  | inv i t ih =>
      have inner := ih ht
      have nested (needed : Bool) := Formula.enclosed_wellNested needed inner.wellNested
      cases i with
      | neg =>
          refine ⟨⟨nested _, Formula.enclosed_tight (by decide) fun h => ?_⟩, rfl, fun _ => rfl,
            fun _ => .inl rfl, fun _ h => (nomatch h), (nomatch ·)⟩
          rw [Bool.or_eq_false_iff] at h
          exact inner.tight h.1 h.2
      | recip =>
          have tight : Precedence.power.rank + 1 ≤
              (t.formula.enclosed (t.isOperation || t.leadsMinus)).tightness := by
            refine Formula.enclosed_tight (Nat.le_refl _) fun h => ?_
            rw [Bool.or_eq_false_iff] at h
            exact inner.operands h.1 h.2
          exact ⟨⟨trivial, nested _, Nat.le_of_lt (Nat.lt_succ_of_lt (Nat.lt_succ_self _)),
            Nat.le_of_succ_le tight⟩, rfl, (nomatch ·), fun _ => .inr (Nat.le_refl _),
            fun _ h => (nomatch h), (nomatch ·)⟩
  | bin op l r ihl ihr => exact combine_fits (ihl ht.1) (ihr ht.2)

/-! ## The tokens of a term -/

open TokenTree

theorem written_parenthesized {needed : Bool} {s : String} {ts : List TokenTree}
    (h : Written .registry s.toList ts) :
    Written .registry (parenthesized needed s).toList
      (if needed then [.group .nowhere ts] else ts) := by
  cases needed with
  | false => exact h
  | true =>
      have text : ("(" ++ s ++ ")").toList = '(' :: s.toList ++ [')'] := by
        simp only [String.toList_append]
        rfl
      rw [parenthesized, if_pos rfl, if_pos rfl, text]
      exact h.paren

theorem toList_numberText_negative [Scalar.Legible α] {n : α} (hn : Scalar.isFinite n = true)
    (hneg : Scalar.isNegative n = true) :
    (numberText n).toList = '-' :: (Scalar.text (-n)).toList := by
  rw [numberText, Scalar.Legible.not_isZero_of_isNegative hneg, if_neg (by decide),
    Scalar.Legible.text_negative hn hneg, String.toList_append]
  rfl

theorem written_number [Scalar.Legible α] {v : Vocabulary} {n : α} (hn : Scalar.isFinite n = true)
    (hzero : Scalar.isZero n = false) (hneg : Scalar.isNegative n = false) :
    ∃ ts, Written v (Scalar.text n).toList ts ∧
      (Formula.number Span.nowhere n).Yields ts := by
  refine ⟨_, Written.number (Scalar.Legible.isNumeral_text hn hzero hneg), Scalar.text n, ?_, ?_⟩
  · rw [Scalar.Legible.literal_text hn hzero hneg]
  · rw [String.ofList_toList]

theorem written_num [Scalar.Legible α] {n : α} (hn : Scalar.isFinite n = true) :
    ∃ ts, Written .registry (numberText n).toList ts ∧ (num n).formula.Yields ts := by
  cases hzero : Scalar.isZero n with
  | true =>
      rw [numberText, formula, hzero, if_pos rfl, if_pos rfl]
      refine ⟨_, Written.number (w := "0".toList) (.inl (by decide)), "0", ?_, ?_⟩
      · rw [Scalar.Legible.literal_zero]
      · rw [String.ofList_toList]
  | false =>
      cases hneg : Scalar.isNegative n with
      | true =>
          obtain ⟨ts, written, yields⟩ := written_number (Scalar.Legible.isFinite_neg hn)
            (Scalar.Legible.not_isZero_neg hneg) (Scalar.Legible.not_isNegative_neg hneg)
          rw [toList_numberText_negative hn hneg, formula, hzero, hneg]
          exact ⟨_, written.operator .sub, ts, yields, rfl⟩
      | false =>
          rw [numberText, formula, hzero, hneg]
          exact written_number hn hzero hneg

theorem written_const (c : Constant) :
    Written .registry c.name.toList [.const .nowhere c.name] := by
  have h := Written.const (v := .registry) (w := c.name.toList)
  rw [String.ofList_toList] at h
  cases c <;> exact h (by decide) (by decide) (by decide)

theorem written_keyword (k : Keyword) :
    Written .registry k.name.toList [.keyword .nowhere k.name] := by
  have h := Written.keyword (v := .registry) (w := k.name.toList)
  rw [String.ofList_toList] at h
  cases k <;> exact h (by decide) (by decide)

theorem written_var {name : String} {index : Option String}
    (h : (var (α := α) name index).Legible) :
    Written .registry (name ++ index.getD "").toList [.var .nowhere name index] := by
  obtain ⟨letters, hkeyword, hconstant, digits⟩ := h
  exact Written.indexed letters hkeyword hconstant digits

theorem stops_of_bringsMinus [Scalar.Legible α] {t : Term α} (ht : t.Legible)
    (h : t.bringsMinus = true) : Token.Stops t.text.toList := by
  have minus : ∃ s, t.text.toList = '-' :: s := by
    cases t with
    | num n => exact ⟨_, toList_numberText_negative ht h⟩
    | inv i t =>
        cases i with
        | neg => exact ⟨_, by rw [text, String.toList_append]; rfl⟩
        | recip => cases h
    | _ => cases h
  obtain ⟨s, hs⟩ := minus
  rw [hs]
  exact Written.stops_operator .sub s

/-- The text of a term is read as the tokens of its formula. -/
theorem spelled [Scalar.Legible α] {t : Term α} (ht : t.Legible) :
    ∃ ts, Written .registry t.text.toList ts ∧ t.formula.Yields ts := by
  induction t with
  | empty => exact ht.elim
  | num n => exact written_num ht
  | const c => exact ⟨_, written_const c, rfl⟩
  | var name index => exact ⟨_, written_var ht, rfl⟩
  | call k t ih =>
      obtain ⟨ts, written, yields⟩ := ih ht
      have whole := (written_keyword k).append written.paren (Written.stops_paren _)
      refine ⟨_, ?_, ts, yields, rfl⟩
      have text : (call k t).text.toList = k.name.toList ++ ('(' :: t.text.toList ++ [')']) := by
        simp only [text, String.toList_append]
        rw [List.append_assoc, List.append_assoc]
        rfl
      rw [text]
      exact whole
  | inv i t ih =>
      obtain ⟨ts, written, yields⟩ := ih ht
      cases i with
      | neg =>
          have text : (inv .neg t).text.toList =
              '-' :: (parenthesized (t.isSum || t.leadsMinus) t.text).toList := by
            rw [text, String.toList_append]
            rfl
          rw [text]
          exact ⟨_, (written_parenthesized written).operator .sub, _,
            Formula.enclosed_yields yields, rfl⟩
      | recip =>
          have text : (inv .recip t).text.toList = "1".toList ++ ' ' :: '/' :: ' ' ::
              (parenthesized (t.isOperation || t.leadsMinus) t.text).toList := by
            rw [text, String.toList_append]
            rfl
          obtain ⟨us, one, yieldsOne⟩ := written_number (α := α) Scalar.Legible.isFinite_one
            Scalar.Legible.not_isZero_one Scalar.Legible.not_isNegative_one
          rw [Scalar.Legible.text_one] at one
          rw [text]
          exact ⟨_, one.spaced .div (written_parenthesized written), us, _, yieldsOne,
            Formula.enclosed_yields yields, rfl⟩
  | bin op l r ihl ihr =>
      obtain ⟨ts, left, leftYields⟩ := ihl ht.1
      obtain ⟨us, right, rightYields⟩ := ihr ht.2
      have fits := formula_fits ht.2
      by_cases brings : op = .add ∧ r.bringsMinus = true
      · obtain ⟨rfl, hr⟩ := brings
        rw [text_add hr, String.toList_append]
        refine ⟨_, left.append right (stops_of_bringsMinus ht.2 hr), ?_⟩
        have plain : r.rightEnclosed .add = false := by rw [rightEnclosed, hr]; rfl
        rw [formula, plain]
        exact Formula.plus_yields (fits.isMinus hr) leftYields rightYields
      · have hr (h : op = .add) : r.bringsMinus = false := by
          cases hr : r.bringsMinus with
          | false => rfl
          | true => exact absurd ⟨h, hr⟩ brings
        have text : (bin op l r).text.toList =
            (parenthesized (l.leftEnclosed op) l.text).toList ++
              op.toChar :: (parenthesized (r.rightEnclosed op) r.text).toList := by
          rw [text_bin hr]
          simp only [String.toList_append, List.append_assoc, Operator.symbol, Char.toString,
            String.toList_singleton, List.singleton_append]
        rw [text]
        refine ⟨_, (written_parenthesized left).binary op (written_parenthesized right), ?_⟩
        refine Formula.combine_yields (fun h => ?_) (Formula.enclosed_yields leftYields)
          (Formula.enclosed_yields rightYields)
        subst h
        rw [(rightEnclosed_add fits).1, hr rfl]

end Term

end AlgebraicTerms
