import AlgebraicTerms.Proofs.Formula.Grammar

/-!
# Levels and formulas

A reader takes a level apart into operands and joins them again.  `Formula.level` is the level that a
well nested formula is joined from, and joining loses nothing: `join_level` gives the formula back,
and `join_wellNested` and `join_yields` say that every level of operands joins to a well nested
formula with the same tokens.
-/

namespace AlgebraicTerms

namespace Formula

variable {α : Type}

/-- What follows the first operand of a level. -/
abbrev Tail (α : Type) := List (Operator × Span × Formula α)

/-- The level that a formula is joined from. -/
def level : Formula α → Level α
  | minus s f => { f.level with minus := some s }
  | binary op s l r =>
    { l.level with rest := l.level.rest ++ (op, s, r.level.first) :: r.level.rest }
  | f => ⟨none, f, []⟩

/-- A formula whose operators are all inside parentheses. -/
def IsOperand (f : Formula α) : Prop := f.WellNested ∧ Precedence.power.rank < f.tightness

theorem level_of_isOperand {f : Formula α} (h : f.IsOperand) : f.level = ⟨none, f, []⟩ := by
  cases f with
  | minus s f => exact absurd h.2 (by simp [tightness, Precedence.rank])
  | binary op s l r => exact absurd h.2 (by cases op <;>
      simp [tightness, Operator.precedence, Precedence.rank])
  | _ => rfl

/-- A formula that is tighter than a sum has no minus in front. -/
theorem level_minus {f : Formula α} (hf : f.WellNested)
    (h : Precedence.factor.rank ≤ f.tightness) : f.level.minus = none := by
  induction f with
  | minus s f => exact absurd h (by simp [tightness, Precedence.rank])
  | binary op s l r ihl _ =>
      obtain ⟨hl, _, hside⟩ := hf
      have left : Precedence.factor.rank ≤ l.tightness := by
        cases op <;> simp only [tightness, Operator.precedence, Operator.associativity,
          Precedence.rank] at h hside ⊢ <;> omega
      exact ihl hl left
  | _ => rfl

/-- The operand on the right of an operator brings no minus of its own. -/
theorem level_minus_right {op : Operator} {s : Span} {l r : Formula α}
    (h : (binary op s l r).WellNested) : r.level.minus = none := by
  obtain ⟨_, hr, hside⟩ := h
  refine level_minus hr ?_
  cases op <;> simp only [Operator.precedence, Operator.associativity, Precedence.rank] at hside ⊢ <;>
    omega

/-- All that follows the first operand of a well nested level is an operand, too. -/
theorem level_isOperand {f : Formula α} (hf : f.WellNested) :
    f.level.first.IsOperand ∧ ∀ x ∈ f.level.rest, x.2.2.IsOperand := by
  induction f with
  | empty s => exact hf.elim
  | minus s f ih => exact ih hf.1
  | binary op s l r ihl ihr =>
      obtain ⟨hl, hr, _⟩ := hf
      refine ⟨(ihl hl).1, fun x hx => ?_⟩
      rcases List.mem_append.1 hx with hx | hx
      · exact (ihl hl).2 x hx
      · rcases List.mem_cons.1 hx with rfl | hx
        · exact (ihr hr).1
        · exact (ihr hr).2 x hx
  | _ => exact ⟨⟨hf, Nat.lt_succ_self _⟩, fun x hx => absurd hx List.not_mem_nil⟩

/-! ## Joining a level that was taken apart -/

/-- Nothing that follows is a power of what comes before. -/
def NoPower (xs : Tail α) : Prop := ∀ x ∈ xs.head?, x.1 ≠ .pow

/-- Nothing that follows belongs to the same term as what comes before. -/
def NewTerm (xs : Tail α) : Prop := ∀ x ∈ xs.head?, x.1.isSum = true

theorem NewTerm.noPower {xs : Tail α} (h : NewTerm xs) : NoPower xs := by
  intro x hx hpow
  have := h x hx
  rw [hpow] at this
  cases this

theorem joinPowers_cons (f g : Formula α) (op : Operator) (s : Span) (xs : Tail α) :
    joinPowers f ((op, s, g) :: xs) =
      if op = .pow then (.binary op s f (joinPowers g xs).1, (joinPowers g xs).2)
      else (f, (op, s, (joinPowers g xs).1) :: (joinPowers g xs).2) := rfl

theorem joinProducts_cons (f g : Formula α) (op : Operator) (s : Span) (xs : Tail α) :
    joinProducts f ((op, s, g) :: xs) =
      if op.isProduct = true then joinProducts (.binary op s f g) xs
      else (f, (op, s, (joinProducts g xs).1) :: (joinProducts g xs).2) := rfl

/-- Where no power follows, applying powers leaves the formula before as it is, and what becomes of
the rest does not depend on it. -/
theorem joinPowers_of_noPower {xs : Tail α} (h : NoPower xs) :
    ∃ ys, ∀ f : Formula α, joinPowers f xs = (f, ys) := by
  cases xs with
  | nil => exact ⟨[], fun _ => rfl⟩
  | cons x xs =>
      obtain ⟨op, s, g⟩ := x
      have hop : op ≠ .pow := h (op, s, g) rfl
      exact ⟨_, fun f => by rw [joinPowers_cons, if_neg hop]⟩

/-- The powers of a power come back together. -/
theorem joinPowers_level {f : Formula α} (hf : f.WellNested)
    (ht : Precedence.power.rank ≤ f.tightness) {xs : Tail α} (hx : NoPower xs) :
    joinPowers f.level.first (f.level.rest ++ xs) = joinPowers f xs := by
  induction f generalizing xs with
  | binary op s l r _ ihr =>
      have hop : op = .pow := by
        cases op <;> simp [tightness, Operator.precedence, Precedence.rank] at ht ⊢
      subst hop
      obtain ⟨hl, hr, hlt, hrt⟩ := hf
      obtain ⟨ys, hys⟩ := joinPowers_of_noPower hx
      have left : l.level = ⟨none, l, []⟩ := level_of_isOperand ⟨hl, hlt⟩
      have right := ihr hr hrt hx
      rw [level, left]
      simp only [List.nil_append, List.cons_append]
      rw [joinPowers_cons, if_pos rfl, right, hys, hys]
  | minus s f => exact absurd ht (by simp [tightness, Precedence.rank])
  | _ => rfl

/-- Applies the powers and products of a level. -/
def joinTerm (f : Formula α) (xs : Tail α) : Formula α × Tail α :=
  joinProducts (joinPowers f xs).1 (joinPowers f xs).2

theorem joinTerm_of_newTerm {xs : Tail α} (h : NewTerm xs) :
    ∃ ys, ∀ f : Formula α, joinTerm f xs = (f, ys) := by
  cases xs with
  | nil => exact ⟨[], fun _ => rfl⟩
  | cons x xs =>
      obtain ⟨op, s, g⟩ := x
      have hsum : op.isSum = true := h (op, s, g) rfl
      have hpow := Operator.ne_pow_of_isSum hsum
      have hproduct := Operator.not_isProduct_of_isSum hsum
      refine ⟨(op, s, (joinTerm g xs).1) :: (joinTerm g xs).2, fun f => ?_⟩
      rw [joinTerm, joinPowers_cons, if_neg hpow, joinProducts_cons, if_neg hproduct]
      rfl

/-- The factors of a term come back together. -/
theorem joinTerm_level {f : Formula α} (hf : f.WellNested)
    (ht : Precedence.factor.rank ≤ f.tightness) {xs : Tail α} (hx : NoPower xs) :
    joinTerm f.level.first (f.level.rest ++ xs) = joinTerm f xs := by
  induction f generalizing xs with
  | minus s f => exact absurd ht (by simp [tightness, Precedence.rank])
  | binary op s l r ihl _ =>
      by_cases hpow : op = .pow
      · subst hpow
        unfold joinTerm
        rw [joinPowers_level hf (Nat.le_refl _) hx]
      · obtain ⟨hl, hr, hside⟩ := hf
        have hproduct : op.isProduct = true := by
          cases op <;> simp [tightness, Operator.precedence, Precedence.rank] at ht hpow <;> rfl
        obtain ⟨hrank, hassoc⟩ := Operator.rank_of_isProduct hproduct
        rw [hassoc, hrank] at hside
        obtain ⟨ys, hys⟩ := joinPowers_of_noPower hx
        have tail : NoPower ((op, s, r.level.first) :: (r.level.rest ++ xs)) := by
          rintro x ⟨⟩
          exact hpow
        have left := ihl hl hside.1 tail
        have right := joinPowers_level hr hside.2 hx
        rw [level]
        simp only [List.append_assoc, List.cons_append]
        rw [left]
        unfold joinTerm
        rw [joinPowers_cons, if_neg hpow, right, hys, hys, joinProducts_cons, if_pos hproduct]
  | _ => rfl

/-- Applies all operators of a level. -/
def joinFrom (minus : Option Span) (f : Formula α) (xs : Tail α) : Formula α :=
  joinSums (minus.elim (joinTerm f xs).1 fun s => .minus s (joinTerm f xs).1) (joinTerm f xs).2

theorem Level.join_eq (l : Level α) : l.join = joinFrom l.minus l.first l.rest := rfl

/-- The terms of a sum come back together. -/
theorem joinFrom_level {f : Formula α} (hf : f.WellNested) {xs : Tail α} (hx : NewTerm xs) :
    joinFrom f.level.minus f.level.first (f.level.rest ++ xs) = joinFrom none f xs := by
  induction f generalizing xs with
  | minus s f =>
      obtain ⟨ys, hys⟩ := joinTerm_of_newTerm hx
      have covered := joinTerm_level hf.1 hf.2 hx.noPower
      simp only [level, joinFrom, covered, hys, Option.elim]
  | binary op s l r ihl _ =>
      by_cases hsum : op.isSum = true
      · obtain ⟨hl, hr, hside⟩ := hf
        obtain ⟨hrank, hassoc⟩ := Operator.rank_of_isSum hsum
        rw [hassoc, hrank] at hside
        obtain ⟨ys, hys⟩ := joinTerm_of_newTerm hx
        have tail : NewTerm ((op, s, r.level.first) :: (r.level.rest ++ xs)) := by
          rintro x ⟨⟩
          exact hsum
        have left := ihl hl tail
        have right : joinTerm r.level.first (r.level.rest ++ xs) = (r, ys) := by
          rw [joinTerm_level hr hside.2 hx.noPower, hys]
        have hpow := Operator.ne_pow_of_isSum hsum
        have hproduct := Operator.not_isProduct_of_isSum hsum
        have step : joinTerm l ((op, s, r.level.first) :: (r.level.rest ++ xs)) =
            (l, (op, s, r) :: ys) := by
          rw [joinTerm, joinPowers_cons, if_neg hpow, joinProducts_cons, if_neg hproduct]
          exact congrArg (fun p : Formula α × Tail α => (l, (op, s, p.1) :: p.2)) right
        rw [level]
        simp only [List.append_assoc, List.cons_append]
        rw [left, joinFrom, step, joinFrom, hys]
        rfl
      · have ht : Precedence.factor.rank ≤ (binary op s l r).tightness := by
          cases op <;> first | exact absurd rfl hsum |
            simp [tightness, Operator.precedence, Precedence.rank]
        rw [level_minus hf ht, joinFrom, joinTerm_level hf ht hx.noPower, joinFrom]
  | _ => rfl

/-- A well nested formula is joined from its level. -/
theorem join_level {f : Formula α} (hf : f.WellNested) : f.level.join = f := by
  have nothing : NewTerm ([] : Tail α) := fun x hx => nomatch hx
  have h := joinFrom_level hf nothing
  rw [List.append_nil] at h
  exact h

/-! ## Joining a level of operands -/

/-- Whether all operands of the level are operands of the grammar. -/
def Level.OfOperands (l : Level α) : Prop :=
  l.first.IsOperand ∧ ∀ x ∈ l.rest, x.2.2.IsOperand

/-- The operators and operands of a tail whose formulas are taken apart. -/
def spread : Tail α → Tail α
  | [] => []
  | (op, s, f) :: xs => (op, s, f.level.first) :: (f.level.rest ++ spread xs)

/-- Whether every formula of the tail is well nested and binds as tightly as `rank` outside
parentheses, after an operator that `p` holds of. -/
def AllTight (rank : Nat) (p : Operator → Prop) (xs : Tail α) : Prop :=
  ∀ x ∈ xs, p x.1 ∧ x.2.2.WellNested ∧ rank ≤ x.2.2.tightness

theorem AllTight.cons {rank : Nat} {p : Operator → Prop} {op : Operator} {s : Span} {f : Formula α}
    {xs : Tail α} (hp : p op) (hf : f.WellNested) (ht : rank ≤ f.tightness)
    (h : AllTight rank p xs) : AllTight rank p ((op, s, f) :: xs) := by
  intro x hx
  rcases List.mem_cons.1 hx with rfl | hx
  · exact ⟨hp, hf, ht⟩
  · exact h x hx

theorem joinPowers_spec {f : Formula α} (hf : f.IsOperand) {xs : Tail α}
    (hx : ∀ x ∈ xs, x.2.2.IsOperand) :
    (joinPowers f xs).1.WellNested ∧ Precedence.power.rank ≤ (joinPowers f xs).1.tightness ∧
      AllTight Precedence.power.rank (· ≠ .pow) (joinPowers f xs).2 ∧
      (joinPowers f xs).1.level.first = f ∧
      (joinPowers f xs).1.level.rest ++ spread (joinPowers f xs).2 = xs := by
  induction xs generalizing f with
  | nil =>
      rw [joinPowers, level_of_isOperand hf]
      exact ⟨hf.1, Nat.le_of_lt hf.2, fun x hx => (nomatch hx), rfl, rfl⟩
  | cons x xs ih =>
      obtain ⟨op, s, g⟩ := x
      have hg : g.IsOperand := hx _ List.mem_cons_self
      obtain ⟨nested, tight, apart, first, rest⟩ :=
        ih hg fun y hy => hx y (List.mem_cons_of_mem _ hy)
      rw [joinPowers_cons]
      by_cases hop : op = .pow
      · subst hop
        rw [if_pos rfl]
        refine ⟨⟨hf.1, nested, hf.2, tight⟩, Nat.le_refl _, apart, ?_, ?_⟩
        · rw [level, level_of_isOperand hf]
        · rw [level, level_of_isOperand hf]
          simp only [List.nil_append, List.cons_append]
          rw [first, rest]
      · rw [if_neg hop, level_of_isOperand hf]
        refine ⟨hf.1, Nat.le_of_lt hf.2, apart.cons hop nested tight, rfl, ?_⟩
        rw [List.nil_append, spread, first, rest]

theorem joinProducts_spec {f : Formula α} (hf : f.WellNested)
    (ht : Precedence.factor.rank ≤ f.tightness) {xs : Tail α}
    (hx : AllTight Precedence.power.rank (· ≠ .pow) xs) :
    (joinProducts f xs).1.WellNested ∧ Precedence.factor.rank ≤ (joinProducts f xs).1.tightness ∧
      AllTight Precedence.factor.rank (·.isSum = true) (joinProducts f xs).2 ∧
      (joinProducts f xs).1.level.first = f.level.first ∧
      (joinProducts f xs).1.level.rest ++ spread (joinProducts f xs).2 =
        f.level.rest ++ spread xs := by
  induction xs generalizing f with
  | nil => exact ⟨hf, ht, fun x hx => (nomatch hx), rfl, rfl⟩
  | cons x xs ih =>
      obtain ⟨op, s, g⟩ := x
      obtain ⟨hop, hg, htg⟩ := hx _ List.mem_cons_self
      have others : AllTight Precedence.power.rank (· ≠ .pow) xs :=
        fun y hy => hx y (List.mem_cons_of_mem _ hy)
      rw [joinProducts_cons]
      by_cases hproduct : op.isProduct = true
      · obtain ⟨hrank, hassoc⟩ := Operator.rank_of_isProduct hproduct
        have nested : (binary op s f g).WellNested := by
          refine ⟨hf, hg, ?_⟩
          rw [hassoc, hrank]
          exact ⟨ht, htg⟩
        obtain ⟨hn, hr, hs, first, rest⟩ := ih nested (Nat.le_of_eq hrank.symm) others
        rw [if_pos hproduct]
        refine ⟨hn, hr, hs, first, rest.trans ?_⟩
        rw [level, spread, List.append_assoc, List.cons_append]
      · have hsum := Operator.isSum_of_ne_pow hop hproduct
        obtain ⟨hn, hr, hs, first, rest⟩ := ih hg (Nat.le_of_succ_le htg) others
        rw [if_neg hproduct]
        refine ⟨hf, ht, hs.cons hsum hn hr, rfl, ?_⟩
        rw [spread, spread, first, rest]

theorem joinSums_spec {f : Formula α} (hf : f.WellNested) {xs : Tail α}
    (hx : AllTight Precedence.factor.rank (·.isSum = true) xs) :
    (joinSums f xs).WellNested ∧
      (joinSums f xs).level = ⟨f.level.minus, f.level.first, f.level.rest ++ spread xs⟩ := by
  induction xs generalizing f with
  | nil => exact ⟨hf, by rw [spread, List.append_nil]; rfl⟩
  | cons x xs ih =>
      obtain ⟨op, s, g⟩ := x
      obtain ⟨hop, hg, htg⟩ := hx _ List.mem_cons_self
      obtain ⟨hrank, hassoc⟩ := Operator.rank_of_isSum hop
      have nested : (binary op s f g).WellNested := by
        refine ⟨hf, hg, ?_⟩
        rw [hassoc, hrank]
        exact ⟨f.term_le_tightness, htg⟩
      obtain ⟨hn, hl⟩ := ih nested fun y hy => hx y (List.mem_cons_of_mem _ hy)
      refine ⟨hn, hl.trans ?_⟩
      simp only [level, spread, List.append_assoc, List.cons_append]

theorem joinTerm_spec {f : Formula α} (hf : f.IsOperand) {xs : Tail α}
    (hx : ∀ x ∈ xs, x.2.2.IsOperand) :
    (joinTerm f xs).1.WellNested ∧ Precedence.factor.rank ≤ (joinTerm f xs).1.tightness ∧
      AllTight Precedence.factor.rank (·.isSum = true) (joinTerm f xs).2 ∧
      (joinTerm f xs).1.level.first = f ∧
      (joinTerm f xs).1.level.rest ++ spread (joinTerm f xs).2 = xs := by
  obtain ⟨powerNested, powerTight, powers, powerFirst, powerRest⟩ := joinPowers_spec hf hx
  obtain ⟨nested, tight, products, first, rest⟩ :=
    joinProducts_spec powerNested (Nat.le_of_succ_le powerTight) powers
  exact ⟨nested, tight, products, first.trans powerFirst, rest.trans powerRest⟩

/-- A level of operands is joined to a well nested formula, from which it can be taken again. -/
theorem Level.join_spec {l : Level α} (h : l.OfOperands) :
    l.join.WellNested ∧ l.join.level = l := by
  obtain ⟨minus, head, tail⟩ := l
  obtain ⟨nested, tight, products, first, rest⟩ := joinTerm_spec h.1 h.2
  simp only at first rest
  have bare := level_minus nested tight
  rw [Level.join_eq, joinFrom]
  cases minus with
  | none =>
      obtain ⟨hn, hl⟩ := joinSums_spec nested products
      refine ⟨hn, hl.trans ?_⟩
      rw [bare, first, rest]
  | some s =>
      have covered : (Formula.minus s (joinTerm head tail).1).WellNested := ⟨nested, tight⟩
      obtain ⟨hn, hl⟩ := joinSums_spec covered products
      refine ⟨hn, hl.trans ?_⟩
      simp only [level]
      rw [first, rest]

/-! ## The tokens of a level -/

variable [Scalar α]

/-- The tokens of a tail. -/
def TailYields : Tail α → List TokenTree → Prop
  | [], ts => ts = []
  | (op, s, f) :: xs, ts =>
    ∃ us vs, f.Yields us ∧ TailYields xs vs ∧ ts = .char s op.toChar :: (us ++ vs)

/-- The tokens of a level. -/
def Level.Yields (l : Level α) (ts : List TokenTree) : Prop :=
  ∃ us vs, l.first.Yields us ∧ TailYields l.rest vs ∧
    ts = l.minus.toList.map (TokenTree.char · '-') ++ (us ++ vs)

theorem tailYields_append {xs ys : Tail α} {ts : List TokenTree} :
    TailYields (xs ++ ys) ts ↔ ∃ us vs, TailYields xs us ∧ TailYields ys vs ∧ ts = us ++ vs := by
  induction xs generalizing ts with
  | nil =>
      refine ⟨fun h => ⟨[], ts, rfl, h, rfl⟩, ?_⟩
      rintro ⟨us, vs, rfl, hv, rfl⟩
      exact hv
  | cons x xs ih =>
      obtain ⟨op, s, f⟩ := x
      constructor
      · rintro ⟨us, vs, hf, htail, rfl⟩
        obtain ⟨ps, qs, hp, hq, rfl⟩ := ih.1 htail
        refine ⟨_, qs, ⟨us, ps, hf, hp, rfl⟩, hq, ?_⟩
        rw [List.cons_append, List.append_assoc]
      · rintro ⟨_, qs, ⟨us, ps, hf, hp, rfl⟩, hq, rfl⟩
        refine ⟨us, ps ++ qs, hf, ih.2 ⟨ps, qs, hp, hq, rfl⟩, ?_⟩
        rw [List.cons_append, List.append_assoc]

/-- A formula and its level have the same tokens. -/
theorem level_yields {f : Formula α} (hf : f.WellNested) {ts : List TokenTree} :
    f.level.Yields ts ↔ f.Yields ts := by
  induction f generalizing ts with
  | minus s f ih =>
      have bare := level_minus hf.1 hf.2
      have same (us : List TokenTree) : f.level.Yields us ↔ f.Yields us := ih hf.1
      constructor
      · rintro ⟨us, vs, hfirst, hrest, rfl⟩
        refine ⟨us ++ vs, (same _).1 ⟨us, vs, hfirst, hrest, ?_⟩, rfl⟩
        rw [bare]
        rfl
      · rintro ⟨us, hus, rfl⟩
        obtain ⟨ps, qs, hfirst, hrest, rfl⟩ := (same us).2 hus
        refine ⟨ps, qs, hfirst, hrest, ?_⟩
        rw [bare]
        rfl
  | binary op s l r ihl ihr =>
      have bare := level_minus_right hf
      obtain ⟨hl, hr, _⟩ := hf
      constructor
      · rintro ⟨us, vs, hfirst, hrest, rfl⟩
        obtain ⟨ps, qs, hp, hq, rfl⟩ := tailYields_append.1 hrest
        obtain ⟨ms, ns, hm, hn, rfl⟩ := hq
        refine ⟨_, ms ++ ns, (ihl hl).1 ⟨us, ps, hfirst, hp, rfl⟩,
          (ihr hr).1 ⟨ms, ns, hm, hn, ?_⟩, ?_⟩
        · rw [bare]
          rfl
        · simp only [level, List.append_assoc]
      · rintro ⟨us, vs, hus, hvs, rfl⟩
        obtain ⟨ps, qs, hfirst, hp, rfl⟩ := (ihl hl).2 hus
        obtain ⟨ms, ns, hm, hn, rfl⟩ := (ihr hr).2 hvs
        refine ⟨ps, _, hfirst, tailYields_append.2 ⟨qs, _, hp, ⟨ms, ns, hm, hn, rfl⟩, rfl⟩, ?_⟩
        rw [bare]
        simp only [level, List.append_assoc, Option.toList, List.map_nil, List.nil_append]
  | empty s => exact hf.elim
  | _ =>
      constructor
      · rintro ⟨us, _, hus, rfl, rfl⟩
        simpa only [level, Option.toList, List.map_nil, List.nil_append, List.append_nil] using hus
      · intro h
        exact ⟨ts, [], h, rfl, by simp only [level, Option.toList, List.map_nil, List.nil_append,
          List.append_nil]⟩

/-- Joining a level of operands keeps its tokens. -/
theorem Level.join_yields {l : Level α} (h : l.OfOperands) {ts : List TokenTree} :
    l.join.Yields ts ↔ l.Yields ts := by
  obtain ⟨nested, back⟩ := Level.join_spec h
  rw [← level_yields nested, back]

end Formula

end AlgebraicTerms
