import AlgebraicTerms.Formula.Reading

/-!
# The grammar of formulas

    expr    := ['-'] term (('+' | '-') term)*
    term    := power (('*' | '/' | '%') power)*
    power   := operand ['^' power]
    operand := number | variable | constant | keyword group | group

A group holds an expression.  `Derives` says which token trees belong to each part of the grammar,
without naming a tree for them.  The tree is pinned down on its own: `Formula.Yields` reads its
tokens off from left to right, and `Formula.WellNested` says which operator stands above which.  The
grammar derives exactly the token trees that some well nested formula yields (`derives_expr_iff`).
-/

namespace AlgebraicTerms

/-- The parts of the grammar, loosest first. -/
inductive Nonterminal where
  | expr
  | term
  | power
  | operand

/-- The token trees that a part of the grammar derives. -/
inductive Derives : Nonterminal → List TokenTree → Prop
  | number (s : Span) (lexeme : String) : Derives .operand [.number s lexeme]
  | var (s : Span) (name : String) (index : Option String) : Derives .operand [.var s name index]
  | const (s : Span) (name : String) : Derives .operand [.const s name]
  | call (s t : Span) (name : String) {items : List TokenTree} :
      Derives .expr items → Derives .operand [.keyword s name, .group t items]
  | group (s : Span) {items : List TokenTree} :
      Derives .expr items → Derives .operand [.group s items]
  | base {ts : List TokenTree} : Derives .operand ts → Derives .power ts
  | power (s : Span) {ts us : List TokenTree} :
      Derives .operand ts → Derives .power us →
        Derives .power (ts ++ .char s Operator.pow.toChar :: us)
  | factor {ts : List TokenTree} : Derives .power ts → Derives .term ts
  | product (s : Span) {op : Operator} {ts us : List TokenTree} :
      op.isProduct = true → Derives .term ts → Derives .power us →
        Derives .term (ts ++ .char s op.toChar :: us)
  | term {ts : List TokenTree} : Derives .term ts → Derives .expr ts
  | negated (s : Span) {ts : List TokenTree} :
      Derives .term ts → Derives .expr (.char s '-' :: ts)
  | sum (s : Span) {op : Operator} {ts us : List TokenTree} :
      op.isSum = true → Derives .expr ts → Derives .term us →
        Derives .expr (ts ++ .char s op.toChar :: us)

namespace Formula

variable {α : Type}

/-- How tightly the outermost operator outside parentheses binds.  A minus is as loose as a sum, and
an operand is tighter than every operator. -/
def tightness : Formula α → Nat
  | minus .. => Precedence.term.rank
  | binary op .. => op.precedence.rank
  | _ => Precedence.power.rank + 1

theorem term_le_tightness (f : Formula α) : Precedence.term.rank ≤ f.tightness := by
  cases f with
  | binary op _ _ _ => cases op <;> simp [tightness, Operator.precedence, Precedence.rank]
  | _ => simp [tightness, Precedence.rank]

/-- Whether every operator stands where its precedence and associativity put it.  Sums and products
nest to the left and powers to the right, a tighter operator is below a looser one unless parentheses
are between them, and a minus covers one whole term and is not on the right of any operator. -/
def WellNested : Formula α → Prop
  | empty _ => False
  | number .. | var .. | const .. => True
  | paren _ inner => inner.WellNested
  | call _ _ _ argument => argument.WellNested
  | minus _ operand => operand.WellNested ∧ negationPrecedence.rank ≤ operand.tightness
  | binary op _ l r =>
    l.WellNested ∧ r.WellNested ∧
      match op.associativity with
      | .left => op.precedence.rank ≤ l.tightness ∧ op.precedence.rank < r.tightness
      | .right => op.precedence.rank < l.tightness ∧ op.precedence.rank ≤ r.tightness

variable [Scalar α]

/-- The tokens of the formula from left to right, where a number has the value of its lexeme. -/
def Yields : Formula α → List TokenTree → Prop
  | empty _, ts => ts = []
  | number s n, ts => ∃ lexeme, n = Scalar.literal lexeme ∧ ts = [.number s lexeme]
  | var s name index, ts => ts = [.var s name index]
  | const s name, ts => ts = [.const s name]
  | paren s inner, ts => ∃ items, inner.Yields items ∧ ts = [.group s items]
  | call name s t argument, ts =>
    ∃ items, argument.Yields items ∧ ts = [.keyword s name, .group t items]
  | minus s operand, ts => ∃ us, operand.Yields us ∧ ts = .char s '-' :: us
  | binary op s l r, ts =>
    ∃ us vs, l.Yields us ∧ r.Yields vs ∧ ts = us ++ .char s op.toChar :: vs

end Formula

namespace Nonterminal

/-- How tightly at least the outermost operator of a part of the grammar binds. -/
def rank : Nonterminal → Nat
  | expr => Precedence.term.rank
  | term => Precedence.factor.rank
  | power => Precedence.power.rank
  | operand => Precedence.power.rank + 1

end Nonterminal

namespace Derives

/-- A part of the grammar is also part of every looser one. -/
theorem loosen {a b : Nonterminal} {ts : List TokenTree} (h : Derives a ts)
    (hab : b.rank ≤ a.rank) : Derives b ts := by
  cases a <;> cases b <;> simp only [Nonterminal.rank, Precedence.rank] at hab <;>
    first
      | exact h
      | exact h.base
      | exact h.base.factor
      | exact h.base.factor.term
      | exact h.factor
      | exact h.factor.term
      | exact h.term
      | omega

end Derives

namespace Operator

theorem ofChar?_eq_some_iff {c : Char} {op : Operator} : ofChar? c = some op ↔ c = op.toChar := by
  constructor
  · intro h
    unfold ofChar? at h
    split at h <;> cases h <;> rfl
  · rintro rfl
    exact ofChar?_toChar op

theorem toChar_inj {a b : Operator} (h : a.toChar = b.toChar) : a = b := by
  have := ofChar?_toChar a
  rw [h, ofChar?_toChar] at this
  exact (Option.some.inj this).symm

theorem rank_of_isSum {op : Operator} (h : op.isSum = true) :
    op.precedence.rank = Precedence.term.rank ∧ op.associativity = .left := by
  cases op <;> first | exact ⟨rfl, rfl⟩ | cases h

theorem ne_pow_of_isSum {op : Operator} (h : op.isSum = true) : op ≠ .pow := by
  rintro rfl
  cases h

theorem not_isProduct_of_isSum {op : Operator} (h : op.isSum = true) : ¬op.isProduct = true := by
  revert h
  cases op <;> decide

theorem isSum_of_ne_pow {op : Operator} (hpow : op ≠ .pow) (h : ¬op.isProduct = true) :
    op.isSum = true := by
  revert hpow h
  cases op <;> decide

theorem rank_of_left {op : Operator} (h : op.associativity = .left) :
    op.precedence.rank < Precedence.power.rank := by
  revert h
  cases op <;> decide

theorem rank_of_isProduct {op : Operator} (h : op.isProduct = true) :
    op.precedence.rank = Precedence.factor.rank ∧ op.associativity = .left := by
  cases op <;> first | exact ⟨rfl, rfl⟩ | cases h

end Operator

namespace TokenTree

theorem operator?_eq_some_iff {t : TokenTree} {op : Operator} :
    t.operator? = some op ↔ ∃ s, t = .char s op.toChar := by
  constructor
  · intro h
    cases t with
    | char s c =>
        obtain rfl := Operator.ofChar?_eq_some_iff.1 h
        exact ⟨s, rfl⟩
    | _ => cases h
  · rintro ⟨s, rfl⟩
    exact Operator.ofChar?_toChar op

end TokenTree

namespace Formula

variable {α : Type} [Scalar α]

theorem WellNested.yields_ne_nil {f : Formula α} (hf : f.WellNested) {ts : List TokenTree}
    (hy : f.Yields ts) : ts ≠ [] := by
  rintro rfl
  cases f with
  | empty s => exact hf
  | number s n =>
      obtain ⟨_, _, h⟩ := hy
      cases h
  | var s name index | const s name => cases hy
  | paren s f | call name s t f | minus s f =>
      obtain ⟨_, _, h⟩ := hy
      cases h
  | binary op s l r =>
      obtain ⟨us, vs, _, _, h⟩ := hy
      cases us <;> cases h

/-- Every derivation is one of a well nested formula. -/
theorem exists_of_derives {a : Nonterminal} {ts : List TokenTree} (h : Derives a ts) :
    ∃ f : Formula α, f.WellNested ∧ f.Yields ts ∧ a.rank ≤ f.tightness := by
  induction h with
  | number s lexeme =>
      exact ⟨.number s (Scalar.literal lexeme), trivial, ⟨lexeme, rfl, rfl⟩, Nat.le_refl _⟩
  | var s name index => exact ⟨.var s name index, trivial, rfl, Nat.le_refl _⟩
  | const s name => exact ⟨.const s name, trivial, rfl, Nat.le_refl _⟩
  | call s t name _ ih =>
      obtain ⟨f, hf, hy, _⟩ := ih
      exact ⟨.call name s t f, hf, ⟨_, hy, rfl⟩, Nat.le_refl _⟩
  | group s _ ih =>
      obtain ⟨f, hf, hy, _⟩ := ih
      exact ⟨.paren s f, hf, ⟨_, hy, rfl⟩, Nat.le_refl _⟩
  | base _ ih =>
      obtain ⟨f, hf, hy, ht⟩ := ih
      exact ⟨f, hf, hy, Nat.le_of_succ_le ht⟩
  | power s _ _ ihl ihr =>
      obtain ⟨l, hl, hyl, htl⟩ := ihl
      obtain ⟨r, hr, hyr, htr⟩ := ihr
      exact ⟨.binary .pow s l r, ⟨hl, hr, htl, htr⟩, ⟨_, _, hyl, hyr, rfl⟩, Nat.le_refl _⟩
  | factor _ ih =>
      obtain ⟨f, hf, hy, ht⟩ := ih
      exact ⟨f, hf, hy, Nat.le_of_succ_le ht⟩
  | @product s op _ _ hop _ _ ihl ihr =>
      obtain ⟨l, hl, hyl, htl⟩ := ihl
      obtain ⟨r, hr, hyr, htr⟩ := ihr
      obtain ⟨hrank, hassoc⟩ := Operator.rank_of_isProduct hop
      refine ⟨.binary op s l r, ⟨hl, hr, ?_⟩, ⟨_, _, hyl, hyr, rfl⟩, Nat.le_of_eq hrank.symm⟩
      rw [hassoc, hrank]
      exact ⟨htl, htr⟩
  | term _ ih =>
      obtain ⟨f, hf, hy, ht⟩ := ih
      exact ⟨f, hf, hy, Nat.le_of_succ_le ht⟩
  | negated s _ ih =>
      obtain ⟨f, hf, hy, ht⟩ := ih
      exact ⟨.minus s f, ⟨hf, ht⟩, ⟨_, hy, rfl⟩, Nat.le_refl _⟩
  | @sum s op _ _ hop _ _ ihl ihr =>
      obtain ⟨l, hl, hyl, htl⟩ := ihl
      obtain ⟨r, hr, hyr, htr⟩ := ihr
      obtain ⟨hrank, hassoc⟩ := Operator.rank_of_isSum hop
      refine ⟨.binary op s l r, ⟨hl, hr, ?_⟩, ⟨_, _, hyl, hyr, rfl⟩, Nat.le_of_eq hrank.symm⟩
      rw [hassoc, hrank]
      exact ⟨htl, htr⟩

/-- The tokens of a well nested formula are derived from the parts of the grammar that its outermost
operator is tight enough for. -/
theorem derives_of_wellNested {f : Formula α} (hf : f.WellNested) {ts : List TokenTree}
    (hy : f.Yields ts) {a : Nonterminal} (ha : a.rank ≤ f.tightness) : Derives a ts := by
  induction f generalizing ts a with
  | empty s => exact hf.elim
  | number s n =>
      obtain ⟨lexeme, _, rfl⟩ := hy
      exact (Derives.number s lexeme).loosen ha
  | var s name index =>
      subst hy
      exact (Derives.var s name index).loosen ha
  | const s name =>
      subst hy
      exact (Derives.const s name).loosen ha
  | paren s inner ih =>
      obtain ⟨items, hitems, rfl⟩ := hy
      have inside : Derives .expr items := ih hf hitems inner.term_le_tightness
      exact (Derives.group s inside).loosen ha
  | call name s t argument ih =>
      obtain ⟨items, hitems, rfl⟩ := hy
      have inside : Derives .expr items := ih hf hitems argument.term_le_tightness
      exact (Derives.call s t name inside).loosen ha
  | minus s operand ih =>
      obtain ⟨us, hus, rfl⟩ := hy
      have covered : Derives .term us := ih hf.1 hus hf.2
      exact (Derives.negated s covered).loosen ha
  | binary op s l r ihl ihr =>
      obtain ⟨us, vs, hus, hvs, rfl⟩ := hy
      obtain ⟨hl, hr, hside⟩ := hf
      by_cases hsum : op.isSum = true
      · obtain ⟨hrank, hassoc⟩ := Operator.rank_of_isSum hsum
        rw [hassoc, hrank] at hside
        have left : Derives .expr us := ihl hl hus hside.1
        have right : Derives .term vs := ihr hr hvs hside.2
        exact (Derives.sum s hsum left right).loosen (Nat.le_trans ha (Nat.le_of_eq hrank))
      · by_cases hproduct : op.isProduct = true
        · obtain ⟨hrank, hassoc⟩ := Operator.rank_of_isProduct hproduct
          rw [hassoc, hrank] at hside
          have left : Derives .term us := ihl hl hus hside.1
          have right : Derives .power vs := ihr hr hvs hside.2
          exact (Derives.product s hproduct left right).loosen
            (Nat.le_trans ha (Nat.le_of_eq hrank))
        · have hpow : op = .pow := by cases op <;> simp_all [Operator.isSum, Operator.isProduct,
            Operator.precedence]
          subst hpow
          have left : Derives .operand us := ihl hl hus hside.1
          have right : Derives .power vs := ihr hr hvs hside.2
          exact (Derives.power s left right).loosen ha

end Formula

/-- The grammar derives the tokens of the well nested formulas and nothing else. -/
theorem derives_expr_iff (α : Type) [Scalar α] {ts : List TokenTree} :
    Derives .expr ts ↔ ∃ f : Formula α, f.WellNested ∧ f.Yields ts := by
  constructor
  · intro h
    obtain ⟨f, hf, hy, _⟩ := Formula.exists_of_derives (α := α) h
    exact ⟨f, hf, hy⟩
  · rintro ⟨f, hf, hy⟩
    exact Formula.derives_of_wellNested hf hy f.term_le_tightness

end AlgebraicTerms
