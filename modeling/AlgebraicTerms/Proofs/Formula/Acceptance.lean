import AlgebraicTerms.Proofs.Formula.Levels
import AlgebraicTerms.Scalar.Double

/-!
# What the reader accepts

A reader of a level, of a group and of a source each decide one question about token trees, unless
they meet an operand that is nested too deeply (`Decides`).  The three are proved together by the
recursion of the readers, with one lemma for each way in which a reader goes on from another one.
What is decided comes to the grammar by `derives_expr_iff`.
-/

namespace AlgebraicTerms

namespace Formula

variable {α β γ : Type}

/-- A result that is there for exactly the values that `P` holds of, unless the nesting was too deep
to find out. -/
def Decides (r : Except ParseError β) (P : β → Prop) : Prop :=
  (∃ s, r = .error (tooDeep s)) ∨ ∀ x, r = .ok x ↔ P x

namespace Decides

theorem congr {r : Except ParseError β} {P Q : β → Prop} (h : Decides r P)
    (hPQ : ∀ x, P x ↔ Q x) : Decides r Q := by
  rcases h with h | h
  · exact .inl h
  · exact .inr fun x => (h x).trans (hPQ x)

theorem error {e : ParseError} {P : β → Prop} (h : ∀ x, ¬P x) : Decides (.error e) P := by
  refine .inr fun x => ⟨fun he => (nomatch he), fun hx => absurd hx (h x)⟩

theorem tooDeep (s : Span) (P : β → Prop) : Decides (.error (tooDeep s)) P := .inl ⟨s, rfl⟩

theorem bind {r : Except ParseError β} {k : β → Except ParseError γ} {P : β → Prop}
    {Q : β → γ → Prop} (h : Decides r P) (hk : ∀ x, Decides (k x) (Q x)) :
    Decides (r >>= k) fun y => ∃ x, P x ∧ Q x y := by
  rcases h with ⟨s, rfl⟩ | h
  · exact .inl ⟨s, rfl⟩
  · cases r with
    | error e =>
        refine error fun y ⟨x, hx, _⟩ => ?_
        cases (h x).2 hx
    | ok a =>
        have only (x : β) (hx : P x) : a = x := Except.ok.inj ((h x).2 hx)
        refine (hk a).congr fun y => ⟨fun hy => ⟨a, (h a).1 rfl, hy⟩, ?_⟩
        rintro ⟨x, hx, hy⟩
        rw [only x hx]
        exact hy

theorem map {r : Except ParseError β} {P : β → Prop} (f : β → γ) (h : Decides r P) :
    Decides (f <$> r) fun y => ∃ x, P x ∧ y = f x := by
  refine (h.bind (k := fun x => .ok (f x)) (Q := fun x y => y = f x) fun x => ?_)
  exact .inr fun y => ⟨fun hy => (Except.ok.inj hy).symm, fun hy => congrArg Except.ok hy.symm⟩

end Decides

variable [Scalar α]

/-- Whether the tokens `ts` are those of the operand `f` and, after them, `rest`. -/
def Heads (f : Formula α) : (ts rest : List TokenTree) → Prop
  | .number s lexeme :: ts, rest => f = .number s (Scalar.literal lexeme) ∧ rest = ts
  | .var s name index :: ts, rest => f = .var s name index ∧ rest = ts
  | .const s name :: ts, rest => f = .const s name ∧ rest = ts
  | .keyword s name :: .group t items :: ts, rest =>
    (∃ g : Formula α, (g.WellNested ∧ g.Yields items) ∧ f = .call name s t g) ∧ rest = ts
  | .group s items :: ts, rest =>
    (∃ g : Formula α, (g.WellNested ∧ g.Yields items) ∧ f = .paren s g) ∧ rest = ts
  | _, _ => False

/-- The operands of the grammar are the formulas that token trees start with. -/
theorem heads_iff {f : Formula α} {ts rest : List TokenTree} :
    f.Heads ts rest ↔ f.IsOperand ∧ ∃ us, f.Yields us ∧ ts = us ++ rest := by
  constructor
  · intro h
    unfold Heads at h
    split at h
    · obtain ⟨rfl, rfl⟩ := h
      exact ⟨⟨trivial, Nat.lt_succ_self _⟩, _, ⟨_, rfl, rfl⟩, rfl⟩
    · obtain ⟨rfl, rfl⟩ := h
      exact ⟨⟨trivial, Nat.lt_succ_self _⟩, _, rfl, rfl⟩
    · obtain ⟨rfl, rfl⟩ := h
      exact ⟨⟨trivial, Nat.lt_succ_self _⟩, _, rfl, rfl⟩
    · obtain ⟨⟨g, ⟨hg, hy⟩, rfl⟩, rfl⟩ := h
      exact ⟨⟨hg, Nat.lt_succ_self _⟩, _, ⟨_, hy, rfl⟩, rfl⟩
    · obtain ⟨⟨g, ⟨hg, hy⟩, rfl⟩, rfl⟩ := h
      exact ⟨⟨hg, Nat.lt_succ_self _⟩, _, ⟨_, hy, rfl⟩, rfl⟩
    · exact h.elim
  · rintro ⟨⟨nested, tight⟩, us, hy, rfl⟩
    cases f with
    | empty s => exact nested.elim
    | number s n =>
        obtain ⟨lexeme, rfl, rfl⟩ := hy
        exact ⟨rfl, rfl⟩
    | var s name index =>
        subst hy
        exact ⟨rfl, rfl⟩
    | const s name =>
        subst hy
        exact ⟨rfl, rfl⟩
    | paren s inner =>
        obtain ⟨items, hitems, rfl⟩ := hy
        exact ⟨⟨inner, ⟨nested, hitems⟩, rfl⟩, rfl⟩
    | call name s t argument =>
        obtain ⟨items, hitems, rfl⟩ := hy
        exact ⟨⟨argument, ⟨nested, hitems⟩, rfl⟩, rfl⟩
    | minus s f => exact absurd tight (by simp [tightness, Precedence.rank])
    | binary op s l r => exact absurd tight (by cases op <;>
        simp [tightness, Operator.precedence, Precedence.rank])

/-- Whether `xs` is a tail of operands with the tokens `ts`. -/
def Follows (xs : Tail α) (ts : List TokenTree) : Prop :=
  (∀ x ∈ xs, x.2.2.IsOperand) ∧ TailYields xs ts

/-- Whether the level has the tokens `ts` and no minus before them. -/
def Level.Covers (l : Level α) (ts : List TokenTree) : Prop :=
  l.minus = none ∧ ∃ rest, l.first.Heads ts rest ∧ Follows l.rest rest

/-- Whether the level has the tokens `ts`, with a minus before them only at the start. -/
def Level.Spans (atStart : Bool) (l : Level α) (ts : List TokenTree) : Prop :=
  l.Covers ts ∨ atStart = true ∧
    ∃ s us, ts = .char s '-' :: us ∧ ∃ m : Level α, m.Covers us ∧ l = { m with minus := some s }

theorem Level.spans_iff {l : Level α} {ts : List TokenTree} :
    l.Spans true ts ↔ l.OfOperands ∧ l.Yields ts := by
  constructor
  · rintro (⟨bare, rest, heads, operands, hrest⟩ |
      ⟨-, s, us, rfl, m, ⟨-, rest, heads, operands, hrest⟩, rfl⟩)
    · obtain ⟨hfirst, vs, hvs, rfl⟩ := heads_iff.1 heads
      refine ⟨⟨hfirst, operands⟩, vs, rest, hvs, hrest, ?_⟩
      rw [bare]
      rfl
    · obtain ⟨hfirst, vs, hvs, rfl⟩ := heads_iff.1 heads
      exact ⟨⟨hfirst, operands⟩, vs, rest, hvs, hrest, rfl⟩
  · rintro ⟨⟨hfirst, operands⟩, us, vs, hus, hvs, rfl⟩
    obtain ⟨minus, first, tail⟩ := l
    have covers : (⟨none, first, tail⟩ : Level α).Covers (us ++ vs) :=
      ⟨rfl, vs, heads_iff.2 ⟨hfirst, us, hus, rfl⟩, operands, hvs⟩
    cases minus with
    | none => exact .inl covers
    | some s => exact .inr ⟨rfl, s, us ++ vs, rfl, _, covers, rfl⟩

/-! ## The readers -/

/-- Tokens that no operand starts with are no level without a minus. -/
theorem Level.not_covers {l : Level α} {ts : List TokenTree}
    (h : ∀ (f : Formula α) rest, ¬f.Heads ts rest) : ¬l.Covers ts := by
  rintro ⟨_, rest, heads, _⟩
  exact h _ rest heads

theorem Level.spans_iff_covers {atStart : Bool} {l : Level α} {ts : List TokenTree}
    (h : ∀ s us, ts = .char s '-' :: us → atStart = false) :
    l.Spans atStart ts ↔ l.Covers ts := by
  constructor
  · rintro (h' | ⟨start, s, us, hts, _⟩)
    · exact h'
    · rw [h s us hts] at start
      cases start
  · exact .inl

/-- What is decided about the tokens after an operand. -/
def ReadsOn (operand : Formula α) (ts : List TokenTree) (l : Level α) : Prop :=
  l.minus = none ∧ l.first = operand ∧ Follows l.rest ts

theorem readsOn_nil {operand : Formula α} {l : Level α} :
    ReadsOn operand [] l ↔ l = ⟨none, operand, []⟩ := by
  obtain ⟨minus, first, tail⟩ := l
  constructor
  · rintro ⟨rfl, rfl, _, hy⟩
    cases tail with
    | nil => rfl
    | cons x xs =>
        obtain ⟨us, vs, _, _, h⟩ := hy
        cases h
  · intro h
    cases h
    exact ⟨rfl, rfl, fun x hx => (nomatch hx), rfl⟩

/-- An operand must be followed by an operator and a level without a minus. -/
theorem readsOn_cons {operand : Formula α} {t : TokenTree} {ts : List TokenTree} {l : Level α} :
    ReadsOn operand (t :: ts) l ↔ ∃ op s, t = .char s op.toChar ∧ ∃ m : Level α, m.Covers ts ∧
      l = ⟨none, operand, (op, s, m.first) :: m.rest⟩ := by
  obtain ⟨minus, first, tail⟩ := l
  constructor
  · rintro ⟨rfl, rfl, operands, hy⟩
    cases tail with
    | nil => cases hy
    | cons x xs =>
        obtain ⟨op, s, f⟩ := x
        obtain ⟨us, vs, hus, hvs, h⟩ := hy
        cases h
        have heads : f.Heads (us ++ vs) vs :=
          heads_iff.2 ⟨operands _ List.mem_cons_self, us, hus, rfl⟩
        have others : Follows xs vs := ⟨fun x hx => operands x (List.mem_cons_of_mem _ hx), hvs⟩
        exact ⟨op, s, rfl, ⟨none, f, xs⟩, ⟨rfl, vs, heads, others⟩, rfl⟩
  · rintro ⟨op, s, rfl, m, ⟨_, rest, heads, operands, hrest⟩, h⟩
    cases h
    obtain ⟨hfirst, us, hus, rfl⟩ := heads_iff.1 heads
    refine ⟨rfl, rfl, fun x hx => ?_, us, rest, hus, hrest, rfl⟩
    rcases List.mem_cons.1 hx with rfl | hx
    · exact hfirst
    · exact operands x hx

/-- Going on after an operand that starts the tokens decides the level. -/
theorem Decides.head {r : Except ParseError (Level α)} {atStart : Bool} {operand : Formula α}
    {ts rest : List TokenTree} (h : Decides r (ReadsOn operand rest))
    (hhead : ∀ (f : Formula α) us, f.Heads ts us ↔ f = operand ∧ us = rest) :
    Decides r fun l => l.Spans atStart ts := by
  refine h.congr fun l => ?_
  rw [Level.spans_iff_covers]
  · constructor
    · rintro ⟨bare, hfirst, follows⟩
      exact ⟨bare, rest, (hhead _ _).2 ⟨hfirst, rfl⟩, follows⟩
    · rintro ⟨bare, us, heads, follows⟩
      obtain ⟨hfirst, rfl⟩ := (hhead _ _).1 heads
      exact ⟨bare, hfirst, follows⟩
  · rintro s us rfl
    exact absurd ((hhead operand rest).2 ⟨rfl, rfl⟩) id

/-- Going on after an operand with a group in it decides the level, too. -/
theorem Decides.headGroup {r : Except ParseError (Formula α)}
    {k : Formula α → Except ParseError (Level α)} {atStart : Bool} {items ts rest : List TokenTree}
    {operand : Formula α → Formula α}
    (h : Decides r fun f => f.WellNested ∧ f.Yields items)
    (hk : ∀ f, Decides (k f) (ReadsOn (operand f) rest))
    (hhead : ∀ (f : Formula α) us, f.Heads ts us ↔
      (∃ g : Formula α, (g.WellNested ∧ g.Yields items) ∧ f = operand g) ∧ us = rest)
    (hts : ∀ s us, ts ≠ .char s '-' :: us) :
    Decides (r >>= k) fun l => l.Spans atStart ts := by
  refine (h.bind hk).congr fun l => ?_
  rw [Level.spans_iff_covers fun s us hs => absurd hs (hts s us)]
  constructor
  · rintro ⟨g, hg, bare, hfirst, follows⟩
    exact ⟨bare, rest, (hhead _ _).2 ⟨⟨g, hg, hfirst⟩, rfl⟩, follows⟩
  · rintro ⟨bare, us, heads, follows⟩
    obtain ⟨⟨g, hg, hfirst⟩, rfl⟩ := (hhead _ _).1 heads
    exact ⟨g, hg, bare, hfirst, follows⟩

theorem Decides.join {r : Except ParseError (Level α)} {ts : List TokenTree}
    (h : Decides r fun l => l.Spans true ts) :
    Decides (Level.join <$> r) fun f => f.WellNested ∧ f.Yields ts := by
  refine (h.map Level.join).congr fun f => ?_
  constructor
  · rintro ⟨l, hl, rfl⟩
    obtain ⟨operands, hy⟩ := Level.spans_iff.1 hl
    exact ⟨(Level.join_spec operands).1, (Level.join_yields operands).2 hy⟩
  · rintro ⟨nested, hy⟩
    exact ⟨f.level, Level.spans_iff.2 ⟨level_isOperand nested, (level_yields nested).2 hy⟩,
      (join_level nested).symm⟩

variable (source : List Char)

mutual

/-- An operand with what follows it is read exactly as a level that spans them. -/
theorem readOperand_decides (stop : Span) (place : Place) (atStart : Bool) :
    (ts : List TokenTree) →
      Decides (readOperand (α := α) source stop place atStart ts) fun l => l.Spans atStart ts
  | [] => by
      rw [readOperand]
      refine .error fun l h => ?_
      rcases h with h | ⟨_, _, _, h, _⟩
      · exact Level.not_covers (fun _ _ => id) h
      · cases h
  | .number span lexeme :: rest => by
      rw [readOperand]
      exact (readOperators_decide stop place _ rest).head fun _ _ => Iff.rfl
  | .var span name index :: rest => by
      rw [readOperand]
      exact (readOperators_decide stop place _ rest).head fun _ _ => Iff.rfl
  | .const span name :: rest => by
      rw [readOperand]
      exact (readOperators_decide stop place _ rest).head fun _ _ => Iff.rfl
  | [.keyword span name] => by
      rw [readOperand]
      refine .error fun l h => ?_
      rw [Level.spans_iff_covers (by rintro _ _ ⟨⟩)] at h
      exact Level.not_covers (fun _ _ => id) h
  | .keyword span name :: t :: rest => by
      by_cases hgroup : t.isGroup = true
      · cases t with
        | group s items =>
            rw [readOperand, if_pos hgroup]
            exact (readGroup_decides place (.group s items) s items rfl).headGroup
              (fun f => readOperators_decide stop place _ rest) (fun _ _ => Iff.rfl)
              (by rintro _ _ ⟨⟩)
        | _ => cases hgroup
      · rw [readOperand, if_neg hgroup]
        refine .error fun l h => ?_
        rw [Level.spans_iff_covers (by rintro _ _ ⟨⟩)] at h
        cases t with
        | group s items => exact hgroup rfl
        | _ => exact Level.not_covers (fun _ _ => id) h
  | .group span items :: rest => by
      rw [readOperand]
      exact (readGroup_decides place (.group span items) span items rfl).headGroup
        (fun f => readOperators_decide stop place _ rest) (fun _ _ => Iff.rfl) (by rintro _ _ ⟨⟩)
  | .char span c :: rest => by
      by_cases hminus : (atStart && c == '-') = true
      · rw [readOperand, if_pos hminus]
        obtain ⟨rfl, rfl⟩ : atStart = true ∧ c = '-' := by simpa using hminus
        have inner := readOperand_decides stop place false rest
        refine (inner.map fun l => { l with minus := some span }).congr fun l => ⟨?_, ?_⟩
        · rintro ⟨m, hm, rfl⟩
          rcases hm with hm | ⟨h, _⟩
          · exact .inr ⟨rfl, span, rest, rfl, m, hm, rfl⟩
          · cases h
        · rintro (h | ⟨_, s, us, ⟨⟩, m, hm, rfl⟩)
          · exact absurd h (Level.not_covers fun _ _ => id)
          · exact ⟨m, .inl hm, rfl⟩
      · rw [readOperand, if_neg hminus]
        refine .error fun l h => ?_
        rcases h with h | ⟨rfl, s, us, ⟨⟩, _⟩
        · exact Level.not_covers (fun _ _ => id) h
        · exact hminus rfl

/-- What follows an operand is read exactly as the rest of a level. -/
theorem readOperators_decide (stop : Span) (place : Place) (operand : Formula α) :
    (ts : List TokenTree) →
      Decides (readOperators source stop place operand ts) (ReadsOn operand ts)
  | [] => by
      rw [readOperators]
      exact .inr fun l => ⟨fun h => readsOn_nil.2 (Except.ok.inj h).symm,
        fun h => congrArg _ (readsOn_nil.1 h).symm⟩
  | t :: rest => by
      rw [readOperators]
      cases hop : t.operator? with
      | none =>
          refine .error fun l h => ?_
          obtain ⟨op, s, rfl, _⟩ := readsOn_cons.1 h
          rw [TokenTree.operator?_eq_some_iff.2 ⟨s, rfl⟩] at hop
          cases hop
      | some op =>
          by_cases deep : (place.after op).nesting > mostNesting
          · simp only [if_pos deep]
            exact .tooDeep _ _
          · simp only [if_neg deep]
            have inner := readOperand_decides stop (place.after op) false rest
            obtain ⟨s, rfl⟩ := TokenTree.operator?_eq_some_iff.1 hop
            let extended (l : Level α) : Level α := ⟨none, operand, (op, s, l.first) :: l.rest⟩
            refine (inner.map extended).congr fun l => ?_
            rw [readsOn_cons]
            constructor
            · rintro ⟨m, hm, rfl⟩
              exact ⟨op, s, rfl, m, (Level.spans_iff_covers fun _ _ _ => rfl).1 hm, rfl⟩
            · rintro ⟨op', s', h, m, hm, rfl⟩
              obtain ⟨rfl, hc⟩ := TokenTree.char.inj h
              obtain rfl := Operator.toChar_inj hc
              exact ⟨m, .inl hm, rfl⟩

/-- A group is read exactly as a well-nested formula of its items. -/
theorem readGroup_decides (place : Place) : (t : TokenTree) →
    (s : Span) → (items : List TokenTree) → t = .group s items →
      Decides (readGroup (α := α) source place t) fun f => f.WellNested ∧ f.Yields items
  | .number .. | .var .. | .const .. | .keyword .. | .char .. => by rintro s ts ⟨⟩
  | .group span items => by
      rintro s ts ⟨⟩
      rw [readGroup]
      by_cases hempty : items.isEmpty = true
      · rw [if_pos hempty]
        exact .error fun f ⟨nested, hy⟩ => nested.yields_ne_nil hy (List.isEmpty_iff.1 hempty)
      · rw [if_neg hempty]
        have inner := readOperand_decides span.lastByte (Place.first (place.nesting + 1)) true items
        by_cases deep : (Place.first (place.nesting + 1)).nesting > mostNesting
        · simp only [if_pos deep]
          exact .tooDeep _ _
        · simp only [if_neg deep]
          exact inner.join

end

/-- Whether `f` is what the token trees of a text stand for. -/
def IsTreeOf (f : Formula α) (stop : Span) (ts : List TokenTree) : Prop :=
  if ts = [] then f = .empty stop else f.WellNested ∧ f.Yields ts

theorem parse_decides (vocabulary : Vocabulary) (text : String) :
    Decides (parse (α := α) vocabulary text) fun f =>
      f.IsTreeOf (.point (byteLength text.toList)) (TokenTree.ofSource vocabulary text.toList) := by
  simp only [parse]
  cases deepParenthesis? 0 0 text.toList with
  | some s => exact .tooDeep s _
  | none =>
      cases TokenTree.ofSource vocabulary text.toList with
      | nil => exact .inr fun f => ⟨fun h => (Except.ok.inj h).symm, fun h => congrArg _ h.symm⟩
      | cons t ts => exact (readOperand_decides text.toList _ _ true (t :: ts)).join

/-- A source that is not nested too deeply is read exactly when it has no tokens or the grammar
derives them, and then as the only formula that yields them with every operator in its place. -/
theorem parse_accepts_grammar {vocabulary : Vocabulary} {text : String}
    (shallow : ∀ s most, parse (α := α) vocabulary text ≠ .error ⟨s, .nestedTooDeeply most⟩) :
    ((∃ f : Formula α, parse vocabulary text = .ok f) ↔
      TokenTree.ofSource vocabulary text.toList = [] ∨
        Derives .expr (TokenTree.ofSource vocabulary text.toList)) ∧
      ∀ f : Formula α, parse vocabulary text = .ok f →
        (TokenTree.ofSource vocabulary text.toList = [] →
          f = .empty (.point (byteLength text.toList))) ∧
        (TokenTree.ofSource vocabulary text.toList ≠ [] →
          (f.WellNested ∧ f.Yields (TokenTree.ofSource vocabulary text.toList)) ∧
            ∀ g : Formula α, g.WellNested →
              g.Yields (TokenTree.ofSource vocabulary text.toList) → g = f) := by
  have decided : ∀ f : Formula α, parse vocabulary text = .ok f ↔ f.IsTreeOf
      (.point (byteLength text.toList)) (TokenTree.ofSource vocabulary text.toList) := by
    rcases parse_decides (α := α) vocabulary text with ⟨s, deep⟩ | decided
    · exact absurd deep (shallow s mostNesting)
    · exact decided
  unfold IsTreeOf at decided
  by_cases hitems : TokenTree.ofSource vocabulary text.toList = []
  · simp only [if_pos hitems] at decided
    refine ⟨⟨fun _ => .inl hitems, fun _ => ⟨_, (decided _).2 rfl⟩⟩, fun f hf => ⟨fun _ => ?_, ?_⟩⟩
    · exact (decided f).1 hf
    · exact fun hne => absurd hitems hne
  · simp only [if_neg hitems] at decided
    refine ⟨?_, fun f hf => ⟨fun h => absurd h hitems, fun _ => ⟨(decided f).1 hf, ?_⟩⟩⟩
    · rw [derives_expr_iff α]
      constructor
      · rintro ⟨f, hf⟩
        exact .inr ⟨f, (decided f).1 hf⟩
      · rintro (h | ⟨f, hf⟩)
        · exact absurd h hitems
        · exact ⟨f, (decided f).2 hf⟩
    · intro g nested hy
      have same := (decided g).2 ⟨nested, hy⟩
      exact Except.ok.inj (same.symm.trans hf)

/-- The minus covers the whole product, and the power is inside it. -/
theorem parse_negated_product :
    (∀ s most, parse (α := Float) .bare "-a*b^c" ≠ .error ⟨s, .nestedTooDeeply most⟩) ∧
      parse (α := Float) .bare "-a*b^c" =
        .ok (.minus ⟨0, 1⟩ (.binary .mul ⟨2, 3⟩ (.var ⟨1, 2⟩ "a" none)
          (.binary .pow ⟨4, 5⟩ (.var ⟨3, 4⟩ "b" none) (.var ⟨5, 6⟩ "c" none)))) := by
  have trees : TokenTree.ofSource .bare "-a*b^c".toList =
      [.char ⟨0, 1⟩ '-', .var ⟨1, 2⟩ "a" none, .char ⟨2, 3⟩ '*', .var ⟨3, 4⟩ "b" none,
        .char ⟨4, 5⟩ '^', .var ⟨5, 6⟩ "c" none] := rfl
  have shallow : ∀ s most, parse (α := Float) .bare "-a*b^c" ≠
      .error ⟨s, .nestedTooDeeply most⟩ := by
    have level : deepParenthesis? 0 0 "-a*b^c".toList = none := by decide
    intro s most h
    simp only [parse, level, trees] at h
    simp [readOperand, readOperators, TokenTree.operator?, Operator.ofChar?, Place.after,
      Operator.isSum, Operator.isProduct, Operator.precedence, Place.nesting, mostNesting,
      Place.first, bind, Except.bind, Functor.map, Except.map] at h
  have nested : (Formula.minus (α := Float) ⟨0, 1⟩ (.binary .mul ⟨2, 3⟩ (.var ⟨1, 2⟩ "a" none)
      (.binary .pow ⟨4, 5⟩ (.var ⟨3, 4⟩ "b" none) (.var ⟨5, 6⟩ "c" none)))).WellNested := by
    simp [WellNested, tightness, Operator.associativity, Operator.precedence, Precedence.rank,
      negationPrecedence]
  have yields : (Formula.minus (α := Float) ⟨0, 1⟩ (.binary .mul ⟨2, 3⟩ (.var ⟨1, 2⟩ "a" none)
      (.binary .pow ⟨4, 5⟩ (.var ⟨3, 4⟩ "b" none) (.var ⟨5, 6⟩ "c" none)))).Yields
      (TokenTree.ofSource .bare "-a*b^c".toList) :=
    ⟨_, ⟨_, _, rfl, ⟨_, _, rfl, rfl, rfl⟩, rfl⟩, trees⟩
  obtain ⟨accepted, right⟩ := parse_accepts_grammar shallow
  obtain ⟨f, hf⟩ := accepted.2 (.inr ((derives_expr_iff Float).2 ⟨_, nested, yields⟩))
  have only := ((right f hf).2 (by rw [trees]; exact List.cons_ne_nil _ _)).2 _ nested yields
  exact ⟨shallow, only ▸ hf⟩

end Formula

end AlgebraicTerms
