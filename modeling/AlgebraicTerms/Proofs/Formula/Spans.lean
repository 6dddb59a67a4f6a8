import AlgebraicTerms.Proofs.Formula.Nesting
import AlgebraicTerms.Proofs.Token.Places

/-!
# Formulas and their source

Every part of a formula that was read quotes the source: its span covers whole characters, in which
the parts of it stand one after the other, and these characters are read as the part when they stand
alone (`parse_slice`).  For the pieces under a part are cut and grouped in the same way wherever they
stand, and a part is nested less deeply than the whole.
-/

namespace AlgebraicTerms

namespace Span

/-- The opening parenthesis of a group. -/
def firstByte (s : Span) : Span := ⟨s.start, s.start + 1⟩

/-- The spans stand one after the other from `start` to `stop`, and none is empty. -/
def InOrder (start : Nat) : List Span → Nat → Prop
  | [], stop => start ≤ stop
  | s :: ss, stop => start ≤ s.start ∧ s.start < s.stop ∧ InOrder s.stop ss stop

end Span

namespace Formula

open Token TokenTree

variable {α : Type}

/-- The formula and all parts of it. -/
def nodes : Formula α → List (Formula α)
  | f@(paren _ inner) => f :: inner.nodes
  | f@(call _ _ _ argument) => f :: argument.nodes
  | f@(minus _ operand) => f :: operand.nodes
  | f@(binary _ _ l r) => f :: (l.nodes ++ r.nodes)
  | f => [f]

/-- What a formula consists of, from left to right. -/
def partSpans : Formula α → List Span
  | paren s inner => [s.firstByte, inner.span, s.lastByte]
  | call _ s t argument => [s, t.firstByte, argument.span, t.lastByte]
  | minus s operand => [s, operand.span]
  | binary _ s l r => [l.span, s, r.span]
  | _ => []

/-- The formula in a source without its first `k` bytes. -/
def back (k : Nat) : Formula α → Formula α
  | empty s => empty (s.back k)
  | number s n => number (s.back k) n
  | var s name index => var (s.back k) name index
  | const s name => const (s.back k) name
  | paren s inner => paren (s.back k) (inner.back k)
  | call name s t argument => call name (s.back k) (t.back k) (argument.back k)
  | minus s operand => minus (s.back k) (operand.back k)
  | binary op s l r => binary op (s.back k) (l.back k) (r.back k)

/-- A part of a formula is nested less deeply when it stands alone. -/
theorem deepest_of_mem_nodes {f n : Formula α} (hn : n ∈ f.nodes) (p : Place) :
    n.deepest (Place.first 0) ≤ f.deepest p := by
  have self := deepest_le p.first_le f
  induction f generalizing p with
  | paren s inner ih | call name s t inner ih =>
      rcases List.mem_cons.1 hn with rfl | hn
      · exact self
      · have inside := ih hn (Place.first (p.nesting + 1)) (deepest_le (Place.first_le _) inner)
        rw [deepest]
        exact Nat.le_trans inside (Nat.le_max_right _ _)
  | minus s f ih =>
      rcases List.mem_cons.1 hn with rfl | hn
      · exact self
      · exact ih hn p (deepest_le p.first_le f)
  | binary op s l r ihl ihr =>
      rcases List.mem_cons.1 hn with rfl | hn
      · exact self
      · rw [deepest]
        rcases List.mem_append.1 hn with hn | hn
        · exact Nat.le_trans (ihl hn p (deepest_le p.first_le l)) (Nat.le_max_left _ _)
        · have right := ihr hn ((l.placeAfter p).after op) (deepest_le (Place.first_le _) r)
          exact Nat.le_trans right (Nat.le_trans (Nat.le_max_right _ _) (Nat.le_max_right _ _))
  | _ =>
      obtain rfl := List.eq_of_mem_singleton hn
      exact self

section Back

variable (k : Nat)

theorem tightness_back (f : Formula α) : (f.back k).tightness = f.tightness := by
  cases f <;> rfl

theorem wellNested_back (f : Formula α) : (f.back k).WellNested ↔ f.WellNested := by
  induction f with
  | paren s inner ih => exact ih
  | call name s t argument ih => exact ih
  | minus s f ih =>
      rw [back, WellNested, WellNested, ih, tightness_back]
  | binary op s l r ihl ihr =>
      rw [back, WellNested, WellNested, ihl, ihr, tightness_back, tightness_back]
  | _ => exact Iff.rfl

theorem placeAfter_back (f : Formula α) (p : Place) : (f.back k).placeAfter p = f.placeAfter p := by
  induction f generalizing p with
  | minus s f ih => exact ih p
  | binary op s l r ihl ihr => rw [back, placeAfter, ihl, ihr, placeAfter]
  | _ => rfl

theorem deepest_back (f : Formula α) (p : Place) : (f.back k).deepest p = f.deepest p := by
  induction f generalizing p with
  | paren s inner ih | call name s t inner ih => rw [back, deepest, ih, deepest]
  | minus s f ih => exact ih p
  | binary op s l r ihl ihr => rw [back, deepest, placeAfter_back, ihl, ihr, deepest]
  | _ => rfl

theorem Yields.back [Scalar α] {f : Formula α} {ts : List TokenTree} (hy : f.Yields ts) :
    (f.back k).Yields (backAll k ts) := by
  induction f generalizing ts with
  | empty s =>
      obtain rfl : ts = [] := hy
      rfl
  | number s n =>
      obtain ⟨lexeme, value, rfl⟩ := hy
      exact ⟨lexeme, value, rfl⟩
  | var _ _ _ | const _ _ =>
      obtain rfl := hy
      rfl
  | paren _ _ ih | call _ _ _ _ ih =>
      obtain ⟨items, hitems, rfl⟩ := hy
      exact ⟨_, ih hitems, rfl⟩
  | minus _ _ ih =>
      obtain ⟨us, hus, rfl⟩ := hy
      exact ⟨_, ih hus, rfl⟩
  | binary op s l r ihl ihr =>
      obtain ⟨us, vs, hus, hvs, rfl⟩ := hy
      exact ⟨_, _, ihl hus, ihr hvs, backAll_append k us _⟩

end Back

/-! ## The span of a formula -/

variable [Scalar α] {v : Vocabulary} {offset : Nat} {ps : List Piece} {ts : List TokenTree}

/-- A formula goes from its first token to its last one. -/
theorem span_eq_of_yields {f : Formula α} (nested : f.WellNested) (hy : f.Yields ts) :
    (∀ x ∈ ts.head?, x.span.start = f.span.start) ∧ ∀ x ∈ ts.getLast?, x.span.stop = f.span.stop := by
  induction f generalizing ts with
  | empty s => exact nested.elim
  | number s n =>
      obtain ⟨lexeme, _, rfl⟩ := hy
      exact ⟨by rintro x ⟨⟩; rfl, by rintro x ⟨⟩; rfl⟩
  | var _ _ _ | const _ _ =>
      obtain rfl := hy
      exact ⟨by rintro x ⟨⟩; rfl, by rintro x ⟨⟩; rfl⟩
  | paren _ _ _ | call _ _ _ _ _ =>
      obtain ⟨items, _, rfl⟩ := hy
      exact ⟨by rintro x ⟨⟩; rfl, by rintro x ⟨⟩; rfl⟩
  | minus s f ih =>
      obtain ⟨us, hus, rfl⟩ := hy
      refine ⟨by rintro x ⟨⟩; rfl, ?_⟩
      obtain ⟨u, us, rfl⟩ := List.exists_cons_of_ne_nil (nested.1.yields_ne_nil hus)
      rw [List.getLast?_cons_cons]
      exact (ih nested.1 hus).2
  | binary op s l r ihl ihr =>
      obtain ⟨us, vs, hus, hvs, rfl⟩ := hy
      constructor
      · rw [List.head?_append_of_ne_nil _ (nested.1.yields_ne_nil hus)]
        exact (ihl nested.1 hus).1
      · obtain ⟨w, ws, rfl⟩ := List.exists_cons_of_ne_nil (nested.2.1.yields_ne_nil hvs)
        rw [List.getLast?_append_cons, List.getLast?_cons_cons]
        exact (ihr nested.2.1 hvs).2

/-- The pieces of a formula without the blanks around it. -/
theorem exists_trimmed {f : Formula α} (nested : f.WellNested) (hy : f.Yields ts)
    (h : Grouping v none offset ps ts) (pieces : ∀ p ∈ ps, IsPiece p) :
    ∃ before rest after, ps = before ++ (rest ++ after) ∧
      Grouping v none (offset + width before) rest ts ∧
      f.span = ⟨offset + width before, offset + width before + width rest⟩ ∧ 0 < width rest := by
  have filled := nested.yields_ne_nil hy
  obtain ⟨before, rest, after, rfl, grouping, start, stop⟩ := h.trim pieces filled
  obtain ⟨first, last⟩ := span_eq_of_yields nested hy
  obtain ⟨x, hx⟩ : ∃ x, x ∈ ts.head? := ⟨_, List.head?_eq_some_head filled⟩
  obtain ⟨y, hy⟩ : ∃ y, y ∈ ts.getLast? := ⟨_, List.getLast?_eq_some_getLast filled⟩
  refine ⟨before, rest, after, rfl, grouping, ?_, grouping.width_pos (fun p hp => pieces p
    (List.mem_append_right _ (List.mem_append_left _ hp))) filled⟩
  rw [← stop y hy, ← start x hx, first x hx, last y hy]

theorem span_inside {f : Formula α} (nested : f.WellNested) (hy : f.Yields ts)
    (h : Grouping v none offset ps ts) (pieces : ∀ p ∈ ps, IsPiece p) :
    offset ≤ f.span.start ∧ f.span.start < f.span.stop ∧ f.span.stop ≤ offset + width ps := by
  obtain ⟨before, rest, after, rfl, _, place, filled⟩ := exists_trimmed nested hy h pieces
  rw [place]
  simp only [width_append]
  omega

/-- The parts of a formula stand one after the other. -/
theorem inOrder_partSpans {f : Formula α} (nested : f.WellNested) (hy : f.Yields ts)
    (h : Grouping v none offset ps ts) (pieces : ∀ p ∈ ps, IsPiece p) :
    Span.InOrder f.span.start f.partSpans f.span.stop := by
  cases f with
  | empty s => exact nested.elim
  | paren s inner =>
      have whole : inner.WellNested := nested
      obtain ⟨items, hitems, rfl⟩ := hy
      obtain ⟨before, inner', after, rfl, _, inside, rfl⟩ := h.split_group [] pieces
      have place := span_inside whole hitems inside fun p hp => pieces p (by simp [hp])
      simp only [Span.InOrder, partSpans, Formula.span, Span.firstByte, Span.lastByte] at place ⊢
      omega
  | call name s t argument =>
      have whole : argument.WellNested := nested
      obtain ⟨items, hitems, rfl⟩ := hy
      obtain ⟨before, inner', after, rfl, keyword, inside, rfl⟩ := h.split_group [_] pieces
      have place := span_inside whole hitems inside fun p hp => pieces p (by simp [hp])
      have word := keyword.bounds (fun p hp => pieces p (by simp [hp]))
        (x := .keyword s name) (y := .keyword s name) rfl rfl
      simp only [Span.InOrder, partSpans, Formula.span, Span.through, Span.firstByte, Span.lastByte,
        TokenTree.span] at place word ⊢
      omega
  | minus s operand =>
      obtain ⟨us, hus, rfl⟩ := hy
      obtain ⟨before, mid, after, rfl, _, rfl, filled, right⟩ := h.split_char [] pieces
      have place := span_inside nested.1 hus right fun p hp => pieces p (by simp [hp])
      simp only [Span.InOrder, partSpans, Formula.span, Span.through] at place ⊢
      omega
  | binary op s l r =>
      obtain ⟨us, vs, hus, hvs, rfl⟩ := hy
      obtain ⟨before, mid, after, rfl, left, rfl, filled, right⟩ := h.split_char us pieces
      have first := span_inside nested.1 hus left fun p hp => pieces p (by simp [hp])
      have second := span_inside nested.2.1 hvs right fun p hp => pieces p (by simp [hp])
      simp only [Span.InOrder, partSpans, Formula.span, Span.through]
      omega
  | _ => exact Nat.le_of_lt (span_inside nested hy h pieces).2.1

/-- The formula is read from some of the pieces. -/
def Within (v : Vocabulary) (offset : Nat) (ps : List Piece) (f : Formula α) : Prop :=
  f.WellNested ∧ ∃ before mid after ts, ps = before ++ (mid ++ after) ∧
    Grouping v none (offset + width before) mid ts ∧ f.Yields ts

theorem within_self {f : Formula α} (nested : f.WellNested) (hy : f.Yields ts)
    (h : Grouping v none offset ps ts) : Within v offset ps f :=
  ⟨nested, [], ps, [], ts, (List.append_nil ps).symm, h, hy⟩

theorem Within.extend {f : Formula α} {mid : List Piece} {next : Nat} (h : Within v next mid f)
    (before after : List Piece) (hps : ps = before ++ (mid ++ after))
    (hnext : next = offset + width before) : Within v offset ps f := by
  obtain ⟨nested, before', mid', after', ts, rfl, grouping, hy⟩ := h
  refine ⟨nested, before ++ before', mid', after' ++ after, ts, by rw [hps]; simp, ?_, hy⟩
  rw [width_append, ← Nat.add_assoc, ← hnext]
  exact grouping

/-- Every part of a formula is read from some of its pieces. -/
theorem within_of_mem_nodes {f : Formula α} (nested : f.WellNested) (hy : f.Yields ts)
    (h : Grouping v none offset ps ts) (pieces : ∀ p ∈ ps, IsPiece p) :
    ∀ n ∈ f.nodes, Within v offset ps n := by
  induction f generalizing ts offset ps with
  | paren s inner ih =>
      have self := within_self nested hy h
      have whole : inner.WellNested := nested
      obtain ⟨items, hitems, rfl⟩ := hy
      refine List.forall_mem_cons.2 ⟨self, fun n hn => ?_⟩
      obtain ⟨before, inner', after, rfl, _, inside, -⟩ := h.split_group [] pieces
      exact (ih whole hitems inside (fun p hp => pieces p (by simp [hp])) n hn).extend
        (before ++ [(TokenKind.openParen, ['('])]) ((.closeParen, [')']) :: after) (by simp)
        (by simp; omega)
  | call name s t argument ih =>
      have self := within_self nested hy h
      have whole : argument.WellNested := nested
      obtain ⟨items, hitems, rfl⟩ := hy
      refine List.forall_mem_cons.2 ⟨self, fun n hn => ?_⟩
      obtain ⟨before, inner', after, rfl, _, inside, -⟩ := h.split_group [_] pieces
      exact (ih whole hitems inside (fun p hp => pieces p (by simp [hp])) n hn).extend
        (before ++ [(TokenKind.openParen, ['('])]) ((.closeParen, [')']) :: after) (by simp)
        (by simp; omega)
  | minus s operand ih =>
      have self := within_self nested hy h
      obtain ⟨us, hus, rfl⟩ := hy
      obtain ⟨before, mid, after, rfl, _, rfl, filled, right⟩ := h.split_char [] pieces
      refine List.forall_mem_cons.2 ⟨self, fun n hn => ?_⟩
      exact (ih nested.1 hus right (fun p hp => pieces p (by simp [hp])) n hn).extend
        (before ++ mid) [] (by simp) (by simp; omega)
  | binary op s l r ihl ihr =>
      have self := within_self nested hy h
      obtain ⟨us, vs, hus, hvs, rfl⟩ := hy
      obtain ⟨before, mid, after, rfl, left, -, -, right⟩ := h.split_char us pieces
      refine List.forall_mem_cons.2 ⟨self, fun n hn => ?_⟩
      rcases List.mem_append.1 hn with hn | hn
      · exact (ihl nested.1 hus left (fun p hp => pieces p (by simp [hp])) n hn).extend
          [] (mid ++ after) rfl rfl
      · exact (ihr nested.2.1 hvs right (fun p hp => pieces p (by simp [hp])) n hn).extend
          (before ++ mid) [] (by simp) (by simp; omega)
  | _ => exact List.forall_mem_singleton.2 (within_self nested hy h)

/-! ## Reading a part again -/

/-- A formula that is not nested too deeply is read from its tokens. -/
theorem parse_eq_ok {vocabulary : Vocabulary} {text : String} {f : Formula α} (nested : f.WellNested)
    (hy : f.Yields (TokenTree.ofSource vocabulary text.toList))
    (shallow : f.deepest (Place.first 0) ≤ mostNesting) : parse vocabulary text = .ok f := by
  rcases parse_decides (α := α) vocabulary text with ⟨s, deep⟩ | decided
  · exact absurd ((parse_isTooDeep_iff nested hy).1 ⟨s, deep⟩) (Nat.not_lt.2 shallow)
  · have tree : f.IsTreeOf (.point (byteLength text.toList))
        (TokenTree.ofSource vocabulary text.toList) := by
      rw [IsTreeOf, if_neg (nested.yields_ne_nil hy)]
      exact ⟨nested, hy⟩
    exact (decided f).2 tree

/-- A formula that is read is that of a source without tokens, or it yields its tokens. -/
theorem eq_empty_or_yields {vocabulary : Vocabulary} {text : String} {f : Formula α}
    (h : parse vocabulary text = .ok f) :
    (∃ s, f = .empty s) ∨
      f.WellNested ∧ f.Yields (TokenTree.ofSource vocabulary text.toList) ∧
        f.deepest (Place.first 0) ≤ mostNesting := by
  rcases parse_decides (α := α) vocabulary text with ⟨s, deep⟩ | decided
  · cases h.symm.trans deep
  · have tree := (decided f).1 h
    unfold IsTreeOf at tree
    split at tree
    · exact .inl ⟨_, tree⟩
    · refine .inr ⟨tree.1, tree.2, Nat.le_of_not_lt fun deep => ?_⟩
      obtain ⟨s, deep⟩ := (parse_isTooDeep_iff tree.1 tree.2).2 deep
      cases h.symm.trans deep

/-- Every part of a formula quotes the source: its span covers whole characters, its own parts stand
in it one after the other, and its characters are read as that part, with all spans moved to where
they stand now. -/
theorem parse_slice {vocabulary : Vocabulary} {text : String} {f : Formula α}
    (h : parse vocabulary text = .ok f) {n : Formula α} (hn : n ∈ f.nodes)
    (filled : ∀ s, n ≠ .empty s) :
    n.span.Quotes text.toList (n.span.slice text.toList) ∧
      Span.InOrder n.span.start n.partSpans n.span.stop ∧
      parse vocabulary (String.ofList (n.span.slice text.toList)) =
        .ok (n.back n.span.start) := by
  rcases eq_empty_or_yields h with ⟨s, rfl⟩ | ⟨nested, hy, shallow⟩
  · obtain rfl := List.eq_of_mem_singleton hn
    exact absurd rfl (filled s)
  have pieces : ∀ p ∈ lexemes text.toList, IsPiece p := isPiece_of_mem_lexemes
  have grouping := grouping_of_source hy.not_paren
  obtain ⟨nestedPart, before, mid, after, ts, cut, part, hyPart⟩ :=
    within_of_mem_nodes nested hy grouping pieces n hn
  have piecesPart : ∀ p ∈ mid, IsPiece p := fun p hp => pieces p (by rw [cut]; simp [hp])
  obtain ⟨blanks, rest, blanks', rfl, inside, place, -⟩ :=
    exists_trimmed nestedPart hyPart part piecesPart
  have split : lexemes text.toList = (before ++ blanks) ++ rest ++ (blanks' ++ after) := by
    rw [cut]
    simp
  have quotes : n.span.Quotes text.toList (chars rest) := by
    refine ⟨chars (before ++ blanks), chars (blanks' ++ after), ?_, ?_⟩
    · rw [← chars_lexemes text.toList, split, chars_append, chars_append, List.append_assoc]
    · rw [place, Nat.zero_add, ← width_append]
      rfl
  have alone : TokenTree.ofSource vocabulary (chars rest) = backAll n.span.start ts := by
    rw [place]
    exact ofSource_of_grouping (inside.back 0) (lexemes_between split)
  have whole := inOrder_partSpans nestedPart hyPart part piecesPart
  rw [quotes.slice]
  refine ⟨quotes, whole, parse_eq_ok ((wellNested_back _ n).2 nestedPart) ?_ ?_⟩
  · rw [String.toList_ofList, alone]
    exact hyPart.back _
  · rw [deepest_back]
    exact Nat.le_trans (deepest_of_mem_nodes hn (Place.first 0)) shallow

/-- The inside of the parentheses is read alone, two characters after its own beginning. -/
theorem parse_slice_sum :
    let whole : Formula Float := .binary .mul ⟨1, 2⟩ (.var ⟨0, 1⟩ "a" none)
      (.paren ⟨2, 9⟩ (.binary .add ⟨5, 6⟩ (.var ⟨3, 4⟩ "b" none) (.var ⟨7, 8⟩ "c" none)))
    let part : Formula Float := .binary .add ⟨5, 6⟩ (.var ⟨3, 4⟩ "b" none) (.var ⟨7, 8⟩ "c" none)
    (parse .bare "a*(b + c)" = .ok whole ∧ part ∈ whole.nodes ∧ ∀ s, part ≠ .empty s) ∧
      parse .bare "b + c" = .ok (part.back 3) := by
  intro whole part
  have trees : TokenTree.ofSource .bare "a*(b + c)".toList =
      [.var ⟨0, 1⟩ "a" none, .char ⟨1, 2⟩ '*', .group ⟨2, 9⟩
        [.var ⟨3, 4⟩ "b" none, .char ⟨5, 6⟩ '+', .var ⟨7, 8⟩ "c" none]] := rfl
  have nested : whole.WellNested := by
    simp [whole, WellNested, tightness, Operator.associativity, Operator.precedence, Precedence.rank]
  have hy : whole.Yields (TokenTree.ofSource .bare "a*(b + c)".toList) :=
    ⟨_, _, rfl, ⟨_, ⟨_, _, rfl, rfl, rfl⟩, rfl⟩, trees⟩
  have read : parse .bare "a*(b + c)" = .ok whole := parse_eq_ok nested hy (by decide)
  have mem : part ∈ whole.nodes := by simp [whole, part, nodes]
  have filled : ∀ s, part ≠ .empty s := by simp [part]
  exact ⟨⟨read, mem, filled⟩, (parse_slice read mem filled).2.2⟩

end Formula

end AlgebraicTerms
