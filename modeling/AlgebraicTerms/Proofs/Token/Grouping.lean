import AlgebraicTerms.Proofs.Token.Pieces

/-!
# Groups

How the trees of a text lie in it.  `Grouping` says which pieces of a text become which trees at which
place, with every parenthesis in a group or alone outside of all groups.  The trees of a text are two
such parts, one after the other: parentheses that close nothing are alone in the first, and those that
are not closed in the second (`ofSource_grouping`).
-/

namespace AlgebraicTerms

namespace TokenTree

open Token

/-- Whether pieces that begin at the given offset become the trees.  The parenthesis `lone` may stand
alone between the groups, and no other one. -/
inductive Grouping (v : Vocabulary) :
    (lone : Option Char) → (offset : Nat) → List Piece → List TokenTree → Prop
  | nil (lone : Option Char) (offset : Nat) : Grouping v lone offset [] []
  | token {lone : Option Char} {offset : Nat} {k : TokenKind} {w : List Char} {ps : List Piece}
      {ts : List TokenTree} (hopen : k ≠ .openParen) (hclose : k ≠ .closeParen)
      (rest : Grouping v lone (offset + byteLength w) ps ts) :
      Grouping v lone offset ((k, w) :: ps)
        (ofToken v ⟨k, ⟨offset, offset + byteLength w⟩, w⟩ ++ ts)
  | group {lone : Option Char} {offset : Nat} {qs ps : List Piece} {us ts : List TokenTree}
      (inside : Grouping v none (offset + 1) qs us)
      (rest : Grouping v lone (offset + 1 + width qs + 1) ps ts) :
      Grouping v lone offset ((.openParen, ['(']) :: (qs ++ (.closeParen, [')']) :: ps))
        (.group ⟨offset, offset + 1 + width qs + 1⟩ us :: ts)
  | lone {c : Char} {offset : Nat} {ps : List Piece} {ts : List TokenTree} (hc : c = '(' ∨ c = ')')
      (rest : Grouping v (some c) (offset + 1) ps ts) :
      Grouping v (some c) offset ((Reading.singleKind c, [c]) :: ps)
        (.char ⟨offset, offset + 1⟩ c :: ts)

namespace Grouping

variable {v : Vocabulary} {lone : Option Char} {offset : Nat} {ps qs : List Piece}
  {ts us : List TokenTree}

theorem append (h : Grouping v lone offset ps ts) {next : Nat} (hnext : offset + width ps = next)
    (h' : Grouping v lone next qs us) : Grouping v lone offset (ps ++ qs) (ts ++ us) := by
  induction h with
  | nil =>
      obtain rfl : _ = next := hnext
      exact h'
  | token hopen hclose rest ih =>
      rw [width_cons, ← Nat.add_assoc] at hnext
      rw [List.append_assoc]
      exact .token hopen hclose (ih hnext h')
  | @group lone offset ps' qs' us' ts' inside rest _ ih =>
      have stop : offset + 1 + width ps' + 1 + width qs' = next := by
        rw [← hnext]
        simp only [width_cons, width_append, byteLength_openParen, byteLength_closeParen]
        omega
      rw [List.cons_append, List.append_assoc, List.cons_append, List.cons_append]
      exact .group inside (ih stop h')
  | @lone c offset ps' ts' hc rest ih =>
      have stop : offset + 1 + width ps' = next := by
        rw [← hnext, width_cons, ← Nat.add_assoc]
        rcases hc with rfl | rfl <;> rfl
      exact .lone hc (ih stop h')

/-- Where no parenthesis is alone, one may be. -/
theorem weaken (h : Grouping v none offset ps ts) (lone : Option Char) :
    Grouping v lone offset ps ts := by
  generalize hnone : (none : Option Char) = none' at h
  induction h with
  | nil => exact .nil lone _
  | token hopen hclose rest ih => exact .token hopen hclose (ih hnone)
  | group inside rest _ ih => exact .group inside (ih hnone)
  | lone => cases hnone

/-- Where no parenthesis is alone among the trees, none may be. -/
theorem strengthen (h : Grouping v lone offset ps ts)
    (hts : ∀ s c, .char s c ∈ ts → c ≠ '(' ∧ c ≠ ')') : Grouping v none offset ps ts := by
  induction h with
  | nil => exact .nil none _
  | token hopen hclose rest ih =>
      exact .token hopen hclose (ih fun s c hc => hts s c (List.mem_append_right _ hc))
  | group inside rest _ ih =>
      exact .group inside (ih fun s c hc => hts s c (List.mem_cons_of_mem _ hc))
  | lone hc =>
      have other := hts _ _ List.mem_cons_self
      exact absurd hc (not_or.2 other)

/-- Complete groups are read into any forest in the same way. -/
theorem read (h : Grouping v none offset ps ts) (f : Forest) :
    (place offset ps).foldl (Forest.read v) f = f.add ts.reverse := by
  generalize hnone : (none : Option Char) = none' at h
  induction h generalizing f with
  | nil => exact f.add_nil.symm
  | @token _ offset k w ps ts hopen hclose rest ih =>
      have first : f.read v ⟨k, ⟨offset, offset + byteLength w⟩, w⟩ =
          f.add (ofToken v ⟨k, ⟨offset, offset + byteLength w⟩, w⟩).reverse := by
        cases k <;> first | rfl | exact absurd rfl hopen | exact absurd rfl hclose
      rw [place, List.foldl_cons, first, ih _ hnone, Forest.add_add, List.reverse_append]
  | @group _ offset qs ps us ts inside rest ihInside ih =>
      rw [place, place_append, place, byteLength_openParen, byteLength_closeParen, List.foldl_cons,
        List.foldl_append, List.foldl_cons, ihInside _ rfl, ih _ hnone, List.reverse_cons,
        ← Forest.add_add]
      simp only [Forest.read, Forest.openGroup, Forest.closeGroup, Forest.add, Span.through,
        List.append_nil, List.reverse_reverse, List.singleton_append]
  | lone => cases hnone

end Grouping

/-! ## Reading a text -/

/-- A forest that pieces at the start of a text are read into.  Every open group begins with a piece
that opens it, where the group outside of it has come to. -/
inductive Stands (v : Vocabulary) : Forest → List Piece → Prop
  | top {top : List TokenTree} {ps : List Piece} (h : Grouping v (some ')') 0 ps top.reverse) :
      Stands v ⟨top, []⟩ ps
  | inside {top items : List TokenTree} {groups : List OpenGroup} {ps qs : List Piece}
      (outer : Stands v ⟨top, groups⟩ ps)
      (h : Grouping v none (width ps + 1) qs items.reverse) :
      Stands v ⟨top, ⟨⟨width ps, width ps + 1⟩, items⟩ :: groups⟩
        (ps ++ (.openParen, ['(']) :: qs)

namespace Stands

variable {v : Vocabulary} {f : Forest} {ps qs : List Piece} {us : List TokenTree}

theorem add (h : Stands v f ps) (h' : Grouping v none (width ps) qs us) :
    Stands v (f.add us.reverse) (ps ++ qs) := by
  cases h with
  | top h =>
      have more := h.append (Nat.zero_add _) (h'.weaken (some ')'))
      refine .top ?_
      rw [List.reverse_append, List.reverse_reverse]
      exact more
  | @inside top items groups ps qs' outer h =>
      have stop : width (ps ++ (.openParen, ['(']) :: qs') = width ps + 1 + width qs' := by
        simp only [width_append, width_cons, byteLength_openParen]
        omega
      have more := h.append stop.symm h'
      rw [List.append_assoc]
      refine .inside outer ?_
      rw [List.reverse_append, List.reverse_reverse]
      exact more

/-- One more piece is read. -/
theorem step {k : TokenKind} {w : List Char} (h : Stands v f ps) (hpiece : IsPiece (k, w)) :
    Stands v (f.read v ⟨k, ⟨width ps, width ps + byteLength w⟩, w⟩) (ps ++ [(k, w)]) := by
  by_cases hopen : k = .openParen
  · subst hopen
    obtain rfl := hpiece.openParen
    exact .inside h (.nil none _)
  · by_cases hclose : k = .closeParen
    · subst hclose
      obtain rfl := hpiece.closeParen
      cases h with
      | @top top ps h =>
          have last : Grouping v (some ')') (width ps) [(.closeParen, [')'])]
              [.char ⟨width ps, width ps + 1⟩ ')'] := .lone (.inr rfl) (.nil _ _)
          have more := h.append (Nat.zero_add _) last
          refine .top ?_
          rw [List.reverse_append]
          exact more
      | @inside top items groups ps qs outer h =>
          have complete := outer.add (.group h (.nil none _))
          rw [List.reverse_singleton] at complete
          rw [List.append_assoc]
          have stop : width (ps ++ (.openParen, ['(']) :: qs) + 1 = width ps + 1 + width qs + 1 := by
            simp only [width_append, width_cons, byteLength_openParen]
            omega
          rw [byteLength_closeParen, stop]
          exact complete
    · have token : Grouping v none (width ps) [(k, w)]
          (ofToken v ⟨k, ⟨width ps, width ps + byteLength w⟩, w⟩ ++ []) :=
        .token hopen hclose (.nil none _)
      have single := h.add token
      rw [List.append_nil] at single
      cases k <;> first | exact single | exact absurd rfl hopen | exact absurd rfl hclose

theorem read {f : Forest} {ps : List Piece} (h : Stands v f ps) (qs : List Piece)
    (hqs : ∀ q ∈ qs, IsPiece q) :
    Stands v ((place (width ps) qs).foldl (Forest.read v) f) (ps ++ qs) := by
  induction qs generalizing f ps with
  | nil =>
      rw [List.append_nil]
      exact h
  | cons q qs ih =>
      obtain ⟨k, w⟩ := q
      have first := h.step (hqs _ List.mem_cons_self)
      have rest := ih first fun q hq => hqs q (List.mem_cons_of_mem _ hq)
      rw [width_append, width_cons, width_nil, Nat.add_zero, List.append_assoc] at rest
      exact rest

/-- Groups that were not closed are taken apart, and their parentheses are alone. -/
theorem spilled {top : List TokenTree} {groups : List OpenGroup} (h : Stands v ⟨top, groups⟩ ps) :
    ∃ qs rs, ps = qs ++ rs ∧ Grouping v (some ')') 0 qs top.reverse ∧
      Grouping v (some '(') (width qs) rs (Forest.spilled groups).reverse := by
  generalize hf : (⟨top, groups⟩ : Forest) = f at h
  induction h generalizing top groups with
  | @top top' ps h =>
      cases hf
      exact ⟨ps, [], (List.append_nil ps).symm, h, .nil _ _⟩
  | @inside top' items groups' ps qs outer h ih =>
      cases hf
      obtain ⟨closed, opened, rfl, hclosed, hopened⟩ := ih rfl
      refine ⟨closed, opened ++ (.openParen, ['(']) :: qs, List.append_assoc _ _ _, hclosed, ?_⟩
      have more := hopened.append (width_append closed opened).symm
        (.lone (.inl rfl) (h.weaken (some '(')))
      rw [Forest.spilled, List.reverse_append, List.reverse_cons, List.append_assoc]
      exact more

end Stands

/-- The trees of a text are groups and tokens, after which parentheses that close nothing are alone
first, and parentheses that are not closed later. -/
theorem ofSource_grouping (v : Vocabulary) (s : List Char) :
    ∃ ps qs ts us, lexemes s = ps ++ qs ∧ ofSource v s = ts ++ us ∧
      Grouping v (some ')') 0 ps ts ∧ Grouping v (some '(') (width ps) qs us := by
  have start : Stands v ⟨[], []⟩ [] := .top (.nil _ 0)
  have all := start.read (lexemes s) isPiece_of_mem_lexemes
  rw [width_nil, List.nil_append, ← scan_eq] at all
  obtain ⟨ps, qs, split, closed, opened⟩ := all.spilled
  refine ⟨ps, qs, _, _, split, ?_, closed, opened⟩
  rw [ofSource, Forest.close, List.reverse_append]

/-- A text without parentheses that are alone consists of groups and tokens. -/
theorem grouping_of_source {v : Vocabulary} {s : List Char}
    (h : ∀ span c, .char span c ∈ ofSource v s → c ≠ '(' ∧ c ≠ ')') :
    Grouping v none 0 (lexemes s) (ofSource v s) := by
  obtain ⟨ps, qs, ts, us, split, trees, closed, opened⟩ := ofSource_grouping v s
  rw [trees] at h ⊢
  rw [split]
  have left := closed.strengthen fun span c hc => h span c (List.mem_append_left us hc)
  have right := opened.strengthen fun span c hc => h span c (List.mem_append_right ts hc)
  exact left.append (Nat.zero_add _) right

/-- Groups and tokens are the trees of their text. -/
theorem ofSource_of_grouping {v : Vocabulary} {ps : List Piece} {ts : List TokenTree}
    (h : Grouping v none 0 ps ts) (hps : lexemes (chars ps) = ps) : ofSource v (chars ps) = ts := by
  rw [ofSource, scan_eq, hps, h.read]
  simp only [Forest.add, Forest.close, Forest.spilled, List.append_nil, List.nil_append,
    List.reverse_reverse]

end TokenTree

end AlgebraicTerms
