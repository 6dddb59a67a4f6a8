import AlgebraicTerms.Proofs.Token.Grouping
import Mathlib.Data.List.Basic

/-!
# The places of trees

Where the trees of a text stand in it.  The trees of some pieces go from the first piece that is no
blank to the last one (`Grouping.trim`), the pieces can be taken apart at an operator or a group
(`Grouping.split`), and pieces that are moved have the same trees at other places (`Grouping.back`).
-/

namespace AlgebraicTerms

namespace Span

/-- The source is `before`, then `w`, then `after`, and the span covers `w`. -/
def Covers (s : Span) (source before w after : List Char) : Prop :=
  source = before ++ (w ++ after) ∧ s = ⟨byteLength before, byteLength before + byteLength w⟩

/-- The span covers the characters `w` of the source, and no part of another character. -/
def Quotes (s : Span) (source w : List Char) : Prop := ∃ before after, s.Covers source before w after

/-- The span in a source without its first `k` bytes. -/
def back (k : Nat) (s : Span) : Span := ⟨s.start - k, s.stop - k⟩

end Span

theorem dropBytes_append (s t : List Char) : dropBytes (byteLength s) (s ++ t) = t := by
  induction s with
  | nil =>
      cases t with
      | nil => rfl
      | cons c t => exact if_pos c.utf8Size_pos
  | cons c s ih =>
      have whole : ¬byteLength (c :: s) < c.utf8Size := Nat.not_lt.2 (Nat.le_add_right _ _)
      rw [List.cons_append, dropBytes, if_neg whole, byteLength, Nat.add_sub_cancel_left, ih]

theorem takeBytes_append (s t : List Char) : takeBytes (byteLength s) (s ++ t) = s := by
  induction s with
  | nil =>
      cases t with
      | nil => rfl
      | cons c t => exact if_pos c.utf8Size_pos
  | cons c s ih =>
      have whole : ¬byteLength (c :: s) < c.utf8Size := Nat.not_lt.2 (Nat.le_add_right _ _)
      rw [List.cons_append, takeBytes, if_neg whole, byteLength, Nat.add_sub_cancel_left, ih]

theorem Span.Quotes.slice {s : Span} {source w : List Char} (h : s.Quotes source w) :
    s.slice source = w := by
  obtain ⟨before, after, rfl, rfl⟩ := h
  rw [Span.slice, dropBytes_append, Nat.add_sub_cancel_left, takeBytes_append]

namespace TokenTree

open Token

mutual

/-- The tree in a source without its first `k` bytes. -/
def back (k : Nat) : TokenTree → TokenTree
  | number s lexeme => number (s.back k) lexeme
  | var s name index => var (s.back k) name index
  | const s name => const (s.back k) name
  | keyword s name => keyword (s.back k) name
  | group s items => group (s.back k) (backAll k items)
  | char s c => char (s.back k) c

def backAll (k : Nat) : List TokenTree → List TokenTree
  | [] => []
  | t :: ts => t.back k :: backAll k ts

end

theorem backAll_eq_map (k : Nat) (ts : List TokenTree) : backAll k ts = ts.map (back k) := by
  induction ts with
  | nil => rfl
  | cons t ts ih => rw [backAll, ih, List.map_cons]

theorem backAll_append (k : Nat) (ts us : List TokenTree) :
    backAll k (ts ++ us) = backAll k ts ++ backAll k us := by
  simp only [backAll_eq_map, List.map_append]

/-! ## The trees of a token -/

section OfToken

variable {v : Vocabulary} {k : TokenKind} {w : List Char} {offset : Nat}

/-- The trees are one that covers the span, or a word and a number that share it. -/
def Share (span : Span) (ts : List TokenTree) : Prop :=
  (∃ x, ts = [x] ∧ x.span = span ∧ x.isGroup = false) ∨
    ∃ x s lexeme, ts = [x, .number s lexeme] ∧ x.span.start = span.start ∧ s.stop = span.stop ∧
      x.isGroup = false ∧ ∀ s c, x ≠ .char s c

/-- Letters that are a word of the vocabulary are told apart from digits after them. -/
theorem ofName_share (t : Token) (ht : t.span.stop = t.span.start + byteLength t.lexeme) :
    Share t.span (ofName v t) := by
  let letters := t.lexeme.takeWhile (!·.isDigit)
  let digits := t.lexeme.dropWhile (!·.isDigit)
  let nameSpan : Span := ⟨t.span.start, t.span.start + byteLength letters⟩
  have whole (h : digits.isEmpty = true) : nameSpan = t.span := by
    have all : letters = t.lexeme := by
      have split : letters ++ digits = t.lexeme := List.takeWhile_append_dropWhile
      rw [← split, List.isEmpty_iff.1 h, List.append_nil]
    simp only [nameSpan, all, ← ht]
  have word (x : TokenTree) (hx : x.span = nameSpan) (group : x.isGroup = false)
      (char : ∀ s c, x ≠ .char s c) (ts : List TokenTree)
      (hts : ts = x :: if digits.isEmpty then [] else
        [.number ⟨t.span.start + byteLength letters, t.span.stop⟩ (String.ofList digits)]) :
      Share t.span ts := by
    by_cases h : digits.isEmpty = true
    · rw [if_pos h] at hts
      exact .inl ⟨x, hts, hx.trans (whole h), group⟩
    · rw [if_neg h] at hts
      exact .inr ⟨x, _, _, hts, by rw [hx], rfl, group, char⟩
  simp only [ofName]
  split
  · exact word (.keyword nameSpan _) rfl rfl (by rintro _ _ ⟨⟩) _ rfl
  · split
    · exact word (.const nameSpan _) rfl rfl (by rintro _ _ ⟨⟩) _ rfl
    · exact .inl ⟨_, rfl, rfl, rfl⟩

/-- A token has no trees if it is blank, and else one or two that share its span. -/
theorem ofToken_cases (v : Vocabulary) (offset : Nat) (h : IsPiece (k, w)) :
    (k = .blank ∧ ofToken v ⟨k, ⟨offset, offset + byteLength w⟩, w⟩ = []) ∨
      Share ⟨offset, offset + byteLength w⟩
        (ofToken v ⟨k, ⟨offset, offset + byteLength w⟩, w⟩) := by
  unfold ofToken
  split
  · exact .inl ⟨by assumption, rfl⟩
  · exact .inr (.inl ⟨_, rfl, rfl, rfl⟩)
  · exact .inr (ofName_share _ rfl)
  · rename_i blank number name
    obtain ⟨c, rfl, _⟩ := h.single blank number name
    exact .inr (.inl ⟨_, rfl, rfl, rfl⟩)

section Trees

variable {x : TokenTree} (h : IsPiece (k, w))

include h

theorem ofToken_eq_nil (none : ofToken v ⟨k, ⟨offset, offset + byteLength w⟩, w⟩ = []) :
    k = .blank := by
  rcases ofToken_cases v offset h with ⟨blank, -⟩ | ⟨y, trees, -⟩ | ⟨y, s, lexeme, trees, -⟩
  · exact blank
  · cases none.symm.trans trees
  · cases none.symm.trans trees

theorem ofToken_eq_singleton (single : ofToken v ⟨k, ⟨offset, offset + byteLength w⟩, w⟩ = [x]) :
    x.span = ⟨offset, offset + byteLength w⟩ ∧ x.isGroup = false := by
  rcases ofToken_cases v offset h with ⟨-, trees⟩ | ⟨y, trees, place⟩ | ⟨y, s, lexeme, trees, -⟩
  · cases single.symm.trans trees
  · cases single.symm.trans trees
    exact place
  · cases single.symm.trans trees

/-- No tree of a token is a group, and a character is its only one. -/
theorem of_mem_ofToken (hx : x ∈ ofToken v ⟨k, ⟨offset, offset + byteLength w⟩, w⟩) :
    x.isGroup = false ∧ (ofToken v ⟨k, ⟨offset, offset + byteLength w⟩, w⟩ = [x] ∨
      ∀ s c, x ≠ .char s c) := by
  rcases ofToken_cases v offset h with ⟨-, trees⟩ | ⟨y, trees, -, group⟩ |
    ⟨y, s, lexeme, trees, -, -, group, char⟩
  · rw [trees] at hx
    cases hx
  · rw [trees] at hx
    obtain rfl := List.eq_of_mem_singleton hx
    exact ⟨group, .inl trees⟩
  · rw [trees] at hx
    rcases List.mem_cons.1 hx with rfl | hx
    · exact ⟨group, .inr char⟩
    · obtain rfl := List.eq_of_mem_singleton hx
      exact ⟨rfl, .inr (by rintro _ _ ⟨⟩)⟩

/-- The trees of a token begin and end with it. -/
theorem ofToken_bounds (filled : ofToken v ⟨k, ⟨offset, offset + byteLength w⟩, w⟩ ≠ []) :
    (∀ x ∈ (ofToken v ⟨k, ⟨offset, offset + byteLength w⟩, w⟩).head?, x.span.start = offset) ∧
      ∀ x ∈ (ofToken v ⟨k, ⟨offset, offset + byteLength w⟩, w⟩).getLast?,
        x.span.stop = offset + byteLength w := by
  rcases ofToken_cases v offset h with ⟨-, trees⟩ | ⟨y, trees, place, -⟩ |
    ⟨y, s, lexeme, trees, start, stop, -⟩
  · exact absurd trees filled
  · rw [trees]
    constructor
    · rintro x ⟨⟩
      exact congrArg Span.start place
    · rintro x ⟨⟩
      exact congrArg Span.stop place
  · rw [trees]
    constructor
    · rintro x ⟨⟩
      exact start
    · rintro x ⟨⟩
      exact stop

end Trees

theorem ofToken_chars (hblank : k ≠ .blank) (hnumber : k ≠ .number) (hname : k ≠ .name) (s : Span) :
    ofToken v ⟨k, s, w⟩ = w.map (.char s) := by
  cases k <;> first | rfl | exact absurd rfl hblank | exact absurd rfl hnumber | exact absurd rfl hname

/-- The trees of a token are moved with it. -/
theorem backAll_ofToken (n : Nat) :
    backAll n (ofToken v ⟨k, ⟨n + offset, n + offset + byteLength w⟩, w⟩) =
      ofToken v ⟨k, ⟨offset, offset + byteLength w⟩, w⟩ := by
  have first : n + offset - n = offset := by omega
  have next (m : Nat) : n + offset + m - n = offset + m := by omega
  by_cases hname : k = .name
  · subst hname
    simp only [ofToken, ofName]
    split
    · split <;> simp only [backAll, back, Span.back, first, next]
    · split
      · split <;> simp only [backAll, back, Span.back, first, next]
      · simp only [backAll, back, Span.back, first, next]
  · by_cases hblank : k = .blank
    · subst hblank
      rfl
    · by_cases hnumber : k = .number
      · subst hnumber
        simp only [ofToken, backAll, back, Span.back, first, next]
      · rw [ofToken_chars hblank hnumber hname, ofToken_chars hblank hnumber hname, backAll_eq_map,
          List.map_map]
        refine List.map_congr_left fun c _ => ?_
        simp only [Function.comp, back, Span.back, first, next]

end OfToken

/-- A tree that is never one of several trees of a token. -/
def IsSingle (v : Vocabulary) (x : TokenTree) : Prop :=
  ∀ k w offset, IsPiece (k, w) → x ∈ ofToken v ⟨k, ⟨offset, offset + byteLength w⟩, w⟩ →
    ofToken v ⟨k, ⟨offset, offset + byteLength w⟩, w⟩ = [x]

theorem isSingle_char (v : Vocabulary) (s : Span) (c : Char) : IsSingle v (.char s c) :=
  fun _ _ _ h hx => (of_mem_ofToken h hx).2.resolve_right fun other => other s c rfl

theorem isSingle_group (v : Vocabulary) (s : Span) (items : List TokenTree) :
    IsSingle v (.group s items) :=
  fun _ _ _ h hx => Bool.noConfusion (of_mem_ofToken h hx).1

/-- A tree with all of the pieces that it was read from. -/
inductive Fills (v : Vocabulary) (offset : Nat) : List Piece → TokenTree → Prop
  | token {k : TokenKind} {w : List Char} {x : TokenTree} (h : IsPiece (k, w))
      (trees : ofToken v ⟨k, ⟨offset, offset + byteLength w⟩, w⟩ = [x]) : Fills v offset [(k, w)] x
  | group {qs : List Piece} {us : List TokenTree} (inside : Grouping v none (offset + 1) qs us) :
      Fills v offset ((.openParen, ['(']) :: (qs ++ [(.closeParen, [')'])]))
        (.group ⟨offset, offset + 1 + width qs + 1⟩ us)

theorem Fills.span {v : Vocabulary} {offset : Nat} {ps : List Piece} {x : TokenTree}
    (h : Fills v offset ps x) : x.span = ⟨offset, offset + width ps⟩ := by
  cases h with
  | token h trees =>
      rw [width_cons, width_nil]
      exact (ofToken_eq_singleton h trees).1
  | group inside =>
      simp only [TokenTree.span, width_cons, width_append, width_nil, byteLength_openParen,
        byteLength_closeParen, Span.mk.injEq, true_and]
      omega

theorem Fills.width_pos {v : Vocabulary} {offset : Nat} {ps : List Piece} {x : TokenTree}
    (h : Fills v offset ps x) : 0 < width ps := by
  cases h with
  | token h _ => exact h.width_pos _
  | group inside => exact Nat.lt_of_lt_of_le Nat.zero_lt_one (Nat.le_add_right _ _)

/-- A group is filled by its parentheses and what is between them. -/
theorem Fills.group_inv {v : Vocabulary} {offset : Nat} {ps : List Piece} {s : Span}
    {items : List TokenTree} (h : Fills v offset ps (.group s items)) :
    ∃ qs, ps = (.openParen, ['(']) :: (qs ++ [(.closeParen, [')'])]) ∧
      Grouping v none (offset + 1) qs items ∧ s = ⟨offset, offset + 1 + width qs + 1⟩ := by
  cases h with
  | token h trees => cases (ofToken_eq_singleton h trees).2
  | group inside => exact ⟨_, rfl, inside, rfl⟩

/-! ## Parts of a text -/

namespace Grouping

variable {v : Vocabulary} {lone : Option Char} {offset : Nat} {ps : List Piece} {ts us : List TokenTree}
  {x : TokenTree}

/-- Pieces that are moved have the same trees, moved as far. -/
theorem back {n : Nat} (offset : Nat) (h : Grouping v lone (n + offset) ps ts) :
    Grouping v lone offset ps (backAll n ts) := by
  generalize hstart : n + offset = start at h
  induction h generalizing offset with
  | nil => exact .nil _ _
  | @token lone start k w ps ts hopen hclose _ ih =>
      subst hstart
      rw [backAll_append, backAll_ofToken]
      exact .token hopen hclose (ih _ (Nat.add_assoc _ _ _).symm)
  | @group lone start qs ps us ts _ _ ihInside ih =>
      subst hstart
      have inside := ihInside (offset + 1) (Nat.add_assoc _ _ _).symm
      have rest := ih (offset + 1 + width qs + 1) (by omega)
      have place : (⟨n + offset, n + offset + 1 + width qs + 1⟩ : Span).back n =
          ⟨offset, offset + 1 + width qs + 1⟩ := by
        simp only [Span.back, Span.mk.injEq]
        omega
      rw [backAll, TokenTree.back, place]
      exact .group inside rest
  | @lone c start ps ts hc _ ih =>
      subst hstart
      have place : (⟨n + offset, n + offset + 1⟩ : Span).back n = ⟨offset, offset + 1⟩ := by
        simp only [Span.back, Span.mk.injEq]
        omega
      rw [backAll, TokenTree.back, place]
      exact .lone hc (ih _ (Nat.add_assoc _ _ _).symm)

/-- Blanks before the first tree can be left out. -/
theorem trimLeft (h : Grouping v none offset ps ts) (pieces : ∀ p ∈ ps, IsPiece p) (hts : ts ≠ []) :
    ∃ before rest, ps = before ++ rest ∧ Grouping v none (offset + width before) rest ts ∧
      ∀ x ∈ ts.head?, x.span.start = offset + width before := by
  generalize hnone : (none : Option Char) = none' at h
  induction h with
  | nil => exact absurd rfl hts
  | @token _ offset k w ps ts hopen hclose rest ih =>
      subst hnone
      have whole := Grouping.token hopen hclose rest
      by_cases filled : ofToken v ⟨k, ⟨offset, offset + byteLength w⟩, w⟩ = []
      · rw [filled, List.nil_append] at hts ⊢
        obtain ⟨before, rest', rfl, grouping, first⟩ :=
          ih (fun p hp => pieces p (List.mem_cons_of_mem _ hp)) hts rfl
        refine ⟨(k, w) :: before, rest', rfl, ?_⟩
        rw [width_cons, ← Nat.add_assoc]
        exact ⟨grouping, first⟩
      · refine ⟨[], _, rfl, whole, ?_⟩
        rw [List.head?_append_of_ne_nil _ filled]
        exact (ofToken_bounds (pieces _ List.mem_cons_self) filled).1
  | group inside rest =>
      subst hnone
      refine ⟨[], _, rfl, .group inside rest, ?_⟩
      rintro x ⟨⟩
      rfl
  | lone => cases hnone

/-- Blanks after the last tree can be left out. -/
theorem trimRight (h : Grouping v none offset ps ts) (pieces : ∀ p ∈ ps, IsPiece p) (hts : ts ≠ []) :
    ∃ rest after, ps = rest ++ after ∧ Grouping v none offset rest ts ∧
      ∀ x ∈ ts.getLast?, x.span.stop = offset + width rest := by
  generalize hnone : (none : Option Char) = none' at h
  induction h with
  | nil => exact absurd rfl hts
  | @token _ offset k w ps ts hopen hclose rest ih =>
      subst hnone
      by_cases last : ts = []
      · subst last
        have alone : Grouping v none offset [(k, w)] _ := .token hopen hclose (.nil none _)
        rw [List.append_nil] at hts alone ⊢
        refine ⟨[(k, w)], ps, rfl, alone, ?_⟩
        rw [width_cons, width_nil]
        exact (ofToken_bounds (pieces _ List.mem_cons_self) hts).2
      · obtain ⟨rest', after, rfl, grouping, stop⟩ :=
          ih (fun p hp => pieces p (List.mem_cons_of_mem _ hp)) last rfl
        refine ⟨(k, w) :: rest', after, rfl, .token hopen hclose grouping, ?_⟩
        rw [List.getLast?_append_of_ne_nil _ last, width_cons, ← Nat.add_assoc]
        exact stop
  | @group _ offset qs ps us ts inside rest _ ih =>
      subst hnone
      by_cases last : ts = []
      · subst last
        refine ⟨_, ps, ?_, .group inside (.nil none _), ?_⟩
        · rw [List.cons_append, List.append_assoc, List.singleton_append]
        · intro x hx
          rw [List.getLast?_singleton] at hx
          cases hx
          simp only [TokenTree.span, width_cons, width_append, width_nil, byteLength_openParen,
            byteLength_closeParen]
          omega
      · obtain ⟨rest', after, rfl, grouping, stop⟩ := ih (fun p hp => pieces p
          (List.mem_cons_of_mem _ (List.mem_append_right _ (List.mem_cons_of_mem _ hp)))) last rfl
        refine ⟨_, after, ?_, .group inside grouping, ?_⟩
        · simp
        · obtain ⟨t, ts, rfl⟩ := List.exists_cons_of_ne_nil last
          rw [List.getLast?_cons_cons]
          intro x hx
          rw [stop x hx]
          simp only [width_cons, width_append, byteLength_openParen, byteLength_closeParen]
          omega
  | lone => cases hnone

/-- The trees of pieces are those of the pieces from the first to the last that is no blank. -/
theorem trim (h : Grouping v none offset ps ts) (pieces : ∀ p ∈ ps, IsPiece p) (hts : ts ≠ []) :
    ∃ before rest after, ps = before ++ (rest ++ after) ∧
      Grouping v none (offset + width before) rest ts ∧
      (∀ x ∈ ts.head?, x.span.start = offset + width before) ∧
      ∀ x ∈ ts.getLast?, x.span.stop = offset + width before + width rest := by
  obtain ⟨before, rest, rfl, grouping, start⟩ := h.trimLeft pieces hts
  obtain ⟨rest, after, rfl, grouping, stop⟩ :=
    grouping.trimRight (fun p hp => pieces p (List.mem_append_right _ hp)) hts
  exact ⟨before, rest, after, rfl, grouping, start, stop⟩

/-- Pieces with a tree are not empty. -/
theorem width_pos (h : Grouping v none offset ps ts) (pieces : ∀ p ∈ ps, IsPiece p) (hts : ts ≠ []) :
    0 < width ps := by
  cases h with
  | nil => exact absurd rfl hts
  | token _ _ _ => exact (pieces _ List.mem_cons_self).width_pos _
  | group => exact Nat.lt_of_lt_of_le Nat.zero_lt_one (Nat.le_add_right _ _)

/-- Trees go from the first of them to the last, and stay within their pieces. -/
theorem bounds (h : Grouping v none offset ps ts) (pieces : ∀ p ∈ ps, IsPiece p) {y : TokenTree}
    (hx : x ∈ ts.head?) (hy : y ∈ ts.getLast?) :
    offset ≤ x.span.start ∧ x.span.start < y.span.stop ∧ y.span.stop ≤ offset + width ps := by
  have hts : ts ≠ [] := by
    rintro rfl
    cases hx
  obtain ⟨before, rest, after, rfl, grouping, start, stop⟩ := h.trim pieces hts
  have filled := grouping.width_pos (fun p hp => pieces p
    (List.mem_append_right _ (List.mem_append_left _ hp))) hts
  rw [start x hx, stop y hy]
  simp only [width_append]
  omega

/-- A tree that is never one of several is the only one of the first token, or comes after it. -/
theorem alone_or_after {k : TokenKind} {w : List Char} (hx : IsSingle v x) (h : IsPiece (k, w))
    {rest : List TokenTree}
    (split : ts ++ x :: us = ofToken v ⟨k, ⟨offset, offset + byteLength w⟩, w⟩ ++ rest) :
    (ts = [] ∧ ofToken v ⟨k, ⟨offset, offset + byteLength w⟩, w⟩ = [x] ∧ rest = us) ∨
      ∃ ts', ts = ofToken v ⟨k, ⟨offset, offset + byteLength w⟩, w⟩ ++ ts' ∧
        ts' ++ x :: us = rest := by
  rcases List.append_eq_append_iff.1 split with ⟨as, hfirst, hrest⟩ | ⟨bs, hfirst, hrest⟩
  · cases as with
    | nil => exact .inr ⟨[], by rw [hfirst, List.append_nil, List.append_nil], hrest⟩
    | cons a as =>
        cases hrest
        have only := hx k w offset h (by rw [hfirst]; simp)
        rw [hfirst] at only ⊢
        obtain ⟨rfl, _, rfl⟩ : ts = [] ∧ x = x ∧ as = [] := by
          simpa [List.append_eq_cons_iff] using only
        exact .inl ⟨rfl, rfl, rfl⟩
  · exact .inr ⟨bs, hfirst, hrest.symm⟩

/-- Pieces can be taken apart at a tree that is never one of several. -/
theorem split (hx : IsSingle v x) (h : Grouping v none offset ps (ts ++ x :: us))
    (pieces : ∀ p ∈ ps, IsPiece p) :
    ∃ before mid after, ps = before ++ (mid ++ after) ∧ Grouping v none offset before ts ∧
      Fills v (offset + width before) mid x ∧
      Grouping v none (offset + width before + width mid) after us := by
  generalize hnone : (none : Option Char) = none' at h
  generalize htrees : ts ++ x :: us = trees at h
  induction h generalizing ts with
  | nil => exact absurd htrees (by simp)
  | @token _ offset k w ps trees hopen hclose rest ih =>
      subst hnone
      rcases alone_or_after hx (pieces _ List.mem_cons_self) htrees with
        ⟨rfl, trees, rfl⟩ | ⟨ts, rfl, hrest⟩
      · refine ⟨[], [(k, w)], ps, rfl, .nil _ _, .token (pieces _ List.mem_cons_self) trees, ?_⟩
        rw [width_nil, width_cons, width_nil]
        exact rest
      · obtain ⟨before, mid, after, rfl, left, fills, right⟩ :=
          ih (fun p hp => pieces p (List.mem_cons_of_mem _ hp)) rfl hrest
        refine ⟨(k, w) :: before, mid, after, rfl, .token hopen hclose left, ?_⟩
        rw [width_cons, ← Nat.add_assoc]
        exact ⟨fills, right⟩
  | @group _ offset qs ps inner trees inside rest _ ih =>
      subst hnone
      have split : (.openParen, ['(']) :: (qs ++ (.closeParen, [')']) :: ps) =
          (.openParen, ['(']) :: (qs ++ [(.closeParen, [')'])]) ++ ps := by
        simp
      cases ts with
      | nil =>
          cases htrees
          refine ⟨[], _, ps, split, .nil _ _, .group inside, ?_⟩
          have stop : offset + width [] + width ((.openParen, ['(']) :: (qs ++ [(.closeParen, [')'])])) =
              offset + 1 + width qs + 1 := by
            simp only [width_cons, width_append, width_nil, byteLength_openParen, byteLength_closeParen]
            omega
          rw [stop]
          exact rest
      | cons t ts =>
          obtain ⟨rfl, hrest⟩ := List.cons.inj htrees
          obtain ⟨before, mid, after, rfl, left, fills, right⟩ := ih (fun p hp => pieces p
            (List.mem_cons_of_mem _ (List.mem_append_right _ (List.mem_cons_of_mem _ hp)))) rfl hrest
          refine ⟨(.openParen, ['(']) :: (qs ++ (.closeParen, [')']) :: before), mid, after, by simp,
            .group inside left, ?_⟩
          have stop : offset + width ((.openParen, ['(']) :: (qs ++ (.closeParen, [')']) :: before)) =
              offset + 1 + width qs + 1 + width before := by
            simp only [width_cons, width_append, byteLength_openParen, byteLength_closeParen]
            omega
          rw [stop]
          exact ⟨fills, right⟩
  | lone => cases hnone

/-- An operator is between the pieces of what comes before it and after it. -/
theorem split_char (ts : List TokenTree) {s : Span} {c : Char}
    (h : Grouping v none offset ps (ts ++ .char s c :: us)) (pieces : ∀ p ∈ ps, IsPiece p) :
    ∃ before mid after, ps = before ++ (mid ++ after) ∧ Grouping v none offset before ts ∧
      s = ⟨offset + width before, offset + width before + width mid⟩ ∧ 0 < width mid ∧
      Grouping v none (offset + width before + width mid) after us := by
  obtain ⟨before, mid, after, rfl, left, fills, right⟩ := h.split (isSingle_char v s c) pieces
  have place : s = ⟨offset + width before, offset + width before + width mid⟩ := fills.span
  have filled : 0 < width mid := fills.width_pos
  exact ⟨before, mid, after, rfl, left, place, filled, right⟩

/-- The items of a group are the trees of the pieces between its parentheses. -/
theorem split_group (ts : List TokenTree) {s : Span} {items : List TokenTree}
    (h : Grouping v none offset ps (ts ++ .group s items :: us)) (pieces : ∀ p ∈ ps, IsPiece p) :
    ∃ before inner after,
      ps = before ++ ((.openParen, ['(']) :: (inner ++ (.closeParen, [')']) :: after)) ∧
      Grouping v none offset before ts ∧ Grouping v none (offset + width before + 1) inner items ∧
      s = ⟨offset + width before, offset + width before + 1 + width inner + 1⟩ := by
  obtain ⟨before, mid, after, rfl, left, fills, right⟩ := h.split (isSingle_group v s items) pieces
  obtain ⟨inner, rfl, inside, place⟩ := fills.group_inv
  exact ⟨before, inner, after, by simp, left, inside, place⟩

end Grouping

end TokenTree

end AlgebraicTerms
