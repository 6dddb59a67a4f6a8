import AlgebraicTerms.Proofs.Token.Places
import Mathlib.Data.List.Forall2

/-!
# Writing out token trees

The trees of a text are its tokens, with the parentheses that match put together as groups.  Written
out from left to right, with the two parentheses of every group in their places, they are the trees
that the tokens stand for, one token after the other (`StandsFor`).  No group holds a parenthesis that
is alone, and at the top those that close nothing come before those that are not closed.
-/

namespace AlgebraicTerms

namespace TokenTree

open Token

variable {v : Vocabulary}

/-- The digits after a word of the vocabulary, as a number of their own. -/
def numberAfter (s : Span) (digits : List Char) : List TokenTree :=
  if digits = [] then [] else [.number s (String.ofList digits)]

/-- Whether a token stands for the trees.  Keywords go before constants, and neither has an index, so
that the digits after one are a number; any other name is one variable, with its digits as the index. -/
inductive StandsFor (v : Vocabulary) : Token → List TokenTree → Prop
  | blank (s : Span) (w : List Char) : StandsFor v ⟨.blank, s, w⟩ []
  | number (s : Span) (w : List Char) : StandsFor v ⟨.number, s, w⟩ [.number s (String.ofList w)]
  | keyword (s : Span) {letters digits : List Char} (hletters : IsLetters letters)
      (hdigits : ∀ c ∈ digits, c.isDigit = true)
      (hkeyword : v.isKeyword (String.ofList letters) = true) :
      StandsFor v ⟨.name, s, letters ++ digits⟩
        (.keyword ⟨s.start, s.start + byteLength letters⟩ (String.ofList letters) ::
          numberAfter ⟨s.start + byteLength letters, s.stop⟩ digits)
  | const (s : Span) {letters digits : List Char} (hletters : IsLetters letters)
      (hdigits : ∀ c ∈ digits, c.isDigit = true)
      (hkeyword : v.isKeyword (String.ofList letters) = false)
      (hconstant : v.isConstant (String.ofList letters) = true) :
      StandsFor v ⟨.name, s, letters ++ digits⟩
        (.const ⟨s.start, s.start + byteLength letters⟩ (String.ofList letters) ::
          numberAfter ⟨s.start + byteLength letters, s.stop⟩ digits)
  | var (s : Span) {letters digits : List Char} (hletters : IsLetters letters)
      (hdigits : ∀ c ∈ digits, c.isDigit = true)
      (hkeyword : v.isKeyword (String.ofList letters) = false)
      (hconstant : v.isConstant (String.ofList letters) = false) :
      StandsFor v ⟨.name, s, letters ++ digits⟩
        [.var s (String.ofList letters) (if digits = [] then none else some (String.ofList digits))]
  | single {k : TokenKind} (s : Span) (c : Char) (hblank : k ≠ .blank) (hnumber : k ≠ .number)
      (hname : k ≠ .name) : StandsFor v ⟨k, s, [c]⟩ [.char s c]

/-- Whether the trees are those that the tokens stand for, one token after the other. -/
def Spells (v : Vocabulary) (ts : List Token) (us : List TokenTree) : Prop :=
  ∃ tss, List.Forall₂ (StandsFor v) ts tss ∧ us = tss.flatten

mutual

/-- The tree as it stands in the text, a group as its parentheses with its items between them. -/
def writtenOut : TokenTree → List TokenTree
  | group s items =>
    .char ⟨s.start, s.start + 1⟩ '(' :: (allWrittenOut items ++ [.char s.lastByte ')'])
  | number s lexeme => [number s lexeme]
  | var s name index => [var s name index]
  | const s name => [const s name]
  | keyword s name => [keyword s name]
  | char s c => [char s c]

def allWrittenOut : List TokenTree → List TokenTree
  | [] => []
  | t :: ts => t.writtenOut ++ allWrittenOut ts

end

/-- Whether the tree is the given character alone. -/
def IsChar (c : Char) : TokenTree → Prop
  | char _ d => d = c
  | _ => False

mutual

/-- No group in the tree, at any depth, has a parenthesis among its items. -/
def GroupsMatch : TokenTree → Prop
  | group _ items => AllMatch items
  | _ => True

/-- None of the trees is a parenthesis, and no group in them has one among its items. -/
def AllMatch : List TokenTree → Prop
  | [] => True
  | t :: ts => (¬t.IsChar '(' ∧ ¬t.IsChar ')') ∧ t.GroupsMatch ∧ AllMatch ts

end

/-! ## The trees of one token -/

section OfToken

variable {k : TokenKind} {w : List Char} {s : Span} {t : Token} {us : List TokenTree}

theorem StandsFor.eq_ofToken (h : StandsFor v t us) : us = ofToken v t := by
  cases h with
  | blank => rfl
  | number => rfl
  | keyword s hletters hdigits hkeyword =>
      obtain ⟨letters, digits⟩ := Written.takeWhile_letters hletters hdigits
      simp only [ofToken, ofName, letters, digits, hkeyword, if_true, numberAfter, List.isEmpty_iff]
  | const s hletters hdigits hkeyword hconstant =>
      obtain ⟨letters, digits⟩ := Written.takeWhile_letters hletters hdigits
      simp only [ofToken, ofName, letters, digits, hkeyword, hconstant, if_true, if_false,
        Bool.false_eq_true, numberAfter, List.isEmpty_iff]
  | var s hletters hdigits hkeyword hconstant =>
      obtain ⟨letters, digits⟩ := Written.takeWhile_letters hletters hdigits
      simp only [ofToken, ofName, letters, digits, hkeyword, hconstant, if_false,
        Bool.false_eq_true, List.isEmpty_iff]
  | single s c hblank hnumber hname =>
      rw [ofToken_chars hblank hnumber hname]
      rfl

/-- What a name stands for depends on its letters, since no letter is a digit. -/
theorem standsFor_ofName (h : IsName w) : ∃ us, StandsFor v ⟨.name, s, w⟩ us := by
  obtain ⟨letters, digits, hletters, hdigits, rfl⟩ := h
  cases hkeyword : v.isKeyword (String.ofList letters) with
  | true => exact ⟨_, .keyword s hletters hdigits hkeyword⟩
  | false =>
      cases hconstant : v.isConstant (String.ofList letters) with
      | true => exact ⟨_, .const s hletters hdigits hkeyword hconstant⟩
      | false => exact ⟨_, .var s hletters hdigits hkeyword hconstant⟩

theorem exists_standsFor (h : IsPiece (k, w)) : ∃ us, StandsFor v ⟨k, s, w⟩ us := by
  by_cases hblank : k = .blank
  · subst hblank
    exact ⟨_, .blank s w⟩
  · by_cases hnumber : k = .number
    · subst hnumber
      exact ⟨_, .number s w⟩
    · by_cases hname : k = .name
      · subst hname
        exact standsFor_ofName h.name
      · obtain ⟨c, rfl, -⟩ := h.single hblank hnumber hname
        exact ⟨_, .single s c hblank hnumber hname⟩

/-- A token stands for its trees, and a parenthesis for itself alone. -/
theorem standsFor_ofToken (h : IsPiece (t.kind, t.lexeme)) : StandsFor v t (ofToken v t) := by
  obtain ⟨us, hus⟩ := exists_standsFor (v := v) (s := t.span) h
  rwa [hus.eq_ofToken] at hus

theorem spells_iff {ts : List Token} (h : ∀ t ∈ ts, IsPiece (t.kind, t.lexeme)) :
    Spells v ts us ↔ us = ts.flatMap (ofToken v) := by
  constructor
  · rintro ⟨tss, each, rfl⟩
    clear h
    induction each with
    | nil => rfl
    | cons first _ ih => rw [List.flatten_cons, List.flatMap_cons, ih, first.eq_ofToken]
  · rintro rfl
    refine ⟨ts.map (ofToken v), ?_, List.flatMap_def⟩
    rw [List.forall₂_map_right_iff, List.forall₂_same]
    exact fun t ht => standsFor_ofToken (h t ht)

/-- No tree of a token is a group, and its characters are in the token. -/
theorem StandsFor.plain {x : TokenTree} (h : StandsFor v ⟨k, s, w⟩ us) (hx : x ∈ us) :
    x.isGroup = false ∧ ∀ c, x.IsChar c → c ∈ w := by
  have number {s : Span} {digits : List Char} (hx : x ∈ numberAfter s digits) :
      x.isGroup = false ∧ ∀ c, x.IsChar c → c ∈ w := by
    unfold numberAfter at hx
    split at hx
    · cases hx
    · obtain rfl := List.mem_singleton.1 hx
      exact ⟨rfl, fun c hc => hc.elim⟩
  cases h with
  | blank => cases hx
  | keyword | const =>
      rcases List.mem_cons.1 hx with rfl | hx
      · exact ⟨rfl, fun c hc => hc.elim⟩
      · exact number hx
  | number | var =>
      obtain rfl := List.mem_singleton.1 hx
      exact ⟨rfl, fun c hc => hc.elim⟩
  | single s d =>
      obtain rfl := List.mem_singleton.1 hx
      exact ⟨rfl, fun c hc => List.mem_singleton.2 hc.symm⟩

end OfToken

/-! ## Trees without groups -/

theorem writtenOut_eq {t : TokenTree} (h : t.isGroup = false) : t.writtenOut = [t] := by
  cases t with
  | group => cases h
  | _ => rfl

theorem groupsMatch_of_not_isGroup {t : TokenTree} (h : t.isGroup = false) : t.GroupsMatch := by
  cases t with
  | group => cases h
  | _ => trivial

theorem allWrittenOut_append (ts us : List TokenTree) :
    allWrittenOut (ts ++ us) = allWrittenOut ts ++ allWrittenOut us := by
  induction ts with
  | nil => rfl
  | cons t ts ih => rw [List.cons_append, allWrittenOut, ih, allWrittenOut, List.append_assoc]

theorem allWrittenOut_eq {ts : List TokenTree} (h : ∀ t ∈ ts, t.isGroup = false) :
    allWrittenOut ts = ts := by
  induction ts with
  | nil => rfl
  | cons t ts ih =>
      rw [allWrittenOut, writtenOut_eq (h t List.mem_cons_self),
        ih fun u hu => h u (List.mem_cons_of_mem _ hu), List.singleton_append]

theorem allMatch_iff {ts : List TokenTree} :
    AllMatch ts ↔ ∀ t ∈ ts, (¬t.IsChar '(' ∧ ¬t.IsChar ')') ∧ t.GroupsMatch := by
  induction ts with
  | nil => exact ⟨fun _ => nofun, fun _ => trivial⟩
  | cons t ts ih => rw [AllMatch, ih, List.forall_mem_cons, ← and_assoc]

/-! ## The trees of pieces -/

/-- No parenthesis is alone in the tree but the given one, and that only outside of all groups. -/
def Admits (lone : Option Char) (t : TokenTree) : Prop :=
  t.GroupsMatch ∧ ∀ c, c = '(' ∨ c = ')' → t.IsChar c → lone = some c

theorem allMatch_of_admits {ts : List TokenTree} (h : ∀ t ∈ ts, t.Admits none) : AllMatch ts := by
  refine allMatch_iff.2 fun t ht => ?_
  obtain ⟨inside, parens⟩ := h t ht
  exact ⟨⟨fun hc => (nomatch parens '(' (.inl rfl) hc), fun hc => (nomatch parens ')' (.inr rfl) hc)⟩,
    inside⟩

namespace Grouping

variable {lone : Option Char} {offset : Nat} {ps : List Piece} {ts : List TokenTree}

/-- The trees are written out as their tokens are read, a parenthesis being its own tree. -/
theorem allWrittenOut_trees (h : Grouping v lone offset ps ts) (pieces : ∀ p ∈ ps, IsPiece p) :
    allWrittenOut ts = (place offset ps).flatMap (ofToken v) := by
  induction h with
  | nil => rfl
  | @token lone offset k w ps ts hopen hclose rest ih =>
      have stands := standsFor_ofToken (v := v) (t := ⟨k, ⟨offset, offset + byteLength w⟩, w⟩)
        (pieces _ List.mem_cons_self)
      rw [place, List.flatMap_cons, allWrittenOut_append,
        allWrittenOut_eq fun t ht => (stands.plain ht).1,
        ih fun p hp => pieces p (List.mem_cons_of_mem _ hp)]
  | @group lone offset qs ps us ts inside rest ihInside ih =>
      have hqs : ∀ p ∈ qs, IsPiece p := fun p hp => pieces p (by simp [hp])
      have hps : ∀ p ∈ ps, IsPiece p := fun p hp => pieces p (by simp [hp])
      have opened : ofToken v ⟨.openParen, ⟨offset, offset + 1⟩, ['(']⟩ =
          [.char ⟨offset, offset + 1⟩ '('] := rfl
      have closed : ofToken v ⟨.closeParen,
          ⟨offset + 1 + width qs, offset + 1 + width qs + 1⟩, [')']⟩ =
            [.char (Span.lastByte ⟨offset, offset + 1 + width qs + 1⟩) ')'] := rfl
      rw [place, place_append, place, byteLength_openParen, byteLength_closeParen, List.flatMap_cons,
        List.flatMap_append, List.flatMap_cons, opened, closed, ← ihInside hqs, ← ih hps]
      simp [TokenTree.allWrittenOut, writtenOut]
  | @lone c offset ps ts hc rest ih =>
      have hps : ∀ p ∈ ps, IsPiece p := fun p hp => pieces p (List.mem_cons_of_mem _ hp)
      rw [place, List.flatMap_cons, TokenTree.allWrittenOut, ih hps]
      rcases hc with rfl | rfl <;> rfl

/-- Parentheses are in groups, but for those that may be alone. -/
theorem admits (h : Grouping v lone offset ps ts) (pieces : ∀ p ∈ ps, IsPiece p) :
    ∀ t ∈ ts, t.Admits lone := by
  induction h with
  | nil => exact nofun
  | @token lone offset k w ps ts hopen hclose rest ih =>
      have piece := pieces _ List.mem_cons_self
      have stands := standsFor_ofToken (v := v) (t := ⟨k, ⟨offset, offset + byteLength w⟩, w⟩) piece
      intro t ht
      rcases List.mem_append.1 ht with ht | ht
      · obtain ⟨plain, chars⟩ := stands.plain ht
        refine ⟨groupsMatch_of_not_isGroup plain, fun c paren hc => ?_⟩
        have other := piece.not_paren hopen hclose c (chars c hc)
        exact absurd paren (not_or.2 other)
      · exact ih (fun p hp => pieces p (List.mem_cons_of_mem _ hp)) t ht
  | @group lone offset qs ps us ts inside rest ihInside ih =>
      have matched := allMatch_of_admits (ihInside fun p hp => pieces p (by simp [hp]))
      exact List.forall_mem_cons.2
        ⟨⟨matched, fun c _ hc => hc.elim⟩, ih fun p hp => pieces p (by simp [hp])⟩
  | @lone c offset ps ts hc rest ih =>
      have alone : (TokenTree.char ⟨offset, offset + 1⟩ c).Admits (some c) :=
        ⟨trivial, fun d _ hd => congrArg some hd⟩
      exact List.forall_mem_cons.2 ⟨alone, ih fun p hp => pieces p (List.mem_cons_of_mem _ hp)⟩

end Grouping

/-- The trees of a text, written out, are what its tokens stand for and nothing else.  No group holds
a parenthesis that is alone, and at the top those that close nothing come first. -/
theorem ofSource_writtenOut (v : Vocabulary) (source : List Char) :
    (∀ us, Spells v (scan source) us ↔ us = allWrittenOut (ofSource v source)) ∧
      (∀ t ∈ ofSource v source, t.GroupsMatch) ∧
      (ofSource v source).Pairwise fun t u => ¬(t.IsChar '(' ∧ u.IsChar ')') := by
  obtain ⟨ps, qs, ts, us, cut, trees, closed, opened⟩ := ofSource_grouping v source
  have pieces : ∀ p ∈ ps ++ qs, IsPiece p := cut ▸ isPiece_of_mem_lexemes
  have hps : ∀ p ∈ ps, IsPiece p := fun p hp => pieces p (List.mem_append_left qs hp)
  have hqs : ∀ p ∈ qs, IsPiece p := fun p hp => pieces p (List.mem_append_right ps hp)
  have first := closed.admits hps
  have second := opened.admits hqs
  rw [trees]
  refine ⟨fun ws => ?_, ?_, ?_⟩
  · have tokens : ∀ t ∈ scan source, IsPiece (t.kind, t.lexeme) := fun t ht =>
      isPiece_of_mem_lexemes _ (mem_place (scan_eq source ▸ ht))
    rw [spells_iff tokens, allWrittenOut_append, closed.allWrittenOut_trees hps,
      opened.allWrittenOut_trees hqs,
      scan_eq, cut, place_append, List.flatMap_append, Nat.zero_add]
  · intro t ht
    rcases List.mem_append.1 ht with ht | ht
    · exact (first t ht).1
    · exact (second t ht).1
  · have notOpen : ∀ t ∈ ts, ¬t.IsChar '(' := fun t ht hc => nomatch (first t ht).2 '(' (.inl rfl) hc
    have notClose : ∀ t ∈ us, ¬t.IsChar ')' := fun t ht hc =>
      nomatch (second t ht).2 ')' (.inr rfl) hc
    refine List.pairwise_append.2 ⟨?_, ?_, ?_⟩
    · exact List.pairwise_of_forall_mem_list fun t ht _ _ h => notOpen t ht h.1
    · exact List.pairwise_of_forall_mem_list fun _ _ u hu h => notClose u hu h.2
    · exact fun t ht _ _ h => notOpen t ht h.1

end TokenTree

end AlgebraicTerms
