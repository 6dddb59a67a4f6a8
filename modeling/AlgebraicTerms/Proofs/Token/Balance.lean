import AlgebraicTerms.Proofs.Token.Places

/-!
# Balanced parentheses

The parentheses of a text are matched as usual: a closing one with the last opening one before it that
is not closed yet.  `Balanced` texts have a partner for each, and two parentheses are partners if the
text between them is balanced.  Groups are balanced inside, and a parenthesis that is alone has no
partner anywhere in the source (`sitAll_ofSource`): an earlier text with an opening one for it
would leave that one open, and a later text with a closing one would close too many.
-/

namespace AlgebraicTerms

/-- Every parenthesis has a partner. -/
inductive Balanced : List Char → Prop
  | nil : Balanced []
  | other {c : Char} {s : List Char} (h : c ≠ '(' ∧ c ≠ ')') (rest : Balanced s) : Balanced (c :: s)
  | group {s t : List Char} (inside : Balanced s) (rest : Balanced t) :
      Balanced ('(' :: (s ++ ')' :: t))

/-- A `)` after the text has its partner in it. -/
def Opens (before : List Char) : Prop :=
  ∃ outside inside, before = outside ++ '(' :: inside ∧ Balanced inside

/-- A `(` before the text has its partner in it. -/
def Closes (after : List Char) : Prop :=
  ∃ inside outside, after = inside ++ ')' :: outside ∧ Balanced inside

theorem Balanced.append_others {w s : List Char} (h : ∀ c ∈ w, c ≠ '(' ∧ c ≠ ')')
    (rest : Balanced s) : Balanced (w ++ s) := by
  induction w with
  | nil => exact rest
  | cons c w ih =>
      exact .other (h c List.mem_cons_self) (ih fun d hd => h d (List.mem_cons_of_mem _ hd))

theorem count_open (s : List Char) :
    ('(' :: s).count '(' = s.count '(' + 1 ∧ ('(' :: s).count ')' = s.count ')' :=
  ⟨List.count_cons_self, List.count_cons_of_ne (by decide)⟩

theorem count_close (s : List Char) :
    (')' :: s).count '(' = s.count '(' ∧ (')' :: s).count ')' = s.count ')' + 1 :=
  ⟨List.count_cons_of_ne (by decide), List.count_cons_self⟩

theorem Balanced.count_eq {s : List Char} (h : Balanced s) : s.count '(' = s.count ')' := by
  induction h with
  | nil => rfl
  | other h _ ih => rw [List.count_cons_of_ne h.1, List.count_cons_of_ne h.2, ih]
  | @group s t _ _ ihInside ih =>
      obtain ⟨opened, closed⟩ := count_open (s ++ ')' :: t)
      obtain ⟨opened', closed'⟩ := count_close t
      rw [opened, closed, List.count_append, List.count_append, opened', closed', ihInside, ih]
      omega

/-! ## Counting -/

/-- No beginning of the text closes more parentheses than it opens. -/
def ClosesNothing (s : List Char) : Prop := ∀ n, (s.take n).count ')' ≤ (s.take n).count '('

/-- No end of the text opens more parentheses than it closes. -/
def OpensNothing (s : List Char) : Prop := ∀ n, (s.drop n).count '(' ≤ (s.drop n).count ')'

theorem ClosesNothing.not_closes {s : List Char} (h : ClosesNothing s) : ¬Closes s := by
  rintro ⟨inside, outside, rfl, balanced⟩
  have count := h (inside.length + 1)
  have same := balanced.count_eq
  obtain ⟨opened, closed⟩ := count_close []
  rw [List.take_length_add_append, List.take_succ_cons, List.take_zero, List.count_append,
    List.count_append, opened, closed, List.count_nil, List.count_nil] at count
  omega

theorem OpensNothing.not_opens {s : List Char} (h : OpensNothing s) : ¬Opens s := by
  rintro ⟨outside, inside, rfl, balanced⟩
  have count := h outside.length
  have same := balanced.count_eq
  obtain ⟨opened, closed⟩ := count_open inside
  rw [List.drop_left, opened, closed] at count
  omega

theorem ClosesNothing.append {s t : List Char} (hs : ClosesNothing s) (ht : ClosesNothing t) :
    ClosesNothing (s ++ t) := by
  intro n
  have first := hs n
  have second := ht (n - s.length)
  simp only [List.take_append, List.count_append]
  omega

theorem OpensNothing.append {s t : List Char} (hs : OpensNothing s) (ht : OpensNothing t) :
    OpensNothing (s ++ t) := by
  intro n
  have first := hs n
  have second := ht (n - s.length)
  simp only [List.drop_append, List.count_append]
  omega

theorem count_eq_zero {w : List Char} (h : ∀ c ∈ w, c ≠ '(' ∧ c ≠ ')') {v : List Char}
    (sub : ∀ c ∈ v, c ∈ w) : v.count '(' = 0 ∧ v.count ')' = 0 :=
  ⟨List.count_eq_zero.2 fun hc => (h _ (sub _ hc)).1 rfl,
    List.count_eq_zero.2 fun hc => (h _ (sub _ hc)).2 rfl⟩

theorem closesNothing_others {w : List Char} (h : ∀ c ∈ w, c ≠ '(' ∧ c ≠ ')') : ClosesNothing w := by
  intro n
  obtain ⟨-, none⟩ := count_eq_zero h fun c hc => List.mem_of_mem_take (i := n) hc
  exact none ▸ Nat.zero_le _

theorem opensNothing_others {w : List Char} (h : ∀ c ∈ w, c ≠ '(' ∧ c ≠ ')') : OpensNothing w := by
  intro n
  obtain ⟨none, -⟩ := count_eq_zero h fun c hc => List.mem_of_mem_drop (i := n) hc
  exact none ▸ Nat.zero_le _

theorem closesNothing_open : ClosesNothing ['('] := by
  rintro (_ | n) <;> simp

theorem opensNothing_close : OpensNothing [')'] := by
  rintro (_ | n) <;> simp

theorem Balanced.closesNothing {s : List Char} (h : Balanced s) : ClosesNothing s := by
  induction h with
  | nil => exact fun n => by simp
  | @other c s h _ ih =>
      exact (closesNothing_others (w := [c]) (List.forall_mem_singleton.2 h)).append ih
  | @group s t inside _ ihInside ih =>
      have pair : ClosesNothing ('(' :: (s ++ [')'])) := by
        rintro (_ | n)
        · simp
        · have first := ihInside n
          have last : ([')'].take (n - s.length)).count ')' ≤ 1 :=
            Nat.le_trans List.count_le_length (List.length_take_le' _ _)
          obtain ⟨opened, closed⟩ := count_open (s.take n ++ [')'].take (n - s.length))
          rw [List.take_succ_cons, List.take_append, opened, closed, List.count_append,
            List.count_append]
          omega
      have whole := pair.append ih
      simpa using whole

theorem Balanced.opensNothing {s : List Char} (h : Balanced s) : OpensNothing s := by
  intro n
  have whole := h.count_eq
  have before := h.closesNothing n
  have split := List.take_append_drop n s
  have opened := congrArg (List.count '(') split
  have closed := congrArg (List.count ')') split
  rw [List.count_append] at opened closed
  omega

/-! ## The trees of a source -/

namespace TokenTree

open Token

mutual

/-- The tree stands where its span says.  What is alone has no partner, and what is between the
parentheses of a group is balanced, and blank if the group has no items. -/
def Sits (source : List Char) : TokenTree → Prop
  | number s _ | var s _ _ | const s _ => ∃ w, s.Quotes source w
  | keyword s name => s.Quotes source name.toList
  | group s items =>
    (∃ before inside after, s.Covers source before ('(' :: (inside ++ [')'])) after ∧
      Balanced inside ∧ (items = [] → ∀ c ∈ inside, Text.isBlank c = true)) ∧ SitAll source items
  | char s c =>
    ∃ before after, s.Covers source before [c] after ∧ (c = '(' → ¬Closes after) ∧
      (c = ')' → ¬Opens before)

def SitAll (source : List Char) : List TokenTree → Prop
  | [] => True
  | t :: ts => t.Sits source ∧ SitAll source ts

end

theorem sitAll_append {source : List Char} {ts us : List TokenTree} (ht : SitAll source ts)
    (hu : SitAll source us) : SitAll source (ts ++ us) := by
  induction ts with
  | nil => exact hu
  | cons t ts ih => exact ⟨ht.1, ih ht.2⟩

theorem Sits.quotes {source : List Char} {t : TokenTree} (h : t.Sits source) :
    ∃ w, t.span.Quotes source w := by
  cases t with
  | number | var | const => exact h
  | keyword s name => exact ⟨_, h⟩
  | group s items =>
      obtain ⟨⟨before, inside, after, covers, -⟩, -⟩ := h
      exact ⟨_, before, after, covers⟩
  | char s c =>
      obtain ⟨before, after, covers, -⟩ := h
      exact ⟨_, before, after, covers⟩

section Sits

variable {v : Vocabulary} {lone : Option Char} {offset : Nat} {ps : List Piece} {ts : List TokenTree}
  {source before after : List Char}

/-- The trees of a token stand in it. -/
theorem sitAll_ofToken {k : TokenKind} {w : List Char} (h : IsPiece (k, w)) (hopen : k ≠ .openParen)
    (hclose : k ≠ .closeParen) (hsource : source = before ++ (w ++ after)) :
    SitAll source (ofToken v ⟨k, ⟨byteLength before, byteLength before + byteLength w⟩, w⟩) := by
  have whole : (⟨byteLength before, byteLength before + byteLength w⟩ : Span).Quotes source w :=
    ⟨before, after, hsource, rfl⟩
  by_cases hname : k = .name
  · subst hname
    let letters := w.takeWhile (!·.isDigit)
    let digits := w.dropWhile (!·.isDigit)
    have split : letters ++ digits = w := List.takeWhile_append_dropWhile
    have word : (⟨byteLength before, byteLength before + byteLength letters⟩ : Span).Quotes source
        (String.ofList letters).toList := by
      refine ⟨before, digits ++ after, ?_, ?_⟩
      · rw [String.toList_ofList, ← List.append_assoc letters, split, hsource]
      · rw [String.toList_ofList]
    have number : (⟨byteLength before + byteLength letters, byteLength before + byteLength w⟩ :
        Span).Quotes source digits := by
      refine ⟨before ++ letters, after, ?_, ?_⟩
      · rw [hsource, ← split]
        simp
      · rw [← split, byteLength_append, byteLength_append, Nat.add_assoc]
    simp only [ofToken, ofName]
    split
    · refine ⟨word, ?_⟩
      split
      · trivial
      · exact ⟨⟨_, number⟩, trivial⟩
    · split
      · refine ⟨⟨_, word⟩, ?_⟩
        split
        · trivial
        · exact ⟨⟨_, number⟩, trivial⟩
      · exact ⟨⟨_, whole⟩, trivial⟩
  · by_cases hblank : k = .blank
    · subst hblank
      trivial
    · by_cases hnumber : k = .number
      · subst hnumber
        exact ⟨⟨_, whole⟩, trivial⟩
      · rw [ofToken_chars hblank hnumber hname]
        have other := h.not_paren hopen hclose
        obtain ⟨c, rfl, -⟩ := h.single hblank hnumber hname
        obtain ⟨notOpen, notClose⟩ := other c List.mem_cons_self
        exact ⟨⟨before, after, ⟨hsource, rfl⟩, fun same => absurd same notOpen,
          fun same => absurd same notClose⟩, trivial⟩

theorem chars_group (qs ps : List Piece) :
    chars ((.openParen, ['(']) :: (qs ++ (.closeParen, [')']) :: ps)) =
      '(' :: (chars qs ++ [')']) ++ chars ps := by
  simp [chars]

namespace Grouping

/-- Where no parenthesis is alone, all have partners. -/
theorem balanced (h : Grouping v none offset ps ts) (pieces : ∀ p ∈ ps, IsPiece p) :
    Balanced (chars ps) := by
  generalize hnone : (none : Option Char) = none' at h
  induction h with
  | nil => exact .nil
  | token hopen hclose _ ih =>
      exact .append_others ((pieces _ List.mem_cons_self).not_paren hopen hclose)
        (ih (fun p hp => pieces p (List.mem_cons_of_mem _ hp)) hnone)
  | @group _ _ qs ps _ _ _ _ ihInside ih =>
      have inside := ihInside (fun p hp => pieces p (by simp [hp])) rfl
      have rest := ih (fun p hp => pieces p (by simp [hp])) hnone
      have whole := Balanced.group inside rest
      rw [chars_group]
      simpa using whole
  | lone => cases hnone

/-- Pieces without trees are blank. -/
theorem blank (h : Grouping v none offset ps []) (pieces : ∀ p ∈ ps, IsPiece p) :
    ∀ c ∈ chars ps, Text.isBlank c = true := by
  generalize hnone : (none : Option Char) = none' at h
  generalize htrees : ([] : List TokenTree) = trees at h
  induction h with
  | nil => exact fun c hc => absurd hc List.not_mem_nil
  | @token _ offset k w ps ts hopen hclose _ ih =>
      have piece := pieces _ List.mem_cons_self
      obtain ⟨none, rest⟩ := List.append_eq_nil_iff.1 htrees.symm
      obtain rfl := ofToken_eq_nil piece none
      intro c hc
      rcases List.mem_append.1 hc with hc | hc
      · exact piece.blank c hc
      · exact ih (fun p hp => pieces p (List.mem_cons_of_mem _ hp)) hnone rest.symm c hc
  | group => cases htrees
  | lone => cases htrees

/-- Where no closing parenthesis is alone, no parenthesis of an earlier text is closed. -/
theorem closesNothing (h : Grouping v lone offset ps ts) (pieces : ∀ p ∈ ps, IsPiece p)
    (hlone : lone ≠ some ')') : ClosesNothing (chars ps) := by
  induction h with
  | nil => exact fun n => by simp [chars]
  | token hopen hclose _ ih =>
      have first := (pieces _ List.mem_cons_self).not_paren hopen hclose
      exact (closesNothing_others first).append
        (ih (fun p hp => pieces p (List.mem_cons_of_mem _ hp)) hlone)
  | @group _ _ qs ps _ _ inside _ _ ih =>
      have pair := Balanced.group (inside.balanced fun p hp => pieces p (by simp [hp])) .nil
      rw [chars_group]
      exact pair.closesNothing.append (ih (fun p hp => pieces p (by simp [hp])) hlone)
  | lone hc _ ih =>
      rcases hc with rfl | rfl
      · exact closesNothing_open.append (ih (fun p hp => pieces p (List.mem_cons_of_mem _ hp)) hlone)
      · exact absurd rfl hlone

/-- Trees stand in the source between what is before their pieces and what is after them, if a
parenthesis that is alone has no partner there. -/
theorem sitAll (h : Grouping v lone offset ps ts) (pieces : ∀ p ∈ ps, IsPiece p)
    (before after : List Char) (hsource : source = before ++ (chars ps ++ after))
    (hoffset : offset = byteLength before) (hbefore : lone = some ')' → OpensNothing before)
    (hafter : lone = some '(' → ClosesNothing after) : SitAll source ts := by
  induction h generalizing before after with
  | nil => trivial
  | @token lone offset k w ps ts hopen hclose _ ih =>
      subst hoffset
      have piece := pieces _ List.mem_cons_self
      have others := opensNothing_others (piece.not_paren hopen hclose)
      have split : source = before ++ (w ++ (chars ps ++ after)) := by
        rw [hsource]
        simp [chars]
      refine sitAll_append (sitAll_ofToken piece hopen hclose split)
        (ih (fun p hp => pieces p (List.mem_cons_of_mem _ hp)) (before ++ w) after ?_
          (byteLength_append _ _).symm (fun same => (hbefore same).append others) hafter)
      rw [split, List.append_assoc]
  | @group lone offset qs ps us ts inside _ ihInside ih =>
      subst hoffset
      have piecesInside : ∀ p ∈ qs, IsPiece p := fun p hp => pieces p (by simp [hp])
      have balanced := inside.balanced piecesInside
      have pair := Balanced.group balanced .nil
      rw [chars_group] at hsource
      have bytes : byteLength (before ++ '(' :: (chars qs ++ [')'])) =
          byteLength before + 1 + width qs + 1 := by
        have one : ('(' : Char).utf8Size = 1 := rfl
        rw [byteLength_append, byteLength, byteLength_append, byteLength_closeParen, one, width]
        omega
      refine ⟨⟨⟨before, chars qs, chars ps ++ after, ⟨?_, ?_⟩, balanced, ?_⟩, ?_⟩, ?_⟩
      · rw [hsource]
        simp
      · rw [← byteLength_append, bytes]
      · rintro rfl
        exact inside.blank piecesInside
      · exact ihInside piecesInside (before ++ ['(']) (')' :: (chars ps ++ after))
          (by rw [hsource]; simp) (by rw [byteLength_append]; rfl) (by rintro ⟨⟩) (by rintro ⟨⟩)
      · exact ih (fun p hp => pieces p (by simp [hp])) (before ++ '(' :: (chars qs ++ [')'])) after
          (by rw [hsource]; simp) bytes.symm (fun same => (hbefore same).append pair.opensNothing) hafter
  | @lone c offset ps ts hc rest ih =>
      subst hoffset
      have piecesRest := fun p hp => pieces p (List.mem_cons_of_mem _ hp)
      have split : source = before ++ ([c] ++ (chars ps ++ after)) := hsource
      have one : byteLength [c] = 1 := by rcases hc with rfl | rfl <;> rfl
      refine ⟨⟨before, chars ps ++ after, ⟨split, by rw [one]⟩, ?_, ?_⟩, ?_⟩
      · rintro rfl
        exact ((rest.closesNothing piecesRest (by decide)).append (hafter rfl)).not_closes
      · rintro rfl
        exact (hbefore rfl).not_opens
      · refine ih piecesRest (before ++ [c]) after (by rw [split, List.append_assoc])
          (by rw [byteLength_append, one]) (fun same => ?_) hafter
        cases same
        exact (hbefore rfl).append opensNothing_close

end Grouping

/-- Every tree stands in its source. -/
theorem sitAll_ofSource (v : Vocabulary) (source : List Char) :
    SitAll source (ofSource v source) := by
  obtain ⟨ps, qs, ts, us, cut, trees, closed, opened⟩ := ofSource_grouping v source
  have pieces : ∀ p ∈ ps ++ qs, IsPiece p := cut ▸ isPiece_of_mem_lexemes
  have split : source = chars ps ++ chars qs := by
    rw [← chars_append, ← cut, chars_lexemes]
  rw [trees]
  refine sitAll_append
    (closed.sitAll (fun p hp => pieces p (by simp [hp])) [] (chars qs) split rfl
      (fun _ n => by simp) nofun)
    (opened.sitAll (fun p hp => pieces p (by simp [hp])) (chars ps) [] ?_ rfl
      nofun fun _ n => by simp)
  rw [List.append_nil]
  exact split

end Sits

end TokenTree

end AlgebraicTerms
