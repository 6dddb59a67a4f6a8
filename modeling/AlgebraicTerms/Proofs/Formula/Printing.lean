import AlgebraicTerms.Proofs.Formula.Spans
import AlgebraicTerms.Proofs.Scalar.Rational
import AlgebraicTerms.Proofs.Term.Reread

/-!
# Reading the text of a formula

The text of a formula leaves out all blanks and writes its numbers anew.  Tokens that stood apart are
still told apart, since in a formula an operator or a parenthesis is between any two of them, and every
name is what it was for the vocabulary.  So the text of a formula that was read is read as the same
formula at other places (`parse_text`).
-/

namespace AlgebraicTerms

open Token TokenTree

namespace TokenTree

variable {v : Vocabulary}

mutual

/-- Whether the numbers and words in the tree are such as are scanned: digits with an optional point,
and letters.  `Named` says the same of variables. -/
def Lexical (v : Vocabulary) : TokenTree → Prop
  | number _ lexeme => IsNumberLexeme lexeme.toList
  | const _ name => IsLetters name.toList ∧ v.isKeyword name = false
  | keyword _ name => IsLetters name.toList
  | group _ items => AllLexical v items
  | _ => True

def AllLexical (v : Vocabulary) : List TokenTree → Prop
  | [] => True
  | t :: ts => t.Lexical v ∧ AllLexical v ts

end

theorem allLexical_append {ts us : List TokenTree} :
    AllLexical v (ts ++ us) ↔ AllLexical v ts ∧ AllLexical v us := by
  induction ts with
  | nil => exact (true_and _).to_iff.symm
  | cons t ts ih => rw [List.cons_append, AllLexical, AllLexical, ih, and_assoc]

theorem ofName_lexical {t : Token} (h : IsName t.lexeme) : AllLexical v (ofName v t) := by
  obtain ⟨ls, ds, hls, hds, hlexeme⟩ := h
  obtain ⟨letters, digits⟩ := Written.takeWhile_letters hls hds
  have word : IsLetters (String.ofList ls).toList := by rwa [String.toList_ofList]
  have number (s : Span) : AllLexical v
      (if ds.isEmpty then [] else [.number s (String.ofList ds)]) := by
    split
    · trivial
    · rename_i hne
      refine ⟨?_, trivial⟩
      rw [Lexical, String.toList_ofList]
      exact .inl ⟨by simpa using hne, hds⟩
  unfold ofName
  simp only [hlexeme, letters, digits]
  split
  · exact ⟨word, number _⟩
  · rename_i hkeyword
    split
    · exact ⟨⟨word, Bool.eq_false_iff.2 hkeyword⟩, number _⟩
    · exact ⟨trivial, trivial⟩

theorem ofToken_lexical {t : Token} (h : IsPiece (t.kind, t.lexeme))
    (hname : t.kind = .name → IsName t.lexeme) : AllLexical v (ofToken v t) := by
  unfold ofToken
  split
  · trivial
  · rename_i hnumber
    rw [hnumber] at h
    refine ⟨?_, trivial⟩
    rw [Lexical, String.toList_ofList]
    exact h.number
  · rename_i hname'
    exact ofName_lexical (hname hname')
  · have chars (w : List Char) : AllLexical v (w.map (.char t.span)) := by
      induction w with
      | nil => trivial
      | cons c w ih => exact ⟨trivial, ih⟩
    exact chars t.lexeme

/-- What is scanned is lexical, in every group. -/
theorem Grouping.lexical {offset : Nat} {lone : Option Char} {ps : List Piece} {ts : List TokenTree}
    (h : Grouping v lone offset ps ts)
    (pieces : ∀ p ∈ ps, IsPiece p ∧ (p.1 = .name → IsName p.2)) : AllLexical v ts := by
  induction h with
  | nil => trivial
  | token hopen hclose rest ih =>
      obtain ⟨piece, hname⟩ := pieces _ List.mem_cons_self
      exact allLexical_append.2
        ⟨ofToken_lexical piece hname, ih fun p hp => pieces p (List.mem_cons_of_mem _ hp)⟩
  | group inside rest ihInside ih =>
      exact ⟨ihInside fun p hp => pieces p (by simp [hp]), ih fun p hp => pieces p (by simp [hp])⟩
  | lone hc rest ih => exact ⟨trivial, ih fun p hp => pieces p (List.mem_cons_of_mem _ hp)⟩

end TokenTree

namespace Formula

variable {α : Type}

theorem erase_erase (f : Formula α) : f.erase.erase = f.erase := by
  induction f with
  | paren s inner ih | call name s t inner ih | minus s inner ih => simp only [erase, ih]
  | binary op s l r ihl ihr => simp only [erase, ihl, ihr]
  | _ => rfl

variable [Scalar α]

/-- Whether all numbers of the formula are finite. -/
def FiniteNumbers : Formula α → Prop
  | number _ n => Scalar.isFinite n = true
  | paren _ f | call _ _ _ f | minus _ f => f.FiniteNumbers
  | binary _ _ l r => l.FiniteNumbers ∧ r.FiniteNumbers
  | _ => True

variable [Scalar.Legible α] [Scalar.UnsignedLiterals α] {v : Vocabulary}

/-- A literal is written as a literal of the same number. -/
theorem written_literal {lexeme : String} (h : IsNumberLexeme lexeme.toList)
    (finite : Scalar.isFinite (Scalar.literal lexeme : α) = true) :
    ∃ ts, Written v (Scalar.text (Scalar.literal lexeme : α)).toList ts ∧
      (number Span.nowhere (Scalar.literal lexeme : α)).Yields ts := by
  cases hzero : Scalar.isZero (Scalar.literal lexeme : α) with
  | true =>
      rw [Scalar.UnsignedLiterals.literal_of_isZero h hzero, Scalar.Legible.text_zero]
      refine ⟨_, Written.number (w := "0".toList) (.inl (by decide)), "0", ?_, ?_⟩
      · rw [Scalar.Legible.literal_zero]
      · rw [String.ofList_toList]
  | false =>
      exact Term.written_number finite hzero (Scalar.UnsignedLiterals.not_isNegative_literal h)

omit [Scalar.Legible α] [Scalar.UnsignedLiterals α] in
theorem text_binary (op : Operator) (s : Span) (l r : Formula α) :
    (binary op s l r).text.toList = l.text.toList ++ op.toChar :: r.text.toList := by
  rw [text, String.toList_append, String.toList_append, List.append_assoc]
  cases op <;> rfl

omit [Scalar.Legible α] [Scalar.UnsignedLiterals α] in
theorem text_paren (s : Span) (f : Formula α) :
    (paren s f).text.toList = '(' :: f.text.toList ++ [')'] := by
  simp only [text, String.toList_append]
  rfl

/-- The text of a formula is read as the tokens of that formula. -/
theorem written_text {f : Formula α} (nested : f.WellNested) {ts : List TokenTree}
    (hy : f.Yields ts) (named : AllNamed v ts) (lexical : AllLexical v ts)
    (finite : f.FiniteNumbers) :
    ∃ us, Written v f.text.toList us ∧ f.erase.Yields us := by
  induction f generalizing ts with
  | empty s => exact nested.elim
  | number s n =>
      obtain ⟨lexeme, rfl, rfl⟩ := hy
      exact written_literal lexical.1 finite
  | var s name index =>
      obtain rfl := hy
      obtain ⟨letters, hkeyword, hconstant, digits⟩ := named.1
      exact ⟨_, Written.indexed letters hkeyword hconstant digits, rfl⟩
  | const s name =>
      obtain rfl := hy
      obtain ⟨letters, hkeyword⟩ := lexical.1
      have hconstant : v.isConstant name = true := named.1
      have written := Written.const (v := v) letters (by rwa [String.ofList_toList])
        (by rwa [String.ofList_toList])
      rw [String.ofList_toList] at written
      exact ⟨_, written, rfl⟩
  | paren s inner ih =>
      obtain ⟨items, hitems, rfl⟩ := hy
      obtain ⟨us, written, yields⟩ := ih nested hitems named.1 lexical.1 finite
      rw [text_paren]
      exact ⟨_, written.paren, us, yields, rfl⟩
  | call name s t argument ih =>
      obtain ⟨items, hitems, rfl⟩ := hy
      obtain ⟨us, written, yields⟩ := ih nested hitems named.2.1 lexical.2.1 finite
      have hkeyword : v.isKeyword name = true := named.1
      have word := Written.keyword (v := v) lexical.1 (by rwa [String.ofList_toList])
      have whole := word.append written.paren (Written.stops_paren _)
      rw [String.ofList_toList] at whole
      have text : (call name s t argument).text.toList =
          name.toList ++ ('(' :: argument.text.toList ++ [')']) := by
        rw [← text_paren s]
        simp only [Formula.text, String.toList_append, List.append_assoc]
      rw [text]
      exact ⟨_, whole, us, yields, rfl⟩
  | minus s operand ih =>
      obtain ⟨us, hus, rfl⟩ := hy
      obtain ⟨ws, written, yields⟩ := ih nested.1 hus named.2 lexical.2 finite
      have text : (minus s operand).text.toList = '-' :: operand.text.toList := by
        rw [Formula.text, String.toList_append]
        rfl
      rw [text]
      exact ⟨_, written.operator .sub, ws, yields, rfl⟩
  | binary op s l r ihl ihr =>
      obtain ⟨us, vs, hus, hvs, rfl⟩ := hy
      obtain ⟨namedLeft, namedRight⟩ := allNamed_append.1 named
      obtain ⟨lexicalLeft, lexicalRight⟩ := allLexical_append.1 lexical
      obtain ⟨ws, left, yieldsLeft⟩ := ihl nested.1 hus namedLeft lexicalLeft finite.1
      obtain ⟨xs, right, yieldsRight⟩ := ihr nested.2.1 hvs namedRight.2 lexicalRight.2 finite.2
      rw [text_binary]
      exact ⟨_, Written.binary op left right, ws, xs, yieldsLeft, yieldsRight, rfl⟩

/-- The text of a formula that was read is read as the same formula, up to the places. -/
theorem parse_text {source : String} {f : Formula α} (h : parse v source = .ok f)
    (finite : f.FiniteNumbers) : ∃ g : Formula α, parse v f.text = .ok g ∧ g.erase = f.erase := by
  rcases eq_empty_or_yields h with ⟨s, rfl⟩ | ⟨nested, hy, shallow⟩
  · exact ⟨.empty (.point 0), rfl, rfl⟩
  · have lexical : AllLexical v (ofSource v source.toList) :=
      (grouping_of_source hy.not_paren).lexical fun p hp =>
        ⟨isPiece_of_mem_lexemes p hp, lexemes_names hp⟩
    obtain ⟨us, written, yields⟩ :=
      written_text nested hy (ofSource_named v source.toList) lexical finite
    rw [← erase_ofSource written] at yields
    obtain ⟨g, erased, hg⟩ := exists_yields yields
    -- erasing twice erases once, so both formulas have one shape without places
    have same : g.erase = f.erase := by rw [erased, erase_erase]
    have nested' : g.WellNested := by
      rwa [← wellNested_erase, same, wellNested_erase]
    have shallow' : g.deepest (Place.first 0) ≤ mostNesting := by
      rwa [← deepest_erase, same, deepest_erase]
    exact ⟨g, parse_eq_ok nested' hg shallow', same⟩

/-- The formula of `02 * (x1 - pi*sin( b ))`. -/
def spacedProduct : Formula ℚ :=
  .binary .mul ⟨3, 4⟩ (.number ⟨0, 2⟩ (Scalar.literal "02"))
    (.paren ⟨5, 23⟩ (.binary .sub ⟨9, 10⟩ (.var ⟨6, 8⟩ "x" (some "1"))
      (.binary .mul ⟨13, 14⟩ (.const ⟨11, 13⟩ "pi")
        (.call "sin" ⟨14, 17⟩ ⟨17, 22⟩ (.var ⟨19, 20⟩ "b" none)))))

theorem parse_text_spaced :
    parse .registry "02 * (x1 - pi*sin( b ))" = .ok spacedProduct ∧ spacedProduct.FiniteNumbers ∧
      ∃ g : Formula ℚ, parse .registry spacedProduct.text = .ok g ∧
        g.erase = spacedProduct.erase := by
  have trees : ofSource .registry "02 * (x1 - pi*sin( b ))".toList =
      [.number ⟨0, 2⟩ "02", .char ⟨3, 4⟩ '*', .group ⟨5, 23⟩ [.var ⟨6, 8⟩ "x" (some "1"),
        .char ⟨9, 10⟩ '-', .const ⟨11, 13⟩ "pi", .char ⟨13, 14⟩ '*', .keyword ⟨14, 17⟩ "sin",
        .group ⟨17, 22⟩ [.var ⟨19, 20⟩ "b" none]]] := rfl
  have nested : spacedProduct.WellNested := by
    simp [spacedProduct, WellNested, tightness, Operator.associativity, Operator.precedence,
      Precedence.rank]
  have yields : spacedProduct.Yields (ofSource .registry "02 * (x1 - pi*sin( b ))".toList) :=
    ⟨_, _, ⟨_, rfl, rfl⟩, ⟨_, ⟨_, _, rfl, ⟨_, _, rfl, ⟨_, rfl, rfl⟩, rfl⟩, rfl⟩, rfl⟩, trees⟩
  have parsed := parse_eq_ok nested yields (by decide)
  have finite : spacedProduct.FiniteNumbers := ⟨rfl, trivial, trivial, trivial⟩
  exact ⟨parsed, finite, parse_text parsed finite⟩

end Formula

end AlgebraicTerms
