import AlgebraicTerms.Proofs.Token.Places

/-!
# Longest tokens

Which texts are tokens, told without reading them character by character.  Each class of tokens is a
set of texts (`Matches`), and the token at the start of a text is the longest of its beginnings that is
in any class, or a single character if none is (`IsLongest`).  The tokens of a text lie side by side
from its start to its end, each of them longest where it begins, and no other tokens do
(`scan_eq_iff`).
-/

namespace AlgebraicTerms

namespace Token

/-- Whether the text is in the class of tokens.  A symbol is a character that begins no text of any
class, so symbols are no class of their own. -/
def Matches : TokenKind → List Char → Prop
  | .blank, w => w ≠ [] ∧ ∀ c ∈ w, Text.isBlank c = true
  | .number, w => IsNumberLexeme w
  | .name, w => IsName w
  | .add, w => w = ['+']
  | .sub, w => w = ['-']
  | .mul, w => w = ['*']
  | .div, w => w = ['/']
  | .mod, w => w = ['%']
  | .pow, w => w = ['^']
  | .openParen, w => w = ['(']
  | .closeParen, w => w = [')']
  | .symbol, _ => False

/-- Whether `w` is the token at the start of the text `w ++ rest`. -/
def IsLongest (k : TokenKind) (w rest : List Char) : Prop :=
  (Matches k w ∧ ∀ k' w', w' <+: w ++ rest → Matches k' w' → w'.length ≤ w.length) ∨
    (k = .symbol ∧ w.length = 1 ∧ ∀ k' w', w' <+: w ++ rest → ¬Matches k' w')

/-- Spans that lie side by side from `start` to `stop`, none of them empty. -/
def Tiles (start stop : Nat) : List Span → Prop
  | [] => start = stop
  | s :: ss => s.start = start ∧ s.start < s.stop ∧ Tiles s.stop stop ss

/-! ## Classes and readings -/

variable {k k' : TokenKind} {w w' s t : List Char}

theorem isPiece_blank (hne : w ≠ []) (h : ∀ c ∈ w, Text.isBlank c = true) : IsPiece (.blank, w) := by
  cases w with
  | nil => exact absurd rfl hne
  | cons c w =>
      have start : Reading.start c = .blanks := by
        rw [Reading.start, if_pos (h c List.mem_cons_self)]
      refine ⟨c, w, .blanks, rfl, ?_⟩
      rw [start]
      exact run_all (p := Text.isBlank) (fun d hd => by rw [Reading.extend?, if_pos hd])
        fun d hd => h d (List.mem_cons_of_mem _ hd)

theorem isPiece_number (h : IsNumberLexeme w) : IsPiece (.number, w) := by
  rcases h with digits | ⟨ds, es, hds, hes, rfl⟩
  · obtain ⟨c, w, rfl, hrun⟩ := digits.run_whole
    exact ⟨c, w, .whole, rfl, hrun⟩
  · obtain ⟨c, w, rfl, hrun⟩ := hds.run_whole
    refine ⟨c, w ++ '.' :: es, .fraction, rfl, ?_⟩
    rw [run_append hrun]
    exact run_all (r := .fraction) (p := Char.isDigit)
      (fun d hd => by rw [Reading.extend?, if_pos hd]) hes

theorem isPiece_name (h : IsName w) : IsPiece (.name, w) := by
  obtain ⟨ls, ds, hls, hds, rfl⟩ := h
  have whole := lexemes_name (s := []) hls hds nofun
  apply isPiece_of_mem_lexemes (s := ls ++ ds ++ [])
  rw [whole]
  exact List.mem_cons_self

theorem isPiece_single {c : Char} (h : Reading.start c = .single k) : IsPiece (k, [c]) :=
  ⟨c, [], .single k, rfl, by rw [h]; rfl⟩

/-- An operator or a parenthesis is the only text of its class. -/
theorem singleKind_matches {c : Char} (h : Reading.singleKind c ≠ .symbol) :
    Matches (Reading.singleKind c) [c] := by
  revert h
  unfold Reading.singleKind
  split
  all_goals intro h
  all_goals first | rfl | exact absurd rfl h

/-- The classes are what is read as a token and is no symbol. -/
theorem matches_iff : Matches k w ↔ k ≠ .symbol ∧ IsPiece (k, w) := by
  constructor
  · intro h
    cases k with
    | blank => exact ⟨nofun, isPiece_blank h.1 h.2⟩
    | number => exact ⟨nofun, isPiece_number h⟩
    | name => exact ⟨nofun, isPiece_name h⟩
    | symbol => exact h.elim
    | _ =>
        obtain rfl : w = [_] := h
        exact ⟨nofun, isPiece_single rfl⟩
  · rintro ⟨hk, h⟩
    by_cases hblank : k = .blank
    · subst hblank
      obtain ⟨c, w', r, rfl, -⟩ := h.exists_cons
      exact ⟨List.cons_ne_nil c w', h.blank⟩
    · by_cases hnumber : k = .number
      · subst hnumber
        exact h.number
      · by_cases hname : k = .name
        · subst hname
          exact h.name
        · obtain ⟨c, rfl, rfl⟩ := h.single hblank hnumber hname
          exact singleKind_matches hk

/-! ## The first token of a text -/

/-- Pieces at the start of one text are of one kind. -/
theorem kind_eq_at_start (h : IsPiece (k, w)) (h' : IsPiece (k', w')) (hw : w <+: s)
    (hw' : w' <+: s) : k' = k := by
  obtain ⟨c, v, r, rfl, rfl, -⟩ := h.exists_cons
  obtain ⟨d, v', r', rfl, rfl, -⟩ := h'.exists_cons
  obtain ⟨u, rfl⟩ := hw
  obtain ⟨rfl, -⟩ := List.cons_prefix_cons.1 hw'
  rfl

/-- A reading that nothing goes on with is not part of a longer one. -/
theorem length_le_of_run {r r₁ r₂ : Reading} (h₁ : r.run w = some r₁)
    (stop : ∀ d ∈ t.head?, r₁.extend? d = none) (h₂ : r.run w' = some r₂) (hw' : w' <+: w ++ t) :
    w'.length ≤ w.length := by
  by_contra longer
  have goesOn : w <+: w' :=
    List.prefix_of_prefix_length_le (List.prefix_append w t) hw' (by omega)
  obtain ⟨u, rfl⟩ := goesOn
  rw [run_append h₁] at h₂
  cases u with
  | nil => simp at longer
  | cons d u =>
      have next : d ∈ t.head? := by
        obtain ⟨v, hv⟩ := (List.prefix_append_right_inj w).1 hw'
        rw [← hv]
        rfl
      rw [Reading.run, stop d next] at h₂
      cases h₂

/-- What is read first is longer than all else that could be read, which is of its kind. -/
theorem first_piece {ps : List Piece} (h : lexemes s = (k, w) :: ps) :
    IsPiece (k, w) ∧ w <+: s ∧
      ∀ k' w', w' <+: s → IsPiece (k', w') → k' = k ∧ w'.length ≤ w.length := by
  obtain ⟨c, v, r, t, rfl, same, hrun, stop, -⟩ := lexemes_eq_cons h
  obtain ⟨rfl, rfl⟩ := Prod.mk.inj same
  have piece : IsPiece (r.kind, c :: v) := ⟨c, v, r, rfl, hrun⟩
  refine ⟨piece, List.prefix_append _ _, fun k' w' hw' piece' => ?_⟩
  refine ⟨kind_eq_at_start piece piece' (List.prefix_append _ _) hw', ?_⟩
  obtain ⟨d, v', r', rfl, -, hrun'⟩ := piece'.exists_cons
  obtain ⟨rfl, begins⟩ := List.cons_prefix_cons.1 hw'
  have most := length_le_of_run hrun stop hrun' begins
  simpa using most

namespace IsLongest

variable {rest : List Char} {ps : List Piece}

theorem ne_nil (h : IsLongest k w rest) : w ≠ [] := by
  rintro rfl
  rcases h with ⟨h, -⟩ | ⟨-, h, -⟩
  · obtain ⟨c, v, r, same, -⟩ := (matches_iff.1 h).2
    cases same
  · cases h

/-- No other token is as long, since all beginnings of a text that are tokens are of one kind. -/
theorem eq_first (h : IsLongest k w rest) (hps : lexemes (w ++ rest) = (k', w') :: ps) :
    k = k' ∧ w = w' := by
  obtain ⟨piece, begins, most⟩ := first_piece hps
  have same : k = k' ∧ w.length = w'.length := by
    rcases h with ⟨h, longest⟩ | ⟨rfl, single, none⟩
    · obtain ⟨hk, piece'⟩ := matches_iff.1 h
      obtain ⟨rfl, upper⟩ := most k w (List.prefix_append _ _) piece'
      have lower := longest k w' begins (matches_iff.2 ⟨hk, piece⟩)
      exact ⟨rfl, by omega⟩
    · by_cases hk : k' = .symbol
      · subst hk
        obtain ⟨c, rfl, -⟩ := piece.single nofun nofun nofun
        exact ⟨rfl, single⟩
      · exact absurd (matches_iff.2 ⟨hk, piece⟩) (none k' w' begins)
  refine ⟨same.1, ?_⟩
  have prefixes := List.prefix_of_prefix_length_le (List.prefix_append w rest) begins
    (Nat.le_of_eq same.2)
  exact prefixes.eq_of_length same.2

end IsLongest

/-- The token at the start of a text is what is read first. -/
theorem isLongest_iff {rest : List Char} :
    IsLongest k w rest ↔ lexemes (w ++ rest) = (k, w) :: lexemes rest := by
  constructor
  · intro h
    cases hps : lexemes (w ++ rest) with
    | nil =>
        have empty := chars_lexemes (w ++ rest)
        rw [hps] at empty
        exact absurd (List.append_eq_nil_iff.1 empty.symm).1 h.ne_nil
    | cons p ps =>
        obtain ⟨rfl, rfl⟩ := h.eq_first hps
        obtain ⟨c, v, r, t, split, same, -, -, tail⟩ := lexemes_eq_cons hps
        cases same
        obtain rfl := List.append_cancel_left split
        rw [tail]
  · intro h
    obtain ⟨piece, -, most⟩ := first_piece h
    by_cases hk : k = .symbol
    · subst hk
      obtain ⟨c, rfl, -⟩ := piece.single nofun nofun nofun
      refine .inr ⟨rfl, rfl, fun k' w' begins h' => ?_⟩
      obtain ⟨hk', piece'⟩ := matches_iff.1 h'
      exact hk' (most k' w' begins piece').1
    · refine .inl ⟨matches_iff.2 ⟨hk, piece⟩, fun k' w' begins h' => ?_⟩
      exact (most k' w' begins (matches_iff.1 h').2).2

/-! ## All tokens of a text -/

variable {offset : Nat} {ps : List Piece} {ts : List Token}

theorem tiles_place (offset : Nat) (h : ∀ p ∈ ps, IsPiece p) :
    Tiles offset (offset + width ps) ((place offset ps).map Token.span) := by
  induction ps generalizing offset with
  | nil => rfl
  | cons p ps ih =>
      obtain ⟨k, w⟩ := p
      have filled := (h _ List.mem_cons_self).width_pos []
      have rest := ih (offset + byteLength w) fun p hp => h p (List.mem_cons_of_mem _ hp)
      rw [width_cons, width_nil] at filled
      rw [width_cons, ← Nat.add_assoc]
      exact ⟨rfl, by simp only; omega, rest⟩

/-- A token is placed after the pieces before its own. -/
theorem exists_of_mem_place {t : Token} (h : t ∈ place offset ps) : ∃ before after,
    ps = before ++ (t.kind, t.lexeme) :: after ∧
      t.span = ⟨offset + width before, offset + width before + byteLength t.lexeme⟩ := by
  induction ps generalizing offset with
  | nil => cases h
  | cons p ps ih =>
      obtain ⟨k, w⟩ := p
      rcases List.mem_cons.1 h with rfl | h
      · exact ⟨[], ps, rfl, rfl⟩
      · obtain ⟨before, after, rfl, span⟩ := ih h
        refine ⟨(k, w) :: before, after, rfl, ?_⟩
        rw [width_cons, ← Nat.add_assoc]
        exact span

/-- Every token is the longest where it begins. -/
theorem scan_isLongest {t : Token} (h : t ∈ scan s) : ∃ before rest,
    t.span.Covers s before t.lexeme rest ∧ IsLongest t.kind t.lexeme rest := by
  rw [scan_eq] at h
  obtain ⟨before, after, cut, span⟩ := exists_of_mem_place h
  have cut' : lexemes s = before ++ [(t.kind, t.lexeme)] ++ after := by
    rw [cut, List.append_assoc, List.singleton_append]
  refine ⟨chars before, chars after, ⟨?_, ?_⟩, isLongest_iff.2 ?_⟩
  · rw [← chars_lexemes s, cut, chars_append]
    rfl
  · rw [span, Nat.zero_add]
    rfl
  · rw [(lexemes_split cut').2]
    exact (lexemes_split cut).2

theorem prefix_unique {a b u v : List Char} (h : a ++ u = b ++ v)
    (bytes : byteLength a = byteLength b) : a = b ∧ u = v := by
  have rest : u = v := by rw [← dropBytes_append a u, h, bytes, dropBytes_append]
  subst rest
  exact ⟨List.append_cancel_right h, rfl⟩

/-- Tokens that lie side by side after the first part of a text, each the longest where it begins, are
placed there by reading the second part. -/
theorem place_of_tiles (before : List Char)
    (tiles : Tiles (byteLength before) (byteLength (before ++ s)) (ts.map Token.span))
    (longest : ∀ t ∈ ts, ∃ b rest,
      t.span.Covers (before ++ s) b t.lexeme rest ∧ IsLongest t.kind t.lexeme rest) :
    place (byteLength before) (lexemes s) = ts := by
  induction ts generalizing before s with
  | nil =>
      have empty : byteLength before = byteLength (before ++ s) := tiles
      cases s with
      | nil => rfl
      | cons c s =>
          have size := c.utf8Size_pos
          rw [byteLength_append, byteLength] at empty
          omega
  | cons t ts ih =>
      obtain ⟨start, -, tiles⟩ := tiles
      obtain ⟨b, rest, ⟨split, span⟩, first⟩ := longest t List.mem_cons_self
      rw [span] at start
      obtain ⟨rfl, rfl⟩ := prefix_unique split start.symm
      rw [span, ← byteLength_append] at tiles
      rw [← List.append_assoc] at tiles longest
      have tail := ih (before ++ t.lexeme) tiles fun t ht =>
        longest t (List.mem_cons_of_mem _ ht)
      rw [isLongest_iff.1 first, place, ← byteLength_append, tail, byteLength_append, ← span]

/-- The tokens of a text lie side by side from its start to its end, none of them empty, and each is
the longest where it begins.  Only the tokens of the text do. -/
theorem scan_eq_iff (s : List Char) (ts : List Token) :
    scan s = ts ↔ Tiles 0 (byteLength s) (ts.map Token.span) ∧ ∀ t ∈ ts, ∃ before rest,
      t.span.Covers s before t.lexeme rest ∧ IsLongest t.kind t.lexeme rest := by
  constructor
  · rintro rfl
    refine ⟨?_, fun t ht => scan_isLongest ht⟩
    have tiles := tiles_place 0 (isPiece_of_mem_lexemes (s := s))
    rwa [width, chars_lexemes, Nat.zero_add, ← scan_eq] at tiles
  · rintro ⟨tiles, longest⟩
    rw [scan_eq]
    exact place_of_tiles [] tiles longest

/-- A name ends with its digits, and a point is part of a number only after a digit. -/
example : (scan ['a', '1', 'b', '.', '2', '.']).map Token.lexeme =
    [['a', '1'], ['b'], ['.'], ['2', '.']] := rfl

end Token

end AlgebraicTerms
