import AlgebraicTerms.Token.Tree

/-!
# Texts and their token trees

`Written v s ts` says that the characters `s` are read as the trees `ts` wherever no token can go on
after them, whatever stands around them and whatever offset they have.  It holds of numbers and names
and is closed under operators, blanks and parentheses, so a printer is related to the scanner one
part at a time.
-/

namespace AlgebraicTerms

/-- The span of what has no place in a source. -/
def Span.nowhere : Span := .point 0

namespace TokenTree

mutual

/-- The tree without its places. -/
def erase : TokenTree → TokenTree
  | number _ lexeme => number .nowhere lexeme
  | var _ name index => var .nowhere name index
  | const _ name => const .nowhere name
  | keyword _ name => keyword .nowhere name
  | group _ items => group .nowhere (eraseAll items)
  | char _ c => char .nowhere c

def eraseAll : List TokenTree → List TokenTree
  | [] => []
  | t :: ts => t.erase :: eraseAll ts

end

theorem eraseAll_eq_map (ts : List TokenTree) : eraseAll ts = ts.map erase := by
  induction ts with
  | nil => rfl
  | cons t ts ih => rw [eraseAll, ih, List.map_cons]

theorem eraseAll_append (ts us : List TokenTree) :
    eraseAll (ts ++ us) = eraseAll ts ++ eraseAll us := by
  simp only [eraseAll_eq_map, List.map_append]

end TokenTree

namespace Token

/-! ## Scanning -/

/-- The kinds and lexemes of a text. -/
def lexemes : List Char → List (TokenKind × List Char)
  | [] => []
  | c :: cs => pieces (.start c) [c] cs

theorem scan_eq (s : List Char) : scan s = place 0 (lexemes s) := by
  cases s <;> rfl

/-- Whether no number or name goes on with the text. -/
def Stops (s : List Char) : Prop :=
  ∀ c ∈ s.head?, c.isDigit = false ∧ c.isAlpha = false ∧ c ≠ '.'

/-- What has been read after more characters of the same token. -/
def Reading.run (r : Reading) : List Char → Option Reading
  | [] => some r
  | c :: cs => r.extend? c >>= (·.run cs)

theorem pieces_stop {r : Reading} {seen s : List Char} (h : ∀ c ∈ s.head?, r.extend? c = none) :
    pieces r seen s = (r.kind, seen.reverse) :: lexemes s := by
  cases s with
  | nil => rfl
  | cons c cs => rw [pieces, h c rfl, lexemes]

theorem pieces_run {r r' : Reading} {w : List Char} (hw : r.run w = some r') {seen s : List Char}
    (h : ∀ c ∈ s.head?, r'.extend? c = none) :
    pieces r seen (w ++ s) = (r'.kind, seen.reverse ++ w) :: lexemes s := by
  induction w generalizing r seen with
  | nil =>
      obtain rfl : r = r' := Option.some.inj hw
      rw [List.nil_append, List.append_nil, pieces_stop h]
  | cons c w ih =>
      rw [Reading.run] at hw
      cases hc : r.extend? c with
      | none =>
          rw [hc] at hw
          cases hw
      | some next =>
          rw [hc] at hw
          rw [List.cons_append, pieces, hc]
          simp only
          rw [ih hw, List.reverse_cons, List.append_assoc, List.singleton_append]

theorem run_append {r r' : Reading} {s t : List Char} (h : r.run s = some r') :
    r.run (s ++ t) = r'.run t := by
  induction s generalizing r with
  | nil =>
      obtain rfl : r = r' := Option.some.inj h
      rfl
  | cons c s ih =>
      rw [Reading.run] at h
      cases hc : r.extend? c with
      | none =>
          rw [hc] at h
          cases h
      | some next =>
          rw [hc] at h
          rw [List.cons_append, Reading.run, hc]
          exact ih h

theorem run_all {r : Reading} {p : Char → Bool} (hr : ∀ c, p c = true → r.extend? c = some r)
    {s : List Char} (h : ∀ c ∈ s, p c = true) : r.run s = some r := by
  induction s with
  | nil => rfl
  | cons c s ih =>
      rw [Reading.run, hr c (h c List.mem_cons_self)]
      exact ih fun d hd => h d (List.mem_cons_of_mem _ hd)

/-! ## Numbers and names -/

def IsDigits (s : List Char) : Prop := s ≠ [] ∧ ∀ c ∈ s, c.isDigit = true

def IsLetters (s : List Char) : Prop := s ≠ [] ∧ ∀ c ∈ s, c.isAlpha = true

-- through `List.all`, since a membership in `Char` may be decided by going over all characters
instance (s : List Char) : Decidable (IsDigits s) :=
  decidable_of_iff (s ≠ [] ∧ s.all Char.isDigit = true) (and_congr_right' List.all_eq_true)

instance (s : List Char) : Decidable (IsLetters s) :=
  decidable_of_iff (s ≠ [] ∧ s.all Char.isAlpha = true) (and_congr_right' List.all_eq_true)

/-- Digits with an optional point and more digits after it. -/
def IsNumeral (s : List Char) : Prop :=
  IsDigits s ∨ ∃ ds es, IsDigits ds ∧ IsDigits es ∧ s = ds ++ '.' :: es

theorem IsNumeral.exists_cons {s : List Char} (h : IsNumeral s) :
    ∃ c cs, s = c :: cs ∧ c.isDigit = true := by
  rcases h with h | ⟨ds, es, hds, _, heq⟩
  · obtain ⟨c, cs, hs⟩ := List.exists_cons_of_ne_nil h.1
    exact ⟨c, cs, hs, h.2 c (hs ▸ List.mem_cons_self)⟩
  · obtain ⟨c, cs, hs⟩ := List.exists_cons_of_ne_nil hds.1
    refine ⟨c, cs ++ '.' :: es, ?_, hds.2 c (hs ▸ List.mem_cons_self)⟩
    rw [heq, hs, List.cons_append]

theorem IsNumeral.digit_or_point {s : List Char} (h : IsNumeral s) {c : Char} (hc : c ∈ s) :
    c.isDigit = true ∨ c = '.' := by
  rcases h with h | ⟨ds, es, hds, hes, rfl⟩
  · exact .inl (h.2 c hc)
  · rcases List.mem_append.1 hc with hc | hc
    · exact .inl (hds.2 c hc)
    · rcases List.mem_cons.1 hc with point | hc
      · exact .inr point
      · exact .inl (hes.2 c hc)

/-- Digits with an optional point and any digits after it, as a number is scanned. -/
def IsNumberLexeme (s : List Char) : Prop :=
  IsDigits s ∨
    ∃ ds es, IsDigits ds ∧ (∀ c ∈ es, c.isDigit = true) ∧ s = ds ++ '.' :: es

theorem not_isBlank_of_isDigit {c : Char} (h : c.isDigit = true) : Text.isBlank c = false := by
  simp only [Char.isDigit, Bool.and_eq_true, decide_eq_true_eq, ge_iff_le,
    UInt32.le_iff_toNat_le] at h
  have low : 48 ≤ c.toNat := h.1
  have high : c.toNat ≤ 57 := h.2
  simp [Text.isBlank, Text.blankRanges]
  omega

theorem range_of_isAlpha {c : Char} (h : c.isAlpha = true) :
    65 ≤ c.toNat ∧ c.toNat ≤ 90 ∨ 97 ≤ c.toNat ∧ c.toNat ≤ 122 := by
  have letter : (decide (65 ≤ c.val ∧ c.val ≤ 90) ||
      (decide (97 ≤ c.val) && decide (c.val ≤ 122))) = true := h
  simp only [Bool.or_eq_true, Bool.and_eq_true, decide_eq_true_eq, UInt32.le_iff_toNat_le] at letter
  exact letter

theorem not_isBlank_of_isAlpha {c : Char} (h : c.isAlpha = true) : Text.isBlank c = false := by
  have range := range_of_isAlpha h
  simp [Text.isBlank, Text.blankRanges]
  omega

theorem not_isDigit_of_isAlpha {c : Char} (h : c.isAlpha = true) : c.isDigit = false := by
  have range := range_of_isAlpha h
  simp only [Char.isDigit, Bool.and_eq_false_iff, decide_eq_false_iff_not, ge_iff_le,
    UInt32.le_iff_toNat_le]
  show ¬(48 ≤ c.toNat) ∨ ¬(c.toNat ≤ 57)
  omega

theorem start_of_isDigit {c : Char} (h : c.isDigit = true) : Reading.start c = .whole := by
  rw [Reading.start, not_isBlank_of_isDigit h, h]
  rfl

theorem start_of_isAlpha {c : Char} (h : c.isAlpha = true) : Reading.start c = .letters := by
  rw [Reading.start, not_isBlank_of_isAlpha h, not_isDigit_of_isAlpha h, h]
  rfl

/-- A text whose characters are all read into one token is that token. -/
theorem lexemes_run {c : Char} {w s : List Char} {r : Reading} (h : (Reading.start c).run w = some r)
    (hs : ∀ d ∈ s.head?, r.extend? d = none) :
    lexemes (c :: w ++ s) = (r.kind, c :: w) :: lexemes s :=
  pieces_run h hs

theorem IsDigits.run_whole {s : List Char} (h : IsDigits s) :
    ∃ c w, s = c :: w ∧ (Reading.start c).run w = some .whole := by
  obtain ⟨hne, digits⟩ := h
  cases s with
  | nil => exact absurd rfl hne
  | cons c w =>
      refine ⟨c, w, rfl, ?_⟩
      rw [start_of_isDigit (digits c List.mem_cons_self)]
      exact run_all (p := Char.isDigit) (fun d hd => by rw [Reading.extend?, if_pos hd])
        fun d hd => digits d (List.mem_cons_of_mem _ hd)

theorem lexemes_number {w s : List Char} (h : IsNumeral w) (hs : Stops s) :
    lexemes (w ++ s) = (.number, w) :: lexemes s := by
  rcases h with digits | ⟨ds, es, hds, hes, rfl⟩
  · obtain ⟨c, w, rfl, hrun⟩ := digits.run_whole
    refine lexemes_run hrun fun d hd => ?_
    obtain ⟨hdigit, _, hpoint⟩ := hs d hd
    rw [Reading.extend?, hdigit, if_neg (by decide), if_neg hpoint]
  · obtain ⟨c, w, rfl, hrun⟩ := hds.run_whole
    have more : (Reading.start c).run (w ++ '.' :: es) = some .fraction := by
      rw [run_append hrun]
      exact run_all (r := .fraction) (p := Char.isDigit)
        (fun d hd => by rw [Reading.extend?, if_pos hd]) hes.2
    refine lexemes_run more fun d hd => ?_
    rw [Reading.extend?, (hs d hd).1, if_neg (by decide)]

theorem IsLetters.run_letters {s : List Char} (h : IsLetters s) :
    ∃ c w, s = c :: w ∧ (Reading.start c).run w = some .letters := by
  obtain ⟨hne, letters⟩ := h
  cases s with
  | nil => exact absurd rfl hne
  | cons c w =>
      refine ⟨c, w, rfl, ?_⟩
      rw [start_of_isAlpha (letters c List.mem_cons_self)]
      exact run_all (p := Char.isAlpha) (fun d hd => by rw [Reading.extend?, if_pos hd])
        fun d hd => letters d (List.mem_cons_of_mem _ hd)

/-- A name is letters and digits after them. -/
theorem lexemes_name {w ds s : List Char} (hw : IsLetters w) (hds : ∀ c ∈ ds, c.isDigit = true)
    (hs : Stops s) : lexemes (w ++ ds ++ s) = (.name, w ++ ds) :: lexemes s := by
  obtain ⟨c, w, rfl, hrun⟩ := hw.run_letters
  cases ds with
  | nil =>
      rw [List.append_nil]
      refine lexemes_run hrun fun d hd => ?_
      rw [Reading.extend?, (hs d hd).1, (hs d hd).2.1, if_neg (by decide), if_neg (by decide)]
  | cons e ds =>
      have digit := hds e List.mem_cons_self
      have first : Reading.letters.extend? e = some .index := by
        have hletter : e.isAlpha = false := by
          cases he : e.isAlpha with
          | false => rfl
          | true => exact absurd (not_isDigit_of_isAlpha he) (by rw [digit]; decide)
        rw [Reading.extend?, hletter, if_neg (by decide), if_pos digit]
      have more : (Reading.start c).run (w ++ e :: ds) = some .index := by
        rw [run_append hrun, Reading.run, first]
        exact run_all (r := .index) (p := Char.isDigit)
          (fun d hd => by rw [Reading.extend?, if_pos hd])
          fun d hd => hds d (List.mem_cons_of_mem _ hd)
      refine lexemes_run more fun d hd => ?_
      rw [Reading.extend?, (hs d hd).1, if_neg (by decide)]

theorem lexemes_single {c : Char} {k : TokenKind} (h : Reading.start c = .single k)
    (s : List Char) : lexemes (c :: s) = (k, [c]) :: lexemes s := by
  have hrun : (Reading.start c).run [] = some (.single k) := by rw [h]; rfl
  exact lexemes_run (w := []) hrun fun d _ => rfl

theorem lexemes_blank {s : List Char} (h : ∀ c ∈ s.head?, Text.isBlank c = false) :
    lexemes (' ' :: s) = (.blank, [' ']) :: lexemes s := by
  have hrun : (Reading.start ' ').run [] = some .blanks := rfl
  refine lexemes_run (w := []) hrun fun d hd => ?_
  rw [Reading.extend?, h d hd, if_neg (by decide)]

/-- The characters of pieces of a text. -/
def chars (ps : List (TokenKind × List Char)) : List Char := ps.flatMap Prod.snd

theorem chars_append (ps qs : List (TokenKind × List Char)) :
    chars (ps ++ qs) = chars ps ++ chars qs := List.flatMap_append

/-- The number of bytes of pieces of a text. -/
def width (ps : List (TokenKind × List Char)) : Nat := byteLength (chars ps)

@[simp] theorem width_nil : width [] = 0 := rfl

@[simp] theorem width_cons (k : TokenKind) (w : List Char) (ps : List (TokenKind × List Char)) :
    width ((k, w) :: ps) = byteLength w + width ps := byteLength_append w (chars ps)

@[simp] theorem width_append (ps qs : List (TokenKind × List Char)) :
    width (ps ++ qs) = width ps + width qs := by
  rw [width, chars_append, byteLength_append]
  rfl

theorem place_append (offset : Nat) (ps qs : List (TokenKind × List Char)) :
    place offset (ps ++ qs) = place offset ps ++ place (offset + width ps) qs := by
  induction ps generalizing offset with
  | nil => rfl
  | cons p ps ih =>
      obtain ⟨kind, lexeme⟩ := p
      rw [List.cons_append, place, ih, place, width_cons, Nat.add_assoc, List.cons_append]

end Token

namespace TokenTree

open Token

variable {v : Vocabulary}

/-! ## Grouping -/

/-- Whether pieces of a text add the trees `ts` to every forest, up to the places of the trees. -/
def Builds (v : Vocabulary) (ps : List (TokenKind × List Char)) (ts : List TokenTree) : Prop :=
  ∀ offset, ∃ us, eraseAll us = ts ∧
    ∀ f : Forest, (place offset ps).foldl (Forest.read v) f = f.add us.reverse

theorem Forest.add_add (f : Forest) (ts us : List TokenTree) :
    (f.add ts).add us = f.add (us ++ ts) := by
  obtain ⟨top, groups⟩ := f
  cases groups with
  | nil => simp only [Forest.add, List.append_assoc]
  | cons g outer => simp only [Forest.add, List.append_assoc]

theorem Forest.add_nil (f : Forest) : f.add [] = f := by
  obtain ⟨top, groups⟩ := f
  cases groups <;> rfl

namespace Builds

theorem append {ps qs : List (TokenKind × List Char)} {ts us : List TokenTree}
    (hp : Builds v ps ts) (hq : Builds v qs us) : Builds v (ps ++ qs) (ts ++ us) := by
  intro offset
  obtain ⟨ts', hts, first⟩ := hp offset
  obtain ⟨us', hus, second⟩ := hq (offset + width ps)
  refine ⟨ts' ++ us', by rw [eraseAll_append, hts, hus], fun f => ?_⟩
  rw [place_append, List.foldl_append, first, second, Forest.add_add, List.reverse_append]

/-- A token that is no parenthesis adds its own trees. -/
theorem token {k : TokenKind} {w : List Char} {ts : List TokenTree} (hopen : k ≠ .openParen)
    (hclose : k ≠ .closeParen) (h : ∀ s : Span, eraseAll (ofToken v ⟨k, s, w⟩) = ts) :
    Builds v [(k, w)] ts := by
  intro offset
  refine ⟨_, h ⟨offset, offset + byteLength w⟩, fun f => ?_⟩
  cases k <;> first | rfl | exact absurd rfl hopen | exact absurd rfl hclose

theorem group {ps : List (TokenKind × List Char)} {ts : List TokenTree} (h : Builds v ps ts) :
    Builds v ((.openParen, ['(']) :: ps ++ [(.closeParen, [')'])]) [.group .nowhere ts] := by
  intro offset
  obtain ⟨ts', hts, inside⟩ := h (offset + byteLength ['('])
  refine ⟨[.group ⟨offset, offset + byteLength ['('] + width ps + byteLength [')']⟩ ts'], ?_,
    fun f => ?_⟩
  · rw [eraseAll, erase, hts]
    rfl
  · rw [List.cons_append, place]
    simp only [place_append, List.foldl_cons, List.foldl_append, inside]
    simp only [place, List.foldl_cons, List.foldl_nil, Forest.read, Forest.openGroup,
      Forest.closeGroup, Forest.add, Span.through, List.append_nil, List.reverse_reverse,
      List.reverse_singleton]

end Builds

/-! ## Written texts -/

/-- Whether the text is read as the trees `ts` wherever no number or name goes on after it. -/
def Written (v : Vocabulary) (s : List Char) (ts : List TokenTree) : Prop :=
  (∃ c w, s = c :: w ∧ Text.isBlank c = false) ∧
    ∃ ps, (∀ rest, Stops rest → lexemes (s ++ rest) = ps ++ lexemes rest) ∧ Builds v ps ts

theorem stops_nil : Stops [] := fun _ h => nomatch h

theorem erase_ofSource {s : List Char} {ts : List TokenTree} (h : Written v s ts) :
    eraseAll (ofSource v s) = ts := by
  obtain ⟨_, ps, hps, builds⟩ := h
  obtain ⟨us, hus, hfold⟩ := builds 0
  have pieces : lexemes s = ps := by
    have := hps [] stops_nil
    rwa [List.append_nil, lexemes, List.append_nil] at this
  rw [ofSource, scan_eq, pieces, hfold]
  simp only [Forest.add, Forest.close, Forest.spilled, List.append_nil, List.nil_append,
    List.reverse_reverse]
  exact hus

namespace Written

theorem append {s t : List Char} {ts us : List TokenTree} (hs : Written v s ts)
    (ht : Written v t us) (stops : Stops t) : Written v (s ++ t) (ts ++ us) := by
  obtain ⟨⟨c, w, rfl, hc⟩, ps, hps, first⟩ := hs
  obtain ⟨⟨d, w', rfl, _⟩, qs, hqs, second⟩ := ht
  refine ⟨⟨c, w ++ d :: w', rfl, hc⟩, ps ++ qs, fun rest hrest => ?_, first.append second⟩
  have next : Stops (d :: w' ++ rest) := fun e he => stops e he
  rw [List.append_assoc, hps _ next, hqs _ hrest, List.append_assoc]

theorem builds_operator (op : Operator) :
    Builds v [(Reading.singleKind op.toChar, [op.toChar])] [.char .nowhere op.toChar] := by
  cases op <;> exact Builds.token (by decide) (by decide) fun _ => rfl

theorem start_operator (op : Operator) :
    Reading.start op.toChar = .single (Reading.singleKind op.toChar) := by
  cases op <;> rfl

/-- An operator before a text. -/
theorem operator (op : Operator) {s : List Char} {ts : List TokenTree} (h : Written v s ts) :
    Written v (op.toChar :: s) (.char .nowhere op.toChar :: ts) := by
  obtain ⟨_, ps, hps, builds⟩ := h
  refine ⟨⟨_, s, rfl, by cases op <;> decide⟩, _, fun rest hrest => ?_,
    (builds_operator op).append builds⟩
  rw [List.cons_append, lexemes_single (start_operator op), hps rest hrest]
  rfl

theorem stops_operator (op : Operator) (s : List Char) : Stops (op.toChar :: s) := by
  rintro c ⟨⟩
  cases op <;> decide

theorem stops_paren (s : List Char) : Stops ('(' :: s) := by
  rintro c ⟨⟩
  decide

/-- An operator between two texts. -/
theorem binary (op : Operator) {s t : List Char} {ts us : List TokenTree} (hs : Written v s ts)
    (ht : Written v t us) :
    Written v (s ++ op.toChar :: t) (ts ++ .char .nowhere op.toChar :: us) :=
  hs.append (ht.operator op) (stops_operator op t)

theorem paren {s : List Char} {ts : List TokenTree} (h : Written v s ts) :
    Written v ('(' :: s ++ [')']) [.group .nowhere ts] := by
  obtain ⟨_, ps, hps, builds⟩ := h
  refine ⟨⟨'(', s ++ [')'], rfl, by decide⟩, _, fun rest hrest => ?_, builds.group⟩
  have close : Stops (')' :: rest) := by
    rintro c ⟨⟩
    decide
  rw [List.cons_append, List.cons_append, List.append_assoc, List.singleton_append,
    lexemes_single (k := .openParen) rfl, hps _ close,
    lexemes_single (k := .closeParen) rfl, List.cons_append, List.cons_append,
    List.append_assoc, List.singleton_append]

theorem builds_blank : Builds v [(.blank, [' '])] [] :=
  Builds.token (by decide) (by decide) fun _ => rfl

/-- An operator between two texts, with a blank on each side. -/
theorem spaced (op : Operator) {s t : List Char} {ts us : List TokenTree} (hs : Written v s ts)
    (ht : Written v t us) :
    Written v (s ++ ' ' :: op.toChar :: ' ' :: t) (ts ++ .char .nowhere op.toChar :: us) := by
  obtain ⟨⟨c, w, rfl, hc⟩, ps, hps, first⟩ := hs
  obtain ⟨⟨d, w', rfl, hd⟩, qs, hqs, second⟩ := ht
  have trees := first.append (builds_blank.append ((builds_operator op).append
    (builds_blank.append second)))
  refine ⟨⟨c, _, rfl, hc⟩, _, fun rest hrest => ?_, trees⟩
  have stop : Stops (' ' :: op.toChar :: ' ' :: (d :: w' ++ rest)) := by
    rintro e ⟨⟩
    decide
  have before : ∀ e ∈ (op.toChar :: ' ' :: (d :: w' ++ rest)).head?, Text.isBlank e = false := by
    rintro e ⟨⟩
    cases op <;> decide
  have after : ∀ e ∈ (d :: w' ++ rest).head?, Text.isBlank e = false := by
    rintro e ⟨⟩
    exact hd
  simp only [List.append_assoc, List.cons_append] at stop before after hps hqs ⊢
  rw [hps _ stop, lexemes_blank before, lexemes_single (start_operator op), lexemes_blank after,
    hqs _ hrest]
  simp only [List.nil_append]

/-! ## Operands -/

theorem number {w : List Char} (h : IsNumeral w) :
    Written v w [.number .nowhere (String.ofList w)] := by
  have start : ∃ c w', w = c :: w' ∧ c.isDigit = true := by
    rcases h with ⟨hne, hw⟩ | ⟨ds, es, ⟨hne, hds⟩, _, rfl⟩
    · obtain ⟨c, w', rfl⟩ := List.exists_cons_of_ne_nil hne
      exact ⟨c, w', rfl, hw c List.mem_cons_self⟩
    · obtain ⟨c, w', rfl⟩ := List.exists_cons_of_ne_nil hne
      exact ⟨c, _, rfl, hds c List.mem_cons_self⟩
  obtain ⟨c, w', hw, hc⟩ := start
  refine ⟨⟨c, w', hw, not_isBlank_of_isDigit hc⟩, [(.number, w)], fun rest hrest => ?_,
    Builds.token (by decide) (by decide) fun _ => rfl⟩
  rw [lexemes_number h hrest, List.singleton_append]

/-- Letters with digits after them are read as a name. -/
theorem name {w ds : List Char} (hw : IsLetters w) (hds : ∀ c ∈ ds, c.isDigit = true)
    {ts : List TokenTree} (h : ∀ s : Span, eraseAll (ofName v ⟨.name, s, w ++ ds⟩) = ts) :
    Written v (w ++ ds) ts := by
  obtain ⟨c, w', rfl⟩ := List.exists_cons_of_ne_nil hw.1
  have letter := hw.2 c List.mem_cons_self
  refine ⟨⟨c, _, rfl, not_isBlank_of_isAlpha letter⟩, [(.name, c :: w' ++ ds)],
    fun rest hrest => ?_, Builds.token (by decide) (by decide) h⟩
  rw [lexemes_name hw hds hrest, List.singleton_append]

theorem takeWhile_letters {w ds : List Char} (hw : IsLetters w) (hds : ∀ c ∈ ds, c.isDigit = true) :
    (w ++ ds).takeWhile (!·.isDigit) = w ∧ (w ++ ds).dropWhile (!·.isDigit) = ds := by
  have letters : ∀ c ∈ w, (!c.isDigit) = true := fun c hc => by
    rw [not_isDigit_of_isAlpha (hw.2 c hc)]
    rfl
  rw [List.takeWhile_append_of_pos letters, List.dropWhile_append_of_pos letters]
  cases ds with
  | nil => exact ⟨List.append_nil w, rfl⟩
  | cons d ds =>
      have digit := hds d List.mem_cons_self
      rw [List.takeWhile_cons_of_neg (by rw [digit]; decide),
        List.dropWhile_cons_of_neg (by rw [digit]; decide), List.append_nil]
      exact ⟨rfl, rfl⟩

theorem var {w ds : List Char} (hw : IsLetters w) (hds : ∀ c ∈ ds, c.isDigit = true)
    (hkeyword : v.isKeyword (String.ofList w) = false)
    (hconstant : v.isConstant (String.ofList w) = false) :
    Written v (w ++ ds) [.var .nowhere (String.ofList w)
      (if ds.isEmpty then none else some (String.ofList ds))] := by
  refine Written.name hw hds fun s => ?_
  obtain ⟨letters, digits⟩ := takeWhile_letters hw hds
  simp only [ofName, letters, digits, hkeyword, hconstant, Bool.false_eq_true, if_false]
  rfl

/-- A variable with an optional index. -/
theorem indexed {name : String} {index : Option String} (hname : IsLetters name.toList)
    (hkeyword : v.isKeyword name = false) (hconstant : v.isConstant name = false)
    (hindex : ∀ ds ∈ index, IsDigits ds.toList) :
    Written v (name ++ index.getD "").toList [.var .nowhere name index] := by
  rw [← String.ofList_toList (s := name)] at hkeyword hconstant
  rw [String.toList_append]
  cases index with
  | none =>
      have none : ∀ c ∈ ([] : List Char), c.isDigit = true := fun _ h => nomatch h
      have written := Written.var hname none hkeyword hconstant
      rw [String.ofList_toList] at written
      exact written
  | some ds =>
      obtain ⟨hne, hds⟩ := hindex ds rfl
      have written := Written.var hname hds hkeyword hconstant
      rw [String.ofList_toList, String.ofList_toList, if_neg (by simpa using hne)] at written
      exact written

theorem const {w : List Char} (hw : IsLetters w) (hkeyword : v.isKeyword (String.ofList w) = false)
    (hconstant : v.isConstant (String.ofList w) = true) :
    Written v w [.const .nowhere (String.ofList w)] := by
  have none : ∀ c ∈ ([] : List Char), c.isDigit = true := fun _ h => nomatch h
  have h : Written v (w ++ []) [.const .nowhere (String.ofList w)] :=
    Written.name hw none fun s => by
      obtain ⟨letters, digits⟩ := takeWhile_letters hw none
      simp only [ofName, letters, digits, hkeyword, hconstant, Bool.false_eq_true, if_false, if_true,
        List.isEmpty_nil]
      rfl
  rwa [List.append_nil] at h

theorem keyword {w : List Char} (hw : IsLetters w)
    (hkeyword : v.isKeyword (String.ofList w) = true) :
    Written v w [.keyword .nowhere (String.ofList w)] := by
  have none : ∀ c ∈ ([] : List Char), c.isDigit = true := fun _ h => nomatch h
  have h : Written v (w ++ []) [.keyword .nowhere (String.ofList w)] :=
    Written.name hw none fun s => by
      obtain ⟨letters, digits⟩ := takeWhile_letters hw none
      simp only [ofName, letters, digits, hkeyword, if_true, List.isEmpty_nil]
      rfl
  rwa [List.append_nil] at h

end Written

end TokenTree

end AlgebraicTerms
