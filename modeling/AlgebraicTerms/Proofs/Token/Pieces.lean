import AlgebraicTerms.Proofs.Token.Written

/-!
# Pieces of a text

A text is cut into pieces, and nothing of it is lost (`chars_lexemes`).  Where one piece ends and the
next begins does not depend on what stands further away, so that a part of a text that begins and ends
with a piece is cut into the same pieces when it stands alone (`lexemes_split`).  Numbers are digits
with an optional point, and names are letters with digits after them.
-/

namespace AlgebraicTerms

namespace Token

/-- A kind of token and its characters. -/
abbrev Piece := TokenKind × List Char

/-- The characters are read as one token of the kind. -/
def IsPiece (p : Piece) : Prop :=
  ∃ c w r, p = (Reading.kind r, c :: w) ∧ (Reading.start c).run w = some r

/-- A token is read as far as its characters go on. -/
theorem exists_longest_run (r : Reading) (s : List Char) : ∃ w r' t, s = w ++ t ∧
    r.run w = some r' ∧ ∀ d ∈ t.head?, r'.extend? d = none := by
  induction s generalizing r with
  | nil => exact ⟨[], r, [], rfl, rfl, nofun⟩
  | cons c s ih =>
      cases next : r.extend? c with
      | none =>
          refine ⟨[], r, c :: s, rfl, rfl, ?_⟩
          rintro d ⟨⟩
          exact next
      | some next' =>
          obtain ⟨w, r', t, rfl, hrun, stop⟩ := ih next'
          refine ⟨c :: w, r', t, rfl, ?_, stop⟩
          rw [Reading.run, next]
          exact hrun

/-- The first piece of a text is a token, and the others are those of the rest. -/
theorem lexemes_eq_cons {s : List Char} {p : Piece} {ps : List Piece} (h : lexemes s = p :: ps) :
    ∃ c w r t, s = c :: w ++ t ∧ p = (r.kind, c :: w) ∧ (Reading.start c).run w = some r ∧
      (∀ d ∈ t.head?, r.extend? d = none) ∧ lexemes t = ps := by
  cases s with
  | nil => cases h
  | cons c s =>
      obtain ⟨w, r, t, rfl, hrun, stop⟩ := exists_longest_run (.start c) s
      have first := lexemes_run hrun stop
      rw [List.cons_append, h] at first
      cases first
      exact ⟨c, w, r, t, rfl, rfl, hrun, stop, rfl⟩

theorem isPiece_of_mem_lexemes {s : List Char} : ∀ p ∈ lexemes s, IsPiece p := by
  generalize hps : lexemes s = ps
  induction ps generalizing s with
  | nil => exact fun p hp => absurd hp List.not_mem_nil
  | cons p ps ih =>
      obtain ⟨c, w, r, t, _, rfl, hrun, _, rest⟩ := lexemes_eq_cons hps
      exact List.forall_mem_cons.2 ⟨⟨c, w, r, rfl, hrun⟩, ih rest⟩

/-- Nothing of a text is lost. -/
theorem chars_lexemes (s : List Char) : chars (lexemes s) = s := by
  generalize hps : lexemes s = ps
  induction ps generalizing s with
  | nil =>
      cases s with
      | nil => rfl
      | cons c s =>
          obtain ⟨w, r, t, rfl, hrun, stop⟩ := exists_longest_run (.start c) s
          cases (lexemes_run hrun stop).symm.trans hps
  | cons p ps ih =>
      obtain ⟨c, w, r, t, rfl, rfl, _, _, rest⟩ := lexemes_eq_cons hps
      exact congrArg (c :: w ++ ·) (ih t rest)

/-- A text can be taken apart between two of its pieces. -/
theorem lexemes_split {s : List Char} {ps qs : List Piece} (h : lexemes s = ps ++ qs) :
    lexemes (chars ps) = ps ∧ lexemes (chars qs) = qs := by
  induction ps generalizing s with
  | nil =>
      refine ⟨rfl, ?_⟩
      rw [List.nil_append] at h
      rw [← h, chars_lexemes]
  | cons p ps ih =>
      obtain ⟨c, w, r, t, rfl, rfl, hrun, stop, rest⟩ := lexemes_eq_cons h
      obtain ⟨left, right⟩ := ih rest
      refine ⟨?_, right⟩
      have split : t = chars ps ++ chars qs := by
        rw [← chars_append, ← chars_lexemes t, rest]
        rfl
      have before : ∀ d ∈ (chars ps).head?, r.extend? d = none := by
        intro d hd
        refine stop d ?_
        rw [split, List.head?_append, hd]
        rfl
      have first := lexemes_run hrun before
      rw [left] at first
      exact first

/-- A part of a text between two of its pieces is cut in the same way when it stands alone. -/
theorem lexemes_between {s : List Char} {ps qs rs : List Piece} (h : lexemes s = ps ++ qs ++ rs) :
    lexemes (chars qs) = qs := by
  have left := (lexemes_split h).1
  exact (lexemes_split left).2

/-! ## Parentheses and blanks -/

/-- The first character of a token decides its kind. -/
theorem kind_of_extend? {r r' : Reading} {c : Char} (h : r.extend? c = some r') :
    r'.kind = r.kind := by
  cases r <;> simp only [Reading.extend?] at h
  case blanks =>
    split at h <;> cases h
    rfl
  case whole =>
    split at h
    · cases h
      rfl
    · split at h <;> cases h
      rfl
  case fraction =>
    split at h <;> cases h
    rfl
  case letters =>
    split at h
    · cases h
      rfl
    · split at h <;> cases h
      rfl
  case index =>
    split at h <;> cases h
    rfl
  case single => cases h

theorem run_cons {r r' : Reading} {c : Char} {w : List Char} (h : r.run (c :: w) = some r') :
    ∃ next, r.extend? c = some next ∧ next.run w = some r' :=
  Option.bind_eq_some_iff.1 h

theorem kind_of_run {r r' : Reading} {w : List Char} (h : r.run w = some r') : r'.kind = r.kind := by
  induction w generalizing r with
  | nil => rw [← Option.some.inj h]
  | cons c w ih =>
      obtain ⟨next, first, rest⟩ := run_cons h
      rw [ih rest, kind_of_extend? first]

/-- What holds of every character that goes on with a token holds of all its characters. -/
theorem forall_of_run {P : Char → Prop} {r r' : Reading} {w : List Char} (h : r.run w = some r')
    (step : ∀ (q q' : Reading) c, q.kind = r.kind → q.extend? c = some q' → P c) :
    ∀ c ∈ w, P c := by
  induction w generalizing r with
  | nil => exact fun c hc => absurd hc List.not_mem_nil
  | cons c w ih =>
      obtain ⟨next, first, rest⟩ := run_cons h
      have same := kind_of_extend? first
      exact List.forall_mem_cons.2 ⟨step r next c rfl first,
        ih rest fun q q' c hq => step q q' c (hq.trans same)⟩

/-- A parenthesis goes on with no token. -/
theorem not_paren_of_extend? {r r' : Reading} {c : Char} (h : r.extend? c = some r') :
    c ≠ '(' ∧ c ≠ ')' := by
  constructor
  · rintro rfl
    cases r <;> cases h
  · rintro rfl
    cases r <;> cases h

theorem start_cases (c : Char) : (Reading.start c = .blanks ∧ Text.isBlank c = true) ∨
    (Reading.start c).kind = .number ∨ (Reading.start c).kind = .name ∨
      Reading.start c = .single (Reading.singleKind c) := by
  unfold Reading.start
  split
  · exact .inl ⟨rfl, by assumption⟩
  · split
    · exact .inr (.inl rfl)
    · split
      · exact .inr (.inr (.inl rfl))
      · exact .inr (.inr (.inr rfl))

theorem singleKind_eq_openParen {c : Char} (h : Reading.singleKind c = .openParen) : c = '(' := by
  unfold Reading.singleKind at h
  split at h <;> first | rfl | cases h

theorem singleKind_eq_closeParen {c : Char} (h : Reading.singleKind c = .closeParen) : c = ')' := by
  unfold Reading.singleKind at h
  split at h <;> first | rfl | cases h

theorem singleKind_ne_blank (c : Char) : Reading.singleKind c ≠ .blank := by
  unfold Reading.singleKind
  split <;> nofun

@[simp] theorem byteLength_openParen : byteLength ['('] = 1 := rfl

@[simp] theorem byteLength_closeParen : byteLength [')'] = 1 := rfl

namespace IsPiece

variable {k : TokenKind} {w : List Char}

theorem exists_cons (h : IsPiece (k, w)) : ∃ c w' r, w = c :: w' ∧ k = (Reading.start c).kind ∧
    (Reading.start c).run w' = some r := by
  obtain ⟨c, w', r, same, hrun⟩ := h
  cases same
  exact ⟨c, w', r, rfl, kind_of_run hrun, hrun⟩

theorem width_pos (h : IsPiece (k, w)) (ps : List Piece) : 0 < width ((k, w) :: ps) := by
  obtain ⟨c, w', _, rfl, _⟩ := h.exists_cons
  have size := c.utf8Size_pos
  rw [width_cons, byteLength]
  omega

/-- A piece of any other kind than these is a single character. -/
theorem single (h : IsPiece (k, w)) (blank : k ≠ .blank) (number : k ≠ .number)
    (name : k ≠ .name) : ∃ c, w = [c] ∧ k = Reading.singleKind c := by
  obtain ⟨c, w', r, rfl, rfl, hrun⟩ := h.exists_cons
  rcases start_cases c with ⟨start, _⟩ | start | start | start
  · exact absurd (congrArg Reading.kind start) blank
  · exact absurd start number
  · exact absurd start name
  · rw [start] at hrun ⊢
    cases w' with
    | nil => exact ⟨c, rfl, rfl⟩
    | cons d w' => cases hrun

theorem openParen (h : IsPiece (.openParen, w)) : w = ['('] := by
  obtain ⟨c, rfl, kind⟩ := h.single nofun nofun nofun
  rw [singleKind_eq_openParen kind.symm]

theorem closeParen (h : IsPiece (.closeParen, w)) : w = [')'] := by
  obtain ⟨c, rfl, kind⟩ := h.single nofun nofun nofun
  rw [singleKind_eq_closeParen kind.symm]

/-- No other piece has a parenthesis in it. -/
theorem not_paren (h : IsPiece (k, w)) (hopen : k ≠ .openParen) (hclose : k ≠ .closeParen) :
    ∀ c ∈ w, c ≠ '(' ∧ c ≠ ')' := by
  obtain ⟨c, w', r, rfl, rfl, hrun⟩ := h.exists_cons
  have first : c ≠ '(' ∧ c ≠ ')' := by
    constructor
    · rintro rfl
      exact hopen rfl
    · rintro rfl
      exact hclose rfl
  exact List.forall_mem_cons.2
    ⟨first, forall_of_run hrun fun _ _ _ _ step => not_paren_of_extend? step⟩

theorem blank (h : IsPiece (.blank, w)) : ∀ c ∈ w, Text.isBlank c = true := by
  obtain ⟨c, w', r, rfl, kind, hrun⟩ := h.exists_cons
  have first : Text.isBlank c = true := by
    rcases start_cases c with ⟨_, blank⟩ | start | start | start
    · exact blank
    · cases kind.trans start
    · cases kind.trans start
    · rw [start] at kind
      exact absurd kind.symm (singleKind_ne_blank c)
  refine List.forall_mem_cons.2 ⟨first, forall_of_run hrun fun q q' d hq step => ?_⟩
  cases q with
  | blanks =>
      simp only [Reading.extend?] at step
      split at step
      · assumption
      · cases step
  | single k => cases step
  | _ => cases kind.trans hq.symm

end IsPiece

/-! ## Numbers and names -/

theorem run_fraction {r : Reading} {w : List Char} (h : Reading.fraction.run w = some r) :
    ∀ c ∈ w, c.isDigit = true := by
  induction w with
  | nil => exact fun _ hc => nomatch hc
  | cons c w ih =>
      obtain ⟨next, first, rest⟩ := run_cons h
      rw [Reading.extend?] at first
      split at first
      · rename_i digit
        cases first
        exact List.forall_mem_cons.2 ⟨digit, ih rest⟩
      · cases first

theorem run_whole {r : Reading} {w : List Char} (h : Reading.whole.run w = some r) :
    (∀ c ∈ w, c.isDigit = true) ∨
      ∃ ds es, (∀ c ∈ ds, c.isDigit = true) ∧ (∀ c ∈ es, c.isDigit = true) ∧
        w = ds ++ '.' :: es := by
  induction w with
  | nil => exact .inl fun _ hc => nomatch hc
  | cons c w ih =>
      obtain ⟨next, first, rest⟩ := run_cons h
      rw [Reading.extend?] at first
      split at first
      · rename_i digit
        cases first
        rcases ih rest with digits | ⟨ds, es, whole, fraction, rfl⟩
        · exact .inl (List.forall_mem_cons.2 ⟨digit, digits⟩)
        · exact .inr ⟨c :: ds, es, List.forall_mem_cons.2 ⟨digit, whole⟩, fraction, rfl⟩
      · split at first
        · rename_i point
          cases first
          subst point
          exact .inr ⟨[], w, (fun _ hc => nomatch hc), run_fraction rest, rfl⟩
        · cases first

theorem Reading.singleKind_ne_number (c : Char) : Reading.singleKind c ≠ .number := by
  unfold Reading.singleKind
  split <;> exact nofun

/-- Numbers start with a digit. -/
theorem start_of_number {c : Char} (h : (Reading.start c).kind = .number) :
    Reading.start c = .whole ∧ c.isDigit = true := by
  unfold Reading.start at h ⊢
  split at h
  · cases h
  · split at h
    · rename_i blank digit
      rw [if_neg blank, if_pos digit]
      exact ⟨rfl, digit⟩
    · split at h
      · cases h
      · exact absurd h (Reading.singleKind_ne_number c)

/-- A number is scanned as digits with an optional point. -/
theorem IsPiece.number {w : List Char} (h : IsPiece (.number, w)) : IsNumberLexeme w := by
  obtain ⟨c, w, r, rfl, kind, hrun⟩ := h.exists_cons
  obtain ⟨start, digit⟩ := start_of_number kind.symm
  rw [start] at hrun
  rcases run_whole hrun with digits | ⟨ds, es, digits, fraction, rfl⟩
  · exact .inl ⟨List.cons_ne_nil c w, List.forall_mem_cons.2 ⟨digit, digits⟩⟩
  · exact .inr ⟨c :: ds, es, ⟨List.cons_ne_nil c ds, List.forall_mem_cons.2 ⟨digit, digits⟩⟩,
      fraction, rfl⟩

/-- Letters with digits after them. -/
def IsName (w : List Char) : Prop :=
  ∃ ls ds, IsLetters ls ∧ (∀ c ∈ ds, c.isDigit = true) ∧ w = ls ++ ds

/-- Whether `w` can have been read. -/
def Reading.Of : Reading → List Char → Prop
  | letters, w => IsLetters w
  | index, w => IsName w
  | single k, _ => k ≠ .name
  | _, _ => True

theorem Reading.singleKind_ne_name (c : Char) : Reading.singleKind c ≠ .name := by
  unfold Reading.singleKind
  split <;> exact nofun

theorem Reading.start_of (c : Char) : (Reading.start c).Of [c] := by
  unfold Reading.start
  split
  · trivial
  · split
    · trivial
    · split
      · rename_i h
        exact ⟨List.cons_ne_nil _ _, fun d hd => by rwa [List.mem_singleton.1 hd]⟩
      · exact Reading.singleKind_ne_name c

theorem Reading.extend_of {r r' : Reading} {w : List Char} {c : Char} (h : r.Of w)
    (hr : r.extend? c = some r') : r'.Of (w ++ [c]) := by
  cases r with
  | letters =>
      rw [Reading.extend?] at hr
      split at hr
      · rename_i hc
        cases hr
        refine ⟨by simp, fun d hd => ?_⟩
        rcases List.mem_append.1 hd with hd | hd
        · exact h.2 d hd
        · rwa [List.mem_singleton.1 hd]
      · split at hr
        · rename_i hc
          cases hr
          exact ⟨w, [c], h, fun d hd => by rwa [List.mem_singleton.1 hd], rfl⟩
        · cases hr
  | index =>
      rw [Reading.extend?] at hr
      split at hr
      · rename_i hc
        cases hr
        obtain ⟨ls, ds, hls, hds, rfl⟩ := h
        refine ⟨ls, ds ++ [c], hls, fun d hd => ?_, by rw [List.append_assoc]⟩
        rcases List.mem_append.1 hd with hd | hd
        · exact hds d hd
        · rwa [List.mem_singleton.1 hd]
      · cases hr
  | blanks | whole | fraction =>
      simp only [Reading.extend?] at hr
      repeat' split at hr
      all_goals first | (cases hr; trivial) | cases hr
  | single k => cases hr

theorem pieces_names {r : Reading} {seen : List Char} (h : r.Of seen.reverse) {s : List Char}
    {p : TokenKind × List Char} (hp : p ∈ pieces r seen s) (hname : p.1 = .name) : IsName p.2 := by
  have whole {r : Reading} {seen : List Char} (h : r.Of seen.reverse) (hname : r.kind = .name) :
      IsName seen.reverse := by
    cases r with
    | letters => exact ⟨_, [], h, fun _ hc => (nomatch hc), (List.append_nil _).symm⟩
    | index => exact h
    | single k => exact absurd hname h
    | _ => cases hname
  induction s generalizing r seen with
  | nil =>
      obtain rfl := List.mem_singleton.1 hp
      exact whole h hname
  | cons c s ih =>
      rw [pieces] at hp
      cases hc : r.extend? c with
      | some next =>
          rw [hc] at hp
          refine ih ?_ hp
          rw [List.reverse_cons]
          exact Reading.extend_of h hc
      | none =>
          rw [hc] at hp
          rcases List.mem_cons.1 hp with rfl | hp
          · exact whole h hname
          · exact ih (Reading.start_of c) hp

theorem lexemes_names {s : List Char} {p : TokenKind × List Char} (hp : p ∈ lexemes s)
    (hname : p.1 = .name) : IsName p.2 := by
  cases s with
  | nil => cases hp
  | cons c s => exact pieces_names (Reading.start_of c) hp hname

theorem IsPiece.name {w : List Char} (h : IsPiece (.name, w)) : IsName w := by
  obtain ⟨c, w', r, same, hrun⟩ := h
  obtain ⟨kind, rfl⟩ := Prod.mk.inj same
  have whole := lexemes_run (s := []) hrun nofun
  rw [List.append_nil, ← kind] at whole
  exact lexemes_names (p := (.name, c :: w')) (whole ▸ List.mem_cons_self) rfl

theorem mem_place {offset : Nat} {ps : List (TokenKind × List Char)} {t : Token}
    (h : t ∈ place offset ps) : (t.kind, t.lexeme) ∈ ps := by
  induction ps generalizing offset with
  | nil => cases h
  | cons p ps ih =>
      rcases List.mem_cons.1 h with rfl | h
      · exact List.mem_cons_self
      · exact List.mem_cons_of_mem _ (ih h)

theorem scan_names {s : List Char} {t : Token} (ht : t ∈ scan s) (hname : t.kind = .name) :
    IsName t.lexeme := by
  rw [scan_eq] at ht
  exact lexemes_names (mem_place ht) hname

end Token

end AlgebraicTerms
