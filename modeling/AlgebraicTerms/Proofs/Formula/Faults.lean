import AlgebraicTerms.Formula.Reading
import AlgebraicTerms.Proofs.Token.Balance
import AlgebraicTerms.Scalar.Double

/-!
# The places of faults

A source that is no formula is refused with one span, and what is there is what the fault is about
(`parse_points`).  All trees stand where their spans say, so each step of the reader that fails has
only to be asked which tree it blames.
-/

namespace AlgebraicTerms

/-- Whether the fault fits the characters `w` that it points at, between the rest of the source. -/
def ParseFault.Fits (before w after : List Char) : ParseFault → Prop
  | .unexpectedEnd => (w = [] ∧ after = []) ∨ (w = [')'] ∧ Opens before)
  | .missingOperand op => w = [op]
  | .unexpectedToken lexeme => w = lexeme.toList
  | .unclosedParenthesis true => w = ['('] ∧ ¬Closes after
  | .unclosedParenthesis false => w = [')'] ∧ ¬Opens before
  | .emptyParenthesis => ∃ blanks, w = '(' :: (blanks ++ [')']) ∧ ∀ c ∈ blanks, Text.isBlank c = true
  | .missingArgument keyword => w = keyword.toList
  | .nestedTooDeeply _ => True

/-- The error points at a part of the source that its fault fits. -/
def ParseError.Points (source : List Char) (e : ParseError) : Prop :=
  ∃ before w after, e.span.Covers source before w after ∧ e.fault.Fits before w after

namespace Formula

open TokenTree

variable {α β γ : Type}

/-- Every error that a reading ends with points at the source. -/
def Points (source : List Char) (r : Except ParseError β) : Prop :=
  ∀ e, r = .error e → e.Points source

namespace Points

variable {source : List Char} {r : Except ParseError β}

theorem ok (b : β) : Points source (.ok b) := nofun

theorem error {e : ParseError} (h : e.Points source) : Points source (.error e : Except _ β) := by
  rintro _ ⟨⟩
  exact h

theorem bind {k : β → Except ParseError γ} (hr : Points source r) (hk : ∀ b, Points source (k b)) :
    Points source (r >>= k) := by
  cases r with
  | error e => exact error (hr e rfl)
  | ok b => exact hk b

theorem map {f : β → γ} (hr : Points source r) : Points source (f <$> r) := hr.bind fun b => ok (f b)

end Points

section Trees

variable {source : List Char} {t : TokenTree}

theorem tooDeep_points (h : t.Sits source) : (tooDeep t.span).Points source := by
  obtain ⟨w, before, after, covers⟩ := h.quotes
  exact ⟨before, w, after, covers, trivial⟩

theorem unexpectedToken_points (h : t.Sits source) :
    ParseError.Points source ⟨t.span, .unexpectedToken (String.ofList (t.span.slice source))⟩ := by
  obtain ⟨w, quotes⟩ := h.quotes
  rw [quotes.slice]
  obtain ⟨before, after, covers⟩ := quotes
  exact ⟨before, w, after, covers, String.toList_ofList.symm⟩

/-- A token that cannot be used is quoted, or is an operator or a parenthesis without a partner. -/
theorem unexpected_points (h : t.Sits source) : (unexpected source t).Points source := by
  have token := unexpectedToken_points h
  unfold unexpected
  split
  · obtain ⟨before, after, covers, lone, -⟩ := h
    exact ⟨before, _, after, covers, rfl, lone rfl⟩
  · obtain ⟨before, after, covers, -, lone⟩ := h
    exact ⟨before, _, after, covers, rfl, lone rfl⟩
  · split
    · obtain ⟨before, after, covers, -⟩ := h
      exact ⟨before, _, after, covers, rfl⟩
    · exact token
  · exact token

theorem missingArgument_points {s : Span} {name : String} (h : (keyword s name).Sits source) :
    ParseError.Points source ⟨s, .missingArgument name⟩ := by
  obtain ⟨before, after, covers⟩ := h
  exact ⟨before, _, after, covers, rfl⟩

theorem emptyParenthesis_points {s : Span} (h : (group s []).Sits source) :
    ParseError.Points source ⟨s, .emptyParenthesis⟩ := by
  obtain ⟨⟨before, inside, after, covers, -, blank⟩, -⟩ := h
  exact ⟨before, _, after, covers, inside, rfl, blank rfl⟩

/-- The end of a group is its closing parenthesis. -/
theorem unexpectedEnd_points {s : Span} {items : List TokenTree} (h : (group s items).Sits source) :
    ParseError.Points source ⟨s.lastByte, .unexpectedEnd⟩ := by
  obtain ⟨⟨before, inside, after, ⟨split, rfl⟩, balanced, -⟩, -⟩ := h
  have one : ('(' : Char).utf8Size = 1 := rfl
  have one' : (')' : Char).utf8Size = 1 := rfl
  refine ⟨before ++ '(' :: inside, [')'], after, ⟨?_, ?_⟩, .inr ⟨rfl, before, inside, rfl, balanced⟩⟩
  · rw [split]
    simp
  · simp only [Span.lastByte, byteLength_append, byteLength, one, one', Span.mk.injEq]
    omega

end Trees

section Reading

variable [Scalar α] {source : List Char}

theorem readGroup_other {t : TokenTree} (place : Place) (h : t.isGroup = false) :
    readGroup (α := α) source place t = .error (unexpected source t) := by
  cases t with
  | group => cases h
  | _ => rw [readGroup]; rintro _ _ ⟨⟩

mutual

theorem readOperand_points {stop : Span}
    (hstop : ParseError.Points source ⟨stop, .unexpectedEnd⟩) (place : Place) (atStart : Bool) :
    (ts : List TokenTree) → SitAll source ts →
      Points source (readOperand (α := α) source stop place atStart ts)
  | [], _ => by
      rw [readOperand]
      exact .error hstop
  | .number span lexeme :: rest, h => by
      rw [readOperand]
      exact readOperators_points hstop place _ rest h.2
  | .var span name index :: rest, h => by
      rw [readOperand]
      exact readOperators_points hstop place _ rest h.2
  | .const span name :: rest, h => by
      rw [readOperand]
      exact readOperators_points hstop place _ rest h.2
  | [.keyword span name], h => by
      rw [readOperand]
      exact .error (missingArgument_points h.1)
  | .keyword span name :: t :: rest, h => by
      rw [readOperand]
      split
      · exact (readGroup_points place t h.2.1).bind fun argument =>
          readOperators_points hstop place _ rest h.2.2
      · exact .error (missingArgument_points h.1)
  | .group span items :: rest, h => by
      rw [readOperand]
      exact (readGroup_points place (.group span items) h.1).bind fun inner =>
        readOperators_points hstop place _ rest h.2
  | .char span c :: rest, h => by
      rw [readOperand]
      split
      · exact (readOperand_points hstop place false rest h.2).bind fun level => .ok _
      · exact .error (unexpected_points h.1)

theorem readOperators_points {stop : Span}
    (hstop : ParseError.Points source ⟨stop, .unexpectedEnd⟩) (place : Place)
    (operand : Formula α) : (ts : List TokenTree) → SitAll source ts →
      Points source (readOperators source stop place operand ts)
  | [], _ => by
      rw [readOperators]
      exact .ok _
  | t :: rest, h => by
      rw [readOperators]
      cases t.operator? with
      | none => exact .error (unexpected_points h.1)
      | some op =>
          by_cases deep : (place.after op).nesting > mostNesting
          · simp only [if_pos deep]
            exact .error (tooDeep_points h.1)
          · simp only [if_neg deep]
            exact (readOperand_points hstop _ false rest h.2).bind fun level => .ok _

theorem readGroup_points (place : Place) : (t : TokenTree) → t.Sits source →
    Points source (readGroup (α := α) source place t)
  | .group span items, h => by
      rw [readGroup]
      by_cases empty : items.isEmpty = true
      · obtain rfl := List.isEmpty_iff.1 empty
        rw [if_pos empty]
        exact .error (emptyParenthesis_points h)
      · rw [if_neg empty]
        by_cases deep : (Place.first (place.nesting + 1)).nesting > mostNesting
        · simp only [if_pos deep]
          exact .error (tooDeep_points h)
        · simp only [if_neg deep]
          exact (readOperand_points (unexpectedEnd_points h) _ true items h.2).map
  | .number .., h | .var .., h | .const .., h | .keyword .., h | .char .., h => by
      rw [readGroup_other place rfl]
      exact .error (unexpected_points h)

end

/-- The parenthesis that is nested too deeply is in the source. -/
theorem quotes_of_deepParenthesis? (before : List Char) {after : List Char} {n : Nat} {s : Span}
    (h : deepParenthesis? (byteLength before) n after = some s) :
    s.Quotes (before ++ after) ['('] := by
  induction after generalizing before n with
  | nil => cases h
  | cons c after ih =>
      have next : byteLength before + c.utf8Size = byteLength (before ++ [c]) := by
        rw [byteLength_append]
        rfl
      have split : before ++ c :: after = before ++ [c] ++ after := by simp
      rw [deepParenthesis?] at h
      simp only [next] at h
      by_cases hopen : c = '('
      · subst hopen
        rw [if_pos rfl] at h
        by_cases deep : n + 1 > mostNesting
        · rw [if_pos deep] at h
          cases h
          exact ⟨before, after, rfl, by rw [← next]; rfl⟩
        · rw [if_neg deep] at h
          exact split ▸ ih _ h
      · rw [if_neg hopen] at h
        by_cases hclose : c = ')'
        · rw [if_pos hclose] at h
          exact split ▸ ih _ h
        · rw [if_neg hclose] at h
          exact split ▸ ih _ h

/-- An error has one span, which covers whole characters of the source, and they are what its fault is
about: the token or the operator or the keyword that it names, a parenthesis that has no partner, a
pair with only blanks between, or the end of the source or of a group. -/
theorem parse_points {vocabulary : Vocabulary} {text : String} {e : ParseError}
    (h : parse (α := α) vocabulary text = .error e) : e.Points text.toList := by
  simp only [parse] at h
  have sits := sitAll_ofSource vocabulary text.toList
  cases deep : deepParenthesis? 0 0 text.toList with
  | some s =>
      rw [deep] at h
      cases h
      obtain ⟨before, after, covers⟩ := quotes_of_deepParenthesis? [] deep
      exact ⟨before, _, after, covers, trivial⟩
  | none =>
      rw [deep] at h
      have stop : ParseError.Points text.toList
          ⟨Span.point (byteLength text.toList), .unexpectedEnd⟩ :=
        ⟨text.toList, [], [], ⟨(List.append_nil _).symm, rfl⟩, .inl ⟨rfl, rfl⟩⟩
      cases hitems : TokenTree.ofSource vocabulary text.toList with
      | nil =>
          rw [hitems] at h
          cases h
      | cons t ts =>
          rw [hitems] at h sits
          exact (readOperand_points stop (Place.first 0) true (t :: ts) sits).map e h

/-- The second closing parenthesis has no partner. -/
theorem parse_points_unopened :
    parse (α := Float) .bare "(a))" = .error ⟨⟨3, 4⟩, .unclosedParenthesis false⟩ ∧
      ParseError.Points "(a))".toList ⟨⟨3, 4⟩, .unclosedParenthesis false⟩ := by
  have refused : parse (α := Float) .bare "(a))" =
      .error ⟨⟨3, 4⟩, .unclosedParenthesis false⟩ := by rfl
  exact ⟨refused, parse_points refused⟩

end Reading

end Formula

end AlgebraicTerms
