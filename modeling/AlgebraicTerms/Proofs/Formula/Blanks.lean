import AlgebraicTerms.Proofs.Formula.Nesting
import AlgebraicTerms.Proofs.Scalar.Rational
import AlgebraicTerms.Proofs.Term.Reread

/-!
# Blanks

Blanks keep tokens apart and say nothing else.  Two sources whose tokens are the same but for blanks
are read as one formula at two places, or are both refused with one fault (`parse_agree`).  Spans, the
ends of levels and the quoted source are only passed on, so that each step of the reader does the same
on trees without their places; and neither the trees nor the parentheses depend on the blanks.
-/

namespace AlgebraicTerms

/-- The fault without the source that it quotes. -/
def ParseFault.unquoted : ParseFault → ParseFault
  | unexpectedToken _ => unexpectedToken ""
  | f => f

/-! ## Tokens without blanks -/

namespace Token

/-- The kinds and lexemes of the tokens that are no blanks. -/
def solid (ts : List Token) : List Piece :=
  (ts.filter fun t => t.kind ≠ .blank).map fun t => (t.kind, t.lexeme)

/-- The token without its place. -/
def erase (t : Token) : Token := { t with span := .nowhere }

theorem solid_place (offset : Nat) (ps : List Piece) :
    solid (place offset ps) = ps.filter fun p => p.1 ≠ .blank := by
  induction ps generalizing offset with
  | nil => rfl
  | cons p ps ih =>
      obtain ⟨k, w⟩ := p
      rw [place]
      by_cases blank : k = .blank
      · rw [solid, List.filter_cons_of_neg (by simpa using blank),
          List.filter_cons_of_neg (by simpa using blank)]
        exact ih _
      · rw [solid, List.filter_cons_of_pos (by simpa using blank),
          List.filter_cons_of_pos (by simpa using blank), List.map_cons]
        exact congrArg ((k, w) :: ·) (ih _)

end Token

namespace TokenTree

open Token

variable {v : Vocabulary}

theorem isGroup_erase (t : TokenTree) : t.erase.isGroup = t.isGroup := by
  cases t <;> rfl

theorem operator?_erase (t : TokenTree) : t.erase.operator? = t.operator? := by
  cases t <;> rfl

theorem eraseAll_ofName (t : Token) : eraseAll (ofName v t.erase) = eraseAll (ofName v t) := by
  let name := String.ofList (t.lexeme.takeWhile (!·.isDigit))
  have number (s s' : Span) (digits : List Char) :
      eraseAll (if digits.isEmpty then [] else [.number s (String.ofList digits)]) =
        eraseAll (if digits.isEmpty then [] else [.number s' (String.ofList digits)]) := by
    cases digits <;> rfl
  cases hkeyword : v.isKeyword name with
  | true =>
      simp only [ofName, Token.erase, name, hkeyword, if_true]
      exact congrArg (keyword .nowhere name :: ·) (number _ _ _)
  | false =>
      cases hconstant : v.isConstant name with
      | true =>
          simp only [ofName, Token.erase, name, hkeyword, hconstant, if_true, if_false,
            Bool.false_eq_true]
          exact congrArg (const .nowhere name :: ·) (number _ _ _)
      | false =>
          simp only [ofName, Token.erase, name, hkeyword, hconstant, if_false, Bool.false_eq_true]
          rfl

theorem eraseAll_ofToken (t : Token) : eraseAll (ofToken v t.erase) = eraseAll (ofToken v t) := by
  have chars (s s' : Span) (w : List Char) :
      eraseAll (w.map (.char s)) = eraseAll (w.map (.char s')) := by
    simp only [eraseAll_eq_map, List.map_map]
    rfl
  obtain ⟨k, s, w⟩ := t
  cases k <;> first | rfl | exact eraseAll_ofName _ | exact chars _ _ w

namespace Forest

def erase (f : Forest) : Forest :=
  ⟨eraseAll f.top, f.groups.map fun g => ⟨.nowhere, eraseAll g.items⟩⟩

theorem erase_add (f : Forest) (ts : List TokenTree) :
    (f.add ts).erase = f.erase.add (eraseAll ts) := by
  obtain ⟨top, groups⟩ := f
  cases groups with
  | nil => simp only [add, erase, List.map_nil, eraseAll_append]
  | cons g outer => simp only [add, erase, List.map_cons, eraseAll_append]

theorem erase_closeGroup (f : Forest) (s : Span) :
    (f.closeGroup s).erase = f.erase.closeGroup .nowhere := by
  obtain ⟨top, groups⟩ := f
  cases groups with
  | nil => exact erase_add _ _
  | cons g outer =>
      have group : eraseAll [.group (g.span.through s) g.items.reverse] =
          [.group .nowhere (eraseAll g.items).reverse] := by
        simp only [eraseAll, TokenTree.erase, eraseAll_eq_map, List.map_reverse]
      rw [closeGroup, erase_add, group]
      rfl

theorem erase_close (f : Forest) : eraseAll f.close = f.erase.close := by
  have spilled (gs : List OpenGroup) : eraseAll (spilled gs) =
      Forest.spilled (gs.map fun g => ⟨.nowhere, eraseAll g.items⟩) := by
    induction gs with
    | nil => rfl
    | cons g outer ih =>
        rw [Forest.spilled, eraseAll_append, eraseAll, ih]
        rfl
  rw [close, eraseAll_eq_map, List.map_reverse, ← eraseAll_eq_map, eraseAll_append, spilled]
  rfl

/-- What a token does to a forest does not depend on the places in both. -/
theorem erase_read {f g : Forest} {t u : Token} (h : f.erase = g.erase) (ht : t.erase = u.erase) :
    (f.read v t).erase = (g.read v u).erase := by
  have token : (f.add (ofToken v t).reverse).erase = (g.add (ofToken v u).reverse).erase := by
    have trees : eraseAll (ofToken v t) = eraseAll (ofToken v u) := by
      rw [← eraseAll_ofToken t, ht, eraseAll_ofToken]
    simp only [erase_add, h, eraseAll_eq_map, List.map_reverse] at trees ⊢
    rw [trees]
  obtain ⟨k, s, w⟩ := t
  obtain ⟨k', s', w'⟩ := u
  obtain rfl : k = k' := congrArg Token.kind ht
  cases k with
  | openParen => exact congrArg (openGroup · .nowhere) h
  | closeParen =>
      rw [read, read, erase_closeGroup, erase_closeGroup, h]
  | _ => exact token

theorem read_blank (f : Forest) {t : Token} (h : t.kind = .blank) : f.read v t = f := by
  obtain ⟨k, s, w⟩ := t
  obtain rfl : k = .blank := h
  exact f.add_nil

/-- A forest is read on in the same way over tokens that are the same but for blanks. -/
theorem erase_foldl_read {f g : Forest} {ts us : List Token} (h : f.erase = g.erase)
    (hts : solid ts = solid us) :
    (ts.foldl (read v) f).erase = (us.foldl (read v) g).erase := by
  have skip (f : Forest) (ts : List Token) :
      ts.foldl (read v) f = (ts.filter fun t => t.kind ≠ .blank).foldl (read v) f := by
    induction ts generalizing f with
    | nil => rfl
    | cons t ts ih =>
        by_cases blank : t.kind = .blank
        · rw [List.foldl_cons, f.read_blank blank, ih,
            List.filter_cons_of_neg (by simpa using blank)]
        · rw [List.foldl_cons, ih, List.filter_cons_of_pos (by simpa using blank), List.foldl_cons]
  rw [skip f, skip g]
  rw [solid, solid] at hts
  generalize ts.filter _ = ts at hts
  generalize us.filter _ = us at hts
  induction ts generalizing f g us with
  | nil =>
      rw [List.map_nil, eq_comm, List.map_eq_nil_iff] at hts
      subst hts
      exact h
  | cons t ts ih =>
      obtain ⟨u, us, rfl, same, rest⟩ := List.map_eq_cons_iff.1 hts.symm
      have token : t.erase = u.erase := by
        obtain ⟨k, s, w⟩ := t
        obtain ⟨k', s', w'⟩ := u
        cases same
        rfl
      exact ih (erase_read h token) us rest.symm

end Forest

/-- The trees of a source do not depend on its blanks, up to their places. -/
theorem eraseAll_ofSource {s s' : List Char} (h : solid (scan s) = solid (scan s')) :
    eraseAll (ofSource v s) = eraseAll (ofSource v s') := by
  rw [ofSource, ofSource, Forest.erase_close, Forest.erase_close, Forest.erase_foldl_read rfl h]

end TokenTree

namespace Formula

open Token TokenTree

/-! ## Parentheses -/

theorem isSome_deepParenthesis?_append {s s' : List Char}
    (h : ∀ offset offset' n,
      (deepParenthesis? offset n s).isSome = (deepParenthesis? offset' n s').isSome)
    (w : List Char) (offset offset' n : Nat) :
    (deepParenthesis? offset n (w ++ s)).isSome =
      (deepParenthesis? offset' n (w ++ s')).isSome := by
  induction w generalizing offset offset' n with
  | nil => exact h offset offset' n
  | cons c w ih =>
      rw [List.cons_append, List.cons_append, deepParenthesis?, deepParenthesis?]
      split
      · split
        · rfl
        · exact ih _ _ _
      · split <;> exact ih _ _ _

/-- Whether a parenthesis is nested too deeply does not depend on blanks. -/
theorem isSome_deepParenthesis?_solid {ps : List Piece} (pieces : ∀ p ∈ ps, IsPiece p)
    (offset offset' n : Nat) :
    (deepParenthesis? offset n (chars ps)).isSome =
      (deepParenthesis? offset' n (chars (ps.filter fun p => p.1 ≠ .blank))).isSome := by
  induction ps generalizing offset offset' n with
  | nil => rfl
  | cons p ps ih =>
      obtain ⟨k, w⟩ := p
      obtain ⟨piece, rest⟩ := List.forall_mem_cons.1 pieces
      have split (qs : List Piece) : chars ((k, w) :: qs) = w ++ chars qs := rfl
      by_cases blank : k = .blank
      · subst blank
        rw [List.filter_cons_of_neg (by simp), split,
          deepParenthesis?_skip (piece.not_paren nofun nofun)]
        exact ih rest _ _ _
      · rw [List.filter_cons_of_pos (by simpa using blank), split, split]
        exact isSome_deepParenthesis?_append (ih rest) w offset offset' n

theorem isSome_deepParenthesis?_congr {s s' : List Char} (h : solid (scan s) = solid (scan s')) :
    (deepParenthesis? 0 0 s).isSome = (deepParenthesis? 0 0 s').isSome := by
  rw [scan_eq, scan_eq, solid_place, solid_place] at h
  rw [← chars_lexemes s, ← chars_lexemes s',
    isSome_deepParenthesis?_solid isPiece_of_mem_lexemes 0 0, h,
    ← isSome_deepParenthesis?_solid isPiece_of_mem_lexemes 0 0]

/-! ## Reading -/

variable {α β γ : Type}

/-- Both readings succeed, with results that are the same in the given sense, or both fail, with
faults that are the same but for the source that they quote. -/
inductive Agree (same : β → β → Prop) : Except ParseError β → Except ParseError β → Prop
  | ok {b b' : β} (h : same b b') : Agree same (.ok b) (.ok b')
  | error {e e' : ParseError} (h : e.fault.unquoted = e'.fault.unquoted) :
      Agree same (.error e) (.error e')

namespace Agree

variable {same : β → β → Prop} {same' : γ → γ → Prop} {r r' r'' : Except ParseError β}

theorem bind {k k' : β → Except ParseError γ} (h : Agree same r r')
    (hk : ∀ b b', same b b' → Agree same' (k b) (k' b')) : Agree same' (r >>= k) (r' >>= k') := by
  cases h with
  | ok h => exact hk _ _ h
  | error h => exact error h

theorem map {f f' : β → γ} (h : Agree same r r') (hf : ∀ b b', same b b' → same' (f b) (f' b')) :
    Agree same' (f <$> r) (f' <$> r') := by
  cases h with
  | ok h => exact ok (hf _ _ h)
  | error h => exact error h

/-- Readings that agree with one reading agree. -/
theorem of_common {κ : Type} {key : β → κ} (h : Agree (fun b b' => key b = key b') r r'')
    (h' : Agree (fun b b' => key b = key b') r' r'') : Agree (fun b b' => key b = key b') r r' := by
  cases h with
  | ok h =>
      cases h' with
      | ok h' => exact ok (h.trans h'.symm)
  | error h =>
      cases h' with
      | error h' => exact error (h.trans h'.symm)

end Agree

/-- The fault at a token that cannot be used does not depend on places, but for what is quoted. -/
theorem unquoted_unexpected (source source' : List Char) (t : TokenTree) :
    (unexpected source t).fault.unquoted = (unexpected source' t.erase).fault.unquoted := by
  cases t with
  | char s c =>
      by_cases hopen : c = '('
      · subst hopen
        rfl
      · by_cases hclose : c = ')'
        · subst hclose
          rfl
        · simp only [unexpected, TokenTree.erase]
          split <;> rfl
  | _ => rfl

/-! ### Levels -/

def eraseStep (step : Operator × Span × Formula α) : Operator × Span × Formula α :=
  (step.1, .nowhere, step.2.2.erase)

/-- The level without its places. -/
def Level.erase (level : Level α) : Level α :=
  ⟨level.minus.map fun _ => .nowhere, level.first.erase, level.rest.map eraseStep⟩

theorem joinPowers_erase (f : Formula α) (rest : List (Operator × Span × Formula α)) :
    joinPowers f.erase (rest.map eraseStep) =
      ((joinPowers f rest).1.erase, (joinPowers f rest).2.map eraseStep) := by
  induction rest generalizing f with
  | nil => rfl
  | cons step rest ih =>
      obtain ⟨op, s, g⟩ := step
      rw [List.map_cons, joinPowers, eraseStep]
      simp only [joinPowers, ih]
      split <;> rfl

theorem joinProducts_erase (f : Formula α) (rest : List (Operator × Span × Formula α)) :
    joinProducts f.erase (rest.map eraseStep) =
      ((joinProducts f rest).1.erase, (joinProducts f rest).2.map eraseStep) := by
  induction rest generalizing f with
  | nil => rfl
  | cons step rest ih =>
      obtain ⟨op, s, g⟩ := step
      simp only [List.map_cons, joinProducts, eraseStep]
      split
      · exact ih (.binary op s f g)
      · rw [ih]
        rfl

theorem joinSums_erase (f : Formula α) (rest : List (Operator × Span × Formula α)) :
    joinSums f.erase (rest.map eraseStep) = (joinSums f rest).erase := by
  induction rest generalizing f with
  | nil => rfl
  | cons step rest ih =>
      obtain ⟨op, s, g⟩ := step
      exact ih (.binary op s f g)

theorem Level.join_erase (level : Level α) : level.erase.join = level.join.erase := by
  obtain ⟨minus, first, rest⟩ := level
  have signed (f : Formula α) :
      ((minus.map fun _ => Span.nowhere).elim f.erase fun s => .minus s f.erase) =
        (minus.elim f fun s => .minus s f).erase := by
    cases minus <;> rfl
  simp only [Level.join, Level.erase, joinPowers_erase, joinProducts_erase, signed, joinSums_erase]

/-! ### Levels, operands and groups -/

section Reading

variable [Scalar α] (source source' : List Char)

-- The recursion is that of the reader.  Trees are read at their places and at none, so that readings
-- at two places agree through the one at none.
mutual

theorem readOperand_agree (stop stop' : Span) (place : Place) (atStart : Bool) :
    (ts : List TokenTree) → Agree (fun l l' : Level α => l.erase = l'.erase)
      (readOperand source stop place atStart ts)
      (readOperand source' stop' place atStart (eraseAll ts))
  | [] => by
      rw [eraseAll, readOperand, readOperand]
      exact .error rfl
  | .number span lexeme :: rest => by
      rw [eraseAll, TokenTree.erase, readOperand, readOperand]
      refine readOperators_agree stop stop' place _ _ ?_ rest
      rfl
  | .var span name index :: rest => by
      rw [eraseAll, TokenTree.erase, readOperand, readOperand]
      refine readOperators_agree stop stop' place _ _ ?_ rest
      rfl
  | .const span name :: rest => by
      rw [eraseAll, TokenTree.erase, readOperand, readOperand]
      refine readOperators_agree stop stop' place _ _ ?_ rest
      rfl
  | [.keyword span name] => by
      rw [eraseAll, TokenTree.erase, eraseAll, readOperand, readOperand]
      exact .error rfl
  | .keyword span name :: t :: rest => by
      rw [eraseAll, TokenTree.erase, eraseAll, readOperand, readOperand, isGroup_erase]
      split
      · refine (readGroup_agree place t).bind fun f g same => ?_
        refine readOperators_agree stop stop' place _ _ ?_ rest
        exact congrArg (call name .nowhere .nowhere) same
      · exact .error rfl
  | .group span items :: rest => by
      rw [eraseAll, TokenTree.erase, readOperand, readOperand]
      refine (readGroup_agree place (.group span items)).bind fun f g same => ?_
      refine readOperators_agree stop stop' place _ _ ?_ rest
      exact congrArg (paren .nowhere) same
  | .char span c :: rest => by
      rw [eraseAll, TokenTree.erase, readOperand, readOperand]
      split
      · refine (readOperand_agree stop stop' place false rest).bind fun l l' same => ?_
        exact .ok (congrArg (fun l : Level α => { l with minus := some .nowhere }) same)
      · exact .error (unquoted_unexpected source source' (.char span c))

theorem readOperators_agree (stop stop' : Span) (place : Place) (f g : Formula α)
    (h : f.erase = g.erase) :
    (ts : List TokenTree) → Agree (fun l l' : Level α => l.erase = l'.erase)
      (readOperators source stop place f ts) (readOperators source' stop' place g (eraseAll ts))
  | [] => by
      rw [eraseAll, readOperators, readOperators]
      exact .ok (congrArg (fun e : Formula α => Level.mk none e []) h)
  | t :: rest => by
      rw [eraseAll, readOperators, readOperators, operator?_erase]
      cases t.operator? with
      | none => exact .error (unquoted_unexpected source source' t)
      | some op =>
          by_cases deep : (place.after op).nesting > mostNesting
          · simp only [if_pos deep]
            exact .error rfl
          · simp only [if_neg deep]
            refine (readOperand_agree stop stop' _ false rest).bind fun l l' same => ?_
            refine .ok ?_
            show Level.mk none f.erase ((op, .nowhere, l.erase.first) :: l.erase.rest) =
              Level.mk none g.erase ((op, .nowhere, l'.erase.first) :: l'.erase.rest)
            rw [h, same]

theorem readGroup_agree (place : Place) : (t : TokenTree) →
    Agree (fun f g : Formula α => f.erase = g.erase)
      (readGroup source place t) (readGroup source' place t.erase)
  | .group span items => by
      rw [TokenTree.erase, readGroup, readGroup]
      have empty : (eraseAll items).isEmpty = items.isEmpty := by cases items <;> rfl
      rw [empty]
      split
      · exact .error rfl
      · by_cases deep : (Place.first (place.nesting + 1)).nesting > mostNesting
        · simp only [if_pos deep]
          exact .error rfl
        · simp only [if_neg deep]
          refine (readOperand_agree _ _ _ true items).map fun l l' same => ?_
          rw [← Level.join_erase, same, Level.join_erase]
  | .number .. | .var .. | .const .. | .keyword .. => by
      simp only [TokenTree.erase, readGroup]
      exact .error (unquoted_unexpected source source' _)
  | .char .. => by
      simp only [TokenTree.erase, readGroup]
      exact .error (unquoted_unexpected source source' (.char _ _))

end

/-- Levels that are the same but for places are read in the same way. -/
theorem readOperand_congr {ts us : List TokenTree} (h : eraseAll ts = eraseAll us)
    (stop stop' : Span) (place : Place) (atStart : Bool) :
    Agree (fun l l' : Level α => l.erase = l'.erase)
      (readOperand source stop place atStart ts) (readOperand source' stop' place atStart us) := by
  have left := readOperand_agree (α := α) source [] stop .nowhere place atStart ts
  have right := readOperand_agree (α := α) source' [] stop' .nowhere place atStart us
  rw [h] at left
  exact left.of_common right

end Reading

/-- Sources whose tokens are the same but for blanks are read as one formula at two places, or
refused with one fault, in which only a quoted part of the source may differ. -/
theorem parse_agree [Scalar α] {vocabulary : Vocabulary} {text text' : String}
    (h : solid (scan text.toList) = solid (scan text'.toList)) :
    Agree (fun f g : Formula α => f.erase = g.erase)
      (parse vocabulary text) (parse vocabulary text') := by
  have deep := isSome_deepParenthesis?_congr h
  have trees := eraseAll_ofSource (v := vocabulary) h
  simp only [parse]
  cases hs : deepParenthesis? 0 0 text.toList <;> cases hs' : deepParenthesis? 0 0 text'.toList
  case some.some => exact .error rfl
  case none.some | some.none =>
    rw [hs, hs'] at deep
    cases deep
  case none.none =>
    cases hts : ofSource vocabulary text.toList <;> cases hus : ofSource vocabulary text'.toList
    case nil.nil => exact .ok rfl
    case nil.cons | cons.nil =>
      rw [hts, hus] at trees
      cases trees
    case cons.cons t ts u us =>
      rw [hts, hus] at trees
      refine (readOperand_congr _ _ trees _ _ _ true).map fun l l' same => ?_
      rw [← Level.join_erase, same, Level.join_erase]

/-- A product with blanks and without. -/
theorem parse_agree_product :
    solid (scan "2 * (a -\tb )".toList) = solid (scan "2*(a-b)".toList) ∧
      Agree (fun f g : Formula ℚ => f.erase = g.erase)
        (parse .registry "2 * (a -\tb )") (parse .registry "2*(a-b)") := by
  let pieces : List Piece := [(.number, ['2']), (.mul, ['*']), (.openParen, ['(']), (.name, ['a']),
    (.sub, ['-']), (.name, ['b']), (.closeParen, [')'])]
  have spaced : solid (scan "2 * (a -\tb )".toList) = pieces := rfl
  have tight : solid (scan "2*(a-b)".toList) = pieces := rfl
  exact ⟨spaced.trans tight.symm, parse_agree (spaced.trans tight.symm)⟩

end Formula

end AlgebraicTerms
