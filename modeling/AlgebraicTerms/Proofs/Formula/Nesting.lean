import AlgebraicTerms.Proofs.Formula.Acceptance
import AlgebraicTerms.Proofs.Token.Grouping
import Mathlib.Order.MinMax

/-!
# What is nested too deeply

Two limits keep a source from being nested too deeply: parentheses are counted before anything is
read, and the reader measures the place of every operator and group that it meets.  `Formula.deepest`
is the greatest nesting that the reader measures.  The first limit refuses no source that the second
would not, so a source that the grammar derives is refused exactly if that nesting is over the limit
(`parse_isTooDeep_iff`).
-/

namespace AlgebraicTerms

namespace Formula

variable {α β γ : Type}

/-- Whether a reading ended at an operand that is nested too deeply. -/
def IsTooDeep (r : Except ParseError β) : Prop := ∃ s, r = .error (tooDeep s)

namespace IsTooDeep

variable {r : Except ParseError β}

theorem error (s : Span) : IsTooDeep (.error (tooDeep s) : Except ParseError β) := ⟨s, rfl⟩

theorem not_ok (b : β) : ¬IsTooDeep (.ok b) := fun ⟨_, h⟩ => nomatch h

theorem bind_iff {k : β → Except ParseError γ} :
    IsTooDeep (r >>= k) ↔ IsTooDeep r ∨ ∃ b, r = .ok b ∧ IsTooDeep (k b) := by
  cases r with
  | error e =>
      constructor
      · rintro ⟨s, h⟩
        cases h
        exact .inl (error s)
      · rintro (⟨s, h⟩ | ⟨_, h, _⟩)
        · cases h
          exact error s
        · cases h
  | ok b =>
      constructor
      · exact fun h => .inr ⟨b, rfl, h⟩
      · rintro (h | ⟨_, h, deep⟩)
        · exact absurd h (not_ok b)
        · cases h
          exact deep

theorem bind_ok_iff {f : β → γ} : IsTooDeep (r >>= fun b => .ok (f b)) ↔ IsTooDeep r := by
  rw [bind_iff]
  exact ⟨fun h => h.resolve_right fun ⟨b, _, deep⟩ => not_ok (f b) deep, .inl⟩

theorem map_iff {f : β → γ} : IsTooDeep (f <$> r) ↔ IsTooDeep r := bind_ok_iff

end IsTooDeep

/-! ## Places -/

/-- The place of an operand after a formula, of which the first operand is at the given place. -/
def placeAfter (p : Place) : Formula α → Place
  | minus _ f => placeAfter p f
  | binary op _ l r => placeAfter ((placeAfter p l).after op) r
  | _ => p

/-- The greatest nesting that is measured while a formula is read from the given place. -/
def deepest (p : Place) : Formula α → Nat
  | paren _ inner | call _ _ _ inner =>
    max (p.nesting + 1) (deepest (Place.first (p.nesting + 1)) inner)
  | minus _ f => deepest p f
  | binary op _ l r =>
    let next := (placeAfter p l).after op
    max (deepest p l) (max next.nesting (deepest next r))
  | _ => 0

theorem placeAfter_of_isOperand {f : Formula α} (h : f.IsOperand) (p : Place) :
    f.placeAfter p = p := by
  cases f with
  | minus s f => exact absurd h.2 (by simp [tightness, Precedence.rank])
  | binary op s l r => exact absurd h.2 (by cases op <;>
      simp [tightness, Operator.precedence, Precedence.rank])
  | _ => rfl

theorem Place.level_after (p : Place) (op : Operator) : (p.after op).level = p.level := by
  unfold Place.after
  split
  · rfl
  · split <;> rfl

theorem level_placeAfter (p : Place) (f : Formula α) : (f.placeAfter p).level = p.level := by
  induction f generalizing p with
  | minus s f ih => exact ih p
  | binary op s l r ihl ihr => rw [placeAfter, ihr, Place.level_after, ihl]
  | _ => rfl

/-- Whether less is held back at the one place than at the other. -/
structure Place.Le (p q : Place) : Prop where
  level : p.level ≤ q.level
  afterSum : p.afterSum.toNat ≤ q.afterSum.toNat
  afterProduct : p.afterProduct.toNat ≤ q.afterProduct.toNat
  powers : p.powers ≤ q.powers

theorem Place.first_le (p : Place) : (Place.first 0).Le p :=
  ⟨Nat.zero_le _, Nat.zero_le _, Nat.zero_le _, Nat.zero_le _⟩

theorem Place.Le.after {p q : Place} (h : p.Le q) (op : Operator) : (p.after op).Le (q.after op) := by
  obtain ⟨level, afterSum, afterProduct, powers⟩ := h
  unfold Place.after
  split
  · exact ⟨level, Nat.le_refl _, Nat.le_refl _, Nat.le_refl _⟩
  · split
    · exact ⟨level, afterSum, Nat.le_refl _, Nat.le_refl _⟩
    · exact ⟨level, afterSum, afterProduct, Nat.succ_le_succ powers⟩

theorem Place.nesting_of_no_power {p : Place} (h : p.powers = 0) :
    p.nesting = p.level + min p.afterSum.toNat p.afterProduct.toNat := by
  rw [Place.nesting, if_pos h]
  cases p.afterProduct
  · exact congrArg (p.level + ·) (Nat.min_zero _).symm
  · cases p.afterSum <;> rfl

theorem Place.nesting_of_power {p : Place} (h : p.powers ≠ 0) :
    p.nesting = p.level + p.afterSum.toNat + p.afterProduct.toNat + (p.powers - 1) := by
  rw [Place.nesting, if_neg h]

theorem Place.level_le_nesting (p : Place) : p.level ≤ p.nesting := by
  by_cases h : p.powers = 0
  · rw [Place.nesting_of_no_power h]
    omega
  · rw [Place.nesting_of_power h]
    omega

theorem Place.Le.nesting {p q : Place} (h : p.Le q) : p.nesting ≤ q.nesting := by
  obtain ⟨level, afterSum, afterProduct, powers⟩ := h
  by_cases hp : p.powers = 0
  · rw [Place.nesting_of_no_power hp]
    by_cases hq : q.powers = 0
    · rw [Place.nesting_of_no_power hq]
      omega
    · rw [Place.nesting_of_power hq]
      omega
  · have hq : q.powers ≠ 0 := by omega
    rw [Place.nesting_of_power hp, Place.nesting_of_power hq]
    omega

theorem placeAfter_le {p q : Place} (h : p.Le q) (f : Formula α) :
    (f.placeAfter p).Le (f.placeAfter q) := by
  induction f generalizing p q with
  | minus s f ih => exact ih h
  | binary op s l r ihl ihr => exact ihr ((ihl h).after op)
  | _ => exact h

theorem Place.first_le_first {m n : Nat} (h : m ≤ n) : (Place.first m).Le (Place.first n) :=
  ⟨h, Nat.le_refl _, Nat.le_refl _, Nat.le_refl _⟩

/-- Less is measured from a place at which less is held back. -/
theorem deepest_le {p q : Place} (h : p.Le q) (f : Formula α) : f.deepest p ≤ f.deepest q := by
  induction f generalizing p q with
  | paren _ inner ih | call _ _ _ inner ih =>
      have nesting := h.nesting
      have inside := ih (Place.first_le_first (Nat.add_le_add_right nesting 1))
      simp only [deepest]
      omega
  | minus s f ih => exact ih h
  | binary op s l r ihl ihr =>
      have next := (placeAfter_le h l).after op
      have nesting := next.nesting
      have left := ihl h
      have right := ihr next
      simp only [deepest]
      omega
  | _ => exact Nat.le_refl _

/-! ## Measuring while reading -/

section Reading

variable [Scalar α] {source : List Char} {stop : Span}

/-- An operator must not be nested too deeply, and neither must what follows it.  Which operand was
read before does not matter. -/
theorem readOperators_isTooDeep {place : Place} {operand : Formula α} {s : Span} {op : Operator}
    {ts : List TokenTree} :
    IsTooDeep (readOperators source stop place operand (.char s op.toChar :: ts)) ↔
      mostNesting < (place.after op).nesting ∨
        IsTooDeep (readOperand (α := α) source stop (place.after op) false ts) := by
  have operator : (TokenTree.char s op.toChar).operator? = some op := Operator.ofChar?_toChar op
  rw [readOperators]
  simp only [operator]
  by_cases deep : (place.after op).nesting > mostNesting
  · rw [if_pos deep]
    exact iff_of_true (.error _) (.inl deep)
  · rw [if_neg deep, IsTooDeep.bind_ok_iff]
    exact ⟨.inr, fun h => h.resolve_left deep⟩

theorem readOperators_nil (source : List Char) (place : Place) (operand : Formula α) :
    IsTooDeep (readOperators source stop place operand []) ↔ False := by
  rw [readOperators]
  exact iff_false_intro (IsTooDeep.not_ok _)

/-- A group must not be nested too deeply, nor what is inside of it or what comes after it. -/
theorem bind_readGroup_isTooDeep {place : Place} {s : Span} {items : List TokenTree}
    {inner : Formula α} (nested : inner.WellNested) (hy : inner.Yields items)
    (inside : IsTooDeep (readOperand (α := α) source s.lastByte (Place.first (place.nesting + 1))
      true (items ++ [])) ↔ mostNesting < inner.deepest (Place.first (place.nesting + 1)) ∨ False)
    {k : Formula α → Except ParseError (Level α)} {P : Prop} (hk : ∀ f, IsTooDeep (k f) ↔ P) :
    IsTooDeep (readGroup source place (.group s items) >>= k) ↔
      mostNesting < (paren s inner).deepest place ∨ P := by
  have group : IsTooDeep (readGroup (α := α) source place (.group s items)) ↔
      mostNesting < (paren s inner).deepest place := by
    have filled : ¬items.isEmpty = true := fun h => nested.yields_ne_nil hy (List.isEmpty_iff.1 h)
    rw [List.append_nil, or_false] at inside
    rw [readGroup, if_neg filled, deepest, lt_max_iff, ← inside]
    by_cases deep : (Place.first (place.nesting + 1)).nesting > mostNesting
    · simp only [if_pos deep]
      exact iff_of_true (.error _) (.inl deep)
    · simp only [if_neg deep]
      rw [IsTooDeep.map_iff]
      exact ⟨.inr, fun h => h.resolve_left deep⟩
  rw [IsTooDeep.bind_iff, ← group]
  rcases readGroup_decides (α := α) source place (.group s items) s items rfl with deep | decided
  · exact iff_of_true (.inl deep) (.inl deep)
  · rw [(decided inner).2 ⟨nested, hy⟩]
    exact or_congr_right ⟨fun ⟨_, _, h⟩ => (hk _).1 h, fun h => ⟨inner, rfl, (hk _).2 h⟩⟩

/-- Reading a formula is too deep if it is nested too deeply from its place on, or what comes after it
is. -/
theorem readOperand_isTooDeep {f : Formula α} (nested : f.WellNested) {us : List TokenTree}
    (hy : f.Yields us) (stop : Span) (place : Place) (atStart : Bool)
    (start : f.level.minus.isSome = true → atStart = true) (vs : List TokenTree) (P : Prop)
    (rest : ∀ operand : Formula α,
      IsTooDeep (readOperators source stop (f.placeAfter place) operand vs) ↔ P) :
    IsTooDeep (readOperand (α := α) source stop place atStart (us ++ vs)) ↔
      mostNesting < f.deepest place ∨ P := by
  induction f generalizing us stop place atStart vs P with
  | empty s => exact nested.elim
  | number s n =>
      obtain ⟨lexeme, rfl, rfl⟩ := hy
      rw [List.singleton_append, readOperand]
      exact (rest _).trans (or_iff_right (Nat.not_lt_zero _)).symm
  | var s name index =>
      obtain rfl := hy
      rw [List.singleton_append, readOperand]
      exact (rest _).trans (or_iff_right (Nat.not_lt_zero _)).symm
  | const s name =>
      obtain rfl := hy
      rw [List.singleton_append, readOperand]
      exact (rest _).trans (or_iff_right (Nat.not_lt_zero _)).symm
  | paren s inner ih =>
      have whole : inner.WellNested := nested
      obtain ⟨items, hitems, rfl⟩ := hy
      have inside := ih whole hitems s.lastByte (Place.first (place.nesting + 1)) true
        (fun _ => rfl) [] False fun operand => readOperators_nil _ _ operand
      rw [List.singleton_append, readOperand]
      exact bind_readGroup_isTooDeep whole hitems inside fun f => rest _
  | call name s t argument ih =>
      have whole : argument.WellNested := nested
      obtain ⟨items, hitems, rfl⟩ := hy
      have inside := ih whole hitems t.lastByte (Place.first (place.nesting + 1)) true
        (fun _ => rfl) [] False fun operand => readOperators_nil _ _ operand
      have isGroup : (TokenTree.group t items).isGroup = true := rfl
      rw [List.cons_append, List.singleton_append, readOperand, if_pos isGroup]
      exact bind_readGroup_isTooDeep whole hitems inside fun f => rest _
  | minus s f ih =>
      obtain ⟨us, hus, rfl⟩ := hy
      obtain rfl : atStart = true := start rfl
      have bare := level_minus nested.1 nested.2
      have covered := ih nested.1 hus stop place false (by rw [bare]; nofun) vs P rest
      have minus : (true && '-' == '-') = true := rfl
      rw [List.cons_append, readOperand, if_pos minus, IsTooDeep.bind_ok_iff, covered]
      rfl
  | binary op s l r ihl ihr =>
      have bare := level_minus_right nested
      obtain ⟨us, vs', hus, hvs, rfl⟩ := hy
      let next := (l.placeAfter place).after op
      have right := ihr nested.2.1 hvs stop next false (by rw [bare]; nofun) vs P rest
      have left := ihl nested.1 hus stop place atStart start (.char s op.toChar :: (vs' ++ vs))
        (mostNesting < next.nesting ∨ mostNesting < r.deepest next ∨ P) fun operand => by
          rw [readOperators_isTooDeep, right]
      rw [List.append_assoc, List.cons_append, left, deepest, lt_max_iff, lt_max_iff, or_assoc,
        or_assoc]

end Reading

end Formula

/-! ## Counting parentheses -/

namespace TokenTree

mutual

/-- How many groups there are inside of each other. -/
def groupDepth : TokenTree → Nat
  | group _ items => groupDepthIn items + 1
  | _ => 0

def groupDepthIn : List TokenTree → Nat
  | [] => 0
  | t :: ts => max t.groupDepth (groupDepthIn ts)

end

theorem groupDepthIn_append (ts us : List TokenTree) :
    groupDepthIn (ts ++ us) = max (groupDepthIn ts) (groupDepthIn us) := by
  induction ts with
  | nil => exact (Nat.zero_max _).symm
  | cons t ts ih => rw [List.cons_append, groupDepthIn, ih, groupDepthIn, Nat.max_assoc]

end TokenTree

namespace Formula

open Token TokenTree

/-- Characters that are no parentheses are passed over. -/
theorem deepParenthesis?_skip {w : List Char} (h : ∀ c ∈ w, c ≠ '(' ∧ c ≠ ')') (offset n : Nat)
    (rest : List Char) :
    deepParenthesis? offset n (w ++ rest) = deepParenthesis? (offset + byteLength w) n rest := by
  induction w generalizing offset with
  | nil => rfl
  | cons c w ih =>
      obtain ⟨hopen, hclose⟩ := h c List.mem_cons_self
      rw [List.cons_append, deepParenthesis?, if_neg hopen, if_neg hclose,
        ih fun d hd => h d (List.mem_cons_of_mem _ hd), byteLength, Nat.add_assoc]

/-- Groups that are not nested too deeply are passed over. -/
theorem deepParenthesis?_grouping {v : Vocabulary} {offset : Nat} {ps : List Piece}
    {ts : List TokenTree} (h : Grouping v none offset ps ts) (pieces : ∀ p ∈ ps, IsPiece p) (n : Nat)
    (shallow : n + groupDepthIn ts ≤ mostNesting) (rest : List Char) :
    deepParenthesis? offset n (chars ps ++ rest) = deepParenthesis? (offset + width ps) n rest := by
  generalize hnone : (none : Option Char) = none' at h
  induction h generalizing n rest with
  | nil => rfl
  | @token _ offset k w ps ts hopen hclose _ ih =>
      rw [groupDepthIn_append] at shallow
      have skip := deepParenthesis?_skip
        ((pieces _ List.mem_cons_self).not_paren hopen hclose) offset n (chars ps ++ rest)
      have split : chars ((k, w) :: ps) ++ rest = w ++ (chars ps ++ rest) := List.append_assoc _ _ _
      rw [split, skip, ih (fun p hp => pieces p (List.mem_cons_of_mem _ hp)) n (by omega) rest hnone,
        width_cons, Nat.add_assoc]
  | @group _ offset qs ps us ts _ _ ihInside ih =>
      rw [groupDepthIn, groupDepth] at shallow
      have inside := ihInside (fun p hp => pieces p (List.mem_cons_of_mem _ (List.mem_append_left _ hp)))
        (n + 1) (by omega) (')' :: (chars ps ++ rest)) rfl
      have after := ih (fun p hp => pieces p (List.mem_cons_of_mem _ (List.mem_append_right _
        (List.mem_cons_of_mem _ hp)))) n (by omega) rest hnone
      have split : chars ((.openParen, ['(']) :: (qs ++ (.closeParen, [')']) :: ps)) ++ rest =
          '(' :: (chars qs ++ ')' :: (chars ps ++ rest)) := by
        simp [chars]
      have one : ('(' : Char).utf8Size = 1 := rfl
      have one' : (')' : Char).utf8Size = 1 := rfl
      have open' : ¬n + 1 > mostNesting := by omega
      have close : ¬(')' : Char) = '(' := by decide
      rw [split, deepParenthesis?, if_pos rfl, if_neg open', one, inside, deepParenthesis?,
        if_neg close, if_pos rfl, one', Nat.add_sub_cancel, after]
      simp only [width_cons, width_append, byteLength_openParen, byteLength_closeParen]
      congr 1
      omega
  | lone => cases hnone

variable {α : Type} [Scalar α]

/-- A formula yields no parentheses that are alone. -/
theorem Yields.not_paren {f : Formula α} {ts : List TokenTree} (hy : f.Yields ts) (s : Span) (c : Char)
    (hc : .char s c ∈ ts) : c ≠ '(' ∧ c ≠ ')' := by
  induction f generalizing ts with
  | empty _ =>
      rw [show ts = [] from hy] at hc
      cases hc
  | number _ _ =>
      obtain ⟨_, _, rfl⟩ := hy
      cases List.eq_of_mem_singleton hc
  | var _ _ _ | const _ _ =>
      obtain rfl := hy
      cases List.eq_of_mem_singleton hc
  | paren _ _ _ =>
      obtain ⟨_, _, rfl⟩ := hy
      cases List.eq_of_mem_singleton hc
  | call _ _ _ _ _ =>
      obtain ⟨_, _, rfl⟩ := hy
      simp at hc
  | minus _ _ ih =>
      obtain ⟨us, hus, rfl⟩ := hy
      rcases List.mem_cons.1 hc with same | hc
      · cases same
        decide
      · exact ih hus hc
  | binary op _ _ _ ihl ihr =>
      obtain ⟨us, vs, hus, hvs, rfl⟩ := hy
      rcases List.mem_append.1 hc with hc | hc
      · exact ihl hus hc
      · rcases List.mem_cons.1 hc with same | hc
        · cases same
          cases op <;> decide
        · exact ihr hvs hc

/-- All groups of a formula are measured. -/
theorem groupDepth_le_deepest {f : Formula α} {ts : List TokenTree} (hy : f.Yields ts) (p : Place) :
    p.level + groupDepthIn ts ≤ max p.level (f.deepest p) := by
  induction f generalizing ts p with
  | empty _ =>
      rw [show ts = [] from hy, groupDepthIn]
      omega
  | number _ _ =>
      obtain ⟨_, _, rfl⟩ := hy
      simp only [groupDepthIn, groupDepth]
      omega
  | var _ _ _ | const _ _ =>
      obtain rfl := hy
      simp only [groupDepthIn, groupDepth]
      omega
  | paren _ _ ih | call _ _ _ _ ih =>
      obtain ⟨items, hitems, rfl⟩ := hy
      have inside := ih hitems (Place.first (p.nesting + 1))
      have level := p.level_le_nesting
      simp only [groupDepthIn, groupDepth, deepest, Place.first] at inside ⊢
      omega
  | minus _ f ih =>
      obtain ⟨us, hus, rfl⟩ := hy
      have covered := ih hus p
      simp only [groupDepthIn, groupDepth, deepest] at covered ⊢
      omega
  | binary op _ l r ihl ihr =>
      obtain ⟨us, vs, hus, hvs, rfl⟩ := hy
      have left := ihl hus p
      have right := ihr hvs ((l.placeAfter p).after op)
      rw [Place.level_after, level_placeAfter] at right
      simp only [groupDepthIn_append, groupDepthIn, groupDepth, deepest]
      omega

/-- A source that the grammar derives is refused exactly if its formula is nested too deeply. -/
theorem parse_isTooDeep_iff {vocabulary : Vocabulary} {text : String} {f : Formula α}
    (nested : f.WellNested) (hy : f.Yields (TokenTree.ofSource vocabulary text.toList)) :
    IsTooDeep (parse (α := α) vocabulary text) ↔ mostNesting < f.deepest (Place.first 0) := by
  have items := nested.yields_ne_nil hy
  have read := readOperand_isTooDeep nested hy (Span.point (byteLength text.toList)) (Place.first 0)
    true (fun _ => rfl) [] False fun operand => readOperators_nil text.toList _ operand
  rw [List.append_nil, or_false] at read
  have counted (shallow : f.deepest (Place.first 0) ≤ mostNesting) :
      deepParenthesis? 0 0 text.toList = none := by
    have depth := groupDepth_le_deepest hy (Place.first 0)
    rw [show (Place.first 0).level = 0 from rfl] at depth
    have passed := deepParenthesis?_grouping (grouping_of_source hy.not_paren)
      isPiece_of_mem_lexemes 0 (by omega) []
    rw [chars_lexemes, List.append_nil] at passed
    rw [passed]
    rfl
  rw [← read]
  simp only [parse]
  cases scanned : deepParenthesis? 0 0 text.toList with
  | some s =>
      refine iff_of_true (.error s) (read.2 (Nat.lt_of_not_le fun shallow => ?_))
      rw [counted shallow] at scanned
      cases scanned
  | none =>
      cases hitems : TokenTree.ofSource vocabulary text.toList with
      | nil => exact absurd hitems items
      | cons t ts => exact IsTooDeep.map_iff

end Formula

end AlgebraicTerms
