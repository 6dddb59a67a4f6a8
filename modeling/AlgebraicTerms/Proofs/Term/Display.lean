import AlgebraicTerms.Proofs.Scalar.Rational
import AlgebraicTerms.Proofs.Term.Reread

/-!
# Texts that are read and written again

A text is kept by reading it and writing it again if all its parentheses are written again.  The
formula of a term has every parenthesis that is needed, and spare ones in two places: around a product
with a minus in front that is added, `a+(-2*b)`, and around a power below `1 / `.  `Term.spare` counts
them, and `rereads_iff` says that a text is kept exactly if there are none.
-/

namespace AlgebraicTerms

/-- The text without its blanks. -/
def withoutBlanks (s : String) : String := String.ofList (s.toList.filter (· ≠ ' '))

theorem withoutBlanks_append (s s' : String) :
    withoutBlanks (s ++ s') = withoutBlanks s ++ withoutBlanks s' := by
  rw [withoutBlanks, String.toList_append, List.filter_append, String.ofList_append]
  rfl

theorem withoutBlanks_eq_self {s : String} (h : ∀ c ∈ s.toList, Text.isBlank c = false) :
    withoutBlanks s = s := by
  rw [withoutBlanks, List.filter_eq_self.2, String.ofList_toList]
  intro c hc
  refine decide_eq_true fun blank => ?_
  subst blank
  cases h _ hc

theorem withoutBlanks_of_letters {s : String} (h : Token.IsLetters s.toList) :
    withoutBlanks s = s :=
  withoutBlanks_eq_self fun c hc => Token.not_isBlank_of_isAlpha (h.2 c hc)

theorem withoutBlanks_of_digits {s : String} (h : Token.IsDigits s.toList) : withoutBlanks s = s :=
  withoutBlanks_eq_self fun c hc => Token.not_isBlank_of_isDigit (h.2 c hc)

theorem withoutBlanks_of_numeral {s : String} (h : Token.IsNumeral s.toList) :
    withoutBlanks s = s := by
  refine withoutBlanks_eq_self fun c hc => ?_
  rcases h.digit_or_point hc with digit | rfl
  · exact Token.not_isBlank_of_isDigit digit
  · rfl

theorem withoutBlanks_parenthesized (needed : Bool) (s : String) :
    withoutBlanks (Term.parenthesized needed s) = Term.parenthesized needed (withoutBlanks s) := by
  cases needed with
  | false => rfl
  | true =>
      rw [Term.parenthesized, if_pos rfl, withoutBlanks_append, withoutBlanks_append]
      rfl

namespace Formula

variable {α : Type}

def isParen : Formula α → Bool
  | paren .. => true
  | _ => false

theorem not_isParen_graft (op : Operator) (f g : Formula α) : (f.graft op g).isParen = false := by
  cases g with
  | binary op' s l r =>
      rw [graft]
      split <;> rfl
  | _ => rfl

/-- The term of a graft is an operation of the same precedence. -/
theorem term_graft (op : Operator) (f g : Formula α) : ∃ op' l r,
    (f.graft op g).term = .bin op' l r ∧ op'.precedence = op.precedence ∧
      (op' = op ∨ ∃ l', g.term = .bin op' l' r) := by
  cases g with
  | binary op' s l r =>
      by_cases same : op'.precedence = op.precedence
      · rw [graft, if_pos same]
        exact ⟨op', _, _, rfl, same, .inr ⟨_, rfl⟩⟩
      · rw [graft, if_neg same]
        exact ⟨op, _, _, rfl, rfl, .inl rfl⟩
  | _ => exact ⟨op, _, _, rfl, rfl, .inl rfl⟩

variable [Scalar α]

theorem text_enclosed (needed : Bool) (f : Formula α) :
    (f.enclosed needed).text = Term.parenthesized needed f.text := by
  cases needed <;> rfl

theorem text_graft (op : Operator) (f g : Formula α) :
    (f.graft op g).text = f.text ++ op.symbol ++ g.text := by
  induction g with
  | binary op' s l r ihl _ =>
      by_cases same : op'.precedence = op.precedence
      · rw [graft, if_pos same, text, ihl, text]
        simp only [String.append_assoc]
      · rw [graft, if_neg same, text]
  | _ => rfl

theorem text_glue (op : Operator) (f g : Formula α) :
    (f.glue op g).text = f.text ++ op.symbol ++ g.text := by
  cases f with
  | minus s f =>
      rw [glue]
      split
      · rw [text, text_graft, text]
        simp only [String.append_assoc]
      · exact text_graft _ _ _
  | _ => exact text_graft _ _ _

theorem text_plus {f g : Formula α} (h : g.isMinus = true) : (f.plus g).text = f.text ++ g.text := by
  cases g with
  | minus s g => exact String.append_assoc ..
  | _ => cases h

theorem text_combine {op : Operator} {f g : Formula α} (h : op = .add → g.isMinus = false) :
    (f.combine op g).text = f.text ++ op.symbol ++ g.text := by
  by_cases hop : op = .add
  · subst hop
    rw [combine, if_pos rfl, plus_of_not_isMinus (h rfl), text_graft]
  · rw [combine, if_neg hop, text_glue]

theorem leadsMinus_graft_add (f g : Formula α) :
    (f.graft .add g).term.leadsMinus = f.term.leadsMinus := by
  induction g with
  | binary op s l r ihl _ =>
      by_cases same : op.precedence = Operator.add.precedence
      · rw [graft, if_pos same, ← ihl]
        cases op <;> first | rfl | cases same
      · rw [graft, if_neg same]
        rfl
  | _ => rfl

/-- A product starts with a minus only if its first factor does, outside parentheses. -/
theorem leadsMinus_graft_product {op : Operator} (hop : op.isProduct = true) {f : Formula α}
    (hf : f.term.isSum = true ∨ f.term.isNegation = true ∨ f.term.leadsMinus = false)
    (g : Formula α) : (f.graft op g).term.leadsMinus = false := by
  have direct {op : Operator} (hop : op.isProduct = true) {l : Term α} (r : Term α)
      (hl : l.isSum = true ∨ l.isNegation = true ∨ l.leadsMinus = false) :
      (Term.bin op l r).leadsMinus = false := by
    cases op with
    | mul | div =>
        rw [Term.leadsMinus]
        rcases hl with hl | hl | hl <;> simp [hl]
    | mod => rfl
    | add | sub | pow => cases hop
  induction g with
  | binary op' s l r ihl _ =>
      by_cases same : op'.precedence = op.precedence
      · rw [graft, if_pos same]
        have hop' : op'.isProduct = true := by
          rw [Operator.isProduct, same]
          exact hop
        exact direct hop' _ (.inr (.inr ihl))
      · rw [graft, if_neg same]
        exact direct hop _ hf
  | _ => exact direct hop _ hf

/-! ## Spare parentheses -/

/-- Whether a formula is written again as the term it stands for, but for `k` pairs of parentheses
that are left out.  With `needed` the term is written in parentheses. -/
def Spares : Formula α → Bool → Nat → Prop
  | number _ n, needed, k =>
    needed = false ∧ k = 0 ∧ Scalar.isNegative n = false ∧ Term.numberText n = Scalar.text n
  | paren _ f, true, k => f.Spares false k
  | paren _ f, false, k => ∃ j, k = j + 1 ∧ f.Spares false j
  | call name _ _ f, needed, k => needed = false ∧ (Keyword.ofName? name).isSome ∧ f.Spares false k
  | minus _ f, needed, k => needed = false ∧ f.Spares (f.term.isSum || f.term.leadsMinus) k
  | binary op _ l r, needed, k =>
    needed = false ∧ ∃ i j, k = i + j ∧ l.Spares (l.term.leftEnclosed op) i ∧
      r.Spares (r.term.rightEnclosed op) j ∧ (l.isParen = true → l.term.leftEnclosed op = true)
  | _, needed, k => needed = false ∧ k = 0

theorem name_of_constant {name : String} {c : Constant} (h : Constant.ofName? name = some c) :
    c.name = name :=
  beq_iff_eq.1 (List.find?_some (p := fun c : Constant => c.name == name) h)

theorem name_of_keyword {name : String} {k : Keyword} (h : Keyword.ofName? name = some k) :
    k.name = name :=
  beq_iff_eq.1 (List.find?_some (p := fun k : Keyword => k.name == name) h)

/-- What is on the right side of an operator brings a minus only in spare parentheses. -/
theorem spares_of_bringsMinus {op : Operator} {s : Span} {l r : Formula α}
    (hf : (binary op s l r).WellNested) (hr : r.term.bringsMinus = true) {k : Nat}
    (h : r.Spares false k) : 0 < k := by
  cases r with
  | number s n =>
      have positive := h.2.2.1
      have negative : Scalar.isNegative n = true := hr
      rw [negative] at positive
      cases positive
  | minus s f =>
      have tight := hf.2.2
      cases op <;> simp [tightness, Operator.precedence, Operator.associativity,
        Precedence.rank] at tight
  | paren s f =>
      obtain ⟨j, rfl, _⟩ := h
      exact Nat.succ_pos j
  | call name s t f =>
      obtain ⟨k, hk⟩ := Option.isSome_iff_exists.1 h.2.1
      rw [term, hk] at hr
      cases hr
  | const s name =>
      rw [term] at hr
      cases hc : Constant.ofName? name with
      | none =>
          rw [hc] at hr
          cases hr
      | some c =>
          rw [hc] at hr
          cases hr
  | _ => cases hr

theorem length_parenthesized (needed : Bool) (s : String) :
    (Term.parenthesized needed s).length = s.length + 2 * needed.toNat := by
  cases needed with
  | false => rfl
  | true =>
      rw [Term.parenthesized, if_pos rfl, String.length_append, String.length_append,
        Bool.toNat_true]
      have open_ : "(".length = 1 := rfl
      have close : ")".length = 1 := rfl
      omega

/-- A formula and its term have the same text up to the spare parentheses. -/
theorem text_of_spares {f : Formula α} (hf : f.WellNested) {needed : Bool} {k : Nat}
    (h : f.Spares needed k) : (k = 0 → f.text = Term.parenthesized needed f.term.text) ∧
      (Term.parenthesized needed f.term.text).length + 2 * k ≤ f.text.length := by
  induction f generalizing needed k with
  | empty s => exact hf.elim
  | number s n =>
      obtain ⟨rfl, rfl, _, htext⟩ := h
      rw [term, Term.text, htext]
      exact ⟨fun _ => rfl, Nat.le_refl _⟩
  | var s name index =>
      obtain ⟨rfl, rfl⟩ := h
      exact ⟨fun _ => rfl, Nat.le_refl _⟩
  | const s name =>
      obtain ⟨rfl, rfl⟩ := h
      have same : (const (α := α) s name).term.text = name := by
        rw [term]
        cases hc : Constant.ofName? name with
        | none => exact String.append_empty
        | some c => exact name_of_constant hc
      rw [same]
      exact ⟨fun _ => rfl, Nat.le_refl _⟩
  | paren s f ih =>
      cases needed with
      | true =>
          obtain ⟨same, short⟩ := ih hf h
          rw [length_parenthesized] at short ⊢
          refine ⟨fun hk => ?_, ?_⟩
          · rw [text, same hk, term]
            rfl
          · rw [text, String.length_append, String.length_append, term]
            have open_ : "(".length = 1 := rfl
            have close : ")".length = 1 := rfl
            simp only [Bool.toNat_true, Bool.toNat_false] at short ⊢
            omega
      | false =>
          obtain ⟨j, rfl, hj⟩ := h
          obtain ⟨_, short⟩ := ih hf hj
          refine ⟨fun hk => absurd hk (Nat.succ_ne_zero j), ?_⟩
          rw [text, String.length_append, String.length_append, term]
          have open_ : "(".length = 1 := rfl
          have close : ")".length = 1 := rfl
          omega
  | call name s t f ih =>
      obtain ⟨rfl, known, hk⟩ := h
      obtain ⟨same, short⟩ := ih hf hk
      obtain ⟨kw, hkw⟩ := Option.isSome_iff_exists.1 known
      have whole : (call name s t f).term.text = name ++ "(" ++ f.term.text ++ ")" := by
        rw [term, hkw, ← name_of_keyword hkw]
        rfl
      rw [whole, text]
      refine ⟨fun hk => ?_, ?_⟩
      · rw [same hk]
        rfl
      · simp only [length_parenthesized, String.length_append, Bool.toNat_false] at short ⊢
        omega
  | minus s f ih =>
      obtain ⟨rfl, hk⟩ := h
      obtain ⟨same, short⟩ := ih hf.1 hk
      refine ⟨fun hk => ?_, ?_⟩
      · rw [text, same hk]
        rfl
      · have whole : (minus s f).term.text = "-" ++
            Term.parenthesized (f.term.isSum || f.term.leadsMinus) f.term.text := rfl
        rw [whole, text]
        simp only [length_parenthesized, String.length_append, Bool.toNat_false] at short ⊢
        omega
  | binary op s l r ihl ihr =>
      obtain ⟨rfl, i, j, rfl, hi, hj, _⟩ := h
      obtain ⟨sameLeft, shortLeft⟩ := ihl hf.1 hi
      obtain ⟨sameRight, shortRight⟩ := ihr hf.2.1 hj
      by_cases brings : op = .add ∧ r.term.bringsMinus = true
      · obtain ⟨rfl, hr⟩ := brings
        have plain : r.term.rightEnclosed .add = false := by rw [Term.rightEnclosed, hr]; rfl
        rw [plain] at hj shortRight
        have spare := spares_of_bringsMinus hf hr hj
        refine ⟨fun h => absurd h (by omega), ?_⟩
        rw [term, Term.text_add hr, text]
        have plain' : l.term.leftEnclosed .add = false := rfl
        rw [plain'] at shortLeft
        simp only [length_parenthesized, String.length_append, Bool.toNat_false] at shortLeft shortRight ⊢
        omega
      · have hr (h : op = .add) : r.term.bringsMinus = false := by
          cases hr : r.term.bringsMinus with
          | false => rfl
          | true => exact absurd ⟨h, hr⟩ brings
        rw [term, Term.text_bin hr, text]
        refine ⟨fun h => ?_, ?_⟩
        · rw [sameLeft (by omega), sameRight (by omega)]
          rfl
        · simp only [length_parenthesized, String.length_append, Bool.toNat_false] at shortLeft shortRight ⊢
          omega

/-! ## The spare parentheses of an operation -/

theorem needed_of_not_isParen {f : Formula α} (h : f.isParen = false) {needed : Bool} {k : Nat}
    (hf : f.Spares needed k) : needed = false := by
  cases f with
  | paren s f => cases h
  | _ => exact hf.1

theorem enclosed_spares {f : Formula α} {k : Nat} (h : f.Spares false k) (needed enclosed : Bool)
    (hneeded : needed = true → enclosed = true) :
    (f.enclosed enclosed).Spares needed (k + (enclosed && !needed).toNat) := by
  cases enclosed with
  | true =>
      cases needed with
      | true => exact h
      | false => exact ⟨k, rfl, h⟩
  | false =>
      cases needed with
      | true => cases hneeded rfl
      | false => exact h

theorem graft_add_spares {f g : Formula α} {i j : Nat} (hf : f.Spares false i)
    (hparen : f.isParen = false) (hg : g.Spares false j) (hminus : g.term.leadsMinus = false) :
    (f.graft .add g).Spares false (i + j) := by
  have direct {g : Formula α} {j : Nat} (hg : g.Spares false j)
      (hminus : g.term.leadsMinus = false) : (binary .add .nowhere f g).Spares false (i + j) := by
    have plain : g.term.rightEnclosed .add = false := by
      rw [Term.rightEnclosed, hminus, Bool.and_false]
    exact ⟨rfl, i, j, rfl, hf, by rwa [plain], fun h => absurd (hparen.symm.trans h) (by decide)⟩
  induction g generalizing j with
  | binary op s l r ihl _ =>
      by_cases same : op.precedence = Operator.add.precedence
      · obtain ⟨_, a, b, rfl, ha, hb, _⟩ := hg
        have plain (t : Term α) : t.leftEnclosed op = false := by
          cases op <;> first | rfl | cases same
        have left : l.term.leadsMinus = false := by
          cases op <;> first | exact hminus | cases same
        rw [plain] at ha
        rw [graft, if_pos same]
        refine ⟨rfl, i + a, b, (Nat.add_assoc i a b).symm, ?_, hb, fun h => ?_⟩
        · rw [plain]
          exact ihl ha left
        · rw [not_isParen_graft] at h
          cases h
      · rw [graft, if_neg same]
        exact direct hg hminus
  | _ => exact direct hg hminus

/-- Whether a factor takes no minus to the front of a product. -/
def KeepsMinus (f : Formula α) : Prop :=
  f.term.isSum = true ∨ f.term.isNegation = true ∨ f.term.leadsMinus = false

theorem leftEnclosed_graft {op op' : Operator} (hop : op.isProduct = true)
    (hop' : op'.isProduct = true) {f : Formula α} (hf : f.KeepsMinus) (g : Formula α) :
    (f.graft op g).term.leftEnclosed op' = false := by
  obtain ⟨op'', l, r, hterm, same, _⟩ := term_graft op f g
  have leads := leadsMinus_graft_product hop hf g
  have hop'' : op''.isProduct = true := by
    rw [Operator.isProduct, same]
    exact hop
  rw [hterm] at leads ⊢
  have sum : (Term.bin op'' l r).isSum = false := by
    cases op'' with
    | mul | div | mod => rfl
    | add | sub | pow => cases hop''
  cases op' with
  | mul | div =>
      rw [Term.leftEnclosed, sum]
      rfl
  | mod =>
      rw [Term.leftEnclosed, sum, leads]
      rfl
  | add | sub | pow => cases hop'

/-- Parentheses that the left operand of a product needs are needed on the right of a product. -/
theorem rightEnclosed_of_leftEnclosed {op : Operator} (hop : op.isProduct = true) {t : Term α}
    (h : t.leftEnclosed op = true) : t.rightEnclosed .mul = true := by
  have reason : t.isSum = true ∨ t.leadsMinus = true := by
    cases op with
    | mul | div =>
        rcases Bool.or_eq_true_iff.1 h with h | h
        · exact .inl h
        · exact .inr (Term.leadsMinus_of_isNegation h)
    | mod =>
        rcases Bool.or_eq_true_iff.1 h with h | h
        · rcases Bool.or_eq_true_iff.1 h with h | h
          · exact .inl h
          · exact .inr (Term.leadsMinus_of_isNegation h)
        · exact .inr h
    | add | sub | pow => cases hop
  rw [Term.rightEnclosed]
  rcases reason with h | h
  · rw [Term.isBinary_of_isSum h rfl rfl, Bool.true_or]
  · rw [h, Bool.or_true]

/-- A product takes in the factors on its right one by one. -/
theorem graft_mul_spares {f g : Formula α} {i j : Nat}
    (hf : f.Spares (f.term.leftEnclosed .mul) i)
    (hparen : f.isParen = true → f.term.leftEnclosed .mul = true) (keeps : f.KeepsMinus)
    (nested : g.WellNested) (tight : Precedence.factor.rank ≤ g.tightness) (hg : g.Spares false j)
    (hminus : g.term.leadsMinus = false) (hg' : g.isParen = false) :
    (f.graft .mul g).Spares false (i + j) := by
  have direct {g : Formula α} {j : Nat} (hg : g.Spares (g.term.rightEnclosed .mul) j) :
      (binary .mul .nowhere f g).Spares false (i + j) :=
    ⟨rfl, i, j, rfl, hf, hg, hparen⟩
  induction g generalizing j with
  | binary op s l r ihl _ =>
      by_cases same : op.precedence = Operator.mul.precedence
      · obtain ⟨_, a, b, rfl, ha, hb, hl⟩ := hg
        have hop : op.isProduct = true := by rw [Operator.isProduct, same]; rfl
        obtain ⟨hrank, hassoc⟩ := Operator.rank_of_isProduct hop
        obtain ⟨nestedLeft, _, hside⟩ := nested
        rw [hassoc, hrank] at hside
        have left : (f.graft .mul l).Spares false (i + a) := by
          cases hl' : l.isParen with
          | true =>
              cases l with
              | paren s x =>
                  have enclosed := rightEnclosed_of_leftEnclosed hop (hl hl')
                  rw [hl hl'] at ha
                  refine direct (g := paren s x) ?_
                  rw [enclosed]
                  exact ha
              | _ => cases hl'
          | false =>
              have plain := needed_of_not_isParen hl' ha
              rw [plain] at ha
              refine ihl nestedLeft hside.1 ha ?_ hl'
              cases op with
              | mul | div =>
                  simp only [Term.leftEnclosed, Bool.or_eq_false_iff] at plain
                  simpa [term, Term.leadsMinus, plain.1, plain.2] using hminus
              | mod =>
                  simp only [Term.leftEnclosed, Bool.or_eq_false_iff] at plain
                  exact plain.2
              | add | sub | pow => cases hop
        rw [graft, if_pos same]
        refine ⟨rfl, i + a, b, (Nat.add_assoc i a b).symm, ?_, hb, fun h => ?_⟩
        · rw [leftEnclosed_graft rfl hop keeps]
          exact left
        · rw [not_isParen_graft] at h
          cases h
      · rw [graft, if_neg same]
        refine direct ?_
        have pow : op = .pow := by
          rw [tightness] at tight
          cases op <;> first | rfl | exact absurd rfl same | exact absurd tight (by decide)
        subst pow
        exact hg
  | paren s g => cases hg'
  | minus s g => exact absurd tight (by simp [tightness, Precedence.rank])
  | empty s => exact nested.elim
  | number s n =>
      refine direct ?_
      rw [Term.rightEnclosed, hminus]
      exact hg
  | var s name index => exact direct hg
  | const s name =>
      refine direct ?_
      rw [Term.rightEnclosed, hminus]
      have plain : (const (α := α) s name).term.isBinary [.add, .sub, .mod] = false := by
        rw [term]
        cases Constant.ofName? name <;> rfl
      rw [plain]
      exact hg
  | call name s t g =>
      refine direct ?_
      obtain ⟨k, hk⟩ := Option.isSome_iff_exists.1 hg.2.1
      have plain : (call name s t g).term.rightEnclosed .mul = false := by
        rw [term, hk]
        rfl
      rw [plain]
      exact hg

end Formula

namespace Term

variable {α : Type} [Scalar α]

/-! ## The term of a formula looks like the term it came from -/

/-- Whether two terms are written in parentheses at the same places, other than in front of a
product. -/
structure Alike (t u : Term α) : Prop where
  leads : u.leadsMinus = t.leadsMinus
  sum : u.isSum = t.isSum
  remainder : (u.isBinary [.add, .sub, .mod] || u.leadsMinus) =
    (t.isBinary [.add, .sub, .mod] || t.leadsMinus)
  factor : (u.isBinary [.add, .sub, .mul, .div, .mod] || u.isInverse || u.leadsMinus) =
    (t.isBinary [.add, .sub, .mul, .div, .mod] || t.isInverse || t.leadsMinus)
  operation : (u.isOperation || u.leadsMinus) = (t.isOperation || t.leadsMinus)
  negation : t.leadsMinus = true → t.isSum = false → u.isNegation = true

theorem bringsMinus_of_isNegation {t : Term α} (h : t.isNegation = true) : t.bringsMinus = true := by
  cases t with
  | inv i t => cases i <;> first | rfl | cases h
  | _ => cases h

theorem not_bringsMinus_of_isSum {t : Term α} (h : t.isSum = true) : t.bringsMinus = false := by
  cases t with
  | bin op l r => rfl
  | _ => cases h

namespace Alike

variable {t u : Term α}

theorem rightEnclosed (h : Alike t u) {op : Operator} (hop : op ≠ .add) :
    u.rightEnclosed op = t.rightEnclosed op := by
  cases op with
  | add => exact absurd rfl hop
  | sub => simp only [Term.rightEnclosed, h.sum, h.leads]
  | mul => exact h.remainder
  | div | mod => exact h.factor
  | pow => exact h.operation

theorem leftEnclosed (h : Alike t u) {op : Operator} (hmul : op ≠ .mul) (hdiv : op ≠ .div) :
    u.leftEnclosed op = t.leftEnclosed op := by
  cases op with
  | add | sub => rfl
  | mul => exact absurd rfl hmul
  | div => exact absurd rfl hdiv
  | mod =>
      have absorb (t : Term α) : t.leftEnclosed .mod = (t.isSum || t.leadsMinus) := by
        rw [Term.leftEnclosed]
        cases hneg : t.isNegation with
        | false => rw [Bool.or_false]
        | true => rw [leadsMinus_of_isNegation hneg, Bool.or_true, Bool.or_true]
      rw [absorb, absorb, h.sum, h.leads]
  | pow => exact h.operation

/-- Both terms are written in parentheses in front of a product, if one brings its own minus. -/
theorem leftEnclosed_of_product (h : Alike t u) {op : Operator} (hop : op.isProduct = true)
    (ht : t.leftEnclosed op = true) : u.leftEnclosed op = true := by
  cases op with
  | mul | div =>
      rcases Bool.or_eq_true_iff.1 ht with ht | ht
      · exact Bool.or_eq_true_iff.2 (.inl (h.sum.trans ht))
      · refine Bool.or_eq_true_iff.2 (.inr (h.negation (leadsMinus_of_isNegation ht) ?_))
        cases t with
        | inv i t => rfl
        | _ => cases ht
  | mod => rw [h.leftEnclosed (by decide) (by decide), ht]
  | add | sub | pow => cases hop

theorem of_leads (leads : t.leadsMinus = true) (sum : t.isSum = false) (hu : u.isNegation = true) :
    Alike t u := by
  have leads' := leadsMinus_of_isNegation hu
  have sum' : u.isSum = false := by
    cases u with
    | inv i t => rfl
    | _ => cases hu
  refine ⟨leads'.trans leads.symm, sum'.trans sum.symm, ?_, ?_, ?_, fun _ _ => hu⟩ <;>
    rw [leads, leads', Bool.or_true, Bool.or_true]

end Alike

/-- A left operand without a minus in front keeps every minus to itself. -/
theorem keepsMinus_leftEnclosed {op : Operator} (hop : op.isProduct = true) {l : Term α}
    {f : Formula α} (fits : Fits f l) (alike : Alike l f.term)
    (h : (f.enclosed (l.leftEnclosed op)).isMinus = false) :
    (f.enclosed (l.leftEnclosed op)).KeepsMinus := by
  rw [Formula.KeepsMinus, Formula.term_enclosed]
  cases hl : l.leftEnclosed op with
  | true =>
      have same := alike.leftEnclosed_of_product hop hl
      cases hsum : f.term.isSum with
      | true => exact .inl rfl
      | false =>
          cases hlead : f.term.leadsMinus with
          | false => exact .inr (.inr rfl)
          | true => exact .inr (.inl (alike.negation (alike.leads.symm.trans hlead)
              (alike.sum.symm.trans hsum)))
  | false =>
      rw [hl] at h
      have hsum := isSum_of_leftEnclosed hop hl
      have tight := (fits.factors hsum).resolve_left (by rw [show f.isMinus = false from h]; decide)
      have starts := Formula.startsMinus_of_tight fits.wellNested tight
      exact .inr (.inr (alike.leads.trans (fits.startsMinus.symm.trans starts)))

theorem Alike.of_product {op op' : Operator} (hop : op.isProduct = true) (hop' : op'.isProduct = true)
    (remainder : op' = .mod ↔ op = .mod) {l r l' r' : Term α}
    (plain : (bin op l r).leadsMinus = false) (plain' : (bin op' l' r').leadsMinus = false) :
    Alike (bin op l r) (bin op' l' r') := by
  refine ⟨plain'.trans plain.symm, ?_, ?_, ?_, rfl, fun h => ?_⟩
  · cases op with
    | mul | div | mod =>
        cases op' with
        | mul | div | mod => rfl
        | add | sub | pow => cases hop'
    | add | sub | pow => cases hop
  · rw [plain, plain', Bool.or_false, Bool.or_false]
    have other {op : Operator} (hop : op.isProduct = true) (l r : Term α) :
        (bin op l r).isBinary [.add, .sub, .mod] = decide (op = .mod) := by
      cases op with
      | mul | div | mod => rfl
      | add | sub | pow => cases hop
    rw [other hop, other hop']
    exact decide_eq_decide.2 remainder
  · have factor {op : Operator} (hop : op.isProduct = true) (l r : Term α) :
        (bin op l r).isBinary [.add, .sub, .mul, .div, .mod] = true := by
      cases op with
      | mul | div | mod => rfl
      | add | sub | pow => cases hop
    rw [factor hop, factor hop']
    rfl
  · rw [plain] at h
    cases h

/-- Regrouping a product to the left makes no remainder of it. -/
theorem term_graft_product {op : Operator} (hop : op.isProduct = true) (f : Formula α) {r : Term α}
    {g : Formula α} (fits : Fits g r) (alike : Alike r g.term) :
    ∃ op' l' r', (f.graft op (g.enclosed (r.rightEnclosed op))).term = .bin op' l' r' ∧
      op'.isProduct = true ∧ (op' = .mod ↔ op = .mod) := by
  have hadd : op ≠ .add := by rintro rfl; cases hop
  by_cases tight : op.precedence.rank < (g.enclosed (r.rightEnclosed op)).tightness
  · rw [Formula.graft_of_tight tight]
    exact ⟨op, _, _, rfl, hop, Iff.rfl⟩
  · obtain ⟨rfl, _⟩ := (rightEnclosed_tight fits hadd).resolve_left tight
    have plain : r.rightEnclosed .mul = false := by
      cases hr : r.rightEnclosed .mul with
      | false => rfl
      | true =>
          rw [hr] at tight
          exact absurd (Nat.lt_succ_of_lt (Nat.lt_succ_self _)) tight
    rw [plain]
    obtain ⟨op', l', r', hterm, same, root⟩ := Formula.term_graft .mul f g
    refine ⟨op', l', r', hterm, by rw [Operator.isProduct, same]; rfl, ?_⟩
    rcases root with rfl | ⟨l'', hg⟩
    · exact Iff.rfl
    · refine ⟨fun hmod => ?_, fun h => by cases h⟩
      have none := alike.rightEnclosed (show Operator.mul ≠ .add by decide)
      rw [plain, hg, hmod] at none
      cases none

theorem combine_alike {op : Operator} {l r : Term α} {f g : Formula α} (fitsLeft : Fits f l)
    (fitsRight : Fits g r) (left : Alike l f.term) (right : Alike r g.term) :
    Alike (bin op l r) ((f.enclosed (l.leftEnclosed op)).combine op
      (g.enclosed (r.rightEnclosed op))).term := by
  -- a sum looks like every other sum whose left operand has a minus where its own has one
  have sums {op op' : Operator} (hop : op.isSum = true) (hop' : op'.isSum = true) (l' r' : Term α)
      (leads : l'.leadsMinus = l.leadsMinus) : Alike (bin op l r) (bin op' l' r') := by
    cases op with
    | add | sub =>
        cases op' with
        | add | sub => exact ⟨leads, rfl, rfl, rfl, rfl, fun _ h => by cases h⟩
        | mul | div | mod | pow => cases hop'
    | mul | div | mod | pow => cases hop
  by_cases hproduct : op.isProduct = true
  · have hadd : op ≠ .add := by rintro rfl; cases hproduct
    rw [Formula.combine, if_neg hadd]
    have starts := startsMinus_leftEnclosed op r fitsLeft
    cases hf : (f.enclosed (l.leftEnclosed op)).isMinus with
    | true =>
        cases hF : f.enclosed (l.leftEnclosed op) with
        | minus s x =>
            rw [hF] at starts
            rw [Formula.glue_of_isMinus hproduct]
            refine Alike.of_leads starts.symm ?_ rfl
            cases op with
            | mul | div | mod => rfl
            | add | sub | pow => cases hproduct
        | _ => rw [hF] at hf; cases hf
    | false =>
        have keeps := keepsMinus_leftEnclosed hproduct fitsLeft left hf
        rw [Formula.glue_of_not_isMinus hf]
        have leads := Formula.leadsMinus_graft_product hproduct keeps
          (g.enclosed (r.rightEnclosed op))
        have factors := (leftEnclosed_factors hproduct fitsLeft).resolve_left (by rw [hf]; decide)
        have nested := Formula.enclosed_wellNested (l.leftEnclosed op) fitsLeft.wellNested
        have plain : (bin op l r).leadsMinus = false :=
          starts.symm.trans (Formula.startsMinus_of_tight nested factors)
        obtain ⟨op', l', r', hterm, hop', remainder⟩ :=
          term_graft_product hproduct (f.enclosed (l.leftEnclosed op)) fitsRight right
        rw [hterm] at leads ⊢
        exact Alike.of_product hproduct hop' remainder plain leads
  · cases op with
    | add =>
        rw [Formula.combine, if_pos rfl]
        cases hg : (g.enclosed (r.rightEnclosed .add)).isMinus with
        | true =>
            cases hG : g.enclosed (r.rightEnclosed .add) with
            | minus s x => exact sums rfl rfl _ _ left.leads
            | _ => rw [hG] at hg; cases hg
        | false =>
            have leads := Formula.leadsMinus_graft_add f (g.enclosed (r.rightEnclosed .add))
            obtain ⟨op', l', r', hterm, same, _⟩ :=
              Formula.term_graft .add f (g.enclosed (r.rightEnclosed .add))
            have hop' : op'.isSum = true := by
              rw [Operator.isSum, same]
              rfl
            have plain : (bin op' l' r').leadsMinus = l'.leadsMinus := by
              cases op' with
              | add | sub => rfl
              | mul | div | mod | pow => cases hop'
            rw [hterm, plain] at leads
            rw [Formula.plus_of_not_isMinus hg]
            show Alike _ (f.graft .add (g.enclosed (r.rightEnclosed .add))).term
            rw [hterm]
            exact sums rfl hop' _ _ (leads.trans left.leads)
    | sub =>
        have tight := (rightEnclosed_tight fitsRight (show Operator.sub ≠ .add by decide)).resolve_right
          fun h => by cases h.1
        rw [Formula.combine, if_neg (by decide), Formula.glue_of_not_isProduct (by decide),
          Formula.graft_of_tight tight]
        exact sums rfl rfl _ _ left.leads
    | pow =>
        have tight := (rightEnclosed_tight fitsRight (show Operator.pow ≠ .add by decide)).resolve_right
          fun h => by cases h.1
        rw [Formula.combine, if_neg (by decide), Formula.glue_of_not_isProduct (by decide),
          Formula.graft_of_tight tight]
        exact ⟨rfl, rfl, rfl, rfl, rfl, fun h => by cases h⟩
    | mul | div | mod => exact absurd rfl hproduct

theorem formula_alike [Scalar.Legible α] {t : Term α} (ht : t.Legible) : Alike t t.formula.term := by
  induction t with
  | empty => exact ht.elim
  | num n =>
      cases hneg : Scalar.isNegative n with
      | true =>
          rw [formula, Scalar.Legible.not_isZero_of_isNegative hneg, hneg]
          exact Alike.of_leads hneg rfl rfl
      | false =>
          have atom {m : α} (hm : Scalar.isNegative m = false) : Alike (num n) (num m) := by
            have same : (num m).leadsMinus = (num n).leadsMinus := hm.trans hneg.symm
            refine ⟨same, rfl, congrArg _ same, congrArg _ same, congrArg _ same, fun h => ?_⟩
            rw [show (num n).leadsMinus = false from hneg] at h
            cases h
          rw [formula, hneg]
          cases Scalar.isZero n with
          | true =>
              refine atom (Bool.eq_false_iff.2 fun h => ?_)
              have := Scalar.Legible.not_isZero_of_isNegative h
              rw [Scalar.Legible.isZero_zero] at this
              cases this
          | false => exact atom hneg
  | const c =>
      simp only [formula, Formula.term, Constant.ofName?_name]
      exact ⟨rfl, rfl, rfl, rfl, rfl, fun h => by cases h⟩
  | var name index => exact ⟨rfl, rfl, rfl, rfl, rfl, fun h => by cases h⟩
  | call k t ih =>
      simp only [formula, Formula.term, Keyword.ofName?_name]
      exact ⟨rfl, rfl, rfl, rfl, rfl, fun h => by cases h⟩
  | inv i t ih =>
      cases i with
      | neg => exact Alike.of_leads rfl rfl rfl
      | recip =>
          have plain : (bin .div (num (Scalar.ofNat 1 : α)) t.formula.term).leadsMinus = false := by
            rw [leadsMinus, show (num (Scalar.ofNat 1 : α)).leadsMinus = false from
              Scalar.Legible.not_isNegative_one, Bool.and_false]
          simp only [formula, Formula.term, Formula.term_enclosed]
          refine ⟨plain, rfl, ?_, rfl, rfl, fun h => by cases h⟩
          rw [plain]
          rfl
  | bin op l r ihl ihr =>
      exact combine_alike (formula_fits ht.1) (formula_fits ht.2) (ihl ht.1) (ihr ht.2)

theorem not_isParen_formula (t : Term α) : t.formula.isParen = false := by
  cases t with
  | num n =>
      rw [formula]
      split
      · rfl
      · split <;> rfl
  | inv i t => cases i <;> rfl
  | bin op l r =>
      rw [formula, Formula.combine]
      split
      · cases r.formula.enclosed (r.rightEnclosed op) with
        | minus s x => rfl
        | _ => exact Formula.not_isParen_graft _ _ _
      · cases l.formula.enclosed (l.leftEnclosed op) with
        | minus s x =>
            rw [Formula.glue]
            split
            · rfl
            · exact Formula.not_isParen_graft _ _ _
        | _ => exact Formula.not_isParen_graft _ _ _
  | _ => rfl

/-- A minus in front of a term that is no negation covers no parentheses. -/
theorem not_isParen_covered {t : Term α} (h : t.isNegation = false) {s : Span} {x : Formula α}
    (ht : t.formula = .minus s x) : x.isParen = false := by
  cases t with
  | num n =>
      rw [formula] at ht
      split at ht
      · cases ht
      · split at ht
        · cases ht
          rfl
        · cases ht
  | inv i t =>
      cases i with
      | neg => cases h
      | recip => cases ht
  | bin op l r =>
      have graft (f g : Formula α) : f.graft op g ≠ .minus s x := by
        cases g with
        | binary op' s' l' r' =>
            rw [Formula.graft]
            split <;> exact fun h => by cases h
        | _ => exact fun h => by cases h
      rw [formula, Formula.combine] at ht
      split at ht
      · rename_i hadd
        subst hadd
        cases hg : r.formula.enclosed (r.rightEnclosed .add) with
        | minus s' x' =>
            rw [hg] at ht
            cases ht
        | _ =>
            rw [hg] at ht
            exact absurd ht (graft _ _)
      · cases hf : l.formula.enclosed (l.leftEnclosed op) with
        | minus s' x' =>
            rw [hf, Formula.glue] at ht
            split at ht
            · cases ht
              exact Formula.not_isParen_graft _ _ _
            · exact absurd ht (graft _ _)
        | _ =>
            rw [hf] at ht
            exact absurd ht (graft _ _)
  | _ => cases ht

/-! ## Counting the spare parentheses of a term -/

/-- Whether a summand has its own minus inside parentheses that are not written again. -/
def addsProduct (op : Operator) (r : Term α) : Bool :=
  decide (op = .add) && r.isBinary [.mul, .div] && r.leadsMinus

/-- The number of parentheses that are not written again. -/
def spare : Term α → Nat
  | call _ t | inv .neg t => t.spare
  | inv .recip t => t.spare + t.isPower.toNat
  | bin op l r => l.spare + r.spare + (addsProduct op r).toNat
  | _ => 0

section

variable {l r : Term α} {f g : Formula α} {i j : Nat}

/-- A product has no other spare parentheses than its sides. -/
theorem graft_product_spares {op : Operator} (hop : op.isProduct = true)
    (hf : f.Spares (f.term.leftEnclosed op) i)
    (hparen : f.isParen = true → f.term.leftEnclosed op = true) (keeps : f.KeepsMinus)
    (fits : Fits g r) (alike : Alike r g.term) (hg : g.Spares false j) (hg' : g.isParen = false) :
    (f.graft op (g.enclosed (r.rightEnclosed op))).Spares false (i + j) := by
  have hadd : op ≠ .add := by rintro rfl; cases hop
  by_cases tight : op.precedence.rank < (g.enclosed (r.rightEnclosed op)).tightness
  · rw [Formula.graft_of_tight tight]
    have right := Formula.enclosed_spares hg (g.term.rightEnclosed op) (r.rightEnclosed op) (by rw [alike.rightEnclosed hadd]; exact id)
    rw [alike.rightEnclosed hadd, Bool.and_not_self, Bool.toNat_false, Nat.add_zero] at right
    refine ⟨rfl, i, j, rfl, hf, ?_, hparen⟩
    rw [Formula.term_enclosed, alike.rightEnclosed hadd]
    exact right
  · obtain ⟨rfl, factors⟩ := (rightEnclosed_tight fits hadd).resolve_left tight
    cases hr : r.rightEnclosed .mul with
    | true =>
        rw [hr] at tight
        exact absurd (Nat.lt_succ_of_lt (Nat.lt_succ_self _)) tight
    | false =>
        rw [hr] at factors
        have leads : g.term.leadsMinus = false := by
          rw [rightEnclosed, Bool.or_eq_false_iff] at hr
          exact alike.leads.trans hr.2
        exact Formula.graft_mul_spares hf hparen keeps fits.wellNested factors hg leads hg'

theorem combine_add_spares (fitsRight : Fits g r) (alike : Alike r g.term)
    (hf : f.Spares false i) (hf' : f.isParen = false) (hg : g.Spares false j)
    (hg' : g.isParen = false) : (f.combine .add (g.enclosed (r.rightEnclosed .add))).Spares false
      (i + j + (addsProduct .add r).toNat) := by
  rw [Formula.combine, if_pos rfl]
  cases hbrings : r.bringsMinus with
  | true =>
      have none : addsProduct .add r = false := by
        cases r with
        | bin op l r => cases hbrings
        | _ => rfl
      have plain : r.rightEnclosed .add = false := by rw [rightEnclosed, hbrings]; rfl
      rw [none, plain]
      have minus := fitsRight.isMinus hbrings
      cases g with
      | minus s x =>
          exact ⟨rfl, i, j, rfl, hf, hg.2, fun h => absurd (hf'.symm.trans h) (by decide)⟩
      | _ => cases minus
  | false =>
      cases hleads : r.leadsMinus with
      | false =>
          have none : addsProduct .add r = false := by rw [addsProduct, hleads, Bool.and_false]
          have plain : r.rightEnclosed .add = false := by
            rw [rightEnclosed, hleads, Bool.and_false]
          have bare := fitsRight.not_isMinus hleads
          rw [none, plain]
          show (f.plus g).Spares false (i + j)
          rw [Formula.plus_of_not_isMinus bare]
          exact Formula.graft_add_spares hf hf' hg (alike.leads.trans hleads)
      | true =>
          have enclosed : r.rightEnclosed .add = true := by rw [rightEnclosed, hbrings, hleads]; rfl
          rw [enclosed]
          have leads := alike.leads.trans hleads
          -- the parentheses are needed iff the minus is not the whole summand's
          have whole (k : Nat) (hk : (Formula.paren .nowhere g).Spares
              (g.term.rightEnclosed .add) k) :
              (f.plus (Formula.paren .nowhere g)).Spares false (i + k) :=
            ⟨rfl, i, k, rfl, hf, hk, fun h => absurd (hf'.symm.trans h) (by decide)⟩
          cases hsum : r.isSum with
          | true =>
              have none : addsProduct .add r = false := by
                cases r with
                | bin op l r => cases op <;> first | rfl | cases hsum
                | _ => cases hsum
              rw [none]
              refine whole j ?_
              rw [rightEnclosed, not_bringsMinus_of_isSum (alike.sum.trans hsum), leads]
              exact hg
          | false =>
              have one : addsProduct .add r = true := by
                cases r with
                | bin op l r =>
                    cases op with
                    | mul | div =>
                        rw [addsProduct, hleads]
                        rfl
                    | add | sub => cases hsum
                    | mod | pow => cases hleads
                | num n => exact absurd (hbrings.symm.trans hleads) (by decide)
                | inv i t =>
                    cases i with
                    | neg => cases hbrings
                    | recip => cases hleads
                | _ => cases hleads
              rw [one]
              refine whole (j + 1) ?_
              rw [rightEnclosed, bringsMinus_of_isNegation (alike.negation hleads hsum)]
              exact ⟨j, rfl, hg⟩

theorem combine_product_spares {op : Operator} (hop : op.isProduct = true) (fitsLeft : Fits f l)
    (fitsRight : Fits g r) (left : Alike l f.term) (right : Alike r g.term)
    (hf : f.Spares false i) (hf' : f.isParen = false) (hg : g.Spares false j)
    (hg' : g.isParen = false)
    (covered : l.isNegation = false → ∀ s x, f = .minus s x → x.isParen = false) :
    ((f.enclosed (l.leftEnclosed op)).combine op (g.enclosed (r.rightEnclosed op))).Spares false
      (i + j) := by
  have hadd : op ≠ .add := by rintro rfl; cases hop
  rw [Formula.combine, if_neg hadd]
  cases hF : (f.enclosed (l.leftEnclosed op)).isMinus with
  | true =>
      cases hl : l.leftEnclosed op with
      | true =>
          rw [hl] at hF
          cases hF
      | false =>
          rw [hl] at hF
          cases f with
          | minus s x =>
              have bare : x.isParen = false := by
                refine covered ?_ s x rfl
                cases op with
                | mul | div => exact (Bool.or_eq_false_iff.1 hl).2
                | mod => exact (Bool.or_eq_false_iff.1 (Bool.or_eq_false_iff.1 hl).1).2
                | add | sub | pow => cases hop
              have plain := Formula.needed_of_not_isParen bare hf.2
              obtain ⟨sum, leads⟩ := Bool.or_eq_false_iff.1 plain
              have negation : x.term.isNegation = false := by
                cases h : x.term.isNegation with
                | false => rfl
                | true =>
                    rw [leadsMinus_of_isNegation h] at leads
                    cases leads
              have enclosed : x.term.leftEnclosed op = false := by
                cases op with
                | mul | div => rw [leftEnclosed, sum, negation]; rfl
                | mod => rw [leftEnclosed, sum, negation, leads]; rfl
                | add | sub | pow => cases hop
              have hx := hf.2
              rw [plain] at hx
              have keeps : x.KeepsMinus := .inr (.inr leads)
              have whole := graft_product_spares hop (f := x) (by rwa [enclosed])
                (fun h => absurd (bare.symm.trans h) (by decide)) keeps fitsRight right hg hg'
              have leads' := Formula.leadsMinus_graft_product hop keeps
                (g.enclosed (r.rightEnclosed op))
              obtain ⟨op', l', r', hterm, hop', _⟩ := term_graft_product hop x fitsRight right
              have sum' : (x.graft op (g.enclosed (r.rightEnclosed op))).term.isSum = false := by
                rw [hterm]
                cases op' with
                | mul | div | mod => rfl
                | add | sub | pow => cases hop'
              show (Formula.glue op (.minus s x) _).Spares false _
              rw [Formula.glue_of_isMinus hop]
              refine ⟨rfl, ?_⟩
              rw [leads', sum']
              exact whole
          | _ => cases hF
  | false =>
      have keeps := keepsMinus_leftEnclosed hop fitsLeft left hF
      rw [Formula.glue_of_not_isMinus hF]
      cases hl : l.leftEnclosed op with
      | true =>
          rw [hl] at keeps
          have same := left.leftEnclosed_of_product hop hl
          refine graft_product_spares hop ?_ (fun _ => same) keeps fitsRight right hg hg'
          rw [Formula.term_enclosed, same]
          exact hf
      | false =>
          rw [hl] at hF keeps
          have sum := isSum_of_leftEnclosed hop hl
          have tight := (fitsLeft.factors sum).resolve_left
            (by rw [show f.isMinus = false from hF]; decide)
          have leads : f.term.leadsMinus = false := left.leads.trans
            (fitsLeft.startsMinus.symm.trans
              (Formula.startsMinus_of_tight fitsLeft.wellNested tight))
          have negation : f.term.isNegation = false := by
            cases h : f.term.isNegation with
            | false => rfl
            | true =>
                rw [leadsMinus_of_isNegation h] at leads
                cases leads
          have enclosed : f.term.leftEnclosed op = false := by
            cases op with
            | mul | div => rw [leftEnclosed, left.sum, sum, negation]; rfl
            | mod => rw [leftEnclosed, left.sum, sum, negation, leads]; rfl
            | add | sub | pow => cases hop
          refine graft_product_spares hop ?_ (fun h => ?_) keeps fitsRight right hg hg'
          · show f.Spares (f.term.leftEnclosed op) i
            rwa [enclosed]
          · exact absurd (hf'.symm.trans h) (by decide)

/-- The operands of a difference or a power are written in parentheses where their formulas are. -/
theorem combine_other_spares {op : Operator} (hop : op = .sub ∨ op = .pow) (fitsRight : Fits g r)
    (left : Alike l f.term) (right : Alike r g.term) (hf : f.Spares false i)
    (hf' : f.isParen = false) (hg : g.Spares false j) :
    ((f.enclosed (l.leftEnclosed op)).combine op (g.enclosed (r.rightEnclosed op))).Spares false
      (i + j) := by
  have hadd : op ≠ .add := by rcases hop with rfl | rfl <;> decide
  have hmul : op ≠ .mul := by rcases hop with rfl | rfl <;> decide
  have hdiv : op ≠ .div := by rcases hop with rfl | rfl <;> decide
  have hproduct : ¬op.isProduct = true := by rcases hop with rfl | rfl <;> decide
  have tight := (rightEnclosed_tight fitsRight hadd).resolve_right fun h => hmul h.1
  have sameLeft := left.leftEnclosed hmul hdiv
  have sameRight := right.rightEnclosed hadd
  have spares {h : Formula α} {k : Nat} (hh : h.Spares false k) (needed : Bool) :
      (h.enclosed needed).Spares needed k := by
    have enclosed := Formula.enclosed_spares hh needed needed id
    rwa [Bool.and_not_self, Bool.toNat_false, Nat.add_zero] at enclosed
  rw [Formula.combine, if_neg hadd, Formula.glue_of_not_isProduct hproduct,
    Formula.graft_of_tight tight]
  refine ⟨rfl, i, j, rfl, ?_, ?_, fun h => ?_⟩
  · rw [Formula.term_enclosed, sameLeft]
    exact spares hf _
  · rw [Formula.term_enclosed, sameRight]
    exact spares hg _
  · rw [Formula.term_enclosed, sameLeft]
    cases hl : l.leftEnclosed op with
    | true => rfl
    | false =>
        rw [hl] at h
        exact absurd (hf'.symm.trans h) (by decide)

end

theorem operation_of_factor {t : Term α} (h : t.rightEnclosed .div = true) :
    (t.isOperation || t.leadsMinus) = true := by
  cases t with
  | bin op l r => rfl
  | inv i t => rfl
  | num n => exact h
  | _ => cases h

/-- The parentheses below `1 / ` are spare around a power. -/
theorem recip_spare (t : Term α) :
    ((t.isOperation || t.leadsMinus) && !t.rightEnclosed .div) = t.isPower := by
  cases t with
  | bin op l r => cases op <;> rfl
  | num n => exact Bool.and_not_self _
  | _ => rfl

/-- The formula of a term has the spare parentheses counted by `spare`. -/
theorem formula_spares [Scalar.Legible α] {t : Term α} (ht : t.Legible) :
    t.formula.Spares false t.spare := by
  induction t with
  | empty => exact ht.elim
  | num n =>
      cases hneg : Scalar.isNegative n with
      | true =>
          have positive := Scalar.Legible.not_isNegative_neg hneg
          have nonzero := Scalar.Legible.not_isZero_neg hneg
          rw [formula, Scalar.Legible.not_isZero_of_isNegative hneg, hneg]
          refine ⟨rfl, ?_⟩
          have plain : ((Formula.number .nowhere (-n)).term.isSum ||
              (Formula.number .nowhere (-n)).term.leadsMinus) = false := positive
          rw [plain]
          exact ⟨rfl, rfl, positive, by rw [numberText, nonzero]; rfl⟩
      | false =>
          rw [formula, hneg]
          cases hzero : Scalar.isZero n with
          | true =>
              refine ⟨rfl, rfl, Bool.eq_false_iff.2 fun h => ?_, ?_⟩
              · have nonzero := Scalar.Legible.not_isZero_of_isNegative h
                rw [Scalar.Legible.isZero_zero] at nonzero
                cases nonzero
              · rw [numberText, Scalar.Legible.isZero_zero, Scalar.Legible.text_zero]
                rfl
          | false => exact ⟨rfl, rfl, hneg, by rw [numberText, hzero]; rfl⟩
  | const c | var name index => exact ⟨rfl, rfl⟩
  | call k t ih => exact ⟨rfl, by rw [Keyword.ofName?_name]; rfl, ih ht⟩
  | inv i t ih =>
      have alike : Alike t t.formula.term := formula_alike ht
      have inner := ih ht
      cases i with
      | neg =>
          have same : (t.formula.term.isSum || t.formula.term.leadsMinus) =
              (t.isSum || t.leadsMinus) := by rw [alike.sum, alike.leads]
          have covered := Formula.enclosed_spares inner (t.isSum || t.leadsMinus)
            (t.isSum || t.leadsMinus) id
          rw [Bool.and_not_self, Bool.toNat_false, Nat.add_zero] at covered
          refine ⟨rfl, ?_⟩
          rw [Formula.term_enclosed, same]
          exact covered
      | recip =>
          have below := Formula.enclosed_spares inner (t.rightEnclosed .div)
            (t.isOperation || t.leadsMinus) operation_of_factor
          rw [recip_spare] at below
          have one : (Formula.number .nowhere (Scalar.ofNat 1 : α)).Spares
              ((num (Scalar.ofNat 1 : α)).leftEnclosed .div) 0 :=
            ⟨rfl, rfl, Scalar.Legible.not_isNegative_one,
              by rw [numberText, Scalar.Legible.not_isZero_one]; rfl⟩
          refine ⟨rfl, 0, _, (Nat.zero_add _).symm, one, ?_, fun h => by cases h⟩
          rw [Formula.term_enclosed, alike.rightEnclosed (by decide)]
          exact below
  | bin op l r ihl ihr =>
      have left := formula_alike ht.1
      have right := formula_alike ht.2
      have fitsLeft := formula_fits ht.1
      have fitsRight := formula_fits ht.2
      have leftSpares : l.formula.Spares false l.spare := ihl ht.1
      have rightSpares : r.formula.Spares false r.spare := ihr ht.2
      have bareLeft := not_isParen_formula l
      have bareRight := not_isParen_formula r
      have product (hop : op.isProduct = true) := combine_product_spares hop fitsLeft fitsRight left
        right leftSpares bareLeft rightSpares bareRight fun h s x => not_isParen_covered h
      have other (hop : op = .sub ∨ op = .pow) := combine_other_spares hop fitsRight left right
        leftSpares bareLeft rightSpares
      cases op with
      | mul | div | mod => exact product rfl
      | add => exact combine_add_spares fitsRight right leftSpares bareLeft rightSpares bareRight
      | sub => exact other (.inl rfl)
      | pow => exact other (.inr rfl)

/-! ## The text of the formula -/

theorem withoutBlanks_numberText [Scalar.Legible α] {n : α} (hn : Scalar.isFinite n = true) :
    withoutBlanks (numberText n) = numberText n := by
  rw [numberText]
  cases hzero : Scalar.isZero n with
  | true =>
      rw [if_pos rfl]
      decide +kernel
  | false =>
      rw [if_neg (by decide)]
      cases hneg : Scalar.isNegative n with
      | true =>
          rw [Scalar.Legible.text_negative hn hneg, withoutBlanks_append,
            withoutBlanks_of_numeral (Scalar.Legible.isNumeral_text
              (Scalar.Legible.isFinite_neg hn) (Scalar.Legible.not_isZero_neg hneg)
              (Scalar.Legible.not_isNegative_neg hneg))]
          rfl
      | false =>
          exact withoutBlanks_of_numeral (Scalar.Legible.isNumeral_text hn hzero hneg)

/-- The formula of a legible term has the text of the term, but for the blanks around `/`. -/
theorem formula_text [Scalar.Legible α] {t : Term α} (ht : t.Legible) :
    t.formula.text = withoutBlanks t.text := by
  induction t with
  | empty => exact ht.elim
  | num n =>
      rw [text, withoutBlanks_numberText ht, formula, numberText]
      cases hzero : Scalar.isZero n with
      | true => exact Scalar.Legible.text_zero
      | false =>
          cases hneg : Scalar.isNegative n with
          | true => exact (Scalar.Legible.text_negative ht hneg).symm
          | false => rfl
  | const c =>
      have name : withoutBlanks c.name = c.name := by cases c <;> decide +kernel
      exact name.symm
  | var name index =>
      obtain ⟨letters, _, _, digits⟩ := ht
      rw [text, withoutBlanks_append, withoutBlanks_of_letters letters]
      cases index with
      | none => rfl
      | some ds =>
          rw [Option.getD_some, withoutBlanks_of_digits (digits ds rfl)]
          rfl
  | call k t ih =>
      have name : withoutBlanks k.name = k.name := by cases k <;> decide +kernel
      rw [text, formula, Formula.text, ih ht]
      simp only [withoutBlanks_append, name]
      rfl
  | inv i t ih =>
      cases i with
      | neg =>
          rw [text, formula, Formula.text, Formula.text_enclosed, ih ht, withoutBlanks_append,
            withoutBlanks_parenthesized]
          rfl
      | recip =>
          rw [text, formula, Formula.text, Formula.text_enclosed, ih ht, withoutBlanks_append,
            withoutBlanks_parenthesized, Formula.text, Scalar.Legible.text_one]
          rfl
  | bin op l r ihl ihr =>
      have left : l.formula.text = withoutBlanks l.text := ihl ht.1
      have right : r.formula.text = withoutBlanks r.text := ihr ht.2
      have symbol : withoutBlanks op.symbol = op.symbol := by cases op <;> rfl
      rw [formula]
      by_cases brings : op = .add ∧ r.bringsMinus = true
      · obtain ⟨rfl, hr⟩ := brings
        have plain : r.rightEnclosed .add = false := by rw [rightEnclosed, hr]; rfl
        rw [text_add hr, plain, withoutBlanks_append, ← left, ← right]
        exact Formula.text_plus ((formula_fits ht.2).isMinus hr)
      · have hr (h : op = .add) : r.bringsMinus = false := by
          cases hr : r.bringsMinus with
          | false => rfl
          | true => exact absurd ⟨h, hr⟩ brings
        rw [text_bin hr, Formula.text_combine fun h => ?_]
        · rw [Formula.text_enclosed, Formula.text_enclosed, left, right]
          simp only [withoutBlanks_append, withoutBlanks_parenthesized, symbol]
        · subst h
          rw [(rightEnclosed_add (formula_fits ht.2)).1, hr rfl]

/-- The text of a legible term is read as a term that is written the same, but for the blanks, iff
the text has no spare parentheses. -/
theorem rereads_iff [Scalar.Legible α] {t : Term α} (ht : t.Legible)
    (shallow : ∀ s most, parse (α := α) .registry t.text ≠ .error ⟨s, .nestedTooDeeply most⟩) :
    ∃ t' : Term α, parse .registry t.text = .ok t' ∧
      (t'.text = withoutBlanks t.text ↔ t.spare = 0) := by
  have parsed := ((parse_text_decides ht).resolve_left fun ⟨s, deep⟩ => shallow _ _ deep) _ |>.2 rfl
  obtain ⟨same, short⟩ := Formula.text_of_spares (formula_fits ht).wellNested (formula_spares ht)
  rw [formula_text ht] at same short
  refine ⟨t.formula.term, parsed, fun h => ?_, fun h => (same h).symm⟩
  rw [← h] at short
  have plain : parenthesized false t.formula.term.text = t.formula.term.text := rfl
  rw [plain] at short
  omega

/-- A reciprocal is read as a quotient, which is written the same. -/
theorem rereads_recip : ∃ t' : Term ℚ, parse .registry "1 / (a-b)" = .ok t' ∧
    (t'.text = "1/(a-b)" ↔
      (inv .recip (bin .sub (var "a" none) (var "b" none)) : Term ℚ).spare = 0) := by
  let t : Term ℚ := inv .recip (bin .sub (var "a" none) (var "b" none))
  have written : t.text = "1 / (a-b)" := by decide +kernel
  have unblanked : withoutBlanks "1 / (a-b)" = "1/(a-b)" := by decide +kernel
  have legible : t.Legible :=
    ⟨⟨by decide +kernel, by decide +kernel, by decide +kernel, fun _ h => by cases h⟩,
      by decide +kernel, by decide +kernel, by decide +kernel, fun _ h => by cases h⟩
  have level : Formula.deepParenthesis? 0 0 "1 / (a-b)".toList = none := by decide +kernel
  have trees : TokenTree.ofSource .registry "1 / (a-b)".toList =
      [.number ⟨0, 1⟩ "1", .char ⟨2, 3⟩ '/', .group ⟨4, 9⟩
        [.var ⟨5, 6⟩ "a" none, .char ⟨6, 7⟩ '-', .var ⟨7, 8⟩ "b" none]] := rfl
  have read : parse (α := ℚ) .registry "1 / (a-b)" = .ok (bin .div (num (Scalar.literal "1"))
      (bin .sub (var "a" none) (var "b" none))) := by
    simp only [parse, Formula.parse, level, trees]
    rfl
  have h := rereads_iff legible (by
    rw [written, read]
    exact fun _ _ h => by cases h)
  rwa [written, unblanked] at h

/-- Neither the parentheses around a product with a minus in front that is added, nor those around a
power below `1 / `, are written again. -/
theorem spare_parentheses_lost :
    (∃ t t' : Term ℚ, t.Legible ∧ t.text = "a+(-2*x)" ∧ parse .registry t.text = .ok t' ∧
      t'.text = "a-2*x" ∧ t'.text ≠ withoutBlanks t.text) ∧
    ∃ t t' : Term ℚ, t.Legible ∧ t.text = "1 / (a^b)" ∧ parse .registry t.text = .ok t' ∧
      t'.text = "1/a^b" ∧ t'.text ≠ withoutBlanks t.text := by
  have variable_ {name : String} (letters : Token.IsLetters name.toList)
      (hkeyword : Vocabulary.registry.isKeyword name = false)
      (hconstant : Vocabulary.registry.isConstant name = false) :
      (var name none : Term ℚ).Legible := ⟨letters, hkeyword, hconstant, fun _ h => by cases h⟩
  constructor
  · let t : Term ℚ := bin .add (var "a" none) (bin .mul (num (-2)) (var "x" none))
    have written : t.text = "a+(-2*x)" := by decide +kernel
    have level : Formula.deepParenthesis? 0 0 "a+(-2*x)".toList = none := by decide +kernel
    have trees : TokenTree.ofSource .registry "a+(-2*x)".toList =
        [.var ⟨0, 1⟩ "a" none, .char ⟨1, 2⟩ '+', .group ⟨2, 8⟩
          [.char ⟨3, 4⟩ '-', .number ⟨4, 5⟩ "2", .char ⟨5, 6⟩ '*', .var ⟨6, 7⟩ "x" none]] := rfl
    have read : parse (α := ℚ) .registry "a+(-2*x)" = .ok (bin .add (var "a" none)
        (inv .neg (bin .mul (num (Scalar.literal "2")) (var "x" none)))) := by
      simp only [parse, Formula.parse, level, trees]
      rfl
    refine ⟨t, _, ⟨?_, rfl, ?_⟩, written, written ▸ read, ?_, ?_⟩
    · exact variable_ (by decide +kernel) (by decide +kernel) (by decide +kernel)
    · exact variable_ (by decide +kernel) (by decide +kernel) (by decide +kernel)
    · decide +kernel
    · decide +kernel
  · let t : Term ℚ := inv .recip (bin .pow (var "a" none) (var "b" none))
    have written : t.text = "1 / (a^b)" := by decide +kernel
    have level : Formula.deepParenthesis? 0 0 "1 / (a^b)".toList = none := by decide +kernel
    have trees : TokenTree.ofSource .registry "1 / (a^b)".toList =
        [.number ⟨0, 1⟩ "1", .char ⟨2, 3⟩ '/', .group ⟨4, 9⟩
          [.var ⟨5, 6⟩ "a" none, .char ⟨6, 7⟩ '^', .var ⟨7, 8⟩ "b" none]] := rfl
    have read : parse (α := ℚ) .registry "1 / (a^b)" = .ok (bin .div (num (Scalar.literal "1"))
        (bin .pow (var "a" none) (var "b" none))) := by
      simp only [parse, Formula.parse, level, trees]
      rfl
    refine ⟨t, _, ⟨?_, ?_⟩, written, written ▸ read, ?_, ?_⟩
    · exact variable_ (by decide +kernel) (by decide +kernel) (by decide +kernel)
    · exact variable_ (by decide +kernel) (by decide +kernel) (by decide +kernel)
    · decide +kernel
    · decide +kernel

end Term

end AlgebraicTerms
