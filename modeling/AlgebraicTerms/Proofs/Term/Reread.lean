import AlgebraicTerms.Proofs.Formula.Nesting
import AlgebraicTerms.Proofs.Term.Meaning
import AlgebraicTerms.Proofs.Term.Parsing

/-!
# Reading the text of a term

Unless its text is nested too deeply, a legible term is read as its formula, up to the places, and so
converted to the term of that formula (`parse_text_decides`).
-/

namespace AlgebraicTerms

namespace Formula

variable {α : Type}

/-- The formula without its places. -/
def erase : Formula α → Formula α
  | empty _ => empty .nowhere
  | number _ n => number .nowhere n
  | var _ name index => var .nowhere name index
  | const _ name => const .nowhere name
  | paren _ f => paren .nowhere f.erase
  | call name _ _ f => call name .nowhere .nowhere f.erase
  | minus _ f => minus .nowhere f.erase
  | binary op _ l r => binary op .nowhere l.erase r.erase

theorem tightness_erase (f : Formula α) : f.erase.tightness = f.tightness := by
  cases f <;> rfl

theorem wellNested_erase (f : Formula α) : f.erase.WellNested ↔ f.WellNested := by
  induction f with
  | minus s f ih =>
      rw [erase, WellNested, WellNested, ih, tightness_erase]
  | binary op s l r ihl ihr =>
      rw [erase, WellNested, WellNested, ihl, ihr, tightness_erase, tightness_erase]
  | paren s f ih | call name s t f ih => exact ih
  | _ => exact Iff.rfl

theorem term_erase (f : Formula α) : f.erase.term = f.term := by
  induction f with
  | call name s t f ih => rw [erase, term, term, ih]
  | paren s f ih => exact ih
  | minus s f ih => rw [erase, term, term, ih]
  | binary op s l r ihl ihr => rw [erase, term, term, ihl, ihr]
  | _ => rfl

theorem placeAfter_erase (p : Place) (f : Formula α) : f.erase.placeAfter p = f.placeAfter p := by
  induction f generalizing p with
  | minus s f ih => exact ih p
  | binary op s l r ihl ihr => rw [erase, placeAfter, placeAfter, ihl, ihr]
  | _ => rfl

theorem deepest_erase (p : Place) (f : Formula α) : f.erase.deepest p = f.deepest p := by
  induction f generalizing p with
  | call name s t f ih | paren s f ih => rw [erase, deepest, deepest, ih]
  | minus s f ih => exact ih p
  | binary op s l r ihl ihr => rw [erase, deepest, deepest, placeAfter_erase, ihl, ihr]
  | _ => rfl

variable [Scalar α]

open TokenTree

theorem eraseAll_eq_singleton {ts : List TokenTree} {u : TokenTree} (h : eraseAll ts = [u]) :
    ∃ t, ts = [t] ∧ t.erase = u := by
  rw [eraseAll_eq_map] at h
  obtain ⟨t, ts', rfl, ht, hts⟩ := List.map_eq_cons_iff.1 h
  rw [List.map_eq_nil_iff] at hts
  subst hts
  exact ⟨t, rfl, ht⟩

theorem erase_eq_char {t : TokenTree} {s : Span} {c : Char} (h : t.erase = .char s c) :
    ∃ s', t = .char s' c := by
  cases t with
  | char s' c' =>
      cases h
      exact ⟨s', rfl⟩
  | _ => cases h

/-- Trees that differ from those of a formula only in their places are those of a formula that
differs only in its places. -/
theorem exists_yields {f : Formula α} {ts : List TokenTree} (h : f.Yields (eraseAll ts)) :
    ∃ g : Formula α, g.erase = f.erase ∧ g.Yields ts := by
  induction f generalizing ts with
  | empty s =>
      have hts : ts = [] := by
        rw [Yields, eraseAll_eq_map, List.map_eq_nil_iff] at h
        exact h
      exact ⟨.empty s, rfl, hts⟩
  | number s n =>
      obtain ⟨lexeme, hn, h⟩ := h
      obtain ⟨t, rfl, ht⟩ := eraseAll_eq_singleton h
      cases t with
      | number s' lexeme' =>
          cases ht
          exact ⟨.number s' n, rfl, lexeme, hn, rfl⟩
      | _ => cases ht
  | var s name index =>
      obtain ⟨t, rfl, ht⟩ := eraseAll_eq_singleton h
      cases t with
      | var s' name' index' =>
          cases ht
          exact ⟨.var s' name index, rfl, rfl⟩
      | _ => cases ht
  | const s name =>
      obtain ⟨t, rfl, ht⟩ := eraseAll_eq_singleton h
      cases t with
      | const s' name' =>
          cases ht
          exact ⟨.const s' name, rfl, rfl⟩
      | _ => cases ht
  | paren s f ih =>
      obtain ⟨items, hitems, h⟩ := h
      obtain ⟨t, rfl, ht⟩ := eraseAll_eq_singleton h
      cases t with
      | group s' items' =>
          cases ht
          obtain ⟨g, hg, hy⟩ := ih hitems
          exact ⟨.paren s' g, congrArg (paren .nowhere) hg, items', hy, rfl⟩
      | _ => cases ht
  | call name s t f ih =>
      obtain ⟨items, hitems, h⟩ := h
      rw [eraseAll_eq_map] at h
      obtain ⟨k, rest, rfl, hk, hrest⟩ := List.map_eq_cons_iff.1 h
      rw [← eraseAll_eq_map] at hrest
      obtain ⟨u, rfl, hu⟩ := eraseAll_eq_singleton hrest
      cases k with
      | keyword s' name' =>
          cases hk
          cases u with
          | group t' items' =>
              cases hu
              obtain ⟨g, hg, hy⟩ := ih hitems
              exact ⟨.call name s' t' g, congrArg (call name .nowhere .nowhere) hg, items', hy, rfl⟩
          | _ => cases hu
      | _ => cases hk
  | minus s f ih =>
      obtain ⟨us, hus, h⟩ := h
      rw [eraseAll_eq_map] at h
      obtain ⟨k, rest, rfl, hk, hrest⟩ := List.map_eq_cons_iff.1 h
      rw [← eraseAll_eq_map] at hrest
      obtain ⟨s', rfl⟩ := erase_eq_char hk
      rw [← hrest] at hus
      obtain ⟨g, hg, hy⟩ := ih hus
      exact ⟨.minus s' g, congrArg (minus .nowhere) hg, rest, hy, rfl⟩
  | binary op s l r ihl ihr =>
      obtain ⟨us, vs, hus, hvs, h⟩ := h
      rw [eraseAll_eq_map] at h
      obtain ⟨ps, qs, rfl, hps, hqs⟩ := List.map_eq_append_iff.1 h
      obtain ⟨k, rest, rfl, hk, hrest⟩ := List.map_eq_cons_iff.1 hqs
      rw [← eraseAll_eq_map] at hps hrest
      obtain ⟨s', rfl⟩ := erase_eq_char hk
      rw [← hps] at hus
      rw [← hrest] at hvs
      obtain ⟨f, hf, hfy⟩ := ihl hus
      obtain ⟨g, hg, hgy⟩ := ihr hvs
      exact ⟨.binary op s' f g, by rw [erase, erase, hf, hg], ps, rest, hfy, hgy, rfl⟩

/-- With the names of the registry every formula can be converted. -/
theorem ofFormula_of_named {f : Formula α} {ts : List TokenTree} (h : f.Yields ts)
    (hts : AllNamed .registry ts) : Term.ofFormula f = .ok f.term := by
  induction f generalizing ts with
  | const s name =>
      rw [Term.ofFormula, term]
      cases Constant.ofName? name <;> rfl
  | paren s f ih =>
      obtain ⟨items, hitems, rfl⟩ := h
      exact ih hitems hts.1
  | call name s t f ih =>
      obtain ⟨items, hitems, rfl⟩ := h
      have known : (Keyword.ofName? name).isSome = true := hts.1
      rw [Term.ofFormula, term]
      cases hk : Keyword.ofName? name with
      | none =>
          rw [hk] at known
          cases known
      | some k =>
          simp only
          rw [ih hitems hts.2.1]
          rfl
  | minus s f ih =>
      obtain ⟨us, hus, rfl⟩ := h
      rw [Term.ofFormula, ih hus hts.2]
      rfl
  | binary op s l r ihl ihr =>
      obtain ⟨us, vs, hus, hvs, rfl⟩ := h
      obtain ⟨left, right⟩ := allNamed_append.1 hts
      rw [Term.ofFormula, ihl hus left, ihr hvs right.2]
      rfl
  | _ => rfl

end Formula

namespace Term

variable {α : Type} [Scalar α] [Scalar.Legible α]

/-- The tokens of the text of a term are those of its formula, up to the places. -/
theorem exists_formula_of_text {t : Term α} (ht : t.Legible) : ∃ f : Formula α,
    f.erase = t.formula.erase ∧ f.WellNested ∧
      f.Yields (TokenTree.ofSource .registry t.text.toList) := by
  obtain ⟨ts, written, yields⟩ := spelled ht
  have trees := TokenTree.erase_ofSource written
  rw [← trees] at yields
  obtain ⟨f, erased, hy⟩ := Formula.exists_yields yields
  refine ⟨f, erased, ?_, hy⟩
  rw [← Formula.wellNested_erase, erased, Formula.wellNested_erase]
  exact (formula_fits ht).wellNested

/-- The text of a term is read as the term of its formula if it is not nested too deeply. -/
theorem parse_text_of_shallow {t : Term α} (ht : t.Legible)
    (shallow : ∀ s, Formula.parse (α := α) .registry t.text ≠ .error (Formula.tooDeep s)) :
    parse .registry t.text = .ok t.formula.term := by
  obtain ⟨f, erased, nested, hy⟩ := exists_formula_of_text ht
  have tree : f.IsTreeOf (.point (byteLength t.text.toList))
      (TokenTree.ofSource .registry t.text.toList) := by
    rw [Formula.IsTreeOf, if_neg (nested.yields_ne_nil hy)]
    exact ⟨nested, hy⟩
  rcases Formula.parse_decides (α := α) .registry t.text with ⟨s, deep⟩ | decided
  · exact absurd deep (shallow s)
  · rw [parse, (decided f).2 tree]
    show ofFormula f = .ok t.formula.term
    rw [Formula.ofFormula_of_named hy (TokenTree.ofSource_named _ _), ← Formula.term_erase, erased,
      Formula.term_erase]

/-- The text of a term is read as the term of its formula if that is nested within the limit. -/
theorem parse_text_of_deepest {t : Term α} (ht : t.Legible)
    (shallow : t.formula.deepest (Formula.Place.first 0) ≤ Formula.mostNesting) :
    parse .registry t.text = .ok t.formula.term := by
  obtain ⟨f, erased, nested, hy⟩ := exists_formula_of_text ht
  refine parse_text_of_shallow ht fun s deep => ?_
  have exceeded := (Formula.parse_isTooDeep_iff nested hy).1 ⟨s, deep⟩
  rw [← Formula.deepest_erase, erased, Formula.deepest_erase] at exceeded
  exact Nat.not_lt.2 shallow exceeded

/-- The text of a term is read as the term of its formula, unless it is nested too deeply. -/
theorem parse_text_decides {t : Term α} (ht : t.Legible) :
    Formula.Decides (parse .registry t.text) (· = t.formula.term) := by
  by_cases deep : ∃ s, Formula.parse (α := α) .registry t.text = .error (Formula.tooDeep s)
  · obtain ⟨s, deep⟩ := deep
    refine .inl ⟨s, ?_⟩
    rw [parse, deep]
    rfl
  · refine .inr fun t' => ?_
    rw [parse_text_of_shallow ht fun s h => deep ⟨s, h⟩]
    exact ⟨fun h => (Except.ok.inj h).symm, fun h => congrArg Except.ok h.symm⟩

end Term

end AlgebraicTerms
