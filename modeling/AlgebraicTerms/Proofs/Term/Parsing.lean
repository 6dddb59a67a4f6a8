import AlgebraicTerms.Proofs.Formula.Acceptance
import AlgebraicTerms.Proofs.Term.Spelling
import AlgebraicTerms.Proofs.Token.Pieces
import AlgebraicTerms.Term.OfFormula

/-!
# Terms that were parsed

The scanner gives only names that are letters with digits after them, and the vocabulary sorts them,
so a term that was parsed is legible as soon as its numbers are finite (`parse_legible`).
-/

namespace AlgebraicTerms

namespace TokenTree

open Token

variable {v : Vocabulary}

mutual

/-- Whether the names in the tree are what the vocabulary takes them for. -/
def Named (v : Vocabulary) : TokenTree → Prop
  | var _ name index =>
    IsLetters name.toList ∧ v.isKeyword name = false ∧ v.isConstant name = false ∧
      ∀ ds ∈ index, IsDigits ds.toList
  | const _ name => v.isConstant name = true
  | keyword _ name => v.isKeyword name = true
  | group _ items => AllNamed v items
  | _ => True

def AllNamed (v : Vocabulary) : List TokenTree → Prop
  | [] => True
  | t :: ts => t.Named v ∧ AllNamed v ts

end

theorem allNamed_iff {ts : List TokenTree} : AllNamed v ts ↔ ∀ t ∈ ts, t.Named v := by
  induction ts with
  | nil => exact ⟨fun _ _ h => (nomatch h), fun _ => trivial⟩
  | cons t ts ih => simp only [AllNamed, ih, List.forall_mem_cons]

theorem allNamed_append {ts us : List TokenTree} :
    AllNamed v (ts ++ us) ↔ AllNamed v ts ∧ AllNamed v us := by
  simp only [allNamed_iff, List.mem_append, or_imp, forall_and]

theorem allNamed_reverse {ts : List TokenTree} : AllNamed v ts.reverse ↔ AllNamed v ts := by
  simp only [allNamed_iff, List.mem_reverse]

theorem ofName_named {t : Token} (h : IsName t.lexeme) : AllNamed v (ofName v t) := by
  obtain ⟨ls, ds, hls, hds, hlexeme⟩ := h
  obtain ⟨letters, digits⟩ := Written.takeWhile_letters hls hds
  unfold ofName
  simp only [hlexeme, letters, digits]
  split
  · rename_i hkeyword
    refine ⟨hkeyword, ?_⟩
    split <;> simp only [AllNamed, Named, and_self]
  · rename_i hkeyword
    split
    · rename_i hconstant
      refine ⟨hconstant, ?_⟩
      split <;> simp only [AllNamed, Named, and_self]
    · rename_i hconstant
      refine ⟨⟨by rwa [String.toList_ofList], Bool.eq_false_iff.2 hkeyword,
        Bool.eq_false_iff.2 hconstant, ?_⟩, trivial⟩
      split
      · exact fun _ h => (nomatch h)
      · rename_i hne
        rintro _ ⟨⟩
        rw [String.toList_ofList]
        exact ⟨by simpa using hne, hds⟩

theorem ofToken_named {t : Token} (h : t.kind = .name → IsName t.lexeme) :
    AllNamed v (ofToken v t) := by
  unfold ofToken
  split
  · trivial
  · exact ⟨trivial, trivial⟩
  · rename_i hname
    exact ofName_named (h hname)
  · rw [allNamed_iff]
    intro u hu
    obtain ⟨c, _, rfl⟩ := List.mem_map.1 hu
    trivial

/-- Whether all names of the forest are what the vocabulary takes them for. -/
def Forest.Named (v : Vocabulary) (f : Forest) : Prop :=
  AllNamed v f.top ∧ ∀ g ∈ f.groups, AllNamed v g.items

theorem Forest.add_named {f : Forest} (hf : f.Named v) {ts : List TokenTree} (hts : AllNamed v ts) :
    (f.add ts).Named v := by
  obtain ⟨top, groups⟩ := f
  cases groups with
  | nil => exact ⟨allNamed_append.2 ⟨hts, hf.1⟩, fun _ h => (nomatch h)⟩
  | cons g outer =>
      refine ⟨hf.1, fun g' hg' => ?_⟩
      rcases List.mem_cons.1 hg' with rfl | hg'
      · exact allNamed_append.2 ⟨hts, hf.2 g List.mem_cons_self⟩
      · exact hf.2 g' (List.mem_cons_of_mem _ hg')

theorem Forest.read_named {f : Forest} (hf : f.Named v) {t : Token}
    (ht : t.kind = .name → IsName t.lexeme) : (f.read v t).Named v := by
  unfold Forest.read
  split
  · refine ⟨hf.1, fun g hg => ?_⟩
    rcases List.mem_cons.1 hg with rfl | hg
    · trivial
    · exact hf.2 g hg
  · obtain ⟨top, groups⟩ := f
    cases groups with
    | nil => exact Forest.add_named hf ⟨trivial, trivial⟩
    | cons g outer =>
        have outside : Forest.Named v ⟨top, outer⟩ :=
          ⟨hf.1, fun g' hg' => hf.2 g' (List.mem_cons_of_mem _ hg')⟩
        have inside : AllNamed v g.items.reverse := allNamed_reverse.2 (hf.2 g List.mem_cons_self)
        exact Forest.add_named outside ⟨inside, trivial⟩
  · exact Forest.add_named hf (allNamed_reverse.2 (ofToken_named ht))

theorem Forest.close_named {f : Forest} (hf : f.Named v) : AllNamed v f.close := by
  rw [Forest.close, allNamed_reverse, allNamed_append]
  refine ⟨?_, hf.1⟩
  have groups := hf.2
  generalize f.groups = gs at groups
  induction gs with
  | nil => trivial
  | cons g gs ih =>
      refine allNamed_append.2 ⟨groups g List.mem_cons_self, trivial, ?_⟩
      exact ih fun g' hg' => groups g' (List.mem_cons_of_mem _ hg')

theorem ofSource_named (v : Vocabulary) (s : List Char) : AllNamed v (ofSource v s) := by
  have read (ts : List Token) (hts : ∀ t ∈ ts, t.kind = .name → IsName t.lexeme) (f : Forest)
      (hf : f.Named v) : (ts.foldl (Forest.read v) f).Named v := by
    induction ts generalizing f with
    | nil => exact hf
    | cons t ts ih =>
        exact ih (fun u hu => hts u (List.mem_cons_of_mem _ hu)) _
          (Forest.read_named hf (hts t List.mem_cons_self))
  have start : Forest.Named v ⟨[], []⟩ := ⟨trivial, fun _ h => (nomatch h)⟩
  exact Forest.close_named (read _ (fun t ht => scan_names ht) _ start)

end TokenTree

namespace Term

variable {α : Type} [Scalar α]

/-- Whether all numbers of the term are finite. -/
def FiniteNumbers : Term α → Prop
  | num n => Scalar.isFinite n = true
  | call _ t | inv _ t => t.FiniteNumbers
  | bin _ l r => l.FiniteNumbers ∧ r.FiniteNumbers
  | _ => True

theorem ofFormula_legible {f : Formula α} (hf : f.WellNested) {ts : List TokenTree}
    (hy : f.Yields ts) (hts : TokenTree.AllNamed .registry ts) {t : Term α}
    (ht : ofFormula f = .ok t) (hfinite : t.FiniteNumbers) : t.Legible := by
  induction f generalizing ts t with
  | empty s => exact hf.elim
  | number s n =>
      cases ht
      exact hfinite
  | var s name index =>
      subst hy
      cases ht
      exact hts.1
  | const s name =>
      subst hy
      have known : (Constant.ofName? name).isSome = true := hts.1
      rw [ofFormula] at ht
      cases hc : Constant.ofName? name with
      | none =>
          rw [hc] at known
          cases known
      | some c =>
          rw [hc] at ht
          cases ht
          trivial
  | paren s inner ih =>
      obtain ⟨items, hitems, rfl⟩ := hy
      exact ih hf hitems hts.1 ht hfinite
  | call name s s' argument ih =>
      obtain ⟨items, hitems, rfl⟩ := hy
      rw [ofFormula] at ht
      cases hk : Keyword.ofName? name with
      | none =>
          rw [hk] at ht
          cases ht
      | some k =>
          rw [hk] at ht
          cases ha : ofFormula argument with
          | error e =>
              rw [ha] at ht
              cases ht
          | ok a =>
              rw [ha] at ht
              cases ht
              have inside : a.Legible := ih hf hitems hts.2.1 ha hfinite
              exact inside
  | minus s operand ih =>
      obtain ⟨us, hus, rfl⟩ := hy
      rw [ofFormula] at ht
      cases ha : ofFormula operand with
      | error e =>
          rw [ha] at ht
          cases ht
      | ok a =>
          rw [ha] at ht
          cases ht
          have covered : a.Legible := ih hf.1 hus hts.2 ha hfinite
          exact covered
  | binary op s l r ihl ihr =>
      obtain ⟨us, vs, hus, hvs, rfl⟩ := hy
      obtain ⟨left, right⟩ := TokenTree.allNamed_append.1 hts
      rw [ofFormula] at ht
      cases hl : ofFormula l with
      | error e =>
          rw [hl] at ht
          cases ht
      | ok a =>
          cases hr : ofFormula r with
          | error e =>
              rw [hl, hr] at ht
              cases ht
          | ok b =>
              rw [hl, hr] at ht
              cases ht
              exact ⟨ihl hf.1 hus left hl hfinite.1, ihr hf.2.1 hvs right.2 hr hfinite.2⟩

/-- A term that was parsed from a text with tokens can be read again. -/
theorem parse_legible {s : String} {t : Term α} (ht : parse .registry s = .ok t)
    (hfinite : t.FiniteNumbers) : t = empty ∨ t.Legible := by
  cases hf : Formula.parse (α := α) .registry s with
  | error e =>
      rw [parse, hf] at ht
      cases ht
  | ok f =>
      rw [parse, hf] at ht
      rcases Formula.parse_decides (α := α) .registry s with ⟨span, deep⟩ | decided
      · rw [hf] at deep
        cases deep
      · have tree := (decided f).1 hf
        unfold Formula.IsTreeOf at tree
        split at tree
        · subst tree
          cases ht
          exact .inl rfl
        · exact .inr (ofFormula_legible tree.1 tree.2 (TokenTree.ofSource_named _ _) ht hfinite)

end Term

end AlgebraicTerms
