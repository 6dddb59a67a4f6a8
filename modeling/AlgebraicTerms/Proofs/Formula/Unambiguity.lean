import AlgebraicTerms.Proofs.Formula.Acceptance

/-!
# The grammar is unambiguous

Two well nested formulas with the same tokens are the same formula (`yields_unique`), however deep
they are nested.  An operand is determined by the tokens at its head once the formulas inside its
group are, and a level is determined by its tokens once its operands are.
-/

namespace AlgebraicTerms

namespace Formula

variable {α : Type} [Scalar α]

/-- Whether no other well nested formula has the tokens of `f`. -/
def Determined (f : Formula α) : Prop :=
  ∀ (g : Formula α) (ts : List TokenTree), g.WellNested → f.Yields ts → g.Yields ts → f = g

/-- Whether no other operand is at the head of tokens that `f` is at the head of. -/
def HeadDetermined (f : Formula α) : Prop :=
  ∀ (g : Formula α) (ts us vs : List TokenTree), f.Heads ts us → g.Heads ts vs → f = g ∧ us = vs

theorem headDetermined_of_inner {f : Formula α}
    (hparen : ∀ s g, f = .paren s g → g.Determined)
    (hcall : ∀ name s t g, f = .call name s t g → g.Determined) : f.HeadDetermined := by
  intro g ts us vs hf hg
  unfold Heads at hf hg
  split at hf
  · exact ⟨hf.1.trans hg.1.symm, hf.2.trans hg.2.symm⟩
  · exact ⟨hf.1.trans hg.1.symm, hf.2.trans hg.2.symm⟩
  · exact ⟨hf.1.trans hg.1.symm, hf.2.trans hg.2.symm⟩
  · obtain ⟨⟨a, ⟨_, ha⟩, rfl⟩, rfl⟩ := hf
    obtain ⟨⟨b, ⟨hb, hy⟩, rfl⟩, rfl⟩ := hg
    have inner : a = b := hcall _ _ _ a rfl b _ hb ha hy
    exact ⟨by rw [inner], rfl⟩
  · obtain ⟨⟨a, ⟨_, ha⟩, rfl⟩, rfl⟩ := hf
    obtain ⟨⟨b, ⟨hb, hy⟩, rfl⟩, rfl⟩ := hg
    have inner : a = b := hparen _ a rfl b _ hb ha hy
    exact ⟨by rw [inner], rfl⟩
  · exact hf.elim

theorem follows_unique {xs ys : Tail α} {ts : List TokenTree}
    (h : ∀ x ∈ xs, x.2.2.HeadDetermined) (hx : Follows xs ts) (hy : Follows ys ts) : xs = ys := by
  induction xs generalizing ys ts with
  | nil =>
      obtain rfl : ts = [] := hx.2
      cases ys with
      | nil => rfl
      | cons y ys =>
          obtain ⟨_, us, vs, _, _, hts⟩ := hy
          cases hts
  | cons x xs ih =>
      obtain ⟨op, s, f⟩ := x
      obtain ⟨operands, us, vs, hus, hvs, rfl⟩ := hx
      cases ys with
      | nil => cases hy.2
      | cons y ys =>
          obtain ⟨op', s', g⟩ := y
          obtain ⟨operands', us', vs', hus', hvs', hts⟩ := hy
          obtain ⟨hchar, htail⟩ := List.cons.inj hts
          obtain ⟨rfl, hop⟩ := TokenTree.char.inj hchar
          obtain rfl := Operator.toChar_inj hop
          have left : f.Heads (us ++ vs) vs :=
            heads_iff.2 ⟨operands _ List.mem_cons_self, us, hus, rfl⟩
          have right : g.Heads (us ++ vs) vs' :=
            heads_iff.2 ⟨operands' _ List.mem_cons_self, us', hus', htail⟩
          obtain ⟨rfl, rfl⟩ := h _ List.mem_cons_self g _ _ _ left right
          have rest : xs = ys := ih (fun x hx => h x (List.mem_cons_of_mem _ hx))
            ⟨fun x hx => operands x (List.mem_cons_of_mem _ hx), hvs⟩
            ⟨fun x hx => operands' x (List.mem_cons_of_mem _ hx), hvs'⟩
          rw [rest]

theorem Level.covers_unique {l m : Level α} {ts : List TokenTree} (hfirst : l.first.HeadDetermined)
    (hrest : ∀ x ∈ l.rest, x.2.2.HeadDetermined) (hl : l.Covers ts) (hm : m.Covers ts) : l = m := by
  obtain ⟨minus, first, tail⟩ := l
  obtain ⟨minus', first', tail'⟩ := m
  obtain ⟨rfl, us, heads, follows⟩ := hl
  obtain ⟨rfl, vs, heads', follows'⟩ := hm
  obtain ⟨rfl, rfl⟩ := hfirst _ _ _ _ heads heads'
  have rest : tail = tail' := follows_unique hrest follows follows'
  subst rest
  rfl

theorem Level.spans_unique {l m : Level α} {ts : List TokenTree} (hfirst : l.first.HeadDetermined)
    (hrest : ∀ x ∈ l.rest, x.2.2.HeadDetermined) (hl : l.Spans true ts) (hm : m.Spans true ts) :
    l = m := by
  rcases hl with hl | ⟨-, s, us, rfl, l', hl, rfl⟩
  · rcases hm with hm | ⟨-, s, us, rfl, m', hm, rfl⟩
    · exact Level.covers_unique hfirst hrest hl hm
    · exact absurd hl (Level.not_covers fun _ _ => id)
  · rcases hm with hm | ⟨-, s', us', hts, m', hm, rfl⟩
    · exact absurd hm (Level.not_covers fun _ _ => id)
    · cases hts
      have same : l' = m' := Level.covers_unique (l := l') hfirst hrest hl hm
      rw [same]

theorem determined_of_level {f : Formula α} (hf : f.WellNested)
    (hfirst : f.level.first.HeadDetermined) (hrest : ∀ x ∈ f.level.rest, x.2.2.HeadDetermined) :
    f.Determined := by
  intro g ts hg hfy hgy
  have left : f.level.Spans true ts :=
    Level.spans_iff.2 ⟨level_isOperand hf, (level_yields hf).2 hfy⟩
  have right : g.level.Spans true ts :=
    Level.spans_iff.2 ⟨level_isOperand hg, (level_yields hg).2 hgy⟩
  rw [← join_level hf, ← join_level hg, Level.spans_unique hfirst hrest left right]

theorem level_headDetermined {f : Formula α} (hf : f.WellNested) :
    f.level.first.HeadDetermined ∧ ∀ x ∈ f.level.rest, x.2.2.HeadDetermined := by
  induction f with
  | empty s => exact hf.elim
  | paren s inner ih =>
      have inside : inner.Determined := determined_of_level hf (ih hf).1 (ih hf).2
      refine ⟨headDetermined_of_inner ?_ ?_, fun x hx => absurd hx List.not_mem_nil⟩
      · rintro _ _ ⟨⟩
        exact inside
      · rintro _ _ _ _ ⟨⟩
  | call name s t argument ih =>
      have inside : argument.Determined := determined_of_level hf (ih hf).1 (ih hf).2
      refine ⟨headDetermined_of_inner ?_ ?_, fun x hx => absurd hx List.not_mem_nil⟩
      · rintro _ _ ⟨⟩
      · rintro _ _ _ _ ⟨⟩
        exact inside
  | minus s f ih => exact ih hf.1
  | binary op s l r ihl ihr =>
      refine ⟨(ihl hf.1).1, fun x hx => ?_⟩
      rcases List.mem_append.1 hx with hx | hx
      · exact (ihl hf.1).2 x hx
      · rcases List.mem_cons.1 hx with rfl | hx
        · exact (ihr hf.2.1).1
        · exact (ihr hf.2.1).2 x hx
  | _ =>
      refine ⟨headDetermined_of_inner ?_ ?_, fun x hx => absurd hx List.not_mem_nil⟩
      · rintro _ _ ⟨⟩
      · rintro _ _ _ _ ⟨⟩

theorem yields_unique {f g : Formula α} {ts : List TokenTree} (hf : f.WellNested)
    (hg : g.WellNested) (hfy : f.Yields ts) (hgy : g.Yields ts) : f = g :=
  determined_of_level hf (level_headDetermined hf).1 (level_headDetermined hf).2 g ts hg hfy hgy

end Formula

end AlgebraicTerms
