import AlgebraicTerms.Proofs.Term.FormLaws
import AlgebraicTerms.Term.Identities
import AlgebraicTerms.Term.LikeTerms

/-!
# Ground terms

Terms without variables.  Every conversion of a term keeps it ground.
-/

namespace AlgebraicTerms

namespace Term

variable {α : Type}

/-- Whether the term is made of numbers and constants only. -/
def IsGround : Term α → Prop
  | empty | var _ _ => False
  | num _ | const _ => True
  | call _ t | inv _ t => t.IsGround
  | bin _ l r => l.IsGround ∧ r.IsGround

variable {c : Chain} {t u : Term α} {ts us : List (Term α)}

theorem hereditary_ground : Hereditary (IsGround (α := α)) := ⟨.rfl, .rfl, .rfl⟩

theorem inherited_ground : Inherited (IsGround (α := α)) := ⟨And.left, And.right, id, id⟩

theorem operandsIn_ground (h : t.IsGround) : ∀ u ∈ t.operandsIn c, u.IsGround :=
  inherited_ground.operandsIn h

theorem operands_ground (h : t.IsGround) : ∀ u ∈ t.operands, u.IsGround :=
  inherited_ground.operands h

variable [Scalar α]

theorem isNumber_ground (h : t.isNumber = true) : t.IsGround := by
  cases t <;> trivial

theorem arrangeable_ground : Arrangeable (IsGround (α := α)) :=
  ⟨⟨fun _ => id, .rfl⟩, fun _ => And.intro, .rfl, fun _ => trivial⟩

theorem join_ground (h : ∀ t ∈ ts, t.IsGround) : (c.join ts).IsGround := by
  by_cases none : ts = []
  · subst none
    trivial
  · exact arrangeable_ground.join none h

theorem sorted_ground (h : t.IsGround) : t.sorted.IsGround := arrangeable_ground.sorted h

theorem ground_reciprocals : Reciprocals fun t u : Term α => t.IsGround → u.IsGround where
  toNegations := hereditary_ground.negations trivial
  neg_number _ _ := trivial
  recip_recip _ := id
  recip_number _ _ _ := trivial
  recip_power _ _ := id
  recip _ h := ⟨h, trivial⟩

theorem ground_distributes :
    Distributes (fun t u : Term α => t.IsGround → u.IsGround) IsGround where
  toNegations := ground_reciprocals.toNegations
  chains _ := {
    toReplacement := hereditary_ground.replacement
    swap := fun _ _ => And.symm
    assoc := fun _ _ _ => and_assoc.1
    of_inverseOp := fun _ _ => id
    inverse := fun _ _ => id
    unit := fun _ _ => And.left
    inverseOp := fun _ _ => id
    opposite := fun _ _ h => ⟨h.1, trivial⟩ }
  distrib _ _ _ h := ⟨⟨h.1.1, h.2⟩, h.1.2, h.2⟩

theorem withExponents_ground (h : t.IsGround) : t.withExponents.IsGround :=
  hereditary_ground.withExponents trivial h

theorem negationsAsProducts_ground (h : t.IsGround) : t.negationsAsProducts.IsGround :=
  hereditary_ground.negationsAsProducts trivial h

theorem reciprocalAsPower_ground (h : t.IsGround) (hu : t.reciprocalAsPower = .ok u) :
    u.IsGround :=
  ground_reciprocals.reciprocalAsPower hu h

theorem expanded_ground (h : t.IsGround) : t.expanded.IsGround :=
  ground_distributes.expanded arrangeable_ground inherited_ground trivial h h

theorem others_ground (h : ∀ t ∈ ts, t.IsGround) : ∀ t ∈ others ts, t.IsGround :=
  fun t ht => h t (List.mem_filter.1 ht).1

end Term

end AlgebraicTerms
