import AlgebraicTerms.Proofs.Search.Combinations
import AlgebraicTerms.Proofs.Search.Run
import AlgebraicTerms.Proofs.Term.Forms

/-!
# Sound finders

What a search finds for a term with a value has that value.  A finder is sound if that holds whatever
it remembers, as long as what it remembers was found soundly, and whatever is at work, as long as no
term that is seen to be positive is: such a term must be found as a number, since a power of zero has
a value only with a number above it.
-/

namespace AlgebraicTerms

namespace Search

variable {α : Type} [Scalar α] [Scalar.Exact α] {K : Type*} [Field K]

/-- Whether there are terms, all of which have the given value. -/
def AllHave (ρ : Assignment K) (a : K) (ts : List (Term α)) : Prop :=
  ts ≠ [] ∧ ∀ t ∈ ts, t.HasValue ρ a

structure Found (ρ : Assignment K) (t : Term α) (a : K) (ts : List (Term α)) : Prop where
  values : AllHave ρ a ts
  literal : t.shape ≠ .other → ∀ c ∈ ts, c.shape = .literal

def Remembered (ρ : Assignment K) (cache : Cache α) : Prop :=
  ∀ key found, cache.lookup key = some found →
    ∀ (t : Term α) (a : K), t.text = key → t.HasValue ρ a → Found ρ t a found

/-- Whether nothing that is seen to be positive is at work. -/
def Quiet (α : Type) [Scalar α] [Scalar.Exact α] (ρ : Assignment K) (A : List String) : Prop :=
  ∀ (t : Term α) (a : K), t.HasValue ρ a → t.shape ≠ .other → t.text ∉ A

/-- Whether a finder is sound with the given subterms at work and a cache with property `J`. -/
def Finds (J : Cache α → Prop) (A : List String) (ρ : Assignment K) (find : Finder α) : Prop :=
  ∀ (t : Term α) (a : K), t.HasValue ρ a → Ensures J A (find t) (Found ρ t a)

variable {ρ : Assignment K} {J : Cache α → Prop} {A : List String} {find : Finder α}
  {t u : Term α} {ts us : List (Term α)} {a b : K}

namespace AllHave

theorem single (h : t.HasValue ρ a) : AllHave ρ a [t] :=
  ⟨List.cons_ne_nil t [], fun _ hu => List.eq_of_mem_singleton hu ▸ h⟩

theorem map {f : Term α → Term α} (h : AllHave ρ a ts)
    (hf : ∀ t, t.HasValue ρ a → (f t).HasValue ρ b) : AllHave ρ b (ts.map f) := by
  refine ⟨fun empty => h.1 (List.map_eq_nil_iff.1 empty), fun u hu => ?_⟩
  obtain ⟨t, ht, rfl⟩ := List.mem_map.1 hu
  exact hf t (h.2 t ht)

theorem head (h : AllHave ρ a ts) (t : Term α) : (ts.head?.getD t).HasValue ρ a := by
  cases ts with
  | nil => exact absurd rfl h.1
  | cons u ts => exact h.2 u List.mem_cons_self

end AllHave

theorem Remembered.empty : Remembered ρ ([] : Cache α) := nofun

theorem Quiet.nil : Quiet α ρ [] := fun _ _ _ _ => List.not_mem_nil

theorem Found.of_shape (h : AllHave ρ a ts) (hs : t.shape = .other) : Found ρ t a ts :=
  ⟨h, fun hne => absurd hs hne⟩

section Texts

variable [Scalar.Legible α]

/-- A term that is not seen to be positive may be at work. -/
theorem Quiet.cons (hA : Quiet α ρ A) (h : t.HasValue ρ a) (hs : t.shape = .other) :
    Quiet α ρ (t.text :: A) := by
  intro u b hu hne hmem
  rcases List.mem_cons.1 hmem with same | hmem
  · exact hne ((hu.shape_eq h same).trans hs)
  · exact hA u b hu hne hmem

variable [CharZero K]

/-- What was found for a term may be remembered under its text. -/
theorem Remembered.cons {cache : Cache α} (hcache : Remembered ρ cache) (h : t.HasValue ρ a)
    (hts : Found ρ t a ts) : Remembered ρ ((t.text, ts) :: cache) := by
  intro key found hfound u b hu hb
  rw [List.lookup_cons] at hfound
  split at hfound
  · rename_i same
    cases hfound
    have text : u.text = t.text := hu.trans (beq_iff_eq.1 same)
    rw [hb.eq_of_text_eq h text]
    refine ⟨hts.values, fun hs => hts.literal ?_⟩
    rwa [← hb.shape_eq h text]
  · exact hcache key found hfound u b hu hb

end Texts

namespace Finds

theorem all (hfind : Finds J A ρ find) (h : t.HasValue ρ a) :
    Ensures J A (find t) (AllHave ρ a) :=
  (hfind t a h).mono fun _ => Found.values

/-- The first candidate has the value, and is a positive number if that is seen. -/
theorem first (hfind : Finds J A ρ find) (h : t.HasValue ρ a) :
    Ensures J A (first find t) fun u =>
      u.HasValue ρ a ∧ (t.shape ≠ .other → u.shape = .literal) := by
  refine (hfind t a h).bind fun ts hts => .pure ⟨hts.values.head t, fun hs => ?_⟩
  cases ts with
  | nil => exact absurd rfl hts.values.1
  | cons u ts => exact hts.literal hs u List.mem_cons_self

/-- The candidates of every operand of a chain. -/
theorem operands [CharZero K] [Scalar.Legible α] (hfind : Finds J A ρ find) {c : Chain}
    (h : c.Total ρ ts a) : Ensures J A (ts.mapM find)
      (List.Forall₂ (fun t found => ∀ a, t.HasValue ρ a → AllHave ρ a found) ts) := by
  refine .mapM fun t ht => ?_
  obtain ⟨b, hb⟩ := h.exists_value ht
  exact (hfind.all hb).mono fun found hfound d hd => hd.unique hb ▸ hfound

end Finds

/-! ## Combinations -/

omit [Scalar α] [Scalar.Exact α] in
theorem mem_combinations {lists : List (List (Term α))} (h : ts ∈ combinations lists) :
    List.Forall₂ (· ∈ ·) ts lists :=
  List.mem_sections.1 (combinations_eq_sections lists ▸ h)

section Operands

variable {found : List (List (Term α))} {c : Chain}
  (hfound : List.Forall₂ (fun t found => ∀ a, t.HasValue ρ a → AllHave ρ a found) ts found)

include hfound

/-- A combination of the operands' candidates has the total of the operands. -/
theorem combination_total (h : c.Total ρ ts a) (hus : us ∈ combinations found) :
    c.Total ρ us a := by
  have chosen := mem_combinations hus
  refine h.replace ?_
  clear h hus
  induction hfound generalizing us with
  | nil =>
      cases chosen
      exact .nil
  | cons ht _ ih =>
      cases chosen with
      | cons hu hus => exact .cons (fun a ha => (ht a ha).2 _ hu) (ih hus)

theorem firsts_total (h : c.Total ρ ts a) : c.Total ρ (found.filterMap List.head?) a := by
  induction hfound generalizing a with
  | nil => exact h
  | @cons t us ts found ht _ ih =>
      cases h with
      | @cons _ _ b d hb hd =>
          have all := ht b hb
          cases us with
          | nil => exact absurd rfl all.1
          | cons u us => exact .cons (all.2 u List.mem_cons_self) (ih hd)

end Operands

end Search

end AlgebraicTerms
