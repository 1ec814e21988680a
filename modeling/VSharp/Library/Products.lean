import Mathlib.Data.List.Forall2

/-!
# Library — Products

Products of sets, one set for each element of a list: the lists that `List.Forall₂ P l` relates to
`l`.

- `products_eq_iff`: two products are equal exactly if their factors are, or both are empty;
- `image_product`: the image of a product, element by element, is the product of the images.
-/

namespace VSharp.Library
open List
variable {α β : Type} {P Q : α → β → Prop} {l : List α}

theorem exists_forall₂ (h : ∀ a ∈ l, ∃ b, P a b) : ∃ bs, List.Forall₂ P l bs := by
  induction l with
  | nil => exact ⟨[], .nil⟩
  | cons a l ih =>
    obtain ⟨⟨b, hb⟩, hl⟩ := forall_mem_cons.mp h
    obtain ⟨bs, hbs⟩ := ih hl
    exact ⟨b :: bs, .cons hb hbs⟩

theorem exists_of_forall₂ {bs : List β} (h : List.Forall₂ P l bs) : ∀ a ∈ l, ∃ b, P a b := by
  induction h with
  | nil => exact nofun
  | cons hb _ ih => exact forall_mem_cons.mpr ⟨⟨_, hb⟩, ih⟩

/-- Two products that have points are equal exactly if their factors are. -/
theorem forall₂_subset {bs : List β} (hbs : List.Forall₂ P l bs)
    (h : ∀ bs, List.Forall₂ P l bs → List.Forall₂ Q l bs) : ∀ a ∈ l, ∀ b, P a b → Q a b := by
  induction hbs with
  | nil => exact nofun
  | @cons a b l bs hb hbs ih =>
    refine forall_mem_cons.mpr ⟨fun c hc => ?_, ih fun cs hcs => ?_⟩
    · exact (forall₂_cons.mp (h (c :: bs) (.cons hc hbs))).1
    · exact (forall₂_cons.mp (h (b :: cs) (.cons hb hcs))).2

theorem products_eq_iff : (∀ bs, List.Forall₂ P l bs ↔ List.Forall₂ Q l bs) ↔
    (∀ a ∈ l, (∃ b, P a b) ∧ ∀ b, P a b ↔ Q a b) ∨
      (∃ a ∈ l, ∀ b, ¬P a b) ∧ ∃ a ∈ l, ∀ b, ¬Q a b := by
  constructor
  · intro h
    by_cases hpoint : ∃ bs, List.Forall₂ P l bs
    · obtain ⟨bs, hbs⟩ := hpoint
      have hPQ := forall₂_subset hbs fun bs => (h bs).mp
      have hQP := forall₂_subset ((h bs).mp hbs) fun bs => (h bs).mpr
      exact .inl fun a ha => ⟨exists_of_forall₂ hbs a ha, fun b => ⟨hPQ a ha b, hQP a ha b⟩⟩
    · have hpoint' : ¬ ∃ bs, List.Forall₂ Q l bs := by simpa only [h] using hpoint
      refine .inr ⟨?_, ?_⟩
      · by_contra hno
        push Not at hno
        exact hpoint (exists_forall₂ hno)
      · by_contra hno
        push Not at hno
        exact hpoint' (exists_forall₂ hno)
  · rintro (h | ⟨⟨a, ha, hP⟩, a', ha', hQ⟩) bs
    · induction l generalizing bs with
      | nil => simp
      | cons a l ih =>
        obtain ⟨⟨-, ha⟩, hl⟩ := forall_mem_cons.mp h
        cases bs with
        | nil => simp
        | cons b bs => rw [forall₂_cons, forall₂_cons, ha b, ih hl bs]
    · refine iff_of_false (fun h => ?_) fun h => ?_
      · obtain ⟨b, hb⟩ := exists_of_forall₂ h a ha
        exact hP b hb
      · obtain ⟨b, hb⟩ := exists_of_forall₂ h a' ha'
        exact hQ b hb

/-- The image of a product is the product of the images. -/
theorem image_product (f : α → β → β) {cs : List β} :
    (∃ bs, List.Forall₂ P l bs ∧ cs = List.zipWith f l bs) ↔
      List.Forall₂ (fun a c => ∃ b, P a b ∧ c = f a b) l cs := by
  induction l generalizing cs with
  | nil => simp
  | cons a l ih =>
    constructor
    · rintro ⟨bs, hbs, rfl⟩
      cases hbs with
      | cons hb hbs => exact .cons ⟨_, hb, rfl⟩ (ih.mp ⟨_, hbs, rfl⟩)
    · intro h
      obtain ⟨c, cs', ⟨b, hb, hc⟩, hcs, rfl⟩ := forall₂_cons_left_iff.mp h
      obtain ⟨bs, hbs, hcs'⟩ := ih.mpr hcs
      exact ⟨b :: bs, .cons hb hbs, by rw [zipWith_cons_cons, hc, hcs']⟩

end VSharp.Library
