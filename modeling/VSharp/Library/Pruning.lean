import Mathlib.Data.List.Basic

/-!
# Library — Pruning

Two relations between a list and what is left of it.

* `Drops H l l'`: `l'` is `l` with some elements satisfying `H` removed, and nothing else changed.
* `Pruned H before l l'`: `l'` is `l` with some elements removed, each of them `H`-related to an
  element that stands before it in `l` or that is in `before`.

`Pruned.drops` composes them: removing from an already pruned list elements `H`-related to one
more element `k` is a pruning of the original list behind `k`.
-/

namespace VSharp.Library
open List
variable {α : Type*}

/-- `l'` is `l` with some elements satisfying `H` removed. -/
inductive Drops (H : α → Prop) : List α → List α → Prop where
  | nil : Drops H [] []
  | keep (a : α) {l l' : List α} : Drops H l l' → Drops H (a :: l) (a :: l')
  | drop {a : α} {l l' : List α} : H a → Drops H l l' → Drops H (a :: l) l'

namespace Drops
variable {H H' : α → Prop} {l l' : List α}

theorem refl (H : α → Prop) : ∀ l : List α, Drops H l l
  | [] => .nil
  | a :: l => .keep a (refl H l)

theorem mono (h : Drops H l l') (hH : ∀ a ∈ l, H a → H' a) : Drops H' l l' := by
  induction h with
  | nil => exact .nil
  | keep a _ ih => exact .keep a (ih fun b hb => hH b (mem_cons_of_mem _ hb))
  | drop ha _ ih =>
    exact .drop (hH _ mem_cons_self ha) (ih fun b hb => hH b (mem_cons_of_mem _ hb))

/-- Nothing is removed by a test that no element passes. -/
theorem eq_of_none (h : Drops H l l') (hH : ∀ a ∈ l, ¬ H a) : l' = l := by
  induction h with
  | nil => rfl
  | keep a _ ih => rw [ih fun b hb => hH b (mem_cons_of_mem _ hb)]
  | drop ha => exact absurd ha (hH _ mem_cons_self)

theorem subset (h : Drops H l l') : l' ⊆ l := by
  induction h with
  | nil => exact List.Subset.refl _
  | keep a _ ih => exact cons_subset_cons a ih
  | drop _ _ ih => exact fun b hb => mem_cons_of_mem _ (ih hb)

theorem sublist (h : Drops H l l') : l'.Sublist l := by
  induction h with
  | nil => exact .slnil
  | keep a _ ih => exact ih.cons_cons a
  | drop _ _ ih => exact ih.cons _

end Drops

/-- `l'` is `l` with some elements removed, each `H`-related to an element before it: one of `l`
or one of `before`. -/
inductive Pruned (H : α → α → Prop) : List α → List α → List α → Prop where
  | nil (before : List α) : Pruned H before [] []
  | keep {before l l' : List α} (a : α) :
      Pruned H (a :: before) l l' → Pruned H before (a :: l) (a :: l')
  | drop {before l l' : List α} {a : α} (h : ∃ b ∈ before, H b a) :
      Pruned H (a :: before) l l' → Pruned H before (a :: l) l'

namespace Pruned
variable {H : α → α → Prop} {before l l' : List α}

theorem refl (H : α → α → Prop) : ∀ before l : List α, Pruned H before l l
  | before, [] => .nil before
  | before, a :: l => .keep a (refl H (a :: before) l)

theorem sublist (h : Pruned H before l l') : l'.Sublist l := by
  induction h with
  | nil => exact .slnil
  | keep a _ ih => exact ih.cons_cons a
  | drop _ _ ih => exact ih.cons _

/-- Further removals, of elements related to something in front of the whole list. -/
theorem drops (h : Pruned H before l l') {before' l'' : List α} (hsub : before ⊆ before')
    (hd : Drops (fun a => ∃ b ∈ before', H b a) l' l'') : Pruned H before' l l'' := by
  induction h generalizing before' l'' with
  | nil => cases hd; exact .nil _
  | keep a _ ih =>
    have hsub' := cons_subset_cons a hsub
    cases hd with
    | keep _ hd =>
      exact .keep a (ih hsub' (hd.mono fun _ _ ⟨b, hb, h⟩ => ⟨b, mem_cons_of_mem _ hb, h⟩))
    | drop ha hd =>
      exact .drop ha (ih hsub' (hd.mono fun _ _ ⟨b, hb, h⟩ => ⟨b, mem_cons_of_mem _ hb, h⟩))
  | @drop _ _ _ a hex _ ih =>
    obtain ⟨b, hb, hba⟩ := hex
    refine .drop ⟨b, hsub hb, hba⟩ (ih (cons_subset_cons a hsub) ?_)
    exact hd.mono fun _ _ ⟨c, hc, h⟩ => ⟨c, mem_cons_of_mem _ hc, h⟩

/-- One more element in front, then the removal of elements it is related to. -/
theorem cons_drops {k : α} {l'' : List α} (h : Pruned H [] l l') (hd : Drops (H k) l' l'') :
    Pruned H [] (k :: l) (k :: l'') :=
  .keep k (h.drops (nil_subset _) (hd.mono fun _ _ h => ⟨k, mem_singleton_self k, h⟩))

/-- An element that nothing before it is related to survives. -/
theorem mem_of_unrelated {l₁ l₂ : List α} {a : α} (h : Pruned H before (l₁ ++ a :: l₂) l')
    (hbefore : ∀ b ∈ before, ¬ H b a) (hno : ∀ b ∈ l₁, ¬ H b a) : a ∈ l' := by
  induction l₁ generalizing before l' with
  | nil =>
    cases h with
    | keep => exact mem_cons_self
    | drop hex =>
      obtain ⟨b, hb, hba⟩ := hex
      exact absurd hba (hbefore b hb)
  | cons c l₁ ih =>
    have hbefore' : ∀ b ∈ c :: before, ¬ H b a :=
      forall_mem_cons.mpr ⟨hno c mem_cons_self, hbefore⟩
    have hno' : ∀ b ∈ l₁, ¬ H b a := fun b hb => hno b (mem_cons_of_mem _ hb)
    cases h with
    | keep _ h => exact mem_cons_of_mem _ (ih h hbefore' hno')
    | drop _ h => exact ih h hbefore' hno'

end Pruned

end VSharp.Library
