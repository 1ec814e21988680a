import Mathlib.Data.Set.Function

/-!
# Library — Stuttering

A machine that takes silent steps between those of another one.  A silent step is the only one out of
its state; the states of the first machine show up as points of the second.
-/

namespace VSharp.Library
variable {α β : Type}

/-- From `b`, which is not visible, the machine can only go to `b'`; and so on. -/
inductive Drains (target : β → β → Prop) (visible : β → Prop) : β → β → Prop where
  | refl (b : β) : Drains target visible b b
  | more {b b₁ b' : β} (hb : ¬ visible b) (h : ∀ x, target b x ↔ x = b₁)
      (t : Drains target visible b₁ b') : Drains target visible b b'

namespace Drains
variable {target : β → β → Prop} {visible : β → Prop} {b b₁ b' : β}

theorem trans (h : Drains target visible b b₁) (h' : Drains target visible b₁ b') :
    Drains target visible b b' := by
  induction h with
  | refl => exact h'
  | more hb hstep _ ih => exact .more hb hstep (ih h')

theorem reaches (h : Drains target visible b b') : Relation.ReflTransGen target b b' := by
  induction h with
  | refl => exact .refl
  | more _ hstep _ ih => exact .head ((hstep _).mpr rfl) ih

theorem eq_of_visible (h : Drains target visible b b') (hb : visible b) : b = b' := by
  cases h with
  | refl => rfl
  | more hnot _ _ => exact absurd hb hnot

end Drains

/-- The points of the machine `source` show up in the machine `target`. -/
structure Stutters (source : α → α → Prop) (target : β → β → Prop) (good : Set α) (point : α → β) :
    Prop where
  injOn : Set.InjOn point good
  forward : ∀ {a a'}, a ∈ good → source a a' → a' ∈ good ∧
    ∃ b, target (point a) b ∧ Drains target (· ∈ point '' good) b (point a')
  backward : ∀ {a b}, a ∈ good → target (point a) b →
    ∃ a' ∈ good, source a a' ∧ Drains target (· ∈ point '' good) b (point a')

namespace Stutters
variable {source : α → α → Prop} {target : β → β → Prop} {good : Set α} {point : α → β} {a a' : α}

section
variable (h : Stutters source target good point)

include h

theorem reaches_target (ha : a ∈ good)
    (hrun : Relation.ReflTransGen source a a') :
    a' ∈ good ∧ Relation.ReflTransGen target (point a) (point a') := by
  induction hrun with
  | refl => exact ⟨ha, .refl⟩
  | tail _ hstep ih =>
    obtain ⟨hgood, hpath⟩ := ih
    obtain ⟨hgood', b, htarget, hdrains⟩ := h.forward hgood hstep
    exact ⟨hgood', (hpath.tail htarget).trans hdrains.reaches⟩

theorem reaches_source {b : β} (ha : a ∈ good)
    (ha' : a' ∈ good) (hdrains : Drains target (· ∈ point '' good) b (point a))
    (hrun : Relation.ReflTransGen target b (point a')) : Relation.ReflTransGen source a a' := by
  -- along the run of `target`; what it drains into is the next point
  induction hrun using Relation.ReflTransGen.head_induction_on generalizing a with
  | refl =>
    have heq := hdrains.eq_of_visible ⟨a', ha', rfl⟩
    rw [h.injOn ha' ha heq]
  | head hstep _ ih =>
    cases hdrains with
    | refl =>
      obtain ⟨a₁, ha₁, hsource, hdrains₁⟩ := h.backward ha hstep
      exact .head hsource (ih ha₁ hdrains₁)
    | more _ honly t =>
      obtain rfl := (honly _).mp hstep
      exact ih ha t

/-- Both machines reach the same points. -/
theorem reaches_iff {b : β} (ha : a ∈ good)
    (ha' : a' ∈ good) (hdrains : Drains target (· ∈ point '' good) b (point a)) :
    Relation.ReflTransGen source a a' ↔ Relation.ReflTransGen target b (point a') :=
  ⟨fun hrun => hdrains.reaches.trans (h.reaches_target ha hrun).2, h.reaches_source ha ha' hdrains⟩

end

end Stutters

end VSharp.Library
