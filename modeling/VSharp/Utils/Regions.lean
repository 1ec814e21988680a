import Mathlib.Data.List.Basic

/-!
# Utils — Regions

`VSharp.Utils/Regions.fs`, `IRegion`: what a region tree needs of the sets it is indexed by.
`ExactRegion R P` adds the meaning: every region denotes a set of points of `P`, and the operations
are the set operations.  `CompareTo` answers `Includes`, `Disjoint` or `Intersects`; for an empty
argument the first two are both right, and implementations differ in which they give, so each
answer is only asked to be true.  `ExactOn` says the same of some of the regions of a type, those
that the operations are closed on.
-/

namespace VSharp

inductive RegionComparisonResult where
  /-- This region includes the other. -/
  | includes
  /-- This region intersects with the other, but does not include it. -/
  | intersects
  | disjoint
deriving DecidableEq, Repr

/-- `IRegion<'a>`. -/
class IRegion (R : Type) where
  isEmpty : R → Bool
  compareTo : R → R → RegionComparisonResult
  subtract : R → R → R
  intersect : R → R → R

/-- Regions whose operations are exact set operations on the points of `P`. -/
class ExactRegion (R : Type) (P : outParam Type) extends IRegion R where
  contains : R → P → Bool
  isEmpty_iff (r : R) : isEmpty r = true ↔ ∀ p, contains r p = false
  contains_subtract (r s : R) (p : P) : contains (subtract r s) p = (contains r p && !contains s p)
  contains_intersect (r s : R) (p : P) : contains (intersect r s) p = (contains r p && contains s p)
  compareTo_includes {r s : R} : compareTo r s = .includes →
    ∀ p, contains s p = true → contains r p = true
  compareTo_disjoint {r s : R} : compareTo r s = .disjoint →
    ∀ p, contains s p = true → contains r p = false
  compareTo_intersects {r s : R} : compareTo r s = .intersects →
    (∃ p, contains s p = true ∧ contains r p = true) ∧
    ∃ p, contains s p = true ∧ contains r p = false

namespace ExactRegion
variable {R P : Type} [ExactRegion R P] {r s : R}

/-- Every point of `r` is a point of `s`. -/
def Subset (r s : R) : Prop := ∀ p : P, contains r p = true → contains s p = true

/-- No point is in both. -/
def Disjoint (r s : R) : Prop := ∀ p : P, contains r p = true → contains s p = false

theorem Subset.refl (r : R) : Subset r r := fun _ h => h

theorem Subset.trans {t : R} (h₁ : Subset r s) (h₂ : Subset s t) : Subset r t :=
  fun p h => h₂ p (h₁ p h)

theorem Disjoint.symm (h : Disjoint r s) : Disjoint s r := fun p hs => by
  cases hr : contains r p with
  | false => rfl
  | true => rw [h p hr] at hs; cases hs

theorem Disjoint.mono {r' s' : R} (h : Disjoint r s) (hr : Subset r' r) (hs : Subset s' s) :
    Disjoint r' s' := fun p hp => by
  cases hs' : contains s' p with
  | false => rfl
  | true => rw [← h p (hr p hp), hs p hs']

theorem intersect_subset_left (r s : R) : Subset (IRegion.intersect r s) r := fun p h => by
  rw [contains_intersect, Bool.and_eq_true] at h
  exact h.1

theorem intersect_subset_right (r s : R) : Subset (IRegion.intersect r s) s := fun p h => by
  rw [contains_intersect, Bool.and_eq_true] at h
  exact h.2

theorem subtract_subset (r s : R) : Subset (IRegion.subtract r s) r := fun p h => by
  rw [contains_subtract, Bool.and_eq_true] at h
  exact h.1

theorem subtract_disjoint (r s : R) : Disjoint (IRegion.subtract r s) s := fun p h => by
  rw [contains_subtract, Bool.and_eq_true, Bool.not_eq_true'] at h
  exact h.2

end ExactRegion

/-! ### Regions that are exact on part of their type -/

/-- The answers of the operations at two regions are those of sets. -/
structure ActsAsSets {R P : Type} [IRegion R] (contains : R → P → Bool) (r s : R) : Prop where
  isEmpty : IRegion.isEmpty r = true ↔ ∀ p, contains r p = false
  intersect : ∀ p, contains (IRegion.intersect r s) p = (contains r p && contains s p)
  subtract : ∀ p, contains (IRegion.subtract r s) p = (contains r p && !contains s p)
  includes : IRegion.compareTo r s = .includes → ∀ p, contains s p = true → contains r p = true
  disjoint : IRegion.compareTo r s = .disjoint → ∀ p, contains s p = true → contains r p = false
  intersects : IRegion.compareTo r s = .intersects →
    (∃ p, contains s p = true ∧ contains r p = true) ∧
    ∃ p, contains s p = true ∧ contains r p = false

/-- Exactness on the regions that satisfy `valid`.  The difference to a region that includes the
whole need not be right. -/
structure ExactOn {R P : Type} [IRegion R] (contains : R → P → Bool) (valid : R → Prop) :
    Prop where
  isEmpty_iff {r : R} : valid r → (IRegion.isEmpty r = true ↔ ∀ p, contains r p = false)
  valid_intersect {r s : R} : valid r → valid s → valid (IRegion.intersect r s)
  valid_subtract {r s : R} : valid r → valid s → valid (IRegion.subtract r s)
  contains_intersect {r s : R} : valid r → valid s → ∀ p,
    contains (IRegion.intersect r s) p = (contains r p && contains s p)
  contains_subtract {r s : R} : valid r → valid s → IRegion.compareTo s r ≠ .includes → ∀ p,
    contains (IRegion.subtract r s) p = (contains r p && !contains s p)
  includes {r s : R} : valid r → valid s → IRegion.compareTo r s = .includes →
    ∀ p, contains s p = true → contains r p = true
  disjoint {r s : R} : valid r → valid s → IRegion.compareTo r s = .disjoint →
    ∀ p, contains s p = true → contains r p = false
  intersects {r s : R} : valid r → valid s → IRegion.compareTo r s = .intersects →
    (∃ p, contains s p = true ∧ contains r p = true) ∧
    ∃ p, contains s p = true ∧ contains r p = false

section
variable {R P : Type}

theorem ExactRegion.exactOn [ExactRegion R P] :
    ExactOn (contains : R → P → Bool) fun _ => True where
  isEmpty_iff _ := isEmpty_iff _
  valid_intersect _ _ := trivial
  valid_subtract _ _ := trivial
  contains_intersect _ _ := contains_intersect _ _
  contains_subtract _ _ _ := contains_subtract _ _
  includes _ _ := compareTo_includes
  disjoint _ _ := compareTo_disjoint
  intersects _ _ := compareTo_intersects

variable [IRegion R] {contains : R → P → Bool} {valid : R → Prop} {r s : R}

/-- Where the difference is always right, the regions act as sets. -/
theorem ExactOn.actsAsSets (h : ExactOn contains valid) (hr : valid r) (hs : valid s)
    (hsub : ∀ p, contains (IRegion.subtract r s) p = (contains r p && !contains s p)) :
    ActsAsSets contains r s :=
  ⟨h.isEmpty_iff hr, h.contains_intersect hr hs, hsub, h.includes hr hs, h.disjoint hr hs,
    h.intersects hr hs⟩

/-- A comparison that is not `Disjoint` with a region that has points finds a common one. -/
theorem ExactOn.meets (h : ExactOn contains valid) (hr : valid r) (hs : valid s)
    (hne : IRegion.isEmpty s = false) (hc : IRegion.compareTo r s ≠ .disjoint) :
    ∃ p, contains r p = true ∧ contains s p = true := by
  cases hcmp : IRegion.compareTo r s with
  | disjoint => exact (hc hcmp).elim
  | intersects =>
    obtain ⟨p, hp, hp'⟩ := (h.intersects hr hs hcmp).1
    exact ⟨p, hp', hp⟩
  | includes =>
    have hpoint : ¬ ∀ p, contains s p = false := fun hno => by
      rw [(h.isEmpty_iff hs).mpr hno] at hne
      cases hne
    obtain ⟨p, hp⟩ := not_forall.mp hpoint
    have hp : contains s p = true := by simpa using hp
    exact ⟨p, h.includes hr hs hcmp p hp, hp⟩

end

end VSharp
