import VSharp.Utils.PersistentDictionary
import VSharp.Utils.Regions
import Mathlib.Data.Set.Finite.Basic

/-!
# Utils — Points

`VSharp.Utils/Regions.fs`, `points<'a>`: the finite and co-finite sets of points.  Over an infinite
carrier the operations are exact (`instExactRegion`); over a finite one `Z \\ {all points}` would be
an empty region that `IsEmpty` does not see.
-/

namespace VSharp
open PersistentSet

/-- `points<'a>`: the listed points, or all others when they are `thrown`. -/
structure Points (α : Type) where
  points : Pset α
  thrown : Bool
deriving DecidableEq, Repr

namespace Points
variable {α : Type} [DecidableEq α]
variable {c : RegionComparisonResult} {p₁ p₂ : Pset α}

def singleton [HashOrder α] (x : α) : Points α := ⟨add [] x, false⟩

/-- `points.Universe`. -/
def all : Points α := ⟨[], true⟩

/-- `Points.compare`: whether the first set includes the second, and whether they are disjoint. -/
def compare (p₁ p₂ : Pset α) : Bool × Bool :=
  ((PersistentDict.keys p₂).all (PersistentSet.contains · p₁),
    (PersistentDict.keys p₂).all (!PersistentSet.contains · p₁))

def toResult : Bool × Bool → RegionComparisonResult
  | (includes, disjoint) => if includes then .includes else if disjoint then .disjoint else .intersects

def flip : RegionComparisonResult → RegionComparisonResult
  | .includes => .disjoint
  | .intersects => .intersects
  | .disjoint => .includes

instance [HashOrder α] : IRegion (Points α) where
  isEmpty r := !r.thrown && r.points.isEmpty
  compareTo r s :=
    match r.thrown, s.thrown with
    | false, false => toResult (compare r.points s.points)
    | true, false => flip (toResult (compare r.points s.points))
    | false, true => if (compare s.points r.points).1 then .disjoint else .intersects
    | true, true => if (compare s.points r.points).1 then .includes else .intersects
  subtract r s :=
    match r.thrown, s.thrown with
    | false, false => ⟨subtract r.points s.points, false⟩
    | true, false => ⟨union r.points s.points, true⟩
    | false, true => ⟨intersect s.points r.points, false⟩
    | true, true => ⟨subtract s.points r.points, false⟩
  intersect r s :=
    match r.thrown, s.thrown with
    | false, false => ⟨intersect r.points s.points, false⟩
    | true, false => ⟨subtract s.points r.points, false⟩
    | false, true => ⟨subtract r.points s.points, false⟩
    | true, true => ⟨union s.points r.points, true⟩

/-- A point of the region. -/
def contains (r : Points α) (x : α) : Bool := PersistentSet.contains x r.points != r.thrown

theorem compare_includes (p₁ p₂ : Pset α) : (compare p₁ p₂).1 = true ↔
    ∀ x, PersistentSet.contains x p₂ = true → PersistentSet.contains x p₁ = true := by
  simp [compare, PersistentSet.contains]

theorem compare_disjoint (p₁ p₂ : Pset α) : (compare p₁ p₂).2 = true ↔
    ∀ x, PersistentSet.contains x p₂ = true → PersistentSet.contains x p₁ = false := by
  simp [compare, PersistentSet.contains]

theorem not_forall_contains {b : Bool}
    (h : ¬ ∀ x, PersistentSet.contains x p₂ = true → PersistentSet.contains x p₁ = b) :
    ∃ x, PersistentSet.contains x p₂ = true ∧ PersistentSet.contains x p₁ = !b := by
  push Not at h
  obtain ⟨x, hx, hb⟩ := h
  exact ⟨x, hx, Bool.eq_not_of_ne hb⟩

/-- What the comparison of two listed sets says. -/
theorem toResult_compare (p₁ p₂ : Pset α) :
    (toResult (compare p₁ p₂) = .includes →
      ∀ x, PersistentSet.contains x p₂ = true → PersistentSet.contains x p₁ = true) ∧
    (toResult (compare p₁ p₂) = .disjoint →
      ∀ x, PersistentSet.contains x p₂ = true → PersistentSet.contains x p₁ = false) ∧
    (toResult (compare p₁ p₂) = .intersects →
      (∃ x, PersistentSet.contains x p₂ = true ∧ PersistentSet.contains x p₁ = true) ∧
      ∃ x, PersistentSet.contains x p₂ = true ∧ PersistentSet.contains x p₁ = false) := by
  rw [← Prod.mk.eta (p := compare p₁ p₂), toResult, ← compare_includes, ← compare_disjoint]
  have hinc := (compare_includes p₁ p₂).not
  have hdis := (compare_disjoint p₁ p₂).not
  split
  · simp [*]
  · split
    · simp [*]
    · next h₁ h₂ =>
        refine ⟨(fun h => by cases h), (fun h => by cases h), fun _ => ?_⟩
        exact ⟨not_forall_contains (hdis.mp h₂), not_forall_contains (hinc.mp h₁)⟩

theorem flip_eq_includes : flip c = .includes ↔ c = .disjoint := by
  cases c <;> simp [flip]

theorem flip_eq_disjoint : flip c = .disjoint ↔ c = .includes := by
  cases c <;> simp [flip]

theorem flip_eq_intersects :
    flip c = .intersects ↔ c = .intersects := by
  cases c <;> simp [flip]

theorem contains_false_of_subset
    (h : ∀ x, PersistentSet.contains x p₂ = true → PersistentSet.contains x p₁ = true) {x : α}
    (hx : PersistentSet.contains x p₁ = false) : PersistentSet.contains x p₂ = false := by
  by_contra hc
  rw [h x (by simpa using hc)] at hx
  cases hx

/-- Infinitely many points are in neither list. -/
theorem exists_fresh [Infinite α] (p₁ p₂ : Pset α) :
    ∃ x, PersistentSet.contains x p₁ = false ∧ PersistentSet.contains x p₂ = false := by
  obtain ⟨x, hx⟩ := Infinite.exists_notMem_finset
    ((PersistentDict.keys p₁ ++ PersistentDict.keys p₂).toFinset)
  refine ⟨x, ?_⟩
  simpa [PersistentSet.contains, not_or] using hx

instance instExactRegion [HashOrder α] [Infinite α] : ExactRegion (Points α) α where
  contains := contains
  isEmpty_iff := by
    rintro ⟨p, _ | _⟩
    · cases p with
      | nil => simp [IRegion.isEmpty, contains, PersistentSet.contains, PersistentDict.keys]
      | cons e p =>
        simp only [IRegion.isEmpty, List.isEmpty_cons, Bool.and_false, Bool.false_eq_true,
          false_iff, not_forall]
        exact ⟨e.1, by simp [contains, PersistentSet.contains, PersistentDict.keys]⟩
    · obtain ⟨x, hx, -⟩ := exists_fresh p p
      simp only [IRegion.isEmpty, Bool.not_true, Bool.false_and, Bool.false_eq_true, false_iff,
        not_forall]
      exact ⟨x, by simp [contains, hx]⟩
  contains_subtract := by
    rintro ⟨p, _ | _⟩ ⟨q, _ | _⟩ x <;>
      simp [IRegion.subtract, contains, contains_subtract,
        contains_union, contains_intersect, Bool.and_comm]
  contains_intersect := by
    rintro ⟨p, _ | _⟩ ⟨q, _ | _⟩ x <;>
      simp [IRegion.intersect, contains, contains_subtract,
        contains_union, contains_intersect, Bool.and_comm]
  compareTo_includes := by
    rintro ⟨p, _ | _⟩ ⟨q, _ | _⟩ h x hx
    all_goals simp only [IRegion.compareTo, contains, Bool.bne_false, Bool.bne_true, Bool.not_eq_true'] at *
    · exact (toResult_compare p q).1 h x hx
    · split at h <;> cases h
    · exact (toResult_compare p q).2.1 (flip_eq_includes.mp h) x hx
    · split at h
      · next hc => exact contains_false_of_subset ((compare_includes _ _).mp hc) hx
      · cases h
  compareTo_disjoint := by
    rintro ⟨p, _ | _⟩ ⟨q, _ | _⟩ h x hx
    all_goals simp only [IRegion.compareTo, contains, Bool.bne_false, Bool.bne_true, Bool.not_eq_true',
      Bool.not_eq_false'] at *
    · exact (toResult_compare p q).2.1 h x hx
    · split at h
      · next hc => exact contains_false_of_subset ((compare_includes _ _).mp hc) hx
      · cases h
    · exact (toResult_compare p q).1 (flip_eq_disjoint.mp h) x hx
    · split at h <;> cases h
  compareTo_intersects := by
    rintro ⟨p, _ | _⟩ ⟨q, _ | _⟩ h
    all_goals simp only [IRegion.compareTo, contains, Bool.bne_false, Bool.bne_true, Bool.not_eq_true',
      Bool.not_eq_false'] at *
    · exact (toResult_compare p q).2.2 h
    · split at h
      · cases h
      · next hc =>
          obtain ⟨x, hx, hq⟩ := not_forall_contains ((compare_includes _ _).not.mp hc)
          obtain ⟨y, hy, hy'⟩ := exists_fresh q p
          exact ⟨⟨x, hq, hx⟩, y, hy, hy'⟩
    · exact ((toResult_compare p q).2.2 (flip_eq_intersects.mp h)).symm
    · split at h
      · cases h
      · next hc =>
          obtain ⟨x, hx, hq⟩ := not_forall_contains ((compare_includes _ _).not.mp hc)
          obtain ⟨y, hy, hy'⟩ := exists_fresh q p
          exact ⟨⟨y, hy, hy'⟩, x, hq, hx⟩

end Points

/-- A number is its own hash code. -/
instance : HashOrder ℕ := ⟨id⟩

/-- The hash code of a set of points depends on a seed; any choice will do. -/
instance {α : Type} : HashOrder (Points α) := ⟨fun r => r.points.length⟩

end VSharp
