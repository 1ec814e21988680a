import Mathlib.Data.Finset.Card
import Mathlib.Data.Set.BooleanAlgebra
import Mathlib.Order.CompletePartialOrder

/-!
# Library — Atoms

Sets of points, named by the elements of a type, that are not empty, meet in one of them or not at
all, and are not covered by finitely many strictly smaller ones (`Atoms`).

* `Small x S`: finitely many atoms strictly inside `x` cover `S`; so `S` is not all of `x`, and a
  region that is an atom without a small part lies in a union of atoms only if the atom lies in one
  of them (`exists_subset_of_diff`);
* `rank G`: over a finite set `G` of atoms, a number that grows strictly with the atoms that are
  intersections of atoms of `G` (`rank_lt`); an induction on it goes from an atom to those inside.
-/

namespace VSharp.Library
variable {α P : Type} {meet : α → α → Option α}

/-- Sets of points that meet in one of them or not at all, none of them empty or covered by finitely
many strictly smaller ones. -/
structure Atoms (α P : Type) (meet : α → α → Option α) where
  points : α → Set P
  nonempty : ∀ x, (points x).Nonempty
  injective : ∀ {x y}, points x = points y → x = y
  disjoint : ∀ {x y}, meet x y = none → Disjoint (points x) (points y)
  inter : ∀ {x y z}, meet x y = some z → points z = points x ∩ points y
  not_covered : ∀ {x} {zs : List α}, (∀ z ∈ zs, points z ⊂ points x) →
    ¬ points x ⊆ {p | ∃ z ∈ zs, p ∈ points z}

namespace Atoms
variable (A : Atoms α P meet) {x y z : α} {zs ws : List α} {S T : Set P}

/-- The points of some atom of a list. -/
def covered (zs : List α) : Set P := {p | ∃ z ∈ zs, p ∈ A.points z}

/-- Finitely many atoms strictly inside `x` cover `S`. -/
def Small (x : α) (S : Set P) : Prop := ∃ zs, (∀ z ∈ zs, A.points z ⊂ A.points x) ∧ S ⊆ A.covered zs

/-- One of two atoms lies in the other. -/
def Nested (x y : α) : Prop := A.points x ⊆ A.points y ∨ A.points y ⊆ A.points x

variable {A}

theorem covered_append : A.covered (zs ++ ws) = A.covered zs ∪ A.covered ws := by
  ext p
  simp only [covered, List.mem_append, Set.mem_ofPred_eq, Set.mem_union]
  constructor
  · rintro ⟨z, hz | hz, hp⟩
    · exact .inl ⟨z, hz, hp⟩
    · exact .inr ⟨z, hz, hp⟩
  · rintro (⟨z, hz, hp⟩ | ⟨z, hz, hp⟩)
    · exact ⟨z, .inl hz, hp⟩
    · exact ⟨z, .inr hz, hp⟩

/-! ### Intersections -/

section

section
variable (h : meet x y = some z)

include h

theorem left_subset : A.points z ⊆ A.points x :=
  A.inter h ▸ Set.inter_subset_left

theorem right_subset : A.points z ⊆ A.points y :=
  A.inter h ▸ Set.inter_subset_right

/-- An intersection that is not the atom lies strictly inside it. -/
theorem left_ssubset (hne : z ≠ x) : A.points z ⊂ A.points x :=
  (left_subset h).ssubset_of_ne fun heq => hne (A.injective heq)

theorem right_ssubset (hne : z ≠ y) : A.points z ⊂ A.points y :=
  (right_subset h).ssubset_of_ne fun heq => hne (A.injective heq)

end

/-- An atom meets one that contains it in itself. -/
theorem meet_of_subset (h : A.points y ⊆ A.points x) : meet x y = some y := by
  cases hmeet : meet x y with
  | none =>
    obtain ⟨p, hp⟩ := A.nonempty y
    exact absurd hp (Set.disjoint_left.mp (A.disjoint hmeet) (h hp))
  | some z => rw [A.injective ((A.inter hmeet).trans (Set.inter_eq_self_of_subset_right h))]

theorem subset_left_of_meet (h : meet x y = some x) : A.points x ⊆ A.points y := right_subset h

theorem not_nested (h : meet x y = some z) (hx : z ≠ x) (hy : z ≠ y) : ¬ A.Nested x y := by
  rintro (hsub | hsub)
  · exact hx (A.injective ((A.inter h).trans (Set.inter_eq_self_of_subset_left hsub)))
  · exact hy (A.injective ((A.inter h).trans (Set.inter_eq_self_of_subset_right hsub)))

theorem not_nested_of_none (h : meet x y = none) : ¬ A.Nested x y := by
  rintro (hsub | hsub)
  · obtain ⟨p, hp⟩ := A.nonempty x
    exact Set.disjoint_left.mp (A.disjoint h) hp (hsub hp)
  · obtain ⟨p, hp⟩ := A.nonempty y
    exact Set.disjoint_left.mp (A.disjoint h) (hsub hp) hp

end

/-! ### Small sets -/

namespace Small

theorem empty : A.Small x ∅ := ⟨[], nofun, Set.empty_subset _⟩

theorem mono (h : A.Small x T) (hST : S ⊆ T) : A.Small x S := by
  obtain ⟨zs, hzs, hT⟩ := h
  exact ⟨zs, hzs, hST.trans hT⟩

/-- What is small in an atom is small in those that contain it. -/
theorem of_subset (h : A.Small x S) (hxy : A.points x ⊆ A.points y) : A.Small y S := by
  obtain ⟨zs, hzs, hS⟩ := h
  exact ⟨zs, fun z hz => (hzs z hz).trans_subset hxy, hS⟩

theorem union (hS : A.Small x S) (hT : A.Small x T) : A.Small x (S ∪ T) := by
  obtain ⟨zs, hzs, hS⟩ := hS
  obtain ⟨ws, hws, hT⟩ := hT
  refine ⟨zs ++ ws, fun z hz => (List.mem_append.mp hz).elim (hzs z) (hws z), ?_⟩
  rw [covered_append]
  exact Set.union_subset_union hS hT

theorem of_ssubset (h : A.points z ⊂ A.points x) : A.Small x (A.points z) := by
  refine ⟨[z], fun w hw => ?_, fun p hp => ⟨z, List.mem_singleton_self z, hp⟩⟩
  rwa [List.mem_singleton.mp hw]

theorem subset (h : A.Small x S) : S ⊆ A.points x := by
  obtain ⟨zs, hzs, hS⟩ := h
  intro p hp
  obtain ⟨z, hz, hpz⟩ := hS hp
  exact (hzs z hz).subset hpz

/-- An atom is not small in itself. -/
theorem not_subset (h : A.Small x S) : ¬ A.points x ⊆ S := by
  obtain ⟨zs, hzs, hS⟩ := h
  exact fun hx => A.not_covered hzs (hx.trans hS)

theorem ssubset (h : A.Small x S) : S ⊂ A.points x := ⟨h.subset, h.not_subset⟩

/-- An atom without a small part lies in a union of atoms only if the atom lies in one of them. -/
theorem exists_subset_of_diff (h : A.Small x S) (hcov : A.points x \ S ⊆ A.covered zs) :
    ∃ z ∈ zs, A.points x ⊆ A.points z := by
  by_contra hno
  push Not at hno
  -- otherwise `x` would be covered by its intersections with these atoms and by the small part
  have hmeet : A.Small x (A.points x ∩ A.covered zs) := by
    refine ⟨zs.filterMap (meet x), fun w hw => ?_, ?_⟩
    · obtain ⟨z, hz, hw⟩ := List.mem_filterMap.mp hw
      refine left_ssubset hw fun heq => hno z hz ?_
      subst heq
      exact right_subset hw
    · rintro p ⟨hpx, z, hz, hpz⟩
      cases hxz : meet x z with
      | none => exact absurd hpz (Set.disjoint_left.mp (A.disjoint hxz) hpx)
      | some w =>
        refine ⟨w, List.mem_filterMap.mpr ⟨z, hz, hxz⟩, ?_⟩
        rw [A.inter hxz]
        exact ⟨hpx, hpz⟩
  refine (h.union hmeet).not_subset fun p hp => ?_
  by_cases hpS : p ∈ S
  · exact .inl hpS
  · exact .inr ⟨hp, hcov ⟨hp, hpS⟩⟩

end Small

/-! ### Ranks -/

section
open scoped Classical

/-- The number of atoms of `G` that do not contain `x`. -/
noncomputable def rank (A : Atoms α P meet) (G : Finset α) (x : α) : ℕ :=
  (G.filter fun g => ¬ A.points x ⊆ A.points g).card

/-- `x` is the intersection of the atoms of `G` that contain it. -/
def Generated (A : Atoms α P meet) (G : Finset α) (x : α) : Prop :=
  ∀ p, (∀ g ∈ G, A.points x ⊆ A.points g → p ∈ A.points g) → p ∈ A.points x

variable {G : Finset α}

theorem generated_of_mem (h : x ∈ G) : A.Generated G x := fun _ hp => hp x h subset_rfl

theorem Generated.inter (hx : A.Generated G x) (hy : A.Generated G y) (h : meet x y = some z) :
    A.Generated G z := by
  intro p hp
  rw [A.inter h]
  exact ⟨hx p fun g hg hsub => hp g hg ((left_subset h).trans hsub),
    hy p fun g hg hsub => hp g hg ((right_subset h).trans hsub)⟩

theorem rank_le (h : A.points z ⊆ A.points x) : A.rank G z ≤ A.rank G x := by
  refine Finset.card_le_card fun g hg => ?_
  obtain ⟨hg, hnot⟩ := Finset.mem_filter.mp hg
  exact Finset.mem_filter.mpr ⟨hg, fun hx => hnot (h.trans hx)⟩

theorem rank_le_card (A : Atoms α P meet) (G : Finset α) (x : α) : A.rank G x ≤ G.card :=
  Finset.card_filter_le _ _

/-- The rank grows strictly. -/
theorem rank_lt (hz : A.Generated G z) (h : A.points z ⊂ A.points x) :
    A.rank G z < A.rank G x := by
  refine Finset.card_lt_card ⟨fun g hg => ?_, fun hsub => h.not_subset fun p hp => ?_⟩
  · obtain ⟨hg, hnot⟩ := Finset.mem_filter.mp hg
    exact Finset.mem_filter.mpr ⟨hg, fun hx => hnot (h.subset.trans hx)⟩
  · refine hz p fun g hg hzg => ?_
    by_contra hpg
    have hmem := hsub (Finset.mem_filter.mpr ⟨hg, fun hx => hpg (hx hp)⟩)
    exact (Finset.mem_filter.mp hmem).2 hzg

end

end Atoms

end VSharp.Library
