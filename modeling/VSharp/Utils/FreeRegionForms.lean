import VSharp.Library.Results
import VSharp.Utils.FreeRegions

/-!
# Utils — FreeRegionForms

The regions that the operations of `freeRegion` keep, where no call reaches a slip.  A region is
`Valid` when its unions have disjoint differences as members, and when what is subtracted from an
atom is `Small` in it: finitely many atoms strictly inside cover it.  Unions of small sets are small,
while two sets strictly inside an atom may fill it up; and no atom is small in itself, so valid
regions keep the documented invariants (`Valid.invariants`).

The atoms that a valid region is made of lie in those of any region that contains it
(`Valid.exists_subset`).  Over a finite set of atoms they have ranks, and a region that is small in
an atom has only ranks below that of the atom (`Valid.below_of_small`).
-/

namespace VSharp
open Library

namespace FreeRegion
variable {α P : Type} [IAtomicRegion α]

/-! ### Normal forms -/

section
variable (A : Atoms α P IAtomicRegion.intersect)

/-- The members of a union are differences and disjoint, and what is subtracted from an atom is
small in it; the atoms are `ok`. -/
inductive Valid (ok : α → Prop) : FreeRegion α → Prop
  | members {xs : List (FreeRegion α)} (differences : ∀ r ∈ xs, r.isDifference = true)
      (members : ∀ r ∈ xs, Valid ok r)
      (disjoint : xs.Pairwise fun r s => Disjoint (r.points A) (s.points A)) :
      Valid ok (freeUnion xs)
  | hollow {x : α} {y : FreeRegion α} (atom : ok x) (hole : Valid ok y)
      (small : A.Small x (y.points A)) : Valid ok (freeDifference x y)

/-- The atoms that a region is made of, without those of what is subtracted. -/
def tops : FreeRegion α → List α
  | freeUnion xs => xs.flatMap fun
      | freeDifference x _ => [x]
      | freeUnion _ => []
  | freeDifference x _ => [x]

mutual

/-- All atoms of a region. -/
def atoms : FreeRegion α → List α
  | freeUnion xs => atomsOf xs
  | freeDifference x y => x :: atoms y

/-- All atoms of the regions of a list. -/
def atomsOf : List (FreeRegion α) → List α
  | [] => []
  | r :: rs => atoms r ++ atomsOf rs

end

variable {A} {ok ok' : α → Prop} {x : α} {y r : FreeRegion α} {rs : List (FreeRegion α)}
  {zs : List α}

section

omit [IAtomicRegion α]

theorem exists_of_isDifference (h : r.isDifference = true) : ∃ x y, r = freeDifference x y := by
  cases r with
  | freeUnion => cases h
  | freeDifference x y => exact ⟨x, y, rfl⟩

theorem mem_tops_freeUnion : x ∈ (freeUnion rs).tops ↔ ∃ y, freeDifference x y ∈ rs := by
  rw [tops, List.mem_flatMap]
  constructor
  · rintro ⟨r, hr, hx⟩
    cases r with
    | freeUnion => cases hx
    | freeDifference z y =>
      cases List.mem_singleton.mp hx
      exact ⟨y, hr⟩
  · rintro ⟨y, hy⟩
    exact ⟨_, hy, List.mem_singleton_self x⟩

theorem mem_atomsOf : x ∈ atomsOf rs ↔ ∃ r ∈ rs, x ∈ r.atoms := by
  induction rs with
  | nil => simp [atomsOf]
  | cons r rs ih => simp [atomsOf, ih]

end

namespace Valid

theorem singleton (h : ok x) : (FreeRegion.singleton x).Valid A ok :=
  .hollow h (.members nofun nofun .nil) (by rw [points_empty]; exact .empty)

theorem empty : (freeUnion []).Valid A ok := .members nofun nofun .nil

theorem mono (h : r.Valid A ok) (hok : ∀ x ∈ r.atoms, ok' x) : r.Valid A ok' := by
  induction h with
  | members hdiff _ hdisj ih =>
    refine .members hdiff (fun r hr => ih r hr fun x hx => hok x ?_) hdisj
    rw [atoms]
    exact mem_atomsOf.mpr ⟨r, hr, hx⟩
  | hollow hx _ hsmall ih =>
    refine .hollow (hok _ ?_) (ih fun x hx => hok x ?_) hsmall
    · rw [atoms]
      exact List.mem_cons_self
    · rw [atoms]
      exact List.mem_cons_of_mem _ hx

theorem member (h : (freeUnion rs).Valid A ok) (hr : r ∈ rs) : r.Valid A ok := by
  cases h with
  | members _ hmembers _ => exact hmembers r hr

theorem exists_difference (h : (freeUnion rs).Valid A ok) (hr : r ∈ rs) :
    ∃ x y, r = freeDifference x y := by
  cases h with
  | members hdiff _ _ => exact exists_of_isDifference (hdiff r hr)

section
variable (h : (freeDifference x y).Valid A ok)

include h

theorem small : A.Small x (y.points A) := by
  cases h with
  | hollow _ _ hsmall => exact hsmall

theorem hole : y.Valid A ok := by
  cases h with
  | hollow _ hhole _ => exact hhole

theorem atom : ok x := by
  cases h with
  | hollow hx _ _ => exact hx

theorem nonempty :
    ((freeDifference x y).points A).Nonempty := by
  rw [points_freeDifference]
  exact Set.sdiff_nonempty.mpr h.small.not_subset

end

/-- Only the empty list has no points. -/
theorem isEmpty (h : r.Valid A ok) (hp : r.points A = ∅) : r.isEmpty = true := by
  cases r with
  | freeDifference => exact absurd hp h.nonempty.ne_empty
  | freeUnion rs =>
    cases rs with
    | nil => rfl
    | cons r rs =>
      obtain ⟨x, y, rfl⟩ := h.exists_difference List.mem_cons_self
      obtain ⟨p, hin⟩ := (h.member List.mem_cons_self).nonempty
      have hmem : p ∈ (freeUnion (freeDifference x y :: rs)).points A := by
        rw [points_freeUnion]
        exact points_subset_pointsOf List.mem_cons_self hin
      rw [hp] at hmem
      exact hmem.elim

/-- Regions in normal form keep the documented invariants. -/
theorem invariants (h : r.Valid A ok) : r.Invariants A := by
  induction h with
  | members hdiff hmembers hdisj ih =>
    refine .freeUnion hdiff (fun r hr => ?_) ih hdisj
    obtain ⟨x, y, rfl⟩ := exists_of_isDifference (hdiff r hr)
    exact (hmembers _ hr).nonempty
  | hollow _ _ hsmall ih => exact .freeDifference ih hsmall.ssubset

/-- The atoms of a region that lies in a union of atoms lie in these. -/
theorem exists_subset (h : r.Valid A ok) (hcov : r.points A ⊆ A.covered zs) :
    ∀ x ∈ r.tops, ok x ∧ ∃ z ∈ zs, A.points x ⊆ A.points z := by
  have hdiff : ∀ {x y}, (freeDifference x y).Valid A ok →
      (freeDifference x y).points A ⊆ A.covered zs → ok x ∧ ∃ z ∈ zs, A.points x ⊆ A.points z := by
    intro x y h hcov
    rw [points_freeDifference] at hcov
    exact ⟨h.atom, h.small.exists_subset_of_diff hcov⟩
  intro x hx
  cases r with
  | freeUnion rs =>
    obtain ⟨y, hy⟩ := mem_tops_freeUnion.mp hx
    rw [points_freeUnion] at hcov
    exact hdiff (h.member hy) ((points_subset_pointsOf hy).trans hcov)
  | freeDifference z y =>
    cases List.mem_singleton.mp hx
    exact hdiff h hcov

theorem points_subset_tops (h : r.Valid A ok) : r.points A ⊆ A.covered r.tops := by
  intro p hp
  cases r with
  | freeUnion rs =>
    rw [points_freeUnion] at hp
    obtain ⟨r, hr, hp⟩ := mem_pointsOf.mp hp
    obtain ⟨x, y, rfl⟩ := h.exists_difference hr
    rw [points_freeDifference] at hp
    exact ⟨x, mem_tops_freeUnion.mpr ⟨y, hr⟩, hp.1⟩
  | freeDifference x y =>
    rw [points_freeDifference] at hp
    exact ⟨x, List.mem_singleton_self x, hp.1⟩

end Valid

end

/-! ### Lists of regions -/

section
variable {A : Atoms α P IAtomicRegion.intersect} {rs ts : List (FreeRegion α)} {S : Set P}

theorem points_of_isEmpty {r : FreeRegion α} (h : r.isEmpty = true) : r.points A = ∅ := by
  cases r with
  | freeUnion xs => rw [List.isEmpty_iff.mp h, points_empty]
  | freeDifference => cases h

theorem pointsOf_filter : pointsOf A (ts.filter (!isEmpty ·)) = pointsOf A ts := by
  ext p
  simp only [mem_pointsOf, List.mem_filter]
  constructor
  · rintro ⟨t, ⟨ht, -⟩, hp⟩
    exact ⟨t, ht, hp⟩
  · rintro ⟨t, ht, hp⟩
    refine ⟨t, ⟨ht, ?_⟩, hp⟩
    cases hempty : t.isEmpty with
    | false => rfl
    | true =>
      rw [points_of_isEmpty hempty] at hp
      exact hp.elim

section
variable (h : List.Forall₂ (fun r t => t.points A = r.points A \ S) rs ts)

include h

/-- The regions of a list, each without the points of `S`. -/
theorem pointsOf_of_forall₂ : pointsOf A ts = pointsOf A rs \ S := by
  induction h with
  | nil => simp [pointsOf]
  | cons ht _ ih => rw [pointsOf, pointsOf, ih, ht, Set.union_sdiff_distrib]

theorem disjoint_of_forall₂ (hrs : rs.Pairwise fun r s => Disjoint (r.points A) (s.points A)) :
    ts.Pairwise fun r s => Disjoint (r.points A) (s.points A) := by
  induction h with
  | nil => exact .nil
  | cons ht htail ih =>
    obtain ⟨hr, hrs⟩ := List.pairwise_cons.mp hrs
    refine .cons (fun t' ht' => ?_) (ih hrs)
    obtain ⟨r', hr', heq⟩ := forall₂_mem_right htail ht'
    rw [ht, heq]
    exact (hr r' hr').mono Set.sdiff_subset Set.sdiff_subset

end

end

/-! ### Ranks -/

section
variable (A : Atoms α P IAtomicRegion.intersect) (G : Finset α)

/-- A region in normal form, of intersections of atoms of `G`, that has the points of `S`. -/
structure Denotes (S : Set P) (r : FreeRegion α) : Prop where
  valid : r.Valid A (A.Generated G)
  points : r.points A = S

/-- The atoms that a region is made of have a rank below `k`. -/
def Below (k : ℕ) (r : FreeRegion α) : Prop := ∀ x ∈ r.tops, A.rank G x < k

variable {A G} {x : α} {y r s t : FreeRegion α} {rs : List (FreeRegion α)} {k l : ℕ}

theorem below_difference : (freeDifference x y).Below A G k ↔ A.rank G x < k := by
  simp [Below, tops]

theorem Below.mono (h : r.Below A G k) (hkl : k ≤ l) : r.Below A G l :=
  fun x hx => (h x hx).trans_le hkl

theorem Below.member (h : (freeUnion rs).Below A G k) (hr : freeDifference x y ∈ rs) :
    A.rank G x < k := h x (mem_tops_freeUnion.mpr ⟨y, hr⟩)

theorem below_card (r : FreeRegion α) : r.Below A G (G.card + 1) := fun x _ =>
  Nat.lt_succ_of_le (A.rank_le_card G x)

namespace Valid
variable (h : r.Valid A (A.Generated G))

include h

/-- A region that lies in another two is made of atoms that lie in theirs. -/
theorem below_of_subset (hs : s.Valid A (A.Generated G)) (ht : t.Valid A (A.Generated G))
    (hsub : r.points A ⊆ s.points A ∪ t.points A) (hsk : s.Below A G k) (htk : t.Below A G k) :
    r.Below A G k := by
  intro x hx
  have hcov : r.points A ⊆ A.covered (s.tops ++ t.tops) := by
    rw [Atoms.covered_append]
    exact hsub.trans (Set.union_subset_union hs.points_subset_tops ht.points_subset_tops)
  obtain ⟨-, z, hz, hxz⟩ := h.exists_subset hcov x hx
  exact (Atoms.rank_le hxz).trans_lt ((List.mem_append.mp hz).elim (hsk z) (htk z))

/-- A region that lies in an atom is made of atoms that lie in it. -/
theorem below_of_subset_atom (hsub : r.points A ⊆ A.points x) (hx : A.rank G x < k) :
    r.Below A G k := by
  intro w hw
  have hcov : r.points A ⊆ A.covered [x] := fun p hp => ⟨x, List.mem_singleton_self x, hsub hp⟩
  obtain ⟨-, z, hz, hwz⟩ := h.exists_subset hcov w hw
  cases List.mem_singleton.mp hz
  exact (Atoms.rank_le hwz).trans_lt hx

/-- A region that is small in an atom is made of atoms strictly inside it. -/
theorem below_of_small (hsmall : A.Small x (r.points A)) : r.Below A G (A.rank G x) := by
  intro w hw
  obtain ⟨zs, hzs, hcov⟩ := hsmall
  obtain ⟨hwG, z, hz, hwz⟩ := h.exists_subset hcov w hw
  exact Atoms.rank_lt hwG (hwz.trans_ssubset (hzs z hz))

end Valid

end

end FreeRegion

end VSharp
