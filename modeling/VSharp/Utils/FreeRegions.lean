import VSharp.Library.Atoms
import VSharp.Library.Recursion
import VSharp.Utils.Regions

/-!
# Utils — FreeRegions

`VSharp.Utils/Regions.fs`, `freeRegion`: unions of differences of atomic regions.  The operations
call each other on results of each other, so each is a computation with calls (`Library.Rec`), and
`freeRegionBody` says which of them a call runs.  Some calls never end.

The operations are the set operations only where no call reaches one of these slips
(`FreeRegionCall.Harmless`).

* `Union` of two differences, `x` without `y` and `x'` without `y'`: where `x'` lies in `x`, the
  hole `y'` is left where `y` does not fill it up, so `y` must lie in `x'` (`union_inside_iff`);
  where neither lies in the other, both lose all they share, so that must lie in both holes
  (`union_overlap_iff`);
* `Union` with a list of two members and more ends only if the first lies in the other operand or in
  the second, or contains it (`not_computes_union`);
* `Subtract`, of an `x` that lies in `x'`: the hole `y'` is left, so it must lie in `x`
  (`subtract_inside_iff`); a member of a list that is subtracted from may become a list, unless it
  `LeavesOne` difference or nothing;
* `CompareTo`, of a list with a difference: the list is said to include it where the difference
  includes a member, so the list must contain it then; the list is not said to include it where no
  member lies in it;
* `Intersect` with a list intersects with all members in turn, so the list must have one member; in
  `x` without `y` with an `x'` that lies in `x`, the hole `y` is kept also where it leaves `x'` or
  fills it up, unless a comparison that is `Settled` says that it contains the other operand or is
  apart from it.
-/

namespace VSharp
open Library

/-- `IAtomicRegion<'a>`. -/
class IAtomicRegion (α : Type) where
  /-- `None` if the regions do not intersect, or their intersection. -/
  intersect : α → α → Option α

/-- `freeRegion<'a>`. -/
inductive FreeRegion (α : Type) where
  | freeUnion (xs : List (FreeRegion α))
  | freeDifference (x : α) (y : FreeRegion α)

/-- A call of one of the operations. -/
inductive FreeRegionCall (α : Type) where
  | union (this other : FreeRegion α)
  | compareTo (this other : FreeRegion α)
  | subtract (this other : FreeRegion α)
  | intersect (this other : FreeRegion α)

/-- What a call answers: a region, or the result of a comparison. -/
abbrev FreeRegionAnswer (α : Type) := FreeRegion α ⊕ RegionComparisonResult

/-- What an operation computes with calls of the operations. -/
abbrev FreeRegionRun (α β : Type) := Rec (FreeRegionCall α) (FreeRegionAnswer α) β

namespace FreeRegionCall
variable {α : Type}

/-- Call, for a region. -/
def region (c : FreeRegionCall α) : FreeRegionRun α (FreeRegion α) :=
  .call c fun
    | .inl r => pure r
    | .inr _ => .fail

/-- Call, for the result of a comparison. -/
def comparison (c : FreeRegionCall α) : FreeRegionRun α RegionComparisonResult :=
  .call c fun
    | .inl _ => .fail
    | .inr cmp => pure cmp

variable {R : FreeRegionCall α → FreeRegionAnswer α → Prop} {c : FreeRegionCall α}
  {r : FreeRegion α} {cmp : RegionComparisonResult}

@[simp] theorem results_region : c.region.Results R r ↔ R c (.inl r) := by
  simp [region, Rec.Results, pure]

@[simp] theorem results_comparison : c.comparison.Results R cmp ↔ R c (.inr cmp) := by
  simp [comparison, Rec.Results, pure]

end FreeRegionCall

namespace FreeRegion
variable {α : Type}

def singleton (reg : α) : FreeRegion α := freeDifference reg (freeUnion [])

def empty : FreeRegion α := freeUnion []

/-- `IsEmpty`: a difference is never empty. -/
def isEmpty : FreeRegion α → Bool
  | freeUnion xs => xs.isEmpty
  | freeDifference .. => false

/-! ### The operations -/

section
variable [IAtomicRegion α] [DecidableEq α]

open FreeRegionCall (region comparison)

def union (this other : FreeRegion α) : FreeRegionRun α (FreeRegion α) :=
  if this.isEmpty then pure other
  else if other.isEmpty then pure this
  else
    match this, other with
    | freeUnion xs, _ => xs.foldlM (fun acc x => region (.union x acc)) other
    | freeDifference .., freeUnion xs => xs.foldlM (fun acc x => region (.union x acc)) this
    | freeDifference x y, freeDifference x' y' =>
      match IAtomicRegion.intersect x x' with
      | none => pure (freeUnion [this, other])
      | some z =>
        if z = x' then do pure (freeDifference x (← region (.subtract y' this)))
        else if z = x then do pure (freeDifference x' (← region (.subtract y other)))
        else do
          let r ← region (.union y (singleton z))
          let r' ← region (.union y' (singleton z))
          pure (freeUnion [freeDifference x r, freeDifference x' r'])

def compareTo : FreeRegion α → FreeRegion α → FreeRegionRun α RegionComparisonResult
  | freeDifference x y, freeDifference x' y' =>
    match IAtomicRegion.intersect x x' with
    | none => pure .disjoint
    | some z =>
      if z = x' then do
        match ← comparison (.compareTo y (freeDifference x' y')) with
        | .includes => pure .disjoint
        | .disjoint => pure .includes
        | .intersects => pure .intersects
      else do
        match ← comparison (.compareTo y (← region (.subtract (singleton z) y'))) with
        | .includes => pure .disjoint
        | _ => pure .intersects
  | this, freeUnion xs => do
      let cmps ← xs.mapM fun x => comparison (.compareTo this x)
      pure (if cmps.all (· = .includes) then .includes
        else if cmps.all (· = .disjoint) then .disjoint
        else .intersects)
  | freeUnion xs, freeDifference x y => do
      let cmps ← xs.mapM fun z => comparison (.compareTo (freeDifference x y) z)
      pure (if cmps.any (· = .includes) then .includes
        else if cmps.all (· = .disjoint) then .disjoint
        else .intersects)

def subtract : FreeRegion α → FreeRegion α → FreeRegionRun α (FreeRegion α)
  | freeUnion xs, other => do
      let rs ← xs.mapM fun x => region (.subtract x other)
      pure (freeUnion (rs.filter (!isEmpty ·)))
  | freeDifference x y, freeDifference x' y' =>
    match IAtomicRegion.intersect x x' with
    | none => pure (freeDifference x y)
    | some z =>
      if z = x then region (.subtract y' y)
      else do
        let r ← region (.subtract (singleton z) y')
        pure (freeDifference x (← region (.union y r)))
  | freeDifference x y, freeUnion zs =>
    zs.foldlM (fun acc z => region (.subtract acc z)) (freeDifference x y)

def intersect : FreeRegion α → FreeRegion α → FreeRegionRun α (FreeRegion α)
  | freeDifference x y, freeDifference x' y' =>
    match IAtomicRegion.intersect x x' with
    | none => pure empty
    | some z =>
      if z = x' then do
        match ← comparison (.compareTo y (freeDifference x' y')) with
        | .includes => pure empty
        | .disjoint => pure (freeDifference x' y')
        | .intersects => do pure (freeDifference x' (← region (.union y y')))
      else do
        region (.intersect (freeDifference x' y') (← region (.subtract (singleton z) y)))
  | freeUnion xs, other => xs.foldlM (fun acc x => region (.intersect acc x)) other
  | this, freeUnion xs => xs.foldlM (fun acc x => region (.intersect acc x)) this

end

end FreeRegion

/-- The operation that a call runs. -/
def freeRegionBody {α : Type} [IAtomicRegion α] [DecidableEq α] :
    FreeRegionCall α → FreeRegionRun α (FreeRegionAnswer α)
  | .union this other => Sum.inl <$> this.union other
  | .compareTo this other => Sum.inr <$> this.compareTo other
  | .subtract this other => Sum.inl <$> this.subtract other
  | .intersect this other => Sum.inl <$> this.intersect other

namespace FreeRegion
variable {α P : Type} [IAtomicRegion α]

/-! ### Points -/

section
variable (A : Atoms α P IAtomicRegion.intersect)

mutual

/-- The points of a region. -/
def points : FreeRegion α → Set P
  | freeUnion xs => pointsOf xs
  | freeDifference x y => A.points x \ points y

/-- The points of some region of a list. -/
def pointsOf : List (FreeRegion α) → Set P
  | [] => ∅
  | r :: rs => points r ∪ pointsOf rs

end

def isDifference : FreeRegion α → Bool
  | freeUnion _ => false
  | freeDifference .. => true

/-- The documented invariants: the members of a union are differences, not empty and disjoint; what
is subtracted lies strictly inside. -/
inductive Invariants : FreeRegion α → Prop
  | freeUnion {xs : List (FreeRegion α)} (differences : ∀ r ∈ xs, r.isDifference = true)
      (nonempty : ∀ r ∈ xs, (r.points A).Nonempty) (members : ∀ r ∈ xs, Invariants r)
      (disjoint : xs.Pairwise fun r s => Disjoint (r.points A) (s.points A)) :
      Invariants (freeUnion xs)
  | freeDifference {x : α} {y : FreeRegion α} (hole : Invariants y)
      (strict : y.points A ⊂ A.points x) : Invariants (freeDifference x y)

variable {A} {p : P} {r : FreeRegion α} {rs ss : List (FreeRegion α)} {x : α}

theorem mem_pointsOf : p ∈ pointsOf A rs ↔ ∃ r ∈ rs, p ∈ r.points A := by
  induction rs with
  | nil => simp [pointsOf]
  | cons r rs ih => simp [pointsOf, ih]

theorem points_freeUnion : (freeUnion rs).points A = pointsOf A rs := by rw [points]

theorem points_freeDifference {y : FreeRegion α} :
    (freeDifference x y).points A = A.points x \ y.points A := by rw [points]

theorem pointsOf_append : pointsOf A (rs ++ ss) = pointsOf A rs ∪ pointsOf A ss := by
  ext p
  simp only [mem_pointsOf, List.mem_append, Set.mem_union]
  constructor
  · rintro ⟨r, hr | hr, hp⟩
    · exact .inl ⟨r, hr, hp⟩
    · exact .inr ⟨r, hr, hp⟩
  · rintro (⟨r, hr, hp⟩ | ⟨r, hr, hp⟩)
    · exact ⟨r, .inl hr, hp⟩
    · exact ⟨r, .inr hr, hp⟩

theorem points_subset_pointsOf (h : r ∈ rs) : r.points A ⊆ pointsOf A rs :=
  fun _ hp => mem_pointsOf.mpr ⟨r, h, hp⟩

@[simp] theorem points_singleton : (singleton x).points A = A.points x := by
  simp [singleton, points, pointsOf]

@[simp] theorem points_empty : (freeUnion []).points A = ∅ := by rw [points, pointsOf]

end

/-! ### The slips -/

section
variable {X Y U V : Set P}

/-- What `Union` gives for an `U` that lies in `X`. -/
theorem union_inside_iff (hX : U ⊆ X) (hY : Y ⊆ X) (hV : V ⊆ U) :
    X \ (V \ (X \ Y)) = X \ Y ∪ U \ V ↔ Y ⊆ U := by
  constructor
  · intro h p hp
    by_contra hU
    have hleft : p ∈ X \ (V \ (X \ Y)) := ⟨hY hp, fun hq => hU (hV hq.1)⟩
    rw [h] at hleft
    exact hleft.elim (fun hq => hq.2 hp) fun hq => hU hq.1
  · intro h
    ext p
    have hXp := @hX p
    have hYp := @h p
    have hVp := @hV p
    simp only [Set.mem_sdiff, Set.mem_union]
    tauto

/-- What `Union` gives where neither lies in the other. -/
theorem union_overlap_iff :
    X \ (Y ∪ X ∩ U) ∪ U \ (V ∪ X ∩ U) = X \ Y ∪ U \ V ↔ X ∩ U ⊆ Y ∩ V := by
  constructor
  · rintro h p ⟨hX, hU⟩
    have hlost : p ∉ X \ (Y ∪ X ∩ U) ∪ U \ (V ∪ X ∩ U) := by
      rintro (hq | hq)
      · exact hq.2 (.inr ⟨hX, hU⟩)
      · exact hq.2 (.inr ⟨hX, hU⟩)
    rw [h] at hlost
    exact ⟨by_contra fun hY => hlost (.inl ⟨hX, hY⟩), by_contra fun hV => hlost (.inr ⟨hU, hV⟩)⟩
  · intro h
    ext p
    have hp := @h p
    simp only [Set.mem_sdiff, Set.mem_union, Set.mem_inter_iff] at hp ⊢
    tauto

/-- What `Subtract` gives for an `X` that lies in `U`. -/
theorem subtract_inside_iff (hX : X ⊆ U) :
    V \ Y = (X \ Y) \ (U \ V) ↔ V \ Y ⊆ X := by
  constructor
  · intro h p hp
    rw [h] at hp
    exact hp.1.1
  · intro h
    ext p
    have hXp := @hX p
    have hYp := @h p
    simp only [Set.mem_sdiff] at hYp ⊢
    tauto

end

end FreeRegion

namespace FreeRegion
variable {α P : Type} [IAtomicRegion α] (A : Atoms α P IAtomicRegion.intersect)

/-- One difference or nothing is left of the first without the second: all its points are in the
second, or its atom is in none of the second's, or so it is with the holes. -/
inductive LeavesOne : FreeRegion α → FreeRegion α → Prop
  | nothing {r s : FreeRegion α} (h : r.points A ⊆ s.points A) : LeavesOne r s
  | apart {x x' : α} {y y' : FreeRegion α} (h : ¬A.points x ⊆ A.points x') :
      LeavesOne (freeDifference x y) (freeDifference x' y')
  | hole {x x' : α} {y y' : FreeRegion α} (h : LeavesOne y' y) :
      LeavesOne (freeDifference x y) (freeDifference x' y')
  | list {x : α} {y : FreeRegion α} {zs : List (FreeRegion α)}
      (h : ∀ z ∈ zs, ∃ x' y', z = freeDifference x' y' ∧ ¬A.points x ⊆ A.points x') :
      LeavesOne (freeDifference x y) (freeUnion zs)

/-- Some region of a list lies in `r`. -/
def MemberInside (xs : List (FreeRegion α)) (r : FreeRegion α) : Prop :=
  ∃ s ∈ xs, s.points A ⊆ r.points A

end FreeRegion

namespace FreeRegionCall
open FreeRegion (pointsOf LeavesOne MemberInside)

variable {α P : Type} [IAtomicRegion α] [DecidableEq α]
  (A : Atoms α P IAtomicRegion.intersect)

/-- The call does not run into a slip of `Union` or `Subtract`. -/
def Plain : FreeRegionCall α → Prop
  | union (.freeDifference x y) (.freeDifference x' y') =>
    ∀ z, IAtomicRegion.intersect x x' = some z →
      if z = x' then y.points A ⊆ A.points x'
      else if z = x then y'.points A ⊆ A.points x
      else A.points z ⊆ y.points A ∩ y'.points A
  | union (.freeDifference x _) (.freeUnion (.freeDifference z _ :: .freeDifference z' _ :: _)) =>
    A.Nested z x ∨ A.Nested z z'
  | subtract (.freeUnion xs) other => ∀ r ∈ xs, LeavesOne A r other
  | subtract (.freeDifference x y) (.freeDifference x' y') =>
    IAtomicRegion.intersect x x' = some x → y'.points A \ y.points A ⊆ A.points x
  | _ => True

/-- Nor does it compare a list with a difference of which its members do not tell whether the list
includes it. -/
def Settled : FreeRegionCall α → Prop
  | compareTo (.freeUnion xs) (.freeDifference x y) =>
    MemberInside A xs (.freeDifference x y) ↔
      (FreeRegion.freeDifference x y).points A ⊆ pointsOf A xs
  | c => c.Plain A

/-- The call does not run into a slip of the code; `fits` says which holes an intersection may keep
in an atom. -/
def Harmless (fits : α → Set P → Prop) : FreeRegionCall α → Prop
  | compareTo (.freeUnion xs) (.freeDifference x y) =>
    MemberInside A xs (.freeDifference x y) →
      (FreeRegion.freeDifference x y).points A ⊆ pointsOf A xs
  | intersect (.freeDifference x y) (.freeDifference x' y') =>
    IAtomicRegion.intersect x x' = some x' →
      fits x' (y.points A ∪ y'.points A) ∨
        Rec.Safe freeRegionBody (Settled A) (.compareTo y (.freeDifference x' y')) ∧
          (A.points x' \ y'.points A ⊆ y.points A ∨
            Disjoint (y.points A) (A.points x' \ y'.points A))
  | intersect (.freeUnion xs) other => xs.length = 1 ∨ xs = [] ∧ other.isEmpty = true
  | intersect (.freeDifference ..) (.freeUnion xs) => xs.length = 1
  | c => c.Plain A

variable {A} {fits : α → Set P → Prop} {c : FreeRegionCall α}

theorem Settled.plain (h : c.Settled A) : c.Plain A := by
  unfold Settled at h
  split at h
  · trivial
  · exact h

theorem Harmless.plain (h : c.Harmless A fits) : c.Plain A := by
  unfold Harmless at h
  split at h
  · trivial
  · trivial
  · trivial
  · trivial
  · exact h

end FreeRegionCall

namespace FreeRegion
open Rec

variable {α P : Type} [IAtomicRegion α] [DecidableEq α] {A : Atoms α P IAtomicRegion.intersect}

/-! ### Unions that never end -/

section
variable {x x' x'' : α} {y y' y'' r : FreeRegion α} {rest : List (FreeRegion α)}

/-- Two differences neither of which lies in the other become a list of two. -/
theorem union_apart {R : FreeRegionCall α → FreeRegionAnswer α → Prop} (h : ¬ A.Nested x x')
    (hr : ((freeDifference x y).union (freeDifference x' y')).Results R r) :
    ∃ u u', r = freeUnion [freeDifference x u, freeDifference x' u'] := by
  simp only [union, isEmpty, Bool.false_eq_true, if_false] at hr
  split at hr
  · exact ⟨y, y', hr⟩
  · next z hz =>
      have hx' : z ≠ x' := by
        rintro rfl
        exact h (.inr (Atoms.left_subset hz))
      have hx : z ≠ x := by
        rintro rfl
        exact h (.inl (Atoms.right_subset hz))
      rw [if_neg hx', if_neg hx] at hr
      simp only [results_bind, results_pure] at hr
      obtain ⟨u, -, u', -, hr⟩ := hr
      exact ⟨u, u', hr⟩

/-- The union with a list never ends if its first member and the other operand, and its first and
its second member, are apart. -/
theorem not_computes_union (h : ¬ A.Nested x' x) (h' : ¬ A.Nested x' x'')
    {o : FreeRegionAnswer α} : ¬ Computes freeRegionBody (.union (freeDifference x y)
      (freeUnion (freeDifference x' y' :: freeDifference x'' y'' :: rest))) o := by
  rintro ⟨n, hn⟩
  induction n generalizing x x'' y y' y'' rest o with
  | zero => exact hn
  | succ n ih =>
    -- the second member is added to the union of the first with the other operand, again a list
    simp only [ComputesIn, freeRegionBody, results_map, results_bind, union, isEmpty,
      List.isEmpty_cons, Bool.false_eq_true, if_false, List.foldlM_cons,
      FreeRegionCall.results_region] at hn
    obtain ⟨-, ⟨u, hu, v, hv, -⟩, -⟩ := hn
    cases n with
    | zero => exact hu
    | succ n =>
      simp only [ComputesIn, freeRegionBody, results_map, Sum.inl.injEq, exists_eq_right] at hu
      obtain ⟨w, w', rfl⟩ := union_apart h hu
      exact ih h' h hv

end

end FreeRegion

end VSharp
