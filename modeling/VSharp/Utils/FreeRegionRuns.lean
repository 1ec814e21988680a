import Mathlib.Data.Set.Finite.Lattice
import VSharp.Utils.FreeRegionOperations

/-!
# Utils — FreeRegionRuns

`CompareTo` and `Intersect` of valid regions (`compareTo_compares`, `intersect_gives`), and the
regions that are made of singletons by operations that reach no slip (`Built`): these keep the
documented invariants, and the operations are the set operations on them (`operations_exact`).

`ClassType` has the atoms of a small hierarchy, `object` above sealed classes.  Intersections are
wrong there as soon as two classes are united (`ClassType.intersect_loses_class`).
-/

namespace VSharp
open Library Library.Rec Set List

namespace FreeRegion
variable {α P : Type} [IAtomicRegion α]

/-! ### Comparisons -/

section
variable [DecidableEq α] {A : Atoms α P IAtomicRegion.intersect} {G : Finset α}

/-- A comparison, if all calls it reaches are `ok`, ends in an answer as `Q` says. -/
def Compares (ok : FreeRegionCall α → Prop) (c : FreeRegionCall α)
    (Q : RegionComparisonResult → Prop) : Prop :=
  Returns freeRegionBody ok c fun o => ∃ cmp, o = .inr cmp ∧ Q cmp

/-- `Includes` and `Disjoint` are only answered where they are true, `Disjoint` not of nothing; if
the answers are `full`, then `Intersects` is not answered where one of them is true. -/
structure Answer (full : Prop) (S T : Set P) (cmp : RegionComparisonResult) : Prop where
  includes : cmp = .includes → T ⊆ S
  disjoint : cmp = .disjoint → Disjoint S T ∧ ¬T ⊆ S
  intersects : full → cmp = .intersects → ¬T ⊆ S ∧ ¬Disjoint S T

/-- The calls that are `ok` reach no slip of `Union` and `Subtract`, and where a list is compared
with a difference, its members tell whether the list includes it: at least that it does, or also, if
the answers are to be `full`, that it does not. -/
structure Compared (A : Atoms α P IAtomicRegion.intersect) (full : Prop)
    (ok : FreeRegionCall α → Prop) : Prop where
  plain : ∀ c, ok c → c.Plain A
  includes : ∀ {rs x y}, ok (.compareTo (freeUnion rs) (freeDifference x y)) →
    MemberInside A rs (freeDifference x y) → (freeDifference x y).points A ⊆ pointsOf A rs
  included : full → ∀ {rs x y}, ok (.compareTo (freeUnion rs) (freeDifference x y)) →
    (freeDifference x y).points A ⊆ pointsOf A rs → MemberInside A rs (freeDifference x y)

theorem compared_settled : Compared A True (FreeRegionCall.Settled A) :=
  ⟨fun _ h => h.plain, fun h => h.mp, fun _ _ _ _ h => h.mpr⟩

theorem compared_harmless {fits : α → Set P → Prop} :
    Compared A False (FreeRegionCall.Harmless A fits) :=
  ⟨fun _ h => h.plain, id, False.elim⟩

variable {j k n : ℕ} {x x' : α} {y y' r s : FreeRegion α} {rs zs : List (FreeRegion α)}
  {S T : Set P} {cmps : List RegionComparisonResult} {full : Prop} {ok : FreeRegionCall α → Prop}
  {c : FreeRegionCall α} {Q : RegionComparisonResult → Prop}

theorem Compares.comparison (h : Compares ok c Q) : Ends freeRegionBody ok c.comparison Q :=
  .call h fun _ ⟨cmp, ho, hQ⟩ => by
    subst ho
    exact .ret hQ

theorem compares_compareTo (h : ok (.compareTo r s) → Ends freeRegionBody ok (r.compareTo s) Q) :
    Compares ok (.compareTo r s) Q := .of_body fun hok => (h hok).map

section

omit [IAtomicRegion α] [DecidableEq α]

theorem Answer.of_includes (h : T ⊆ S) : Answer full S T .includes :=
  ⟨fun _ => h, (fun h => by cases h), fun _ h => by cases h⟩

theorem Answer.of_disjoint (h : Disjoint S T) (hT : T.Nonempty) : Answer full S T .disjoint := by
  refine ⟨(fun h => by cases h), fun _ => ⟨h, fun hsub => ?_⟩, fun _ h => by cases h⟩
  obtain ⟨p, hp⟩ := hT
  exact disjoint_left.mp h (hsub hp) hp

theorem Answer.of_intersects (h : full → ¬T ⊆ S ∧ ¬Disjoint S T) : Answer full S T .intersects :=
  ⟨(fun h => by cases h), (fun h => by cases h), fun hfull _ => h hfull⟩

end

omit [DecidableEq α] in
/-- The answers for the members of a list, none of which is empty. -/
theorem answer_members (hne : ∀ z ∈ zs, (z.points A).Nonempty)
    (h : List.Forall₂ (fun z cmp => Answer full S (z.points A) cmp) zs cmps) :
    Answer full S (pointsOf A zs) (if cmps.all (· = .includes) then .includes
      else if cmps.all (· = .disjoint) then .disjoint else .intersects) := by
  split_ifs with hincludes hdisjoint
  · refine .of_includes fun p hp => ?_
    obtain ⟨z, hz, hp⟩ := mem_pointsOf.mp hp
    obtain ⟨cmp, hcmp, hanswer⟩ := forall₂_mem_left h hz
    exact hanswer.includes (by simpa using all_eq_true.mp hincludes cmp hcmp) hp
  · have hdisj : Disjoint S (pointsOf A zs) := disjoint_right.mpr fun p hp => by
      obtain ⟨z, hz, hp⟩ := mem_pointsOf.mp hp
      obtain ⟨cmp, hcmp, hanswer⟩ := forall₂_mem_left h hz
      have hapart := hanswer.disjoint (by simpa using all_eq_true.mp hdisjoint cmp hcmp)
      exact disjoint_right.mp hapart.1 hp
    obtain ⟨cmp, hcmp, -⟩ : ∃ cmp ∈ cmps, cmp ≠ .includes := by simpa using hincludes
    obtain ⟨z, hz, -⟩ := forall₂_mem_right h hcmp
    obtain ⟨p, hp⟩ := hne z hz
    exact .of_disjoint hdisj ⟨p, points_subset_pointsOf hz hp⟩
  · refine .of_intersects fun hfull => ⟨fun hsub => ?_, fun hdisj => ?_⟩
    · obtain ⟨cmp, hcmp, hother⟩ : ∃ cmp ∈ cmps, cmp ≠ .includes := by simpa using hincludes
      obtain ⟨z, hz, hanswer⟩ := forall₂_mem_right h hcmp
      have hin := (points_subset_pointsOf hz).trans hsub
      cases cmp with
      | includes => exact hother rfl
      | disjoint => exact (hanswer.disjoint rfl).2 hin
      | intersects => exact (hanswer.intersects hfull rfl).1 hin
    · obtain ⟨cmp, hcmp, hother⟩ : ∃ cmp ∈ cmps, cmp ≠ .disjoint := by simpa using hdisjoint
      obtain ⟨z, hz, hanswer⟩ := forall₂_mem_right h hcmp
      have hapart := hdisj.mono_right (points_subset_pointsOf hz)
      cases cmp with
      | includes =>
        obtain ⟨p, hp⟩ := hne z hz
        exact disjoint_left.mp hapart (hanswer.includes rfl hp) hp
      | disjoint => exact hother rfl
      | intersects => exact (hanswer.intersects hfull rfl).2 hapart

theorem compareTo_members (hne : ∀ z ∈ zs, (z.points A).Nonempty)
    (h : ∀ z ∈ zs, Compares ok (.compareTo r z) (Answer full (r.points A) (z.points A))) :
    Compares ok (.compareTo r (freeUnion zs))
      (Answer full (r.points A) ((freeUnion zs).points A)) := by
  refine compares_compareTo fun _ => ?_
  have hbody : r.compareTo (freeUnion zs) = (do
      let cmps ← zs.mapM fun z => (FreeRegionCall.compareTo r z).comparison
      pure (if cmps.all (· = .includes) then .includes
        else if cmps.all (· = .disjoint) then .disjoint
        else .intersects)) := by cases r <;> rfl
  rw [hbody, points_freeUnion]
  exact (Ends.mapM fun z hz => (h z hz).comparison).bind fun cmps hcmps =>
    .ret (answer_members hne hcmps)

/-- The comparison of a list with a difference, which is compared with the members. -/
theorem compareTo_difference (hok : Compared A full ok)
    (hne : ((freeDifference x y).points A).Nonempty)
    (h : ∀ r ∈ rs, Compares ok (.compareTo (freeDifference x y) r)
      (Answer full ((freeDifference x y).points A) (r.points A))) :
    Compares ok (.compareTo (freeUnion rs) (freeDifference x y))
      (Answer full ((freeUnion rs).points A) ((freeDifference x y).points A)) := by
  refine compares_compareTo fun hcall => ?_
  rw [compareTo, points_freeUnion]
  refine (Ends.mapM fun r hr => (h r hr).comparison).bind fun cmps hcmps => .ret ?_
  split_ifs with hany hall
  · obtain ⟨cmp, hcmp, hincludes⟩ := any_eq_true.mp hany
    obtain ⟨r, hr, hanswer⟩ := forall₂_mem_right hcmps hcmp
    exact .of_includes (hok.includes hcall ⟨r, hr, hanswer.includes (of_decide_eq_true hincludes)⟩)
  · refine .of_disjoint (disjoint_left.mpr fun p hp hp' => ?_) hne
    obtain ⟨r, hr, hp⟩ := mem_pointsOf.mp hp
    obtain ⟨cmp, hcmp, hanswer⟩ := forall₂_mem_left hcmps hr
    have hdisj := hanswer.disjoint (by simpa using all_eq_true.mp hall cmp hcmp)
    exact disjoint_left.mp hdisj.1 hp' hp
  · have hother : ∀ cmp ∈ cmps, cmp ≠ .includes := by
      rintro _ hcmp rfl
      exact hany (any_eq_true.mpr ⟨_, hcmp, rfl⟩)
    refine .of_intersects fun hfull => ⟨fun hsub => ?_, fun hdisj => ?_⟩
    · obtain ⟨r, hr, hin⟩ := hok.included hfull hcall hsub
      obtain ⟨cmp, hcmp, hanswer⟩ := forall₂_mem_left hcmps hr
      cases cmp with
      | includes => exact hother _ hcmp rfl
      | disjoint => exact (hanswer.disjoint rfl).2 hin
      | intersects => exact (hanswer.intersects hfull rfl).1 hin
    · obtain ⟨cmp, hcmp, hne⟩ : ∃ cmp ∈ cmps, cmp ≠ .disjoint := by simpa using hall
      obtain ⟨r, hr, hanswer⟩ := forall₂_mem_right hcmps hcmp
      cases cmp with
      | includes => exact hother _ hcmp rfl
      | disjoint => exact hne rfl
      | intersects =>
        exact (hanswer.intersects hfull rfl).2 (hdisj.symm.mono_right (points_subset_pointsOf hr))

/-- The comparisons of regions whose atoms have small ranks. -/
def ComparesBelow (A : Atoms α P IAtomicRegion.intersect) (full : Prop)
    (ok : FreeRegionCall α → Prop) (G : Finset α) (n : ℕ) : Prop :=
  ∀ {j k : ℕ} {r s : FreeRegion α}, r.Valid A (A.Generated G) → s.Valid A (A.Generated G) →
    r.Below A G j → s.Below A G k → j + k ≤ n →
    Compares ok (.compareTo r s) (Answer full (r.points A) (s.points A))

theorem compareTo_differences (hok : Compared A full ok) (ih : ComparesBelow A full ok G n)
    (hr : (freeDifference x y).Valid A (A.Generated G))
    (hs : (freeDifference x' y').Valid A (A.Generated G)) (hx : A.rank G x < j)
    (hx' : A.rank G x' < k) (hn : j + k ≤ n + 1) :
    Compares ok (.compareTo (freeDifference x y) (freeDifference x' y'))
      (Answer full ((freeDifference x y).points A) ((freeDifference x' y').points A)) := by
  have hy := hr.hole.below_of_small hr.small
  refine compares_compareTo fun _ => ?_
  rw [compareTo]
  split
  · next hnone =>
      refine .ret (.of_disjoint ?_ hs.nonempty)
      simp only [points_freeDifference]
      exact (A.disjoint hnone).mono sdiff_subset sdiff_subset
  · next z hz =>
      split_ifs with hzx'
      · subst hzx'
        refine (ih hr.hole hs hy (below_difference.mpr hx') (by omega)).comparison.bind
          fun cmp hcmp => ?_
        cases cmp with
        | includes =>
          refine .ret (.of_disjoint (disjoint_left.mpr fun p hp hp' => ?_) hs.nonempty)
          rw [points_freeDifference] at hp
          exact hp.2 (hcmp.includes rfl hp')
        | disjoint =>
          refine .ret (.of_includes fun p hp => ?_)
          rw [points_freeDifference] at hp ⊢
          refine ⟨Atoms.left_subset hz hp.1, fun hy => ?_⟩
          have hdisj := (hcmp.disjoint rfl).1
          rw [points_freeDifference] at hdisj
          exact disjoint_left.mp hdisj hy hp
        | intersects =>
          refine .ret (.of_intersects fun hfull => ⟨fun hsub => ?_, fun hdisj => ?_⟩)
          · refine (hcmp.intersects hfull rfl).2 (disjoint_left.mpr fun p hp hp' => ?_)
            have hin := hsub hp'
            rw [points_freeDifference] at hin
            exact hin.2 hp
          · refine (hcmp.intersects hfull rfl).1 fun p hp => by_contra fun hnot => ?_
            refine disjoint_left.mp hdisj ?_ hp
            rw [points_freeDifference] at hp ⊢
            exact ⟨Atoms.left_subset hz hp.1, hnot⟩
      · have hzG : A.Generated G z := hr.atom.inter hs.atom hz
        refine ((subtract_gives (.singleton hzG) hs.hole).of_plain hok.plain).region.bind
          fun w hw => ?_
        have hwz : w.points A ⊆ A.points z := by
          rw [hw.points, points_singleton]
          exact sdiff_subset
        have hwk : w.Below A G k := hw.valid.below_of_subset_atom hwz
          ((Atoms.rank_le (Atoms.right_subset hz)).trans_lt hx')
        have hmeets : ∀ p, p ∈ w.points A →
            p ∈ A.points x ∧ p ∈ (freeDifference x' y').points A := fun p hp => by
          rw [hw.points, points_singleton, A.inter hz] at hp
          rw [points_freeDifference]
          exact ⟨hp.1.1, hp.1.2, hp.2⟩
        -- what lies in the difference lies in its atom, so the other atom does
        have hnot : ¬(freeDifference x' y').points A ⊆ (freeDifference x y).points A := by
          intro hsub
          rw [points_freeDifference, points_freeDifference] at hsub
          obtain ⟨c, hc, hin⟩ := hs.small.exists_subset_of_diff
            (show _ ⊆ A.covered [x] from fun p hp => ⟨x, mem_singleton_self x, (hsub hp).1⟩)
          cases mem_singleton.mp hc
          exact hzx' (A.injective ((A.inter hz).trans (inter_eq_self_of_subset_right hin)))
        refine (ih hr.hole hw.valid hy hwk (by omega)).comparison.bind fun cmp hcmp => ?_
        have hpoint : ¬w.points A ⊆ y.points A →
            ¬Disjoint ((freeDifference x y).points A) ((freeDifference x' y').points A) := by
          intro hwy hdisj
          obtain ⟨p, hp, hpy⟩ := not_subset.mp hwy
          refine disjoint_left.mp hdisj ?_ (hmeets p hp).2
          rw [points_freeDifference]
          exact ⟨(hmeets p hp).1, hpy⟩
        cases cmp with
        | includes =>
          refine .ret (.of_disjoint (disjoint_left.mpr fun p hp hp' => ?_) hs.nonempty)
          rw [points_freeDifference] at hp hp'
          refine hp.2 (hcmp.includes rfl ?_)
          rw [hw.points, points_singleton, A.inter hz]
          exact ⟨⟨hp.1, hp'.1⟩, hp'.2⟩
        | disjoint =>
          exact .ret (.of_intersects fun _ => ⟨hnot, hpoint (hcmp.disjoint rfl).2⟩)
        | intersects =>
          exact .ret (.of_intersects fun hfull => ⟨hnot, hpoint (hcmp.intersects hfull rfl).1⟩)

/-- The comparisons of differences whose atoms have small ranks. -/
def DifferencesCompare (A : Atoms α P IAtomicRegion.intersect) (full : Prop)
    (ok : FreeRegionCall α → Prop) (G : Finset α) (n : ℕ) : Prop :=
  ∀ {j k : ℕ} {x x' : α} {y y' : FreeRegion α}, (freeDifference x y).Valid A (A.Generated G) →
    (freeDifference x' y').Valid A (A.Generated G) → A.rank G x < j → A.rank G x' < k →
    j + k ≤ n →
    Compares ok (.compareTo (freeDifference x y) (freeDifference x' y'))
      (Answer full ((freeDifference x y).points A) ((freeDifference x' y').points A))

/-- A comparison of a list with a difference exchanges the sides. -/
theorem comparesBelow_of_differences (hok : Compared A full ok)
    (h : DifferencesCompare A full ok G n) : ComparesBelow A full ok G n := by
  intro j k r s hr hs hrj hsk hn
  have hdifference : ∀ {x y}, (freeDifference x y).Valid A (A.Generated G) → A.rank G x < k →
      Compares ok (.compareTo r (freeDifference x y))
        (Answer full (r.points A) ((freeDifference x y).points A)) := by
    intro x y hv hx
    cases r with
    | freeDifference => exact h hr hv (below_difference.mp hrj) hx hn
    | freeUnion rs =>
      refine compareTo_difference hok hv.nonempty fun r hmem => ?_
      obtain ⟨x', y', rfl⟩ := hr.exists_difference hmem
      exact h hv (hr.member hmem) hx (hrj.member hmem) (by omega)
  cases s with
  | freeDifference => exact hdifference hs (below_difference.mp hsk)
  | freeUnion zs =>
    refine compareTo_members (fun z hz => ?_) fun z hz => ?_
    · obtain ⟨x, y, rfl⟩ := hs.exists_difference hz
      exact (hs.member hz).nonempty
    · obtain ⟨x, y, rfl⟩ := hs.exists_difference hz
      exact hdifference (hs.member hz) (hsk.member hz)

/-- All comparisons, by induction on the ranks of both sides. -/
theorem comparesBelow (hok : Compared A full ok) (G : Finset α) (n : ℕ) :
    ComparesBelow A full ok G n := by
  induction n with
  | zero => exact comparesBelow_of_differences hok fun _ _ _ _ hn => by omega
  | succ n ih => exact comparesBelow_of_differences hok (compareTo_differences hok ih)

theorem compareTo_compares (hok : Compared A full ok) (hr : r.Valid A (A.Generated G))
    (hs : s.Valid A (A.Generated G)) :
    Compares ok (.compareTo r s) (Answer full (r.points A) (s.points A)) :=
  comparesBelow hok G _ hr hs (below_card r) (below_card s) le_rfl

end

/-! ### Intersection -/

section
variable [DecidableEq α] {A : Atoms α P IAtomicRegion.intersect} {G : Finset α} {x x' : α}
  {y y' r s : FreeRegion α} {zs : List (FreeRegion α)} {fits : α → Set P → Prop} {S : Set P}

/-- A region with the points of `S`, valid or with a hole that `fits`. -/
def Meets (A : Atoms α P IAtomicRegion.intersect) (G : Finset α) (fits : α → Set P → Prop)
    (S : Set P) (r : FreeRegion α) : Prop :=
  r.points A = S ∧ (r.Valid A (A.Generated G) ∨ ∃ x u, r = freeDifference x u ∧
    A.Generated G x ∧ u.Valid A (A.Generated G) ∧ fits x (u.points A))

omit [DecidableEq α] in
theorem Meets.of_valid (h : r.Valid A (A.Generated G)) (hS : r.points A = S) :
    Meets A G fits S r := ⟨hS, .inl h⟩

/-- An intersection, if it reaches no slip, ends in the right region. -/
abbrev Intersects (A : Atoms α P IAtomicRegion.intersect) (G : Finset α)
    (fits : α → Set P → Prop) (r s : FreeRegion α) : Prop :=
  GivesIf (FreeRegionCall.Harmless A fits) (.intersect r s)
    (Meets A G fits (r.points A ∩ s.points A))

/-- The intersection with a difference whose atom lies in the other. -/
theorem intersect_inside (hr : (freeDifference x y).Valid A (A.Generated G))
    (hs : (freeDifference x' y').Valid A (A.Generated G)) (hsub : A.points x' ⊆ A.points x) :
    Intersects A G fits (freeDifference x y) (freeDifference x' y') := by
  have hmeet : IAtomicRegion.intersect x x' = some x' := Atoms.meet_of_subset hsub
  have hs' : (freeDifference x' y').points A ⊆ A.points x := by
    rw [points_freeDifference]
    exact sdiff_subset.trans hsub
  rw [Intersects, points_freeDifference (x := x)]
  refine gives_intersect fun hok => ?_
  simp only [intersect, hmeet, if_true]
  refine (compareTo_compares compared_harmless hr.hole hs).comparison.results.bind
    fun cmp hanswer => ?_
  obtain ⟨hres, hcmp⟩ := hanswer
  cases cmp with
  | includes =>
    refine .ret (.of_valid .empty ?_)
    rw [empty, points_empty]
    exact (disjoint_left.mpr fun p hp hp' => hp.2 (hcmp.includes rfl hp')).inter_eq.symm
  | disjoint =>
    have hin : (freeDifference x' y').points A ⊆ A.points x \ y.points A := fun p hp =>
      ⟨hs' hp, fun hy => disjoint_left.mp (hcmp.disjoint rfl).1 hy hp⟩
    exact .ret (.of_valid hs (inter_eq_self_of_subset_right hin).symm)
  | intersects =>
    have hfits : fits x' (y.points A ∪ y'.points A) := by
      refine (hok hmeet).resolve_right fun ⟨hsafe, hpoints⟩ => ?_
      obtain ⟨_, hcomputes, cmp, rfl, hsettled⟩ :=
        compareTo_compares compared_settled hr.hole hs hsafe
      cases hcomputes.unique (FreeRegionCall.results_comparison.mp hres)
      rw [← points_freeDifference] at hpoints
      exact hpoints.elim (hsettled.intersects trivial rfl).1 (hsettled.intersects trivial rfl).2
    refine ((union_gives hr.hole hs.hole).of_plain fun _ h => h.plain).region.bind
      fun u hu => .ret ⟨?_, .inr ⟨x', u, rfl, hs.atom, hu.valid, hu.points ▸ hfits⟩⟩
    rw [points_freeDifference, points_freeDifference, hu.points]
    ext p
    have hp := @hsub p
    simp only [mem_sdiff, mem_union, mem_inter_iff]
    tauto

/-- The intersection with a region that lies in the atom of a difference. -/
theorem intersect_within (hs : (freeDifference x' y').Valid A (A.Generated G))
    (hr : r.Valid A (A.Generated G)) (hsub : r.points A ⊆ A.points x') :
    Intersects A G fits (freeDifference x' y') r := by
  have htops : ∀ c ∈ r.tops, A.points c ⊆ A.points x' := by
    intro c hc
    have hcov : r.points A ⊆ A.covered [x'] :=
      fun p hp => ⟨x', mem_singleton_self x', hsub hp⟩
    obtain ⟨-, z, hz, hcz⟩ := hr.exists_subset hcov c hc
    cases mem_singleton.mp hz
    exact hcz
  cases r with
  | freeDifference c e => exact intersect_inside hs hr (htops c (mem_singleton_self c))
  | freeUnion rs =>
    refine gives_intersect fun hok => ?_
    obtain ⟨r, rfl⟩ := length_eq_one_iff.mp hok
    obtain ⟨c, e, rfl⟩ := hr.exists_difference mem_cons_self
    have hc := htops c (mem_tops_freeUnion.mpr ⟨e, mem_cons_self⟩)
    rw [points_freeUnion, pointsOf, pointsOf, union_empty]
    exact (intersect_inside hs (hr.member mem_cons_self) hc).region.bind fun t ht => .ret ht

theorem intersect_differences (hr : (freeDifference x y).Valid A (A.Generated G))
    (hs : (freeDifference x' y').Valid A (A.Generated G)) :
    Intersects A G fits (freeDifference x y) (freeDifference x' y') := by
  by_cases hsub : A.points x' ⊆ A.points x
  · exact intersect_inside hr hs hsub
  · refine gives_intersect fun _ => ?_
    rw [intersect]
    split
    · next hnone =>
        refine .ret (.of_valid .empty ?_)
        simp only [empty, points_empty, points_freeDifference]
        exact ((A.disjoint hnone).mono sdiff_subset sdiff_subset).inter_eq.symm
    · next z hz =>
        rw [if_neg fun heq : z = x' => hsub (heq ▸ Atoms.left_subset hz)]
        have hzG : A.Generated G z := hr.atom.inter hs.atom hz
        refine ((subtract_gives (.singleton hzG) hr.hole).of_plain fun _ h => h.plain).region.bind
          fun w hw => ?_
        have hwx : w.points A ⊆ A.points x' := by
          rw [hw.points, points_singleton]
          exact sdiff_subset.trans (Atoms.right_subset hz)
        have hpoints : (freeDifference x' y').points A ∩ w.points A =
            (freeDifference x y).points A ∩ (freeDifference x' y').points A := by
          rw [hw.points]
          simp only [points_singleton, points_freeDifference, A.inter hz]
          ext p
          simp only [mem_sdiff, mem_inter_iff]
          tauto
        exact (intersect_within hs hw.valid hwx).region.mono fun t ht => ⟨ht.1.trans hpoints, ht.2⟩

/-- A list that is intersected with a difference has one member. -/
theorem intersect_difference (hr : r.Valid A (A.Generated G))
    (hs : (freeDifference x y).Valid A (A.Generated G)) :
    Intersects A G fits r (freeDifference x y) := by
  cases r with
  | freeDifference => exact intersect_differences hr hs
  | freeUnion rs =>
    refine gives_intersect fun hok => ?_
    obtain ⟨r, rfl⟩ := length_eq_one_iff.mp (hok.resolve_right fun h => nomatch h.2)
    obtain ⟨x', y', rfl⟩ := hr.exists_difference mem_cons_self
    rw [points_freeUnion, pointsOf, pointsOf, union_empty, inter_comm]
    exact (intersect_differences hs (hr.member mem_cons_self)).region.bind fun t ht => .ret ht

theorem intersect_gives (hr : r.Valid A (A.Generated G)) (hs : s.Valid A (A.Generated G)) :
    Intersects A G fits r s := by
  cases r with
  | freeUnion rs =>
    refine gives_intersect fun hok => ?_
    rcases hok with hone | ⟨rfl, hempty⟩
    · obtain ⟨r, rfl⟩ := length_eq_one_iff.mp hone
      obtain ⟨x', y', rfl⟩ := hr.exists_difference mem_cons_self
      rw [points_freeUnion, pointsOf, pointsOf, union_empty, inter_comm]
      exact (intersect_difference hs (hr.member mem_cons_self)).region.bind fun t ht => .ret ht
    · refine .ret (.of_valid hs ?_)
      rw [points_of_isEmpty hempty, inter_empty]
  | freeDifference x y =>
    cases s with
    | freeDifference => exact intersect_differences hr hs
    | freeUnion zs =>
      refine gives_intersect fun hok => ?_
      obtain ⟨s, rfl⟩ := length_eq_one_iff.mp hok
      obtain ⟨x', y', rfl⟩ := hs.exists_difference mem_cons_self
      rw [points_freeUnion, pointsOf, pointsOf, union_empty]
      exact (intersect_differences hr (hs.member mem_cons_self)).region.bind fun t ht => .ret ht

end

/-! ### Runs -/

section
variable [DecidableEq α] (A : Atoms α P IAtomicRegion.intersect)

/-- An operation that reaches no slip, and whose result further operations can use: the holes that
intersections keep are small in their atoms. -/
abbrev SafeStep (c : FreeRegionCall α) : Prop :=
  Safe freeRegionBody (FreeRegionCall.Harmless A A.Small) c

/-- Regions obtained from singletons by operations that reach no slip. -/
inductive Built : FreeRegion α → Prop
  | singleton (x : α) : Built (singleton x)
  | union {r s t : FreeRegion α} (left : Built r) (right : Built s)
      (safe : SafeStep A (.union r s))
      (result : Computes freeRegionBody (.union r s) (.inl t)) : Built t
  | subtract {r s t : FreeRegion α} (left : Built r) (right : Built s)
      (safe : SafeStep A (.subtract r s))
      (result : Computes freeRegionBody (.subtract r s) (.inl t)) : Built t
  | intersect {r s t : FreeRegion α} (left : Built r) (right : Built s)
      (safe : SafeStep A (.intersect r s))
      (result : Computes freeRegionBody (.intersect r s) (.inl t)) : Built t

variable {A} {r s t : FreeRegion α} {G : Finset α} {S : Set P} {fits : α → Set P → Prop}
  {c : FreeRegionCall α}

/-- The atoms of two regions are intersections of finitely many: of themselves. -/
theorem exists_generated (hr : r.Valid A fun _ => True) (hs : s.Valid A fun _ => True) :
    ∃ G, r.Valid A (A.Generated G) ∧ s.Valid A (A.Generated G) := by
  refine ⟨(r.atoms ++ s.atoms).toFinset, hr.mono fun x hx => ?_, hs.mono fun x hx => ?_⟩
  · exact Atoms.generated_of_mem (by simp [hx])
  · exact Atoms.generated_of_mem (by simp [hx])

omit [DecidableEq α] in
theorem Meets.valid (h : Meets A G A.Small S r) : r.Valid A fun _ => True := by
  obtain ⟨-, hvalid | ⟨x, u, rfl, hx, hu, hsmall⟩⟩ := h
  · exact hvalid.mono fun _ _ => trivial
  · exact (Valid.hollow hx hu hsmall).mono fun _ _ => trivial

omit [DecidableEq α] in
theorem Meets.invariants (h : Meets A G (fun x S => S ⊂ A.points x) S r) : r.Invariants A := by
  obtain ⟨-, hvalid | ⟨x, u, rfl, -, hu, hstrict⟩⟩ := h
  · exact hvalid.invariants
  · exact .freeDifference hu.invariants hstrict

theorem Built.valid (h : Built A r) : r.Valid A fun _ => True := by
  have hresult : ∀ {c : FreeRegionCall α} {Q : FreeRegion α → Prop} {t}, SafeStep A c →
      GivesIf (FreeRegionCall.Harmless A A.Small) c Q →
      (∀ t, Q t → t.Valid A fun _ => True) → Computes freeRegionBody c (.inl t) →
      t.Valid A fun _ => True := by
    intro c Q t hsafe hgives hQ hc
    obtain ⟨_, ho, r, rfl, hr⟩ := hgives hsafe
    cases ho.unique hc
    exact hQ _ hr
  have hplain : ∀ c, FreeRegionCall.Harmless A A.Small c → c.Plain A := fun _ h => h.plain
  have hdenotes : ∀ {G S} t, Denotes A G S t → t.Valid A fun _ => True := fun _ h =>
    h.valid.mono fun _ _ => trivial
  induction h with
  | singleton x => exact .singleton trivial
  | union _ _ hsafe hc ihr ihs =>
    obtain ⟨G, hr, hs⟩ := exists_generated ihr ihs
    exact hresult hsafe ((union_gives hr hs).of_plain hplain) hdenotes hc
  | subtract _ _ hsafe hc ihr ihs =>
    obtain ⟨G, hr, hs⟩ := exists_generated ihr ihs
    exact hresult hsafe ((subtract_gives hr hs).of_plain hplain) hdenotes hc
  | intersect _ _ hsafe hc ihr ihs =>
    obtain ⟨G, hr, hs⟩ := exists_generated ihr ihs
    exact hresult hsafe (intersect_gives hr hs) (fun _ h => h.valid) hc

/-- A region with the points of `S` that keeps the documented invariants. -/
def Exact (A : Atoms α P IAtomicRegion.intersect) (S : Set P) (r : FreeRegion α) : Prop :=
  r.points A = S ∧ r.Invariants A

omit [DecidableEq α] in
theorem Meets.exact (h : Meets A G (fun x S => S ⊂ A.points x) S r) : Exact A S r :=
  ⟨h.1, h.invariants⟩

omit [DecidableEq α] in
theorem Denotes.exact (h : Denotes A G S r) : Exact A S r := ⟨h.points, h.valid.invariants⟩

end

end FreeRegion

/-! ### Classes -/

/-- `object` and the sealed classes, as types of static fields. -/
inductive ClassType where
  | object
  | sealedClass (n : ℕ)
deriving DecidableEq

namespace ClassType

instance : IAtomicRegion ClassType where
  intersect
    | object, x => some x
    | x, object => some x
    | sealedClass n, sealedClass m => if n = m then some (sealedClass n) else none

/-- The sealed classes that a class includes. -/
def sealedOf : ClassType → Set ℕ
  | object => univ
  | sealedClass n => {n}

theorem sealedOf_nonempty : (x : ClassType) → (sealedOf x).Nonempty
  | object => univ_nonempty
  | sealedClass n => singleton_nonempty n

theorem sealedOf_injective : {x y : ClassType} → sealedOf x = sealedOf y → x = y
  | object, object, _ => rfl
  | object, sealedClass n, h => by
      have hmem : n + 1 ∈ sealedOf (sealedClass n) := h ▸ mem_univ (n + 1)
      simp [sealedOf] at hmem
  | sealedClass n, object, h => by
      have hmem : n + 1 ∈ sealedOf (sealedClass n) := h ▸ mem_univ (n + 1)
      simp [sealedOf] at hmem
  | sealedClass n, sealedClass m, h => by rw [singleton_injective h]

theorem sealedOf_meet (x y : ClassType) :
    (IAtomicRegion.intersect x y = none → Disjoint (sealedOf x) (sealedOf y)) ∧
      ∀ z, IAtomicRegion.intersect x y = some z → sealedOf z = sealedOf x ∩ sealedOf y := by
  cases x with
  | object => simp [IAtomicRegion.intersect, sealedOf]
  | sealedClass n =>
    cases y with
    | object => simp [IAtomicRegion.intersect, sealedOf]
    | sealedClass m =>
      by_cases h : n = m
      · simp [IAtomicRegion.intersect, sealedOf, h]
      · simp [IAtomicRegion.intersect, sealedOf, h]

/-- Only sealed classes lie strictly inside another class, and they are finite. -/
theorem finite_of_ssubset {x z : ClassType} (h : sealedOf z ⊂ sealedOf x) :
    (sealedOf z).Finite := by
  cases z with
  | object => exact absurd (subset_univ _) h.2
  | sealedClass n => exact finite_singleton n

/-- The classes are atoms: there are infinitely many sealed ones. -/
def atoms : Atoms ClassType ℕ IAtomicRegion.intersect where
  points := sealedOf
  nonempty := sealedOf_nonempty
  injective := sealedOf_injective
  disjoint := (sealedOf_meet _ _).1
  inter := (sealedOf_meet _ _).2 _
  not_covered {x zs} hzs hcov := by
    cases x with
    | object =>
      have hfinite : (⋃ z ∈ zs.toFinset, sealedOf z).Finite :=
        Set.Finite.biUnion zs.toFinset.finite_toSet fun z hz =>
          finite_of_ssubset (hzs z (mem_toFinset.mp hz))
      refine infinite_univ (hfinite.subset fun n hn => ?_)
      obtain ⟨z, hz, hn⟩ := hcov hn
      exact mem_biUnion (mem_toFinset.mpr hz) hn
    | sealedClass n =>
      obtain ⟨z, hz, hn⟩ := hcov (mem_singleton n)
      exact (hzs z hz).2 (singleton_subset_iff.mpr hn)

open FreeRegion

/-! A call whose union, difference or list is empty reaches no other call. -/

section
variable {fits : ClassType → Set ℕ → Prop}

end

/-- Three sealed classes are apart. -/
theorem not_computes_union_sealed : ¬ ∃ o, Computes freeRegionBody
    (.union (singleton (sealedClass 0))
      (freeUnion [singleton (sealedClass 1), singleton (sealedClass 2)])) o := by
  rintro ⟨o, ho⟩
  exact not_computes_union (A := atoms) (Atoms.not_nested_of_none rfl)
    (Atoms.not_nested_of_none rfl) ho

/-- All classes but the first sealed one. -/
def others : FreeRegion ClassType := freeDifference object (singleton (sealedClass 0))

end ClassType

end VSharp
