import VSharp.Utils.FreeRegionForms

/-!
# Utils — FreeRegionOperations

`Union` and `Subtract` of valid regions, where no call reaches a slip: the calls end, in valid
regions with the right points (`union_gives`, `subtract_gives`).

* The operations of two differences call operations of holes and of the intersection of the atoms,
  whose ranks are smaller (`subtract_differences`, `union_differences`); `Union` also calls
  `Subtract` of a hole, which is done first.
* Members of lists are added one after the other.  The union of two differences is a difference or
  a list of two, of the same atoms (`Joined`), so the list stays `Narrow`; a list of two is added to
  a difference in at most four steps (`DifferencesUnion.narrow`).
-/

namespace VSharp
open Library Library.Rec Set

namespace FreeRegion
variable {α P : Type} [IAtomicRegion α]

/-! ### Calls -/

section
variable [DecidableEq α] (A : Atoms α P IAtomicRegion.intersect)

/-- A call, if all calls it reaches are `ok`, ends in a region as `Q` says. -/
def GivesIf (ok : FreeRegionCall α → Prop) (c : FreeRegionCall α) (Q : FreeRegion α → Prop) : Prop :=
  Returns freeRegionBody ok c fun o => ∃ r, o = .inl r ∧ Q r

/-- The same for calls that reach no slip of `Union` and `Subtract`. -/
abbrev Gives : FreeRegionCall α → (FreeRegion α → Prop) → Prop := GivesIf (FreeRegionCall.Plain A)

variable {A} {ok : FreeRegionCall α → Prop} {c : FreeRegionCall α} {Q : FreeRegion α → Prop}
  {r s : FreeRegion α}

theorem GivesIf.region (h : GivesIf ok c Q) : Ends freeRegionBody ok c.region Q :=
  .call h fun _ ⟨r, ho, hQ⟩ => by
    subst ho
    exact .ret hQ

theorem GivesIf.mono {Q' : FreeRegion α → Prop} (h : GivesIf ok c Q) (hQ : ∀ r, Q r → Q' r) :
    GivesIf ok c Q' := fun hsafe => by
  obtain ⟨_, ho, r, rfl, hr⟩ := h hsafe
  exact ⟨_, ho, r, rfl, hQ r hr⟩

theorem GivesIf.of_plain (h : Gives A c Q) (hok : ∀ c, ok c → c.Plain A) : GivesIf ok c Q :=
  fun hsafe => h fun j hj => hok j (hsafe j hj)

theorem gives_union (h : ok (.union r s) → Ends freeRegionBody ok (r.union s) Q) :
    GivesIf ok (.union r s) Q := .of_body fun hok => (h hok).map

theorem gives_subtract (h : ok (.subtract r s) → Ends freeRegionBody ok (r.subtract s) Q) :
    GivesIf ok (.subtract r s) Q := .of_body fun hok => (h hok).map

theorem gives_intersect (h : ok (.intersect r s) → Ends freeRegionBody ok (r.intersect s) Q) :
    GivesIf ok (.intersect r s) Q := .of_body fun hok => (h hok).map

end

/-! ### What is left of a difference -/

section
variable [DecidableEq α] {A : Atoms α P IAtomicRegion.intersect} {r s t : FreeRegion α}

/-- A difference whose atom is not in that of the other stays one, with its atom. -/
theorem subtract_apart {x x' : α} {y y' : FreeRegion α} (h : ¬A.points x ⊆ A.points x')
    (hc : Computes freeRegionBody (.subtract (freeDifference x y) (freeDifference x' y'))
      (.inl t)) : ∃ u, t = freeDifference x u := by
  rw [computes_iff] at hc
  simp only [freeRegionBody, results_map, Sum.inl.injEq, exists_eq_right, subtract] at hc
  split at hc
  · exact ⟨y, results_pure.mp hc⟩
  · next z hz =>
      rw [if_neg fun heq : z = x => h (Atoms.subset_left_of_meet (heq ▸ hz))] at hc
      simp only [results_bind, results_pure] at hc
      obtain ⟨_, -, u, -, ht⟩ := hc
      exact ⟨u, ht⟩

/-- One difference is left, or nothing. -/
theorem LeavesOne.left (h : LeavesOne A r s)
    (hc : Computes freeRegionBody (.subtract r s) (.inl t)) :
    t.isDifference = true ∨ r.points A ⊆ s.points A := by
  induction h generalizing t with
  | nothing h => exact .inr h
  | apart h =>
    obtain ⟨u, rfl⟩ := subtract_apart h hc
    exact .inl rfl
  | @hole x x' y y' _ ih =>
    by_cases hx : A.points x ⊆ A.points x'
    · rw [computes_iff] at hc
      simp only [freeRegionBody, results_map, Sum.inl.injEq, exists_eq_right, subtract] at hc
      split at hc
      · cases hc
        exact .inl rfl
      · split_ifs at hc
        · refine (ih (FreeRegionCall.results_region.mp hc)).imp id fun hsub p hp => ?_
          rw [points_freeDifference] at hp ⊢
          exact ⟨hx hp.1, fun hp' => hp.2 (hsub hp')⟩
        · simp only [results_bind, results_pure] at hc
          obtain ⟨_, -, u, -, rfl⟩ := hc
          exact .inl rfl
    · obtain ⟨u, rfl⟩ := subtract_apart hx hc
      exact .inl rfl
  | @list x y zs h =>
    rw [computes_iff] at hc
    simp only [freeRegionBody, results_map, Sum.inl.injEq, exists_eq_right, subtract] at hc
    refine .inl ?_
    clear r s
    induction zs generalizing y with
    | nil =>
      cases hc
      rfl
    | cons z zs ih =>
      obtain ⟨⟨x', y', rfl, hz⟩, hrest⟩ := List.forall_mem_cons.mp h
      rw [List.foldlM_cons, results_bind] at hc
      obtain ⟨acc, hacc, hc⟩ := hc
      obtain ⟨u, rfl⟩ := subtract_apart hz (FreeRegionCall.results_region.mp hacc)
      exact ih hrest hc

end

/-! ### Union and difference -/

section
variable [DecidableEq α] (A : Atoms α P IAtomicRegion.intersect) (G : Finset α)

/-- Union and difference of regions whose atoms have a rank below `k`. -/
structure Level (k : ℕ) : Prop where
  union : ∀ {r s : FreeRegion α}, r.Valid A (A.Generated G) → s.Valid A (A.Generated G) →
    r.Below A G k → s.Below A G k → Gives A (.union r s) (Denotes A G (r.points A ∪ s.points A))
  subtract : ∀ {r s : FreeRegion α}, r.Valid A (A.Generated G) → s.Valid A (A.Generated G) →
    r.Below A G k → s.Below A G k → Gives A (.subtract r s) (Denotes A G (r.points A \ s.points A))

variable {A G} {k : ℕ} {x x' : α} {y y' r s : FreeRegion α}

theorem subtract_differences (ih : Level A G k) (hr : (freeDifference x y).Valid A (A.Generated G))
    (hs : (freeDifference x' y').Valid A (A.Generated G)) (hx : A.rank G x < k + 1)
    (hx' : A.rank G x' < k + 1) :
    Gives A (.subtract (freeDifference x y) (freeDifference x' y'))
      (Denotes A G ((freeDifference x y).points A \ (freeDifference x' y').points A)) := by
  have hy := (hr.hole.below_of_small hr.small).mono (Nat.le_of_lt_succ hx)
  have hy' := (hs.hole.below_of_small hs.small).mono (Nat.le_of_lt_succ hx')
  simp only [points_freeDifference]
  refine gives_subtract fun hok => ?_
  rw [subtract]
  split
  · next hnone =>
      refine .ret ⟨hr, ?_⟩
      rw [points_freeDifference]
      exact ((A.disjoint hnone).mono sdiff_subset sdiff_subset).sdiff_eq_left.symm
  · next z hz =>
      split_ifs with hzx
      · subst hzx
        refine (ih.subtract hs.hole hr.hole hy' hy).region.mono fun r hr' => ⟨hr'.valid, ?_⟩
        rw [hr'.points]
        exact (subtract_inside_iff (Atoms.subset_left_of_meet hz)).mpr (hok hz)
      · have hlt : A.points z ⊂ A.points x := Atoms.left_ssubset hz hzx
        have hzG : A.Generated G z := hr.atom.inter hs.atom hz
        have hzk : A.rank G z < k := (Atoms.rank_lt hzG hlt).trans_le (Nat.le_of_lt_succ hx)
        refine (ih.subtract (.singleton hzG) hs.hole (below_difference.mpr hzk) hy').region.bind
          fun w hw => ?_
        have hwz : w.points A ⊆ A.points z := by
          rw [hw.points, points_singleton]
          exact sdiff_subset
        refine (ih.union hr.hole hw.valid hy (hw.valid.below_of_subset_atom hwz hzk)).region.bind
          fun u hu => .ret ⟨.hollow hr.atom hu.valid ?_, ?_⟩
        · rw [hu.points]
          exact hr.small.union ((Atoms.Small.of_ssubset hlt).mono hwz)
        · rw [points_freeDifference, hu.points, hw.points, points_singleton, A.inter hz]
          ext p
          simp only [mem_sdiff, mem_union, mem_inter_iff]
          tauto

/-- The members of a union are subtracted from one by one. -/
theorem subtract_members {rs : List (FreeRegion α)} (hrs : (freeUnion rs).Valid A (A.Generated G))
    (h : ∀ r ∈ rs, Gives A (.subtract r s) (Denotes A G (r.points A \ s.points A))) :
    Gives A (.subtract (freeUnion rs) s) (Denotes A G ((freeUnion rs).points A \ s.points A)) := by
  refine gives_subtract fun hok => ?_
  rw [subtract]
  refine (Ends.mapM fun r hr => (h r hr).region.results).bind fun ts hts => .ret ?_
  have hmem : ∀ t ∈ ts, t.Valid A (A.Generated G) ∧ (t.isEmpty = true ∨ t.isDifference = true) := by
    intro t ht
    obtain ⟨r, hr, hres, hden⟩ := forall₂_mem_right hts ht
    refine ⟨hden.valid, ((hok r hr).left (FreeRegionCall.results_region.mp hres)).symm.imp_left
      fun hsub => hden.valid.isEmpty ?_⟩
    rw [hden.points]
    exact sdiff_eq_empty.mpr hsub
  have hsub : List.Forall₂ (fun r t => t.points A = r.points A \ s.points A) rs ts :=
    hts.imp fun _ _ ht => ht.2.points
  refine ⟨.members (fun t ht => ?_) (fun t ht => ?_) ?_, ?_⟩
  · obtain ⟨ht, hne⟩ := List.mem_filter.mp ht
    exact (hmem t ht).2.resolve_left (by simpa using hne)
  · exact (hmem t (List.mem_of_mem_filter ht)).1
  · cases hrs with
    | members _ _ hdisj => exact (disjoint_of_forall₂ hsub hdisj).filter _
  · rw [points_freeUnion, points_freeUnion, pointsOf_filter, pointsOf_of_forall₂ hsub]

/-- The difference of two differences whose atoms have a rank below `k`. -/
def DifferencesSubtract (A : Atoms α P IAtomicRegion.intersect) (G : Finset α) (k : ℕ) : Prop :=
  ∀ {x x' : α} {y y' : FreeRegion α}, (freeDifference x y).Valid A (A.Generated G) →
    (freeDifference x' y').Valid A (A.Generated G) → A.rank G x < k → A.rank G x' < k →
    Gives A (.subtract (freeDifference x y) (freeDifference x' y'))
      (Denotes A G ((freeDifference x y).points A \ (freeDifference x' y').points A))

/-- A difference is subtracted from any region. -/
theorem DifferencesSubtract.difference (hdiff : DifferencesSubtract A G k)
    (hr : r.Valid A (A.Generated G)) (hs : (freeDifference x y).Valid A (A.Generated G))
    (hrk : r.Below A G k) (hx : A.rank G x < k) :
    Gives A (.subtract r (freeDifference x y))
      (Denotes A G (r.points A \ (freeDifference x y).points A)) := by
  cases r with
  | freeUnion rs =>
    refine subtract_members hr fun r hmem => ?_
    obtain ⟨z, w, rfl⟩ := hr.exists_difference hmem
    exact hdiff (hr.member hmem) hs (hrk.member hmem) hx
  | freeDifference => exact hdiff hr hs (below_difference.mp hrk) hx

theorem DifferencesSubtract.subtract (hdiff : DifferencesSubtract A G k)
    (hr : r.Valid A (A.Generated G)) (hs : s.Valid A (A.Generated G)) (hrk : r.Below A G k)
    (hsk : s.Below A G k) :
    Gives A (.subtract r s) (Denotes A G (r.points A \ s.points A)) := by
  cases s with
  | freeDifference => exact hdiff.difference hr hs hrk (below_difference.mp hsk)
  | freeUnion zs =>
    have hfrom : ∀ {x y}, (freeDifference x y).Valid A (A.Generated G) → A.rank G x < k →
        Gives A (.subtract (freeDifference x y) (freeUnion zs))
          (Denotes A G ((freeDifference x y).points A \ (freeUnion zs).points A)) := by
      intro x y hv hx
      refine gives_subtract fun _ => ?_
      rw [FreeRegion.subtract, points_freeUnion]
      refine Ends.foldlM (I := fun done acc =>
        Denotes A G ((freeDifference x y).points A \ pointsOf A done) acc)
        (fun done acc z hz hacc => ?_) (d := []) ⟨hv, by simp [pointsOf]⟩
      obtain ⟨z', w, rfl⟩ := hs.exists_difference hz
      have hacck : acc.Below A G k := by
        refine hacc.valid.below_of_subset hv hv ?_ (below_difference.mpr hx)
          (below_difference.mpr hx)
        rw [hacc.points, union_self]
        exact sdiff_subset
      refine (hdiff.difference hacc.valid (hs.member hz) hacck (hsk.member hz)).region.mono
        fun t ht => ⟨ht.valid, ?_⟩
      rw [ht.points, hacc.points, pointsOf_append, pointsOf, pointsOf, union_empty, sdiff_sdiff]
    cases r with
    | freeUnion rs =>
      refine subtract_members hr fun r hmem => ?_
      obtain ⟨x, y, rfl⟩ := hr.exists_difference hmem
      exact hfrom (hr.member hmem) (hrk.member hmem)
    | freeDifference => exact hfrom hr (below_difference.mp hrk)

/-- What the union of two differences looks like. -/
def Joined (A : Atoms α P IAtomicRegion.intersect) (x x' : α) (r : FreeRegion α) : Prop :=
  (∃ u, r = freeDifference x u) ∨ (∃ u, r = freeDifference x' u) ∨
    ¬ A.Nested x x' ∧ ∃ u u', r = freeUnion [freeDifference x u, freeDifference x' u']

section

omit [DecidableEq α]

section
variable (hr : (freeDifference x y).Valid A (A.Generated G))

include hr

section
variable (hs : (freeDifference x' y').Valid A (A.Generated G))

include hs

theorem valid_pair
    (hdisj : Disjoint ((freeDifference x y).points A) ((freeDifference x' y').points A)) :
    (freeUnion [freeDifference x y, freeDifference x' y']).Valid A (A.Generated G) := by
  refine .members (fun r hr => ?_) (fun t ht => ?_) (List.pairwise_pair.mpr hdisj)
  · rcases List.mem_pair.mp hr with rfl | rfl
    · rfl
    · rfl
  · rcases List.mem_pair.mp ht with rfl | rfl
    · exact hr
    · exact hs

/-- The union with a difference that lies in the atom of the other. -/
theorem denotes_union_inside (hsub : A.points x' ⊆ A.points x)
    (hfit : y.points A ⊆ A.points x')
    (hs' : Denotes A G (y'.points A \ (freeDifference x y).points A) s) :
    Denotes A G ((freeDifference x y).points A ∪ (freeDifference x' y').points A)
      (freeDifference x s) := by
  refine ⟨.hollow hr.atom hs'.valid ?_, ?_⟩
  · rw [hs'.points]
    exact (hs.small.of_subset hsub).mono sdiff_subset
  · simp only [points_freeDifference, hs'.points]
    exact (union_inside_iff hsub hr.small.subset hs.small.subset).mpr hfit

/-- The union of two differences neither of which lies in the other. -/
theorem denotes_union_overlap {z : α}
    (hz : IAtomicRegion.intersect x x' = some z) (hx : z ≠ x) (hx' : z ≠ x')
    (hfit : A.points z ⊆ y.points A ∩ y'.points A)
    (hr' : Denotes A G (y.points A ∪ A.points z) r)
    (hs' : Denotes A G (y'.points A ∪ A.points z) s) :
    Denotes A G ((freeDifference x y).points A ∪ (freeDifference x' y').points A)
      (freeUnion [freeDifference x r, freeDifference x' s]) := by
  refine ⟨valid_pair (.hollow hr.atom hr'.valid ?_) (.hollow hs.atom hs'.valid ?_) ?_, ?_⟩
  · rw [hr'.points]
    exact hr.small.union (.of_ssubset (Atoms.left_ssubset hz hx))
  · rw [hs'.points]
    exact hs.small.union (.of_ssubset (Atoms.right_ssubset hz hx'))
  · simp only [points_freeDifference, hr'.points]
    refine disjoint_left.mpr fun p hp hp' => hp.2 (.inr ?_)
    rw [A.inter hz]
    exact ⟨hp.1, hp'.1⟩
  · rw [A.inter hz] at hfit
    simp only [points_freeUnion, pointsOf, points_freeDifference, hr'.points, hs'.points,
      union_empty, A.inter hz]
    exact union_overlap_iff.mpr hfit

end

end

end

theorem union_differences (ih : Level A G k) (hdiff : DifferencesSubtract A G (k + 1))
    (hr : (freeDifference x y).Valid A (A.Generated G))
    (hs : (freeDifference x' y').Valid A (A.Generated G)) (hx : A.rank G x < k + 1)
    (hx' : A.rank G x' < k + 1) :
    Gives A (.union (freeDifference x y) (freeDifference x' y')) fun r =>
      Denotes A G ((freeDifference x y).points A ∪ (freeDifference x' y').points A) r ∧
        Joined A x x' r := by
  have hyk := hr.hole.below_of_small hr.small
  have hyk' := hs.hole.below_of_small hs.small
  refine gives_union fun hok => ?_
  simp only [union, isEmpty, Bool.false_eq_true, if_false]
  split
  · next hnone =>
      have hdisj := (A.disjoint hnone).mono (points_freeDifference (y := y) ▸ sdiff_subset)
        (points_freeDifference (y := y') ▸ sdiff_subset)
      refine .ret ⟨⟨valid_pair hr hs hdisj, ?_⟩,
        .inr (.inr ⟨Atoms.not_nested_of_none hnone, y, y', rfl⟩)⟩
      simp [points_freeUnion, pointsOf]
  · next z hz =>
      split_ifs with hzx' hzx
      · subst hzx'
        refine (hdiff.subtract hs.hole hr (hyk'.mono hx'.le) (below_difference.mpr hx)).region.bind
          fun w hw => .ret ⟨?_, .inl ⟨w, rfl⟩⟩
        exact denotes_union_inside hr hs (Atoms.left_subset hz) (by simpa using hok z hz) hw
      · subst hzx
        refine (hdiff.subtract hr.hole hs (hyk.mono hx.le) (below_difference.mpr hx')).region.bind
          fun w hw => .ret ⟨?_, .inr (.inl ⟨w, rfl⟩)⟩
        rw [union_comm]
        exact denotes_union_inside hs hr (Atoms.right_subset hz) (by simpa [hzx'] using hok z hz) hw
      · have hfit := hok z hz
        rw [if_neg hzx', if_neg hzx] at hfit
        have hzG : A.Generated G z := hr.atom.inter hs.atom hz
        have hzk : (singleton z).Below A G k := below_difference.mpr
          ((Atoms.rank_lt hzG (Atoms.left_ssubset hz hzx)).trans_le (Nat.le_of_lt_succ hx))
        refine (ih.union hr.hole (.singleton hzG) (hyk.mono (Nat.le_of_lt_succ hx))
          hzk).region.bind fun w hw => ?_
        refine (ih.union hs.hole (.singleton hzG) (hyk'.mono (Nat.le_of_lt_succ hx'))
          hzk).region.bind fun w' hw' =>
            .ret ⟨?_, .inr (.inr ⟨Atoms.not_nested hz hzx hzx', w, w', rfl⟩)⟩
        rw [points_singleton] at hw hw'
        exact denotes_union_overlap hr hs hz hzx hzx' hfit hw hw'

/-- The union of two differences whose atoms have a rank below `k`. -/
def DifferencesUnion (A : Atoms α P IAtomicRegion.intersect) (G : Finset α) (k : ℕ) : Prop :=
  ∀ {x x' : α} {y y' : FreeRegion α}, (freeDifference x y).Valid A (A.Generated G) →
    (freeDifference x' y').Valid A (A.Generated G) → A.rank G x < k → A.rank G x' < k →
    Gives A (.union (freeDifference x y) (freeDifference x' y')) fun r =>
      Denotes A G ((freeDifference x y).points A ∪ (freeDifference x' y').points A) r ∧
        Joined A x x' r

/-- A difference, or a list of two. -/
def Narrow (r : FreeRegion α) : Prop :=
  (∃ x y, r = freeDifference x y) ∨
    ∃ x y x' y', r = freeUnion [freeDifference x y, freeDifference x' y']

omit [DecidableEq α] in
theorem Joined.narrow (h : Joined A x x' r) : Narrow r := by
  rcases h with ⟨u, rfl⟩ | ⟨u, rfl⟩ | ⟨-, u, u', rfl⟩
  · exact .inl ⟨x, u, rfl⟩
  · exact .inl ⟨x', u, rfl⟩
  · exact .inr ⟨x, u, x', u', rfl⟩

namespace DifferencesUnion
variable {z z' : α} {w w' : FreeRegion α} (hunion : DifferencesUnion A G k)
  (hr : (freeDifference x y).Valid A (A.Generated G)) (hx : A.rank G x < k)

include hunion hr hx

/-- The union with two members, of which the first becomes one with the other operand. -/
theorem pair (hn : A.Nested z x)
    (hs : (freeUnion [freeDifference z w, freeDifference z' w']).Valid A (A.Generated G))
    (hz : A.rank G z < k) (hz' : A.rank G z' < k) :
    Gives A (.union (freeDifference x y) (freeUnion [freeDifference z w, freeDifference z' w']))
      fun r => Denotes A G ((freeDifference x y).points A ∪
        (freeUnion [freeDifference z w, freeDifference z' w']).points A) r ∧ Narrow r := by
  have hw := hs.member List.mem_cons_self
  have hw' := hs.member (List.mem_cons_of_mem _ List.mem_cons_self)
  refine gives_union fun _ => ?_
  simp only [union, isEmpty, List.isEmpty_cons, Bool.false_eq_true, if_false, List.foldlM_cons,
    List.foldlM_nil]
  refine (hunion hw hr hz hx).region.bind fun t ht => ?_
  obtain ⟨ht, hjoined⟩ := ht
  obtain ⟨c, u, rfl, hc⟩ : ∃ c u, t = freeDifference c u ∧ A.rank G c < k := by
    rcases hjoined with ⟨u, rfl⟩ | ⟨u, rfl⟩ | ⟨hnot, -⟩
    · exact ⟨z, u, rfl, hz⟩
    · exact ⟨x, u, rfl, hx⟩
    · exact absurd hn hnot
  refine (hunion hw' ht.valid hz' hc).region.bind fun v hv =>
    .ret ⟨⟨hv.1.valid, ?_⟩, hv.2.narrow⟩
  rw [hv.1.points, ht.points, points_freeUnion, pointsOf, pointsOf, pointsOf, union_empty,
    union_comm, union_comm ((freeDifference z w).points A), union_assoc]

/-- The union with a difference or with two members. -/
theorem narrow (hs : s.Valid A (A.Generated G)) (hsk : s.Below A G k) (hnarrow : Narrow s) :
    Gives A (.union (freeDifference x y) s) fun r =>
      Denotes A G ((freeDifference x y).points A ∪ s.points A) r ∧ Narrow r := by
  rcases hnarrow with ⟨z, w, rfl⟩ | ⟨z, w, z', w', rfl⟩
  · exact (hunion hr hs hx (below_difference.mp hsk)).mono fun r hr => ⟨hr.1, hr.2.narrow⟩
  · have hz : A.rank G z < k := hsk.member List.mem_cons_self
    have hz' : A.rank G z' < k := hsk.member (List.mem_cons_of_mem _ List.mem_cons_self)
    have hw := hs.member List.mem_cons_self
    have hw' := hs.member (List.mem_cons_of_mem _ List.mem_cons_self)
    by_cases hn : A.Nested z x
    · exact hunion.pair hr hx hn hs hz hz'
    · refine gives_union fun hok => ?_
      have hn' : A.Nested z z' := Or.resolve_left hok hn
      simp only [union, isEmpty, List.isEmpty_cons, Bool.false_eq_true, if_false, List.foldlM_cons,
        List.foldlM_nil]
      refine (hunion hw hr hz hx).region.bind fun t ht => ?_
      obtain ⟨ht, hjoined⟩ := ht
      have hback : Gives A (.union (freeDifference z' w') t) fun r =>
          Denotes A G ((freeDifference z' w').points A ∪ t.points A) r ∧ Narrow r := by
        rcases hjoined with ⟨u, rfl⟩ | ⟨u, rfl⟩ | ⟨-, u, u', rfl⟩
        · exact (hunion hw' ht.valid hz' hz).mono fun r hr => ⟨hr.1, hr.2.narrow⟩
        · exact (hunion hw' ht.valid hz' hx).mono fun r hr => ⟨hr.1, hr.2.narrow⟩
        · exact hunion.pair hw' hz' hn' ht.valid hz hx
      refine hback.region.bind fun v hv => .ret ⟨⟨hv.1.valid, ?_⟩, hv.2⟩
      rw [hv.1.points, ht.points, points_freeUnion, pointsOf, pointsOf, pointsOf, union_empty,
        union_comm, union_comm ((freeDifference z w).points A), union_assoc]

/-- The union of a difference with any region. -/
theorem difference (hs : s.Valid A (A.Generated G)) (hsk : s.Below A G k) :
    Gives A (.union (freeDifference x y) s)
      (Denotes A G ((freeDifference x y).points A ∪ s.points A)) := by
  cases s with
  | freeDifference => exact (hunion hr hs hx (below_difference.mp hsk)).mono fun r hr => hr.1
  | freeUnion zs =>
    refine gives_union fun _ => ?_
    rw [union, if_neg (by simp [isEmpty])]
    by_cases hnil : (freeUnion zs).isEmpty = true
    · rw [if_pos hnil]
      refine .ret ⟨hr, ?_⟩
      rw [points_of_isEmpty hnil, union_empty]
    · rw [if_neg hnil, points_freeUnion]
      refine (Ends.foldlM (I := fun done acc =>
        Denotes A G ((freeDifference x y).points A ∪ pointsOf A done) acc ∧ acc.Below A G k ∧
          Narrow acc) (fun done acc z hz hacc => ?_) (d := [])
        ⟨⟨hr, by simp [pointsOf]⟩, below_difference.mpr hx, .inl ⟨x, y, rfl⟩⟩).mono
        fun r hr => hr.1
      obtain ⟨hden, hacck, hnarrow⟩ := hacc
      obtain ⟨z', w, rfl⟩ := hs.exists_difference hz
      have hw := hs.member hz
      refine (hunion.narrow hw (hsk.member hz) hden.valid hacck hnarrow).region.mono
        fun t ht => ⟨⟨ht.1.valid, ?_⟩, ?_, ht.2⟩
      · rw [ht.1.points, hden.points, pointsOf_append, pointsOf, pointsOf, union_empty,
          union_comm, union_assoc]
      · exact ht.1.valid.below_of_subset hw hden.valid ht.1.points.subset
          (below_difference.mpr (hsk.member hz)) hacck

omit hr hx in
/-- The union of any two regions. -/
theorem union (hr : r.Valid A (A.Generated G)) (hs : s.Valid A (A.Generated G))
    (hrk : r.Below A G k) (hsk : s.Below A G k) :
    Gives A (.union r s) (Denotes A G (r.points A ∪ s.points A)) := by
  cases r with
  | freeDifference => exact hunion.difference hr (below_difference.mp hrk) hs hsk
  | freeUnion rs =>
    refine gives_union fun _ => ?_
    rw [FreeRegion.union]
    by_cases hnil : (freeUnion rs).isEmpty = true
    · rw [if_pos hnil]
      refine .ret ⟨hs, ?_⟩
      rw [points_of_isEmpty hnil, empty_union]
    · rw [if_neg hnil]
      by_cases hempty : s.isEmpty = true
      · rw [if_pos hempty]
        refine .ret ⟨hr, ?_⟩
        rw [points_of_isEmpty hempty, union_empty]
      · rw [if_neg hempty, points_freeUnion, union_comm]
        refine (Ends.foldlM (I := fun done acc =>
          Denotes A G (s.points A ∪ pointsOf A done) acc ∧ acc.Below A G k)
          (fun done acc z hz hacc => ?_) (d := []) ⟨⟨hs, by simp [pointsOf]⟩, hsk⟩).mono
          fun r hr => hr.1
        obtain ⟨hden, hacck⟩ := hacc
        obtain ⟨z', w, rfl⟩ := hr.exists_difference hz
        have hw := hr.member hz
        refine (hunion.difference hw (hrk.member hz) hden.valid hacck).region.mono
          fun t ht => ⟨⟨ht.valid, ?_⟩, ?_⟩
        · rw [ht.points, hden.points, pointsOf_append, pointsOf, pointsOf, union_empty,
            union_comm, union_assoc]
        · exact ht.valid.below_of_subset hw hden.valid ht.points.subset
            (below_difference.mpr (hrk.member hz)) hacck

end DifferencesUnion

theorem level_of_differences (hdiff : DifferencesSubtract A G k) (hunion : DifferencesUnion A G k) :
    Level A G k := ⟨hunion.union, hdiff.subtract⟩

/-- Union and difference of all regions, by induction on the ranks of their atoms. -/
theorem level (A : Atoms α P IAtomicRegion.intersect) (G : Finset α) (k : ℕ) : Level A G k := by
  induction k with
  | zero =>
    exact level_of_differences (fun _ _ hx => absurd hx (Nat.not_lt_zero _))
      fun _ _ hx => absurd hx (Nat.not_lt_zero _)
  | succ k ih =>
    have hdiff : DifferencesSubtract A G (k + 1) := subtract_differences ih
    exact level_of_differences hdiff (union_differences ih hdiff)

theorem subtract_gives (hr : r.Valid A (A.Generated G)) (hs : s.Valid A (A.Generated G)) :
    Gives A (.subtract r s) (Denotes A G (r.points A \ s.points A)) :=
  (level A G _).subtract hr hs (below_card r) (below_card s)

theorem union_gives (hr : r.Valid A (A.Generated G)) (hs : s.Valid A (A.Generated G)) :
    Gives A (.union r s) (Denotes A G (r.points A ∪ s.points A)) :=
  (level A G _).union hr hs (below_card r) (below_card s)

end

end FreeRegion

end VSharp
