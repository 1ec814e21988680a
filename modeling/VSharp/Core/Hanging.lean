import VSharp.Core.MemoryRegion
import VSharp.Utils.RegionPieces

/-!
# Core — Hanging

What `hangRecordUnderSplittingTree` does to the history of a point, whenever it returns.

* `Placed`: the record goes under the splitting records in front, and each of these keeps what
  `keyGuard` leaves of its guard, or is gone if nothing is left;
* `hang_history`: the tree stays well formed, what holds of the old nodes and of the new record
  holds of the nodes of the result, and the record is placed in the history of every point of the
  region;
* `writeOneKey_history`: the same of writing one key, which puts a splitting record on top.
-/

namespace VSharp
open Term Propositional Library PersistentDict

namespace UpdateTree
open RegionTree ExactRegion

variable {κ R P : Type} [ExactRegion R P] {K : IMemoryKey κ R} {predicate : Record κ → Bool}

omit [ExactRegion R P] in
/-- The history after a record is hung: under the splitting records, whose guards are what the
record leaves of them. -/
inductive Placed (K : IMemoryKey κ R) (predicate : Record κ → Bool) (w : Record κ) :
    List (Record κ) → List (Record κ) → Prop where
  | here {l : List (Record κ)} (h : ∀ x ∈ l.head?, predicate x = false) :
      Placed K predicate w l (w :: l)
  | drop {x : Record κ} {g : Term} {l l' : List (Record κ)} (hx : predicate x = true)
      (hg : keyGuard K w x = .ok g) (hfalse : isFalse g = true) (h : Placed K predicate w l l') :
      Placed K predicate w (x :: l) l'
  | keep {x : Record κ} {g : Term} {l l' : List (Record κ)} (hx : predicate x = true)
      (hg : keyGuard K w x = .ok g) (h : Placed K predicate w l l') :
      Placed K predicate w (x :: l) ({ x with guard := some g } :: l')

omit [ExactRegion R P] in
theorem Placed.mem_self {w : Record κ} {l l' : List (Record κ)} (h : Placed K predicate w l l') :
    w ∈ l' := by
  induction h with
  | here => exact List.mem_cons_self
  | drop _ _ _ _ ih => exact ih
  | keep _ _ _ ih => exact List.mem_cons_of_mem _ ih

theorem contains_foldl_subtract {α : Type} (d : List (R × α)) (r : R) (p : P) :
    contains (d.foldl (fun acc e => IRegion.subtract acc e.1) r) p =
      (contains r p && d.all fun e => !contains e.1 p) := by
  induction d generalizing r with
  | nil => simp
  | cons e d ih =>
    rw [List.foldl_cons, ih, contains_subtract, List.all_cons, Bool.and_assoc]

/-- The history below a node, when no splitting entry covers the point. -/
theorem path_symbolic {d : Entries κ R} (hd : Invariant (.node d)) {p : P}
    (hno : ∀ e ∈ d, predicate e.2.1 = true → contains e.1 p = false) :
    path p (.node (d.filter fun e => !predicate e.2.1)) = path p (.node d) ∧
      ∀ x ∈ (path p (.node d)).head?, predicate x = false := by
  have hinv : Invariant (.node (d.filter fun e => !predicate e.2.1)) :=
    (hd.laid.mono (List.filter_subset_self d)).invariant (hd.wf.filter _)
  have hsymbolic : ∀ e ∈ d, contains e.1 p = true → predicate e.2.1 = false := fun e he hp => by
    by_contra hsplits
    rw [hno e he (by simpa using hsplits)] at hp
    cases hp
  constructor
  · refine path_congr hinv hd fun e hp => ?_
    rw [List.mem_filter]
    exact ⟨And.left, fun he => ⟨he, by rw [hsymbolic e he hp]; rfl⟩⟩
  · intro x hx
    by_cases hex : ∃ e ∈ d, contains e.1 p = true
    · obtain ⟨e, he, hp⟩ := hex
      rw [path_of_mem hd he hp] at hx
      obtain rfl := Option.some.inj hx
      exact hsymbolic e he hp
    · rw [path_nil fun e he => by simpa using fun hp => hex ⟨e, he, hp⟩] at hx
      cases hx

section
variable [DecidableEq R] [HashOrder R] {w : Record κ}

/-- What a splitting entry leaves: its subtree with the record hung, under its new guard. -/
def hungEntries (K : IMemoryKey κ R) (predicate : Record κ → Bool) (w : Record κ)
    (e : R × Record κ × UpdateTree κ Term R) : Entries κ R :=
  match hangRecordUnderSplittingTree K predicate e.1 w e.2.2, keyGuard K w e.2.1 with
  | .ok dt, .ok g => if isFalse g then dt else [(e.1, { e.2.1 with guard := some g }, .node dt)]
  | _, _ => []

/-- The fold over the splitting entries lists what each of them leaves. -/
theorem hangUnderSplittingSubtrees_ok {d : List (R × Record κ × UpdateTree κ Term R)}
    {acc acc' : Entries κ R} (h : hangUnderSplittingSubtrees K predicate w acc d = .ok acc') :
    acc' = PersistentDict.append acc
        ((d.filter fun e => predicate e.2.1).flatMap (hungEntries K predicate w)) ∧
      ∀ e ∈ d, predicate e.2.1 = true → ∃ dt g,
        hangRecordUnderSplittingTree K predicate e.1 w e.2.2 = .ok dt ∧
        keyGuard K w e.2.1 = .ok g ∧ hungEntries K predicate w e =
          if isFalse g then dt else [(e.1, { e.2.1 with guard := some g }, .node dt)] := by
  induction d generalizing acc with
  | nil =>
    rw [hangUnderSplittingSubtrees] at h
    cases h
    exact ⟨rfl, nofun⟩
  | cons e d ih =>
    obtain ⟨r, x, st⟩ := e
    rw [hangUnderSplittingSubtrees] at h
    cases hx : predicate x with
    | false =>
      rw [if_neg (by simp [hx])] at h
      obtain ⟨heq, hall⟩ := ih h
      rw [List.filter_cons_of_neg (by simp [hx])]
      exact ⟨heq, List.forall_mem_cons.mpr ⟨fun hcon => absurd (hx.symm.trans hcon) nofun, hall⟩⟩
    | true =>
      rw [if_pos hx] at h
      obtain ⟨dt, hdt, h⟩ := bind_eq_ok h
      obtain ⟨g, hg, h⟩ := bind_eq_ok h
      obtain ⟨heq, hall⟩ := ih h
      have hentries : hungEntries K predicate w (r, x, st) =
          if isFalse g then dt else [(r, { x with guard := some g }, .node dt)] := by
        simp only [hungEntries, hdt, hg]
      rw [List.filter_cons_of_pos (by simp [hx])]
      refine ⟨?_, List.forall_mem_cons.mpr ⟨fun _ => ⟨dt, g, hdt, hg, hentries⟩, hall⟩⟩
      rw [heq, List.flatMap_cons, hentries]
      simp only [PersistentDict.append, List.foldl_append]
      split <;> rfl

/-- What a splitting entry is replaced by: entries in its region, whose histories have the record
placed. -/
structure HangsEntry (K : IMemoryKey κ R) (predicate : Record κ → Bool) (Q : R → Record κ → Prop)
    (w : Record κ) (e : R × Record κ × UpdateTree κ Term R) (l : Entries κ R) : Prop where
  invariant : Invariant (.node l)
  subset : ∀ e' ∈ l, Subset e'.1 e.1
  everywhere : Everywhere Q (.node l)
  path : ∀ p, contains e.1 p = true →
    Placed K predicate w (e.2.1 :: path p e.2.2) (path p (.node l))

variable {Q : R → Record κ → Prop} {d d' : Entries κ R} {region : R}

omit [DecidableEq R] [HashOrder R] in
theorem HangsEntry.covers {e : R × Record κ × UpdateTree κ Term R} {l : Entries κ R}
    (h : HangsEntry K predicate Q w e l) {p : P} (hp : contains e.1 p = true) :
    ∃ e' ∈ l, contains e'.1 p = true := by
  by_contra hno
  have hmem := (h.path p hp).mem_self
  rw [path_nil fun e' he' => by simpa using fun hpe => hno ⟨e', he', hpe⟩] at hmem
  cases hmem

/-- Placing the record beside what its splitting entries are replaced by. -/
theorem placeRecord_history (hd : Invariant (.node d)) (hQ : Everywhere Q (.node d))
    (hroots : ∀ e ∈ d, Subset e.1 region)
    (hnew : ∀ r, (∃ p, contains r p = true) → Subset r region → Q r w)
    {f : R × Record κ × UpdateTree κ Term R → Entries κ R}
    (hf : ∀ e ∈ d, predicate e.2.1 = true → HangsEntry K predicate Q w e (f e))
    (heq : d' = placeRecord region w
      (PersistentDict.ofSeq ((d.filter fun e => predicate e.2.1).flatMap f))
      (d.filter fun e => !predicate e.2.1)) :
    Invariant (.node d') ∧ (∀ e ∈ d', Subset e.1 region) ∧ Everywhere Q (.node d') ∧
      ∀ p, contains region p = true → Placed K predicate w (path p (.node d)) (path p (.node d')) := by
  generalize hl : (d.filter fun e => predicate e.2.1).flatMap f = l at heq
  have hmem : ∀ e' ∈ l, ∃ e ∈ d, predicate e.2.1 = true ∧ e' ∈ f e := fun e' he' => by
    obtain ⟨e, he, he'⟩ := List.mem_flatMap.mp (hl ▸ he')
    obtain ⟨he, hsplits⟩ := List.mem_filter.mp he
    exact ⟨e, he, hsplits, he'⟩
  have hlaid : Laid l := by
    rw [← hl]
    refine (hd.laid.mono (List.filter_subset_self d)).flatMap (fun e he => ?_) fun e he => ?_
    · exact (hf e (List.mem_filter.mp he).1 (List.mem_filter.mp he).2).invariant.laid
    · exact (hf e (List.mem_filter.mp he).1 (List.mem_filter.mp he).2).subset
  let rest := (PersistentDict.ofSeq l).foldl (fun acc e => IRegion.subtract acc e.1) region
  let symbolic := d.filter fun e => !predicate e.2.1
  have hout : ∀ e ∈ PersistentDict.ofSeq l, Disjoint e.1 rest := fun e he p hp => by
    have hno : (PersistentDict.ofSeq l).all (fun e => !contains e.1 p) = false :=
      List.all_eq_false.mpr ⟨e, he, by simp [hp]⟩
    rw [contains_foldl_subtract, hno, Bool.and_false]
  -- The record has the points of the region that no splitting entry covers.
  have hrest (p : P) : contains rest p = true ↔
      contains region p = true ∧ ∀ e ∈ d, predicate e.2.1 = true → contains e.1 p = false := by
    rw [contains_foldl_subtract, Bool.and_eq_true, List.all_eq_true]
    refine and_congr_right fun _ => ⟨fun h e he hsplits => ?_, fun h e' he' => ?_⟩
    · by_contra hp
      obtain ⟨e', he', hp'⟩ := (hf e he hsplits).covers (by simpa using hp)
      have hin : e' ∈ l := hl ▸ List.mem_flatMap.mpr ⟨e, List.mem_filter.mpr ⟨he, hsplits⟩, he'⟩
      have hno := h e' ((hlaid.mem_ofSeq hp').mpr hin)
      rw [hp'] at hno
      cases hno
    · obtain ⟨e, he, hsplits, hin⟩ := hmem e' (mem_of_mem_ofSeq he')
      rw [Bool.not_eq_true']
      by_contra hp
      have hpe := (hf e he hsplits).subset e' hin p (by simpa using hp)
      rw [h e he hsplits] at hpe
      cases hpe
  have hsymbolic : ∀ e ∈ symbolic, Subset e.1 rest := fun e he p hp => by
    obtain ⟨hed, hne⟩ := List.mem_filter.mp he
    refine (hrest p).mpr ⟨hroots e hed p hp, fun o ho hsplits => ?_⟩
    refine hd.laid.disjoint e hed o ho (fun heq => ?_) p hp
    rw [heq, hsplits] at hne
    cases hne
  have hnode : Invariant (.node symbolic) :=
    (hd.laid.mono (List.filter_subset_self d)).invariant (hd.wf.filter _)
  have hpieces : ∀ e' ∈ PersistentDict.ofSeq l, Subset e'.1 region ∧ Q e'.1 e'.2.1 ∧
      Everywhere Q e'.2.2 := fun e' he' => by
    obtain ⟨e, he, hsplits, hin⟩ := hmem e' (mem_of_mem_ofSeq he')
    have h := hf e he hsplits
    exact ⟨(h.subset e' hin).trans (hroots e he), h.everywhere.here hin, h.everywhere.child hin⟩
  have hcovered : ∀ e ∈ d, predicate e.2.1 = true → ∀ p, contains e.1 p = true →
      contains rest p = false ∧ path p (.node (PersistentDict.ofSeq l)) = path p (.node (f e)) := by
    intro e he hsplits p hp
    obtain ⟨e', he', hp'⟩ := (hf e he hsplits).covers hp
    have hin : e' ∈ l := hl ▸ List.mem_flatMap.mpr ⟨e, List.mem_filter.mpr ⟨he, hsplits⟩, he'⟩
    refine ⟨?_, ?_⟩
    · by_contra hno
      have hno := ((hrest p).mp (by simpa using hno)).2 e he hsplits
      rw [hp] at hno
      cases hno
    · rw [path_ofSeq hlaid hin hp', path_of_mem (hf e he hsplits).invariant he' hp']
  have hplaced : ∀ (d' : Entries κ R), (∀ p, contains rest p = true →
        path p (.node d') = w :: path p (.node symbolic)) →
      (∀ p, contains rest p = false → path p (.node d') = path p (.node (PersistentDict.ofSeq l))) →
      ∀ p, contains region p = true →
        Placed K predicate w (path p (.node d)) (path p (.node d')) := by
    intro d' hin hout p hp
    by_cases hex : ∃ e ∈ d, predicate e.2.1 = true ∧ contains e.1 p = true
    · obtain ⟨e, he, hsplits, hpe⟩ := hex
      obtain ⟨hno, hsame⟩ := hcovered e he hsplits p hpe
      rw [hout p hno, hsame, path_of_mem hd he hpe]
      exact (hf e he hsplits).path p hpe
    · have hno : ∀ e ∈ d, predicate e.2.1 = true → contains e.1 p = false :=
        fun e he hsplits => by simpa using fun hpe => hex ⟨e, he, hsplits, hpe⟩
      obtain ⟨hsame, hhead⟩ := path_symbolic hd hno
      rw [hin p ((hrest p).mpr ⟨hp, hno⟩), hsame]
      exact .here hhead
  rw [heq]
  show Invariant (.node (if IRegion.isEmpty rest then PersistentDict.ofSeq l
      else PersistentDict.add rest (w, .node symbolic) (PersistentDict.ofSeq l))) ∧ _
  unfold placeRecord
  by_cases hempty : IRegion.isEmpty rest = true
  · have hnone := (isEmpty_iff rest).mp hempty
    rw [if_pos hempty]
    refine ⟨hlaid.invariant_ofSeq, fun e he => (hpieces e he).1,
      .of_entries fun e he => (hpieces e he).2, hplaced _ (fun p hp => ?_) fun p _ => rfl⟩
    rw [hnone p] at hp
    cases hp
  · rw [if_neg hempty]
    obtain ⟨hinv, hin, hother⟩ := Invariant.add_over (k := w) hnode hsymbolic
      hlaid.invariant_ofSeq hout
    have hentry : ∀ e ∈ PersistentDict.add rest (w, RegionTree.node symbolic)
          (PersistentDict.ofSeq l), Subset e.1 region ∧ Q e.1 e.2.1 ∧ Everywhere Q e.2.2 := by
      intro e he
      rcases mem_add.mp he with rfl | ⟨-, he⟩
      · have hsub : Subset rest region := fun p hp => ((hrest p).mp hp).1
        refine ⟨hsub, hnew rest ?_ hsub, hQ.sub (List.filter_subset_self d)⟩
        by_contra hno
        exact hempty ((isEmpty_iff rest).mpr fun p => by simpa using fun hp => hno ⟨p, hp⟩)
      · exact hpieces e he
    exact ⟨hinv, fun e he => (hentry e he).1, .of_entries fun e he => (hentry e he).2,
      hplaced _ hin hother⟩

/-- Hanging a record in a region that holds all nodes: it is placed in the history of every point of
the region. -/
theorem hang_history {bound : R} (hnew : ∀ r, (∃ p, contains r p = true) → Subset r bound → Q r w)
    (hupdate : ∀ r x g, Q r x → predicate x = true → keyGuard K w x = .ok g →
      Q r { x with guard := some g }) {t : UpdateTree κ Term R} (ht : Invariant t)
    (hQ : Everywhere Q t) (hroots : ∀ e ∈ t.entries, Subset e.1 region)
    (hbound : Subset region bound)
    (h : hangRecordUnderSplittingTree K predicate region w t = .ok d') :
    Invariant (.node d') ∧ (∀ e ∈ d', Subset e.1 region) ∧ Everywhere Q (.node d') ∧
      ∀ p, contains region p = true → Placed K predicate w (path p t) (path p (.node d')) := by
  induction ht generalizing region d' with
  | @node d wf disjoint included subtrees ih =>
    rw [hangRecordUnderSplittingTree] at h
    obtain ⟨splittingTree, hfold, h⟩ := bind_eq_ok h
    obtain ⟨heq, hall⟩ := hangUnderSplittingSubtrees_ok hfold
    cases h
    subst heq
    refine placeRecord_history (.node wf disjoint included subtrees) hQ hroots
      (fun r hne hr => hnew r hne (hr.trans hbound)) (fun e he hsplits => ?_) rfl
    obtain ⟨dt, g, hdt, hg, hentries⟩ := hall e he hsplits
    obtain ⟨h₁, h₂, h₃, h₄⟩ := ih e he (hQ.child he) (included e he) ((hroots e he).trans hbound)
      hdt
    rw [hentries]
    by_cases hfalse : isFalse g = true
    · rw [if_pos hfalse]
      exact ⟨h₁, h₂, h₃, fun p hp => .drop hsplits hg hfalse (h₄ p hp)⟩
    · rw [if_neg hfalse]
      have hnow := hupdate _ _ _ (hQ.here he) hsplits hg
      refine ⟨invariant_singleton h₁ h₂, List.forall_mem_singleton.mpr (.refl _),
        .node (List.forall_mem_singleton.mpr hnow) (List.forall_mem_singleton.mpr h₃),
        fun p hp => ?_⟩
      rw [path_singleton, hp, if_pos rfl]
      exact .keep hsplits hg (h₄ p hp)

/-- Nothing splits: the record is hung as the root. -/
theorem hangRecord_of_symbolic (region : R) (w : Record κ) (hne : ∃ p, contains region p = true)
    (hd : ∀ e ∈ d, predicate e.2.1 = false) :
    hangRecordUnderSplittingTree K predicate region w (.node d) = .ok [(region, w, .node d)] := by
  have hempty : IRegion.isEmpty region = false := by
    obtain ⟨p, hp⟩ := hne
    by_contra h
    rw [(ExactRegion.isEmpty_iff region).mp (by simpa using h) p] at hp
    cases hp
  have hsplit : ∀ d : List (R × Record κ × UpdateTree κ Term R),
      (∀ e ∈ d, predicate e.2.1 = false) →
      hangUnderSplittingSubtrees K predicate w [] d = .ok [] := by
    intro d
    induction d with
    | nil => exact fun _ => rfl
    | cons e d ih =>
      intro h
      obtain ⟨r, k, t⟩ := e
      rw [hangUnderSplittingSubtrees, if_neg (by simp [h (r, k, t) List.mem_cons_self])]
      exact ih fun e he => h e (List.mem_cons_of_mem _ he)
  have hsymbolic : d.filter (fun e => !predicate e.2.1) = d :=
    List.filter_eq_self.mpr fun e he => by simp [hd e he]
  rw [hangRecordUnderSplittingTree, bind_ok (hsplit d hd)]
  show Except.ok (placeRecord region w [] (d.filter fun e => !predicate e.2.1)) = _
  rw [hsymbolic]
  show Except.ok (if IRegion.isEmpty region = true then _ else _) = _
  rw [if_neg (by simp [hempty])]
  rfl

/-- Writing one key: a splitting record goes on the history of every point of the region, and any
other is placed in it. -/
theorem writeOneKey_history [DecidableEq κ] {gk : Term × κ} {acc acc' : UpdateTree κ Term R}
    (ht : Invariant acc) (hc : Contained (IRegionTreeKey.hides w) region acc)
    (hinherited : Inherited Q) (hQ : Everywhere Q acc) (hnew : ∀ r, Subset r region → Q r w)
    (hrefined : ∀ g, Q region { w with guard := some g, key := gk.2 })
    (hupdate : ∀ r x g, Q r x → Q r { x with guard := some g })
    (h : writeOneKey K predicate region w gk acc = .ok acc') :
    ∃ g, Invariant acc' ∧ Everywhere Q acc' ∧
      (∀ p, contains region p = false → path p acc' = path p acc) ∧
      ∀ p, contains region p = true →
        if predicate { w with guard := some g, key := gk.2 } then
          path p acc' = { w with guard := some g, key := gk.2 } ::
            path p (.node (localizeFilterHidden region w acc).1)
        else Placed K predicate w (path p (.node (localizeFilterHidden region w acc).1))
          (path p acc') := by
  unfold writeOneKey at h
  obtain ⟨hinc, hdis⟩ := splitNode_spec ht hc
  have ⟨hQinc, hQdis⟩ : Everywhere Q (.node (splitNode (IRegionTreeKey.hides w) region acc).1) ∧
      Everywhere Q (.node (splitNode (IRegionTreeKey.hides w) region acc).2) :=
    splitNode_everywhere hinherited hQ
  unfold localizeFilterHidden at h ⊢
  generalize splitNode (IRegionTreeKey.hides w) region acc = split at h hinc hdis hQinc hQdis
  obtain ⟨included, disjoint⟩ := split
  obtain ⟨g, -, h⟩ := bind_eq_ok h
  refine ⟨g, ?_⟩
  have hout (p : P) (hp : contains region p = false) : path p (.node disjoint) = path p acc :=
    (hdis.path p hp).symm
  by_cases hsplits : predicate { w with guard := some g, key := gk.2 } = true
  · rw [if_pos hsplits] at h
    cases h
    obtain ⟨hinv, hin, hother⟩ := Invariant.add_over
      (k := { w with guard := some g, key := gk.2 }) hinc.invariant hinc.side hdis.invariant hdis.side
    refine ⟨hinv, .of_entries fun e he => ?_, fun p hp => (hother p hp).trans (hout p hp),
      fun p hp => ?_⟩
    · rcases mem_add.mp he with rfl | ⟨-, he⟩
      · exact ⟨hrefined g, hQinc⟩
      · exact ⟨hQdis.here he, hQdis.child he⟩
    · rw [if_pos hsplits]
      exact hin p hp
  · rw [if_neg hsplits] at h
    obtain ⟨modifiedTree, hmodified, h⟩ := bind_eq_ok h
    cases h
    obtain ⟨h₁, h₂, h₃, h₄⟩ := hang_history (fun r _ hr => hnew r hr)
      (fun r x g hx _ _ => hupdate r x g hx) hinc.invariant hQinc hinc.side (.refl region) hmodified
    obtain ⟨hinv, hin, hother⟩ := Invariant.append_over h₁ hdis.invariant h₂ hdis.side
    refine ⟨hinv, .of_entries fun e he => ?_, fun p hp => (hother p hp).trans (hout p hp),
      fun p hp => ?_⟩
    · rcases mem_of_mem_append he with he | he
      · exact ⟨h₃.here he, h₃.child he⟩
      · exact ⟨hQdis.here he, hQdis.child he⟩
    · rw [if_neg hsplits]
      exact hin p hp ▸ h₄ p hp

end

end UpdateTree

end VSharp
