import VSharp.Core.AddressComparisons
import VSharp.Core.Hanging

/-!
# Core — CellHistories

What a write to an update tree does to the history of each point, and what a read of a single point
makes of its history.

- `Grown`: a tree whose records sit in the regions of their keys;
- `overwritten`: the tree after a write under a true guard (`write_eq_overwritten`), whose record
  stands in front of the history of every point of its region (`overwritten_spec`);
- `localize_atPoint`: the part of a tree at one point is its history;
- `read_one`, `read_two`: what is read from one record, and from a record over another.
-/

namespace VSharp
open Term Propositional Merging Library

namespace RegionTree
variable {K R P : Type} [ExactRegion R P]

open ExactRegion (contains)

/-! ### Trees at a point -/

/-- Every node of the tree is the point `p`. -/
structure AtPoint (p : P) (t : RegionTree K R) : Prop where
  invariant : Invariant t
  nodes : Everywhere (fun r _ => ∀ q, contains r q = true ↔ q = p) t

namespace AtPoint
variable {p : P} {t : RegionTree K R}

theorem entries_eq (h : AtPoint p t) :
    t = .node [] ∨ ∃ r k t', t = .node [(r, k, t')] ∧ (∀ q, contains r q = true ↔ q = p) ∧
      AtPoint p t' := by
  obtain ⟨d⟩ := t
  rcases d with _ | ⟨e, d⟩
  · exact .inl rfl
  · have he : e ∈ e :: d := List.mem_cons_self
    have hd : d = [] := by
      refine List.eq_nil_iff_forall_not_mem.mpr fun e' he' => ?_
      have hmem : e' ∈ e :: d := List.mem_cons_of_mem e he'
      have heq := h.invariant.laid.eq_of_contains he hmem ((h.nodes.here he p).mpr rfl)
        ((h.nodes.here hmem p).mpr rfl)
      exact (List.nodup_cons.mp h.invariant.wf).1 (heq ▸ List.mem_map_of_mem (f := Prod.fst) he')
    subst hd
    exact .inr ⟨e.1, e.2.1, e.2.2, rfl, h.nodes.here he, h.invariant.laid.subtrees e he,
      h.nodes.child he⟩

theorem eq_empty (h : AtPoint p t) (hp : path p t = []) : t = .node [] := by
  rcases h.entries_eq with rfl | ⟨r, k, t', rfl, hr, -⟩
  · rfl
  · rw [path_singleton, (hr p).mpr rfl, if_pos rfl] at hp
    cases hp

theorem eq_node (h : AtPoint p t) {k : K} {l : List K} (hp : path p t = k :: l) :
    ∃ r t', t = .node [(r, k, t')] ∧ (∀ q, contains r q = true ↔ q = p) ∧ AtPoint p t' ∧
      path p t' = l := by
  rcases h.entries_eq with rfl | ⟨r, k', t', rfl, hr, ht'⟩
  · cases hp
  · rw [path_singleton, (hr p).mpr rfl, if_pos rfl, List.cons.injEq] at hp
    obtain ⟨rfl, hl⟩ := hp
    exact ⟨r, t', rfl, hr, ht', hl⟩

end AtPoint

section
variable [DecidableEq R] [HashOrder R]

/-- The part of a tree at one point keeps its history. -/
theorem localize_atPoint {reg : R} {p : P} (hreg : ∀ q, contains reg q = true ↔ q = p)
    {t : RegionTree K R} (ht : Invariant t)
    (hne : Everywhere (fun r _ => ∃ q, contains r q = true) t) :
    AtPoint p (.node (localize reg t)) ∧ path p (.node (localize reg t)) = path p t := by
  have hcontained : Contained (fun _ : K => false) reg t :=
    .of_flatten ht fun _ _ h => nomatch h
  have hhalf := (splitNode_spec ht hcontained).1
  have hinherited : Inherited fun (r : R) (_ : K) => ∃ q, contains r q = true :=
    fun _ _ _ _ _ h => h
  have hsides := (splitNode_sides hinherited ht hcontained hne).1
  refine ⟨⟨hhalf.invariant, hsides.mono fun r _ h q => ?_⟩, ?_⟩
  · obtain ⟨⟨q₀, hq₀⟩, hsub⟩ := h
    obtain rfl := (hreg q₀).mp (hsub q₀ hq₀)
    exact ⟨fun hq => (hreg q).mp (hsub q hq), fun hq => hq ▸ hq₀⟩
  · exact (hhalf.path p ((hreg p).mpr rfl)).eq_of_none fun _ _ h => nomatch h

end

end RegionTree

namespace UpdateTree
open RegionTree PersistentDict
open ExactRegion (contains)

variable {κ R P : Type} [ExactRegion R P]

/-! ### Writes -/

/-- The record has a point, and its region lies in that of its key. -/
def Sits (K : IMemoryKey κ R) (r : R) (k : Record κ) : Prop :=
  (∃ p, contains r p = true) ∧ ∃ region, K.region k.key = .ok region ∧ ExactRegion.Subset r region

/-- A tree whose records sit in the regions of their keys. -/
structure Grown (K : IMemoryKey κ R) (t : UpdateTree κ Term R) : Prop where
  invariant : Invariant t
  sits : Everywhere (Sits K) t

/-- A record of an unguarded write. -/
structure IsWrite (w : Record κ) (key : κ) (value : Term) (time : VectorTime) : Prop where
  key : w.key = key
  value : w.value = value
  time : w.time = time
  guard : w.hasTrueGuard = true

section
variable {K : IMemoryKey κ R} {predicate : Record κ → Bool} [DecidableEq R] [HashOrder R]
  {t : UpdateTree κ Term R}

section

omit [DecidableEq R] [HashOrder R]

theorem Grown.empty : Grown K (RegionTree.empty : UpdateTree κ Term R) := ⟨invariant_empty, .nil⟩

theorem inherited_sits : Inherited (Sits K) := by
  rintro r r' k ⟨-, region, hregion, hsub⟩ hr' hne
  exact ⟨hne, region, hregion, hr'.trans hsub⟩

theorem Grown.nonempty (h : Grown K t) :
    Everywhere (fun r _ => ∃ q, contains r q = true) t :=
  h.sits.mono fun _ _ h => h.1

end

/-- A node over the two halves of a tree: its record stands in front of the histories of the
region. -/
theorem grown_over {region : R} {w : Record κ} {filterOut : Record κ → Bool} {d : Entries κ R}
    (hregion : K.region w.key = .ok region) (hne : ∃ p, contains region p = true) (ht : Grown K t)
    (hhides : ∀ e ∈ flatten t, filterOut e.2 = true → ExactRegion.Subset e.1 region)
    (hd : d = add region (w, .node (splitNode filterOut region t).1) (splitNode filterOut region t).2 ∨
      d = PersistentDict.append [(region, w, .node (splitNode filterOut region t).1)]
        (splitNode filterOut region t).2) :
    Grown K (.node d) ∧
      (∀ p, contains region p = false → path p (.node d) = path p t) ∧
      ∀ p, contains region p = true → ∃ l, path p (.node d) = w :: l ∧
        Drops (fun k => filterOut k = true) (path p t) l := by
  have hcontained := Contained.of_flatten ht.invariant hhides
  obtain ⟨hinc, hdis⟩ := splitNode_spec ht.invariant hcontained
  have ⟨hinc', hdis'⟩ : Everywhere (Sits K) (.node (splitNode filterOut region t).1) ∧
      Everywhere (Sits K) (.node (splitNode filterOut region t).2) :=
    splitNode_everywhere inherited_sits ht.sits
  have hone : Invariant (.node [(region, w, .node (splitNode filterOut region t).1)]) :=
    invariant_singleton hinc.invariant hinc.side
  have hover : Invariant (.node d) ∧
      (∀ p, contains region p = true → path p (.node d) =
        w :: path p (.node (splitNode filterOut region t).1)) ∧
      ∀ p, contains region p = false →
        path p (.node d) = path p (.node (splitNode filterOut region t).2) := by
    rcases hd with rfl | rfl
    · exact Invariant.add_over hinc.invariant hinc.side hdis.invariant hdis.side
    · obtain ⟨h₁, h₂, h₃⟩ := Invariant.append_over hone hdis.invariant
        (List.forall_mem_singleton.mpr (.refl region)) hdis.side
      refine ⟨h₁, fun p hp => ?_, h₃⟩
      rw [h₂ p hp, path_singleton, if_pos hp]
  have hmem : ∀ e ∈ d, e = (region, w, .node (splitNode filterOut region t).1) ∨
      e ∈ (splitNode filterOut region t).2 := by
    rcases hd with rfl | rfl
    · exact fun e he => (mem_add.mp he).imp id And.right
    · exact fun e he => (mem_of_mem_append he).imp List.mem_singleton.mp id
  refine ⟨⟨hover.1, .of_entries fun e he => ?_⟩, fun p hp => ?_, fun p hp => ?_⟩
  · rcases hmem e he with rfl | he
    · exact ⟨⟨hne, region, hregion, .refl region⟩, hinc'⟩
    · exact ⟨hdis'.here he, hdis'.child he⟩
  · rw [hover.2.2 p hp, hdis.path p hp]
  · exact ⟨_, hover.2.1 p hp, hinc.path p hp⟩

section
variable [DecidableEq κ] {region : R} {utKey : Record κ}

/-- The tree with the record of an unguarded write over its region. -/
def overwritten (predicate : Record κ → Bool) (region : R) (utKey : Record κ)
    (t : UpdateTree κ Term R) : UpdateTree κ Term R :=
  let (included, disjoint) := localizeFilterHidden region utKey t
  let refinedKey : Record κ := { utKey with guard := some trueTerm }
  if predicate refinedKey then .node (add region (refinedKey, .node included) disjoint)
  else .node (PersistentDict.append [(region, utKey, .node included)] disjoint)

omit [DecidableEq κ] in
theorem hasTrueGuard_of_none (h : utKey.guard = none) : utKey.hasTrueGuard = true := by
  rw [UpdateTreeKey.hasTrueGuard, h]

/-- A write under a true guard, where it splits or nothing that it covers does. -/
theorem write_eq_overwritten (hguard : utKey.guard = none)
    (hunguard : K.unguard utKey.key = .ok [(trueTerm, utKey.key)])
    (hne : ∃ p, contains region p = true)
    (hsplits : predicate { utKey with guard := some trueTerm } = true ∨
      ∀ e ∈ (localizeFilterHidden region utKey t).1, predicate e.2.1 = false) :
    write K predicate region utKey t = .ok (overwritten predicate region utKey t) := by
  have hfalse : utKey.hasFalseGuard = false := by
    rw [UpdateTreeKey.hasFalseGuard, hguard]
  have hterm : utKey.termGuard = trueTerm := by
    rw [UpdateTreeKey.termGuard, hguard]
    rfl
  have hand : simplifyAnd trueTerm trueTerm = .ok trueTerm := by decide +kernel
  have hdisjoint : disjointUnguardedKey trueTerm [(trueTerm, utKey.key)] =
      .ok [(trueTerm, utKey.key)] := by
    have hnegation : simplifyNegation trueTerm = .ok falseTerm := by decide +kernel
    have hnone : simplifyAnd falseTerm trueTerm = .ok falseTerm := by decide +kernel
    simp only [disjointUnguardedKey]
    rw [bind_ok hand, bind_ok hnegation, bind_ok hnone]
    rfl
  have hwrite : write K predicate region utKey t =
      writeOneKey K predicate region utKey (trueTerm, utKey.key) t := by
    rw [write, if_neg (by simp [hfalse]), bind_ok hunguard, bind_ok hdisjoint, List.foldrM_cons,
      List.foldrM_nil]
    rfl
  have hone : writeOneKey K predicate region utKey (trueTerm, utKey.key) t =
      if predicate { utKey with guard := some trueTerm } then
        .ok (.node (add region ({ utKey with guard := some trueTerm },
          .node (localizeFilterHidden region utKey t).1) (localizeFilterHidden region utKey t).2))
      else hangRecordUnderSplittingTree K predicate region utKey
          (.node (localizeFilterHidden region utKey t).1) >>= fun modifiedTree =>
        .ok (.node (PersistentDict.append modifiedTree (localizeFilterHidden region utKey t).2)) := by
    unfold writeOneKey
    show (simplifyAnd utKey.termGuard trueTerm >>= _) = _
    rw [hterm, bind_ok hand]
    rfl
  rw [hwrite, hone, overwritten]
  by_cases hp : predicate { utKey with guard := some trueTerm } = true
  · simp only [if_pos hp]
  · rw [if_neg hp, bind_ok (hangRecord_of_symbolic region utKey hne (hsplits.resolve_left hp))]
    simp only [if_neg hp]

section

omit [HashOrder R] [DecidableEq R]

theorem key_of_hidden {k : Record κ} (h : IRegionTreeKey.hides utKey k = true) :
    k.key = utKey.key := by
  have h : (decide (utKey.key = k.key) && utKey.hasTrueGuard) = true := h
  rw [Bool.and_eq_true, decide_eq_true_eq] at h
  exact h.1.symm

theorem hidden_subset (hregion : K.region utKey.key = .ok region) (ht : Grown K t) :
    ∀ e ∈ flatten t, IRegionTreeKey.hides utKey e.2 = true → ExactRegion.Subset e.1 region := by
  intro e he h
  obtain ⟨-, r, hr, hsub⟩ := ht.sits.flatten e he
  rw [key_of_hidden h, hregion] at hr
  exact Except.ok.inj hr ▸ hsub

end

/-- The new record stands in front of the histories of its region, and the others are as they
were. -/
theorem overwritten_spec (hguard : utKey.guard = none) (hregion : K.region utKey.key = .ok region)
    (hne : ∃ p, contains region p = true) (ht : Grown K t) :
    Grown K (overwritten predicate region utKey t) ∧
      (∀ p, contains region p = false → path p (overwritten predicate region utKey t) = path p t) ∧
      ∃ w, IsWrite w utKey.key utKey.value utKey.time ∧
        ∀ p, contains region p = true → ∃ l, path p (overwritten predicate region utKey t) = w :: l ∧
          Drops (fun k => k.key = utKey.key) (path p t) l := by
  have hhides := hidden_subset hregion ht
  by_cases hp : predicate { utKey with guard := some trueTerm } = true
  · have heq : overwritten predicate region utKey t =
        .node (add region ({ utKey with guard := some trueTerm },
          .node (localizeFilterHidden region utKey t).1) (localizeFilterHidden region utKey t).2) :=
      if_pos hp
    rw [heq]
    obtain ⟨hgrown, hout, hin⟩ := grown_over (w := { utKey with guard := some trueTerm })
      hregion hne ht hhides (.inl rfl)
    refine ⟨hgrown, hout, { utKey with guard := some trueTerm }, ⟨rfl, rfl, rfl, rfl⟩,
      fun p hmem => ?_⟩
    obtain ⟨l, hl, hdrops⟩ := hin p hmem
    exact ⟨l, hl, hdrops.mono fun k _ h => key_of_hidden h⟩
  · have heq : overwritten predicate region utKey t =
        .node (PersistentDict.append [(region, utKey, .node (localizeFilterHidden region utKey t).1)]
          (localizeFilterHidden region utKey t).2) := if_neg hp
    rw [heq]
    obtain ⟨hgrown, hout, hin⟩ := grown_over hregion hne ht hhides (.inr rfl)
    refine ⟨hgrown, hout, _, ⟨rfl, rfl, rfl, hasTrueGuard_of_none hguard⟩, fun p hmem => ?_⟩
    obtain ⟨l, hl, hdrops⟩ := hin p hmem
    exact ⟨l, hl, hdrops.mono fun k _ h => key_of_hidden h⟩

/-- Where a write meets only records that do not split, none of its covered part does. -/
theorem included_symbolic (hregion : K.region utKey.key = .ok region) (ht : Grown K t)
    (hpaths : ∀ p, contains region p = true → ∀ k ∈ path p t, predicate k = false) :
    ∀ e ∈ (localizeFilterHidden region utKey t).1, predicate e.2.1 = false := by
  obtain ⟨hinc, -⟩ := splitNode_spec ht.invariant (.of_flatten ht.invariant (hidden_subset hregion ht))
  have hinc' : Everywhere (Sits K) (.node (localizeFilterHidden region utKey t).1) :=
    (splitNode_everywhere inherited_sits ht.sits).1
  intro e he
  obtain ⟨q, hq⟩ := (hinc'.here he).1
  have hpath : path q (.node (localizeFilterHidden region utKey t).1) = e.2.1 :: path q e.2.2 :=
    path_of_mem hinc.invariant he hq
  have hregq := hinc.side e he q hq
  have hmem := (hinc.path q hregq).subset (hpath ▸ List.mem_cons_self)
  exact hpaths q hregq _ hmem

/-- The record stands alone at its region. -/
def Alone (t : UpdateTree κ Term R) (reg : R) (k : Record κ) : Prop :=
  tryFind t.entries reg = some (k, .node [])

omit [DecidableEq κ] [HashOrder R] in
theorem Alone.path {reg : R} {k : Record κ} (h : Alone t reg k) (ht : Invariant t) {p : P}
    (hp : contains reg p = true) : path p t = [k] := by
  obtain ⟨d⟩ := t
  exact path_of_mem ht ((tryFind_eq_some_iff ht.wf).mp h) hp

end

end

/-! ### Filling -/

section
variable {K : IMemoryKey κ R} [DecidableEq R] [HashOrder R] {t : UpdateTree κ Term R}

/-- A record is added at a point that has none. -/
theorem grown_add {region : R} {w : Record κ} {p : P} (hregion : K.region w.key = .ok region)
    (hreg : ∀ q, contains region q = true ↔ q = p) (ht : Grown K t) (hpath : path p t = []) :
    Grown K (.node (add region (w, .node []) t.entries)) ∧
      ∀ q, q ≠ p → path q (.node (add region (w, .node []) t.entries)) = path q t := by
  obtain ⟨d⟩ := t
  have hside : ∀ e ∈ d, ExactRegion.Disjoint e.1 region := by
    intro e he q hq
    by_contra hin
    obtain rfl := (hreg q).mp (by simpa using hin)
    rw [path_of_mem ht.invariant he hq] at hpath
    cases hpath
  obtain ⟨hinv, -, hout⟩ := Invariant.add_over (k := w) (t := .node [])
    (.node wf_nil (by simp) (by simp) (by simp)) nofun ht.invariant hside
  refine ⟨⟨hinv, .of_entries fun e he => ?_⟩, fun q hq => hout q ?_⟩
  · rcases mem_add.mp he with rfl | ⟨-, he⟩
    · exact ⟨⟨⟨p, (hreg p).mpr rfl⟩, region, hregion, .refl region⟩, .nil⟩
    · exact ⟨ht.sits.here he, ht.sits.child he⟩
  · exact Bool.eq_false_iff.mpr fun h => hq ((hreg q).mp h)

end

/-! ### Reads -/

section
variable {K : IMemoryKey κ R} {predicate : Record κ → Bool} [DecidableEq R] [HashOrder R]
  [HashOrder FieldId] [DecidableEq κ] {t : UpdateTree κ Term R} {key : κ} {reg : R} {p : P}
  {explicitAddresses : Pset VectorTime} {specializedReading : κ → Record κ → Term}
  {isDefault : κ → Bool} {makeSymbolic : UpdateTree κ Term R → Except Failure Term}
  {makeDefault : Except Failure Term}

/-- One record of the key itself. -/
theorem read_one (hregion : K.region key = .ok reg) (hreg : ∀ q, contains reg q = true ↔ q = p)
    (ht : Grown K t) {k : Record κ} (hpath : path p t = [k]) (hkey : k.key = key)
    (hguard : k.hasTrueGuard = true) :
    read K predicate key t explicitAddresses specializedReading isDefault makeSymbolic makeDefault =
      .ok k.value := by
  obtain ⟨hat, hat'⟩ := localize_atPoint hreg ht.invariant ht.nonempty
  obtain ⟨r, t', heq, hr, ht', hnil⟩ := hat.eq_node (hat'.trans hpath)
  obtain rfl := ht'.eq_empty hnil
  have hd : localize reg t = [(r, k, .node [])] := RegionTree.node.inj heq
  rw [read, bind_ok hregion, hd]
  have hlatest : collectLatestRecords predicate [(r, k, RegionTree.node [])] = [(r, k)] := rfl
  simp only [hlatest, List.isEmpty_cons, Bool.false_eq_true, if_false]
  have hsame : [(r, k)].partition (fun e => decide (e.2.key = key)) = ([(r, k)], []) := by
    simp [List.partition, List.partition.loop, hkey]
  rw [hsame]
  simp [hguard]

/-- The guard of a record that is kept as a branch. -/
def branchGuard (g : Term) : Option Term := if isTrue g then none else some g

/-- What is read of a record. -/
def readValue (K : IMemoryKey κ R) (specializedReading : κ → Record κ → Term) (key : κ)
    (x : Record κ) : Term :=
  if K.isRange x.key then specializedReading key x else x.value

section

omit [ExactRegion R P] [DecidableEq κ] [HashOrder FieldId] [DecidableEq R] [HashOrder R]

variable {x : Record κ}

theorem termGuard_of_hasTrueGuard (h : x.hasTrueGuard = true) : x.termGuard = trueTerm := by
  rw [UpdateTreeKey.hasTrueGuard] at h
  rw [UpdateTreeKey.termGuard]
  cases hg : x.guard with
  | none => rfl
  | some g =>
    rw [hg] at h
    exact isTrue_iff.mp h

theorem termGuard_branchGuard (x : Record κ) (g : Term) :
    ({ x with guard := branchGuard g } : Record κ).termGuard = g := by
  rw [UpdateTreeKey.termGuard, branchGuard]
  by_cases h : isTrue g = true
  · rw [if_pos h, isTrue_iff.mp h]
    rfl
  · rw [if_neg h]
    rfl

/-- The match condition of a record with a true guard. -/
theorem tells_finalGuard (h : x.hasTrueGuard = true) {c : Term} {φ : AddressValuation → Bool}
    (hc : Tells φ c) : ∃ g, simplifyAnd c x.termGuard = .ok g ∧ Tells φ g := by
  obtain ⟨g, hg, hsimple, hholds⟩ := connected_simple.and hc.1 (.makeBool true)
  rw [termGuard_of_hasTrueGuard h]
  refine ⟨g, hg, hsimple, fun ρ => ?_⟩
  rw [hholds, hc.2, holds_makeBool, Bool.and_true]

end

section

omit [DecidableEq κ] [HashOrder FieldId]

/-- The record at the end of a history. -/
theorem collect_one {k : Record κ} {g : Term} {r : R}
    (hk : predicate k = true → ∃ c, K.matchCondition key k.key r = .ok c ∧
      simplifyAnd c k.termGuard = .ok g) (hg : g ≠ falseTerm) :
    getSplittingAndSymbolicTree K predicate key (.node [(r, k, .node [])]) = .ok
      (if predicate k then ([(r, { k with guard := branchGuard g }, .node [])], [])
      else ([], [(r, k, .node [])])) := by
  rw [getSplittingAndSymbolicTree, collectSplittingAndSymbolicTree]
  by_cases hsplits : predicate k = true
  · obtain ⟨c, hc, hand⟩ := hk hsplits
    rw [if_pos hsplits, bind_ok hc, bind_ok hand, getSplittingAndSymbolicTree, if_pos hsplits]
    simp only [List.filter_nil, collectSplittingAndSymbolicTree, hsplits, Bool.not_true,
      List.filter_cons, Bool.false_eq_true, if_false, if_neg hg]
    rfl
  · rw [if_neg hsplits, if_neg hsplits]
    simp only [List.filter_nil, collectSplittingAndSymbolicTree, hsplits, Bool.not_false,
      List.filter_cons, if_true]

/-- A record over the one at the end of a history. -/
theorem collect_two {w k : Record κ} {gw gk : Term} {r r' : R}
    (hw : predicate w = true → ∃ c, K.matchCondition key w.key r = .ok c ∧
      simplifyAnd c w.termGuard = .ok gw)
    (hk : predicate k = true → ∃ c, K.matchCondition key k.key r' = .ok c ∧
      simplifyAnd c k.termGuard = .ok gk) (hgk : gk ≠ falseTerm) :
    getSplittingAndSymbolicTree K predicate key (.node [(r, w, .node [(r', k, .node [])])]) = .ok
      (if predicate w then
        let splitting := if predicate k then
          [(r', { k with guard := branchGuard gk }, RegionTree.node [])] else []
        (if gw = falseTerm then splitting
          else [(r, { w with guard := branchGuard gw }, .node splitting)],
          if predicate k then [] else [(r', k, .node [])])
      else ([], [(r, w, .node [(r', k, .node [])])])) := by
  rw [getSplittingAndSymbolicTree, collectSplittingAndSymbolicTree]
  by_cases hsplits : predicate w = true
  · obtain ⟨c, hc, hand⟩ := hw hsplits
    rw [if_pos hsplits, bind_ok hc, bind_ok hand, bind_ok (collect_one hk hgk), if_pos hsplits]
    by_cases hksplits : predicate k = true <;> by_cases hg : gw = falseTerm <;>
      simp [hksplits, hsplits, hg, collectSplittingAndSymbolicTree, branchGuard] <;>
      exact ⟨rfl, rfl⟩
  · rw [if_neg hsplits, if_neg hsplits]
    simp [collectSplittingAndSymbolicTree, hsplits]

end

/-- What a read makes of those of the `records` that are no branches: a value of the shape, and
under the valuations that are `models`, the value of the newest record that is alive. -/
def Instantiates (K : IMemoryKey κ R) (s : Shape) (models : AddressValuation → Prop)
    (alive : AddressValuation → Record κ → Bool) (specializedReading : κ → Record κ → Term)
    (key : κ) (records : List (Record κ))
    (makeSymbolic : UpdateTree κ Term R → Except Failure Term) : Prop :=
  ∀ tree, (∀ e ∈ flatten tree, e.2 ∈ records) →
    ∃ c, makeSymbolic tree = .ok c ∧ InElse (BranchLeaf s) (ElseLeaf s) c ∧
      ∀ ρ, models ρ → ∀ e, (flatten tree).find? (fun e => alive ρ e.2) = some e →
        c.eval ρ.machine = (readValue K specializedReading key e.2).eval ρ.machine

/-- Where a record of another key is among the latest, the read splits. -/
theorem read_split (hregion : K.region key = .ok reg) (hreg : ∀ q, contains reg q = true ↔ q = p)
    (hne : localize reg t ≠ []) {r : R} {w : Record κ}
    (hlatest : (r, w) ∈ collectLatestRecords predicate (localize reg t))
    (hr : contains r p = true) (hwkey : w.key ≠ key) (hrange : K.isRange key = false) :
    read K predicate key t explicitAddresses specializedReading isDefault makeSymbolic
        makeDefault =
      splitRead K predicate (localize reg t) key explicitAddresses specializedReading isDefault
        makeSymbolic makeDefault := by
  rw [read, bind_ok hregion]
  generalize localize reg t = d at hne hlatest ⊢
  have hempty : d.isEmpty = false := by simpa using hne
  simp only [hempty, Bool.false_eq_true, if_false, List.partition_eq_filter_filter, hrange]
  have hother : (r, w) ∈ (collectLatestRecords predicate d).filter
      (not ∘ fun e => decide (e.2.key = key)) := by
    simp [List.mem_filter, hlatest, hwkey]
  refine if_neg fun heq => ?_
  have hp := contains_foldl_subtract ((collectLatestRecords predicate d).filter
      (not ∘ fun e => decide (e.2.key = key))) reg p
  rw [← heq, (hreg p).mpr rfl, Bool.true_and] at hp
  have hout := List.all_eq_true.mp hp.symm (r, w) hother
  rw [hr] at hout
  cases hout

/-- A record over one of the key itself: where the record answers, its value is read. -/
theorem read_two {s : Shape} {models : AddressValuation → Prop}
    {alive : AddressValuation → Record κ → Bool} {φ : AddressValuation → Bool}
    (hregion : K.region key = .ok reg) (hreg : ∀ q, contains reg q = true ↔ q = p)
    (ht : Grown K t) {w k : Record κ} (hpath : path p t = [w, k]) (hkey : k.key = key)
    (hwkey : w.key ≠ key) (htime : VectorTime.less w.time k.time = false)
    (hrange : K.isRange key = false) (hwg : w.hasTrueGuard = true) (hkg : k.hasTrueGuard = true)
    (hsplits : predicate k = true → predicate w = true)
    (hwmatch : ∀ e ∈ flatten (.node (localize reg t)), (∀ q, contains e.1 q = true ↔ q = p) →
      ∃ c, K.matchCondition key w.key e.1 = .ok c ∧ Tells φ c)
    (hkmatch : ∀ e ∈ flatten (.node (localize reg t)), (∀ q, contains e.1 q = true ↔ q = p) →
      ∃ c, K.matchCondition key key e.1 = .ok c ∧ Tells (fun _ => true) c)
    (hwalive : ∀ ρ, alive ρ w = φ ρ) (hkalive : ∀ ρ, alive ρ k = true)
    (hspec : ∀ g, specializedReading key { w with guard := g } = specializedReading key w)
    (hwvalue : InBranch (BranchLeaf s) (readValue K specializedReading key w))
    (hkvalue : InBranch (BranchLeaf s) k.value)
    (hsymbolic : Instantiates K s models alive specializedReading key [w, k] makeSymbolic)
    (hdefault : isDefault key = true → ∃ d, makeDefault = .ok d ∧
      InElse (BranchLeaf s) (ElseLeaf s) d)
    (hexplicit : predicate k = true → K.isExplicit key explicitAddresses = true → ∃ ρ, φ ρ = true) :
    ∃ v, read K predicate key t explicitAddresses specializedReading isDefault makeSymbolic
        makeDefault = .ok v ∧
      ∀ ρ, models ρ → v.eval ρ.machine =
        (if φ ρ then readValue K specializedReading key w else k.value).eval ρ.machine := by
  obtain rfl := hkey
  obtain ⟨hat, hat'⟩ := localize_atPoint hreg ht.invariant ht.nonempty
  obtain ⟨r, t', heq, hr, ht', hlast⟩ := hat.eq_node (hat'.trans hpath)
  obtain ⟨r', t'', rfl, hr', ht'', hnil⟩ := ht'.eq_node hlast
  obtain rfl := ht''.eq_empty hnil
  have hd : localize reg t = [(r, w, .node [(r', k, .node [])])] := RegionTree.node.inj heq
  rw [hd] at hwmatch hkmatch
  obtain ⟨cw, hcw, hcwφ⟩ := hwmatch (r, w) (by simp [flatten, foldr, foldrEntries]) hr
  obtain ⟨gw, hgw, hgwφ⟩ := tells_finalGuard hwg hcwφ
  obtain ⟨ck, hck, hckφ⟩ := hkmatch (r', k) (by simp [flatten, foldr, foldrEntries]) hr'
  obtain ⟨gk, hgk, hgkφ⟩ := tells_finalGuard hkg hckφ
  have hgk' : gk ≠ falseTerm := Tells.ne_falseTerm hgkφ (ρ := .ofTimes fun _ => []) rfl
  have hcollect := @collect_two _ _ K predicate _ _ k.key w k gw gk r r'
    (fun _ => ⟨cw, hcw, hgw⟩) (fun _ => ⟨ck, hck, hgk⟩) hgk'
  have hwcond : Condition gw := .simple hgwφ.1
  have hkcond : Condition gk := .simple hgkφ.1
  have hwread (g : Option Term) : readValue K specializedReading k.key { w with guard := g } =
      readValue K specializedReading k.key w := by
    rw [readValue, readValue, hspec]
  have hkread : readValue K specializedReading k.key k = k.value := by
    rw [readValue, hrange, if_neg Bool.false_ne_true]
  let branches : List (Term × Term) :=
    if gw = falseTerm then [] else [(gw, readValue K specializedReading k.key w)]
  have hbranches : (∀ b ∈ branches, Condition b.1) ∧ ∀ b ∈ branches, InBranch (BranchLeaf s) b.2 := by
    by_cases hg : gw = falseTerm
    · simp [branches, hg]
    · simp [branches, hg, hwcond, hwvalue]
  have hlatest : (r, w) ∈ collectLatestRecords predicate [(r, w, .node [(r', k, .node [])])] := by
    by_cases hk : predicate k = true
    · simp [collectLatestRecords, collectBranchLatestRecords, collectSubtreeNodes, hk]
    · have hless : VectorTime.less (latestTime [(r, w)]) k.time = false := htime
      simp only [collectLatestRecords, collectBranchLatestRecords, collectSubtreeNodes, hk, hless,
        List.flatMap_cons, List.flatMap_nil, List.append_nil, Bool.false_eq_true, if_false]
      split <;> simp
  have hread : read K predicate k.key t explicitAddresses specializedReading isDefault makeSymbolic
      makeDefault = splitRead K predicate [(r, w, .node [(r', k, .node [])])] k.key
        explicitAddresses specializedReading isDefault makeSymbolic makeDefault := by
    rw [← hd] at hlatest ⊢
    exact read_split hregion hreg (hd ▸ List.cons_ne_nil _ _) hlatest ((hr p).mpr rfl) hwkey hrange
  have hvalue (bs : List (Term × Term)) (e : Term) (hbs : bs = [] ∨ bs = [(gk, k.value)])
      (he : InElse (BranchLeaf s) (ElseLeaf s) e)
      (heval : ∀ ρ, models ρ → φ ρ = false → (Term.ite bs e).eval ρ.machine =
        k.value.eval ρ.machine) :
      ∃ v, merge ⟨branches ++ bs, e⟩ = .ok v ∧ ∀ ρ, models ρ → v.eval ρ.machine =
        (if φ ρ then readValue K specializedReading k.key w else k.value).eval ρ.machine := by
    have hmem : ∀ b ∈ bs, Condition b.1 ∧ InBranch (BranchLeaf s) b.2 := by
      rcases hbs with rfl | rfl
      · exact List.forall_mem_nil _
      · exact List.forall_mem_singleton.mpr ⟨hkcond, hkvalue⟩
    have hmergeable : Unnested s ⟨branches ++ bs, e⟩ :=
      ⟨fun b hb => (List.mem_append.mp hb).elim (hbranches.1 b) fun hb => (hmem b hb).1,
        fun b hb => (List.mem_append.mp hb).elim (hbranches.2 b) fun hb => (hmem b hb).2, he⟩
    obtain ⟨v, hv, hveval⟩ := merge_spec hmergeable.mergeable
    refine ⟨v, hv, fun ρ hρ => ?_⟩
    rw [hveval]
    refine (Tells.eval_branch hgwφ _ bs e ρ).trans ?_
    cases hφ : φ ρ with
    | true => rfl
    | false => simpa using heval ρ hρ hφ
  rw [hread, splitRead, bind_ok hcollect]
  by_cases hw : predicate w = true
  · by_cases hk : predicate k = true
    · -- both records are branches
      have hreads : readBranches K specializedReading k.key (.node (if gw = falseTerm then
          [(r', { k with guard := branchGuard gk }, RegionTree.node [])] else
          [(r, { w with guard := branchGuard gw },
            .node [(r', { k with guard := branchGuard gk }, RegionTree.node [])])])) =
          branches ++ [(gk, k.value)] := by
        by_cases hg : gw = falseTerm
        · simp [branches, hg, readBranches, foldr, foldrEntries, termGuard_branchGuard, hrange]
        · simp only [branches, if_neg hg, readBranches, foldr, foldrEntries, termGuard_branchGuard,
            hrange, Bool.false_eq_true, if_false, List.singleton_append]
          exact congrArg (fun v => [(gw, v), (gk, k.value)]) (hwread (branchGuard gw))
      have hkholds (ρ : AddressValuation) (e : Term) :
          (Term.ite [(gk, k.value)] e).eval ρ.machine = k.value.eval ρ.machine := by
        rw [eval_ite_cons, hgkφ.2, if_pos rfl]
      simp only [hw, hk, if_true, hreads, List.isEmpty_nil, Bool.true_and]
      by_cases hexp : K.isExplicit k.key explicitAddresses = true
      · obtain ⟨ρ, hφ⟩ := hexplicit hk hexp
        have hg : gw ≠ falseTerm := Tells.ne_falseTerm hgwφ hφ
        have hfrom : fromGvs (branches ++ [(gk, k.value)]) = .ok (branches, k.value) := by
          simp [branches, hg, fromGvs]
        simp only [hexp, if_true]
        rw [bind_ok hfrom]
        simpa using hvalue [] k.value (.inl rfl) (hkvalue.inElse fun _ => BranchLeaf.elseLeaf)
          fun _ _ _ => rfl
      · simp only [hexp, Bool.false_eq_true, if_false]
        by_cases hdef : isDefault k.key = true
        · obtain ⟨d, hd, hshape⟩ := hdefault hdef
          rw [if_pos hdef, bind_ok hd]
          exact hvalue _ d (.inr rfl) hshape fun ρ _ _ => hkholds ρ d
        · obtain ⟨c, hc, hshape, -⟩ := hsymbolic (.node [])
            (by simp [flatten, foldr, foldrEntries])
          rw [if_neg hdef, bind_ok hc]
          exact hvalue _ c (.inr rfl) hshape fun ρ _ _ => hkholds ρ c
    · -- the later record is a branch
      obtain ⟨c, hc, hshape, heval⟩ := hsymbolic (.node [(r', k, .node [])])
        (by simp [flatten, foldr, foldrEntries])
      have hreads : readBranches K specializedReading k.key (.node (if gw = falseTerm then []
          else [(r, { w with guard := branchGuard gw }, RegionTree.node [])])) = branches := by
        by_cases hg : gw = falseTerm
        · simp [branches, hg, readBranches, foldr, foldrEntries]
        · simp only [branches, if_neg hg, readBranches, foldr, foldrEntries, termGuard_branchGuard]
          exact congrArg (fun v => [(gw, v)]) (hwread (branchGuard gw))
      simp only [hw, hk, if_true, Bool.false_eq_true, if_false, hreads, List.isEmpty_cons,
        Bool.false_and]
      rw [bind_ok hc]
      have hend := hvalue [] c (.inl rfl) hshape fun ρ hρ _ => by
        rw [eval_ite_nil, heval ρ hρ (r', k) (by simp [flatten, foldr, foldrEntries, hkalive]),
          hkread]
      simpa using hend
  · -- no record is a branch
    have hk : predicate k ≠ true := fun hk => hw (hsplits hk)
    obtain ⟨c, hc, hshape, heval⟩ := hsymbolic (.node [(r, w, .node [(r', k, .node [])])])
      (by simp [flatten, foldr, foldrEntries])
    simp only [hw, Bool.false_eq_true, if_false, List.isEmpty_cons, Bool.false_and]
    have hreads : readBranches K specializedReading k.key (.node ([] : Entries κ R)) = [] := rfl
    rw [hreads, bind_ok hc]
    have hmergeable : Unnested s ⟨[], c⟩ :=
      ⟨List.forall_mem_nil _, List.forall_mem_nil _, hshape⟩
    obtain ⟨v, hv, hveval⟩ := merge_spec hmergeable.mergeable
    refine ⟨v, hv, fun ρ hρ => ?_⟩
    rw [hveval, eval_ite_nil]
    cases hφ : φ ρ with
    | true =>
      rw [heval ρ hρ (r, w) (by simp [flatten, foldr, foldrEntries, hwalive, hφ])]
      rfl
    | false =>
      rw [heval ρ hρ (r', k) (by simp [flatten, foldr, foldrEntries, hwalive, hkalive, hφ]), hkread]
      rfl

end

end UpdateTree

end VSharp
