import VSharp.CoverageInstrumenter.WireFormat

/-!
# Coverage instrumenter — Resolution

The coverage tracker under any interleaving of its mutex-protected sections, on any number of
threads.

- `invocationFinished` goes through the sections of its storages, of `visitedMethodsMutex` and of
  `serializedCoverageMutex` one by one;
- `serializeCoverageReport` holds `collectedMethodsMutex`, and then `serializedCoverageMutex` too,
  until it ends; it reads `visitedMethods` without `visitedMethodsMutex`, so other threads may
  publish methods between two steps of its loop;
- a thread that dereferences a null history takes no further step.

Ids of threads and the mapping of threads may be anything.
-/

namespace VSharp.CoverageInstrumenter
open Library CoverageDeserializer CoverageTracker List Option

/-- Where a thread is in `invocationFinished`. -/
inductive Finishing where
  | idle
  | loaded (coverage : Option CoverageHistory)
  | mapped (coverage : Option CoverageHistory) (threadId : BitVec 32)
  | published (coverage : Option CoverageHistory) (threadId : BitVec 32)
  | removed (coverage : Option CoverageHistory) (threadId : BitVec 32)

/-- Where `serializeCoverageReport` is. -/
inductive Reporting where
  | idle
  | lockedCollected
  | scanning (i : Nat) (methods : List (Nat × MethodInfo))
  | mapped (methods : List (Nat × MethodInfo)) (mapping : List (ThreadID × BitVec 32))

structure System where
  tracker : CoverageTracker
  finishing : ThreadID → Finishing
  reporting : Reporting
  reports : List (List (BitVec 8))

namespace System

/-- `collectMethod` has returned the id. -/
def HandedOut (collected : List MethodInfo) (methodId : BitVec 32) : Prop :=
  methodId.toNat < 2 ^ 31 ∧ methodId.toNat < collected.length

/-- `serializedCoverageMutex` is free. -/
def Reporting.serializedFree : Reporting → Prop
  | .idle | .lockedCollected => True
  | .scanning .. | .mapped .. => False

variable (s : System)

/-- A thread goes on in `invocationFinished`. -/
def setFinishing (thread : ThreadID) (f : Finishing) : ThreadID → Finishing :=
  Function.update s.finishing thread f

/-- The report that is made. -/
def reportBytes (methods : List (Nat × MethodInfo)) (mapping : List (ThreadID × BitVec 32)) :
    List (BitVec 8) :=
  serializeMethods methods ++ (s.tracker.addNotEntered mapping).serializeBuffers

inductive Step : System → System → Prop where
  | collectMethod (s : System) (info : MethodInfo) (hfree : s.reporting = .idle) :
      Step s { s with tracker := (s.tracker.collectMethod info).2 }
  | addCoverage (s : System) (thread : ThreadID) (collectMainOnly : Bool) (offset : BitVec 32)
      (event : CoverageEvent) (methodId : BitVec 32) (tracker : CoverageTracker)
      (hid : HandedOut s.tracker.collectedMethods methodId)
      (hidle : s.finishing thread = .idle)
      (hadd : s.tracker.addCoverage collectMainOnly thread offset event methodId = some tracker) :
      Step s { s with tracker }
  | load (s : System) (thread : ThreadID) (coverage : Option CoverageHistory)
      (hidle : s.finishing thread = .idle)
      (hload : s.tracker.trackedCoverage.load thread = some coverage) :
      Step s { s with finishing := s.setFinishing thread (.loaded coverage) }
  | map (s : System) (thread : ThreadID) (coverage : Option CoverageHistory)
      (threadId : BitVec 32) (hloaded : s.finishing thread = .loaded coverage) :
      Step s { s with finishing := s.setFinishing thread (.mapped coverage threadId) }
  | publish (s : System) (thread : ThreadID) (coverage : Option CoverageHistory)
      (threadId : BitVec 32) (tracker : CoverageTracker)
      (hmapped : s.finishing thread = .mapped coverage threadId)
      (hpublish : s.tracker.publishVisited coverage = some tracker) :
      Step s { s with
        tracker, finishing := s.setFinishing thread (.published coverage threadId) }
  | remove (s : System) (thread : ThreadID) (coverage : Option CoverageHistory)
      (threadId : BitVec 32) (hpublished : s.finishing thread = .published coverage threadId) :
      Step s { s with
        tracker := { s.tracker with
          trackedCoverage := s.tracker.trackedCoverage.without thread }
        finishing := s.setFinishing thread (.removed coverage threadId) }
  | push (s : System) (thread : ThreadID) (coverage : Option CoverageHistory)
      (threadId : BitVec 32) (hremoved : s.finishing thread = .removed coverage threadId)
      (hfree : Reporting.serializedFree s.reporting) :
      Step s { s with
        tracker := s.tracker.pushSerialized threadId (historyBuffer threadId coverage)
        finishing := s.setFinishing thread .idle }
  | lockCollected (s : System) (hfree : s.reporting = .idle) :
      Step s { s with reporting := .lockedCollected }
  | lockSerialized (s : System) (hlocked : s.reporting = .lockedCollected) :
      Step s { s with reporting := .scanning 0 [] }
  | scan (s : System) (i : Nat) (methods : List (Nat × MethodInfo)) (info : MethodInfo)
      (hscan : s.reporting = .scanning i methods)
      (hinfo : s.tracker.collectedMethods[i]? = some info) :
      Step s { s with
        reporting := .scanning (i + 1)
          (if isVisited s.tracker.visitedMethods i then methods ++ [(i, info)] else methods) }
  | getMapping (s : System) (methods : List (Nat × MethodInfo))
      (mapping : List (ThreadID × BitVec 32))
      (hscan : s.reporting = .scanning s.tracker.collectedMethods.length methods) :
      Step s { s with reporting := .mapped methods mapping }
  | clear (s : System) :
      Step s { s with tracker := s.tracker.clear }
  | unlock (s : System) (methods : List (Nat × MethodInfo))
      (mapping : List (ThreadID × BitVec 32)) (hmapped : s.reporting = .mapped methods mapping) :
      Step s { s with
        tracker := { s.tracker.addNotEntered mapping with serializedCoverage := [] }
        reporting := .idle
        reports := s.reports ++ [s.reportBytes methods mapping] }

/-- Before anything has happened. -/
def start : System where
  tracker := .empty
  finishing _ := .idle
  reporting := .idle
  reports := []

inductive Reachable : System → Prop where
  | start : Reachable start
  | step {s s' : System} (h : Reachable s) (hstep : Step s s') : Reachable s'

/-- Every location of a report, which fits into an array, is resolved to the method that its id was
handed out for. -/
def Resolved (collected : List MethodInfo) (bytes : List (BitVec 8)) : Prop :=
  bytes.length ≤ maxLength → ∀ raw place, getRawReports bytes = some (raw, place) →
    (∀ report ∈ raw.reports, ∀ x ∈ report.rawCoverageLocations, ∃ info,
      collected[x.methodId.toNat]? = some info ∧ raw.methods.lookup x.methodId = some info.raw) ∧
    reportsFromRawReports raw ≠ none

/-! ### What holds all along -/

/-- The methods of a history have been handed out. -/
def Collected (collected : List MethodInfo) (coverage : Option CoverageHistory) : Prop :=
  ∀ h, coverage = some h → ∀ id ∈ h.visitedMethods, HandedOut collected id

/-- The methods of a history have been published. -/
def Published (collected : List MethodInfo) (visited : Finset (BitVec 32))
    (coverage : Option CoverageHistory) : Prop :=
  ∀ h, coverage = some h → ∀ id ∈ h.visitedMethods, HandedOut collected id ∧ id ∈ visited

/-- What is known of a thread that finishes. -/
def Finishing.Sound (collected : List MethodInfo) (visited : Finset (BitVec 32)) : Finishing → Prop
  | .idle => True
  | .loaded coverage | .mapped coverage _ => Collected collected coverage
  | .published coverage _ | .removed coverage _ => Published collected visited coverage

/-- The loop has reached `i`: the methods are listed by their ids, and those of the entries are
among them. -/
structure Listed (collected : List MethodInfo)
    (entries : List (BitVec 32 × Option CoverageHistory)) (i : Nat)
    (methods : List (Nat × MethodInfo)) : Prop where
  info : ∀ j info, (j, info) ∈ methods → collected[j]? = some info
  below : ∀ el ∈ methods, el.1 < i ∧ el.1 < 2 ^ 31
  nodup : (methods.map Prod.fst).Nodup
  complete : ∀ el ∈ entries, ∀ h, el.2 = some h → ∀ id ∈ h.visitedMethods, id.toNat < i →
    ∃ info, (id.toNat, info) ∈ methods

def Reporting.Sound (collected : List MethodInfo)
    (entries : List (BitVec 32 × Option CoverageHistory)) : Reporting → Prop
  | .idle | .lockedCollected => True
  | .scanning i methods => Listed collected entries i methods
  | .mapped methods _ => Listed collected entries collected.length methods

structure Invariant (s : System) (entries : List (BitVec 32 × Option CoverageHistory)) : Prop where
  tracked : ∀ thread coverage, s.tracker.trackedCoverage.load thread = some coverage →
    Collected s.tracker.collectedMethods coverage
  finishing : ∀ thread,
    Finishing.Sound s.tracker.collectedMethods s.tracker.visitedMethods (s.finishing thread)
  buffers : s.tracker.serializedCoverage = entries.map fun el => historyBuffer el.1 el.2
  published : ∀ el ∈ entries, Published s.tracker.collectedMethods s.tracker.visitedMethods el.2
  reporting : Reporting.Sound s.tracker.collectedMethods entries s.reporting
  reports : ∀ bytes ∈ s.reports, Resolved s.tracker.collectedMethods bytes

section
variable {collected : List MethodInfo} {visited visited' : Finset (BitVec 32)}
  {coverage : Option CoverageHistory} {info : MethodInfo} {f : Finishing}

theorem HandedOut.append {methodId : BitVec 32} (h : HandedOut collected methodId) :
    HandedOut (collected ++ [info]) methodId :=
  ⟨h.1, by rw [length_append]; exact Nat.lt_add_right _ h.2⟩

theorem Collected.append (h : Collected collected coverage) :
    Collected (collected ++ [info]) coverage :=
  fun g hg id hid => (h g hg id hid).append

theorem Published.append (h : Published collected visited coverage) :
    Published (collected ++ [info]) visited coverage :=
  fun g hg id hid => ⟨(h g hg id hid).1.append, (h g hg id hid).2⟩

theorem Published.mono (h : Published collected visited coverage) (hle : visited ⊆ visited') :
    Published collected visited' coverage :=
  fun g hg id hid => ⟨(h g hg id hid).1, hle (h g hg id hid).2⟩

theorem Finishing.Sound.append (h : Finishing.Sound collected visited f) :
    Finishing.Sound (collected ++ [info]) visited f := by
  cases f with
  | idle => trivial
  | loaded coverage => exact Collected.append h
  | mapped coverage threadId => exact Collected.append h
  | published coverage threadId => exact Published.append h
  | removed coverage threadId => exact Published.append h

theorem Finishing.Sound.mono (h : Finishing.Sound collected visited f) (hle : visited ⊆ visited') :
    Finishing.Sound collected visited' f := by
  cases f with
  | idle => trivial
  | loaded coverage => exact h
  | mapped coverage threadId => exact h
  | published coverage threadId => exact Published.mono h hle
  | removed coverage threadId => exact Published.mono h hle

theorem Resolved.append {bytes : List (BitVec 8)} (h : Resolved collected bytes) :
    Resolved (collected ++ [info]) bytes := by
  intro hfits raw place hraw
  obtain ⟨hlocations, hreports⟩ := h hfits raw place hraw
  refine ⟨fun report hreport x hx => ?_, hreports⟩
  obtain ⟨info', hinfo, hlookup⟩ := hlocations report hreport x hx
  have hlt := (List.getElem?_eq_some_iff.mp hinfo).1
  exact ⟨info', (getElem?_append_left hlt).trans hinfo, hlookup⟩

end

/-! ### What a report says -/

section
variable {collected : List MethodInfo} {entries : List (BitVec 32 × Option CoverageHistory)}
  {methods : List (Nat × MethodInfo)} {n : Nat}

theorem toNat_ofInt_of_lt {i : Nat} (h : i < 2 ^ 31) : (BitVec.ofInt 32 (i : Int)).toNat = i := by
  rw [BitVec.ofInt_natCast, BitVec.toNat_ofNat]
  exact Nat.mod_eq_of_lt (by omega)

/-- The ids of the methods are different keys. -/
theorem Listed.nodup_keys (h : Listed collected entries n methods) :
    (methods.map fun el => (rawEntry el).1).Nodup := by
  have hinj : ∀ i ∈ methods.map Prod.fst, ∀ j ∈ methods.map Prod.fst,
      BitVec.ofInt 32 (i : Int) = BitVec.ofInt 32 (j : Int) → i = j := by
    intro i hi j hj heq
    obtain ⟨el, hel, rfl⟩ := List.mem_map.mp hi
    obtain ⟨el', hel', rfl⟩ := List.mem_map.mp hj
    have hnat := congrArg BitVec.toNat heq
    rwa [toNat_ofInt_of_lt (h.below el hel).2, toNat_ofInt_of_lt (h.below el' hel').2] at hnat
  have hmap := List.Nodup.map_on hinj h.nodup
  rwa [List.map_map] at hmap

theorem lookup_eq_some {κ α : Type} [DecidableEq κ] {l : List (κ × α)} {k : κ} {a : α}
    (hnodup : (l.map Prod.fst).Nodup) (hmem : (k, a) ∈ l) : l.lookup k = some a := by
  induction l with
  | nil => cases hmem
  | cons el l ih =>
    rw [map_cons, nodup_cons] at hnodup
    rcases mem_cons.mp hmem with rfl | hmem
    · exact lookup_cons_self
    · have hne : k ≠ el.1 := by
        rintro rfl
        exact hnodup.1 (List.mem_map.mpr ⟨_, hmem, rfl⟩)
      rw [lookup_cons, beq_false_of_ne hne]
      exact ih hnodup.2 hmem

/-- A method is looked up by its id. -/
theorem Listed.lookup (h : Listed collected entries n methods) {methodId : BitVec 32}
    {info : MethodInfo} (hmem : (methodId.toNat, info) ∈ methods) :
    collected[methodId.toNat]? = some info ∧
      (methods.map rawEntry).lookup methodId = some info.raw := by
  have hentry : (methodId, info.raw) ∈ methods.map rawEntry := by
    refine List.mem_map.mpr ⟨_, hmem, ?_⟩
    rw [rawEntry, BitVec.ofInt_natCast, BitVec.ofNat_toNat, BitVec.setWidth_eq]
  have hnodup : ((methods.map rawEntry).map Prod.fst).Nodup := by
    rw [List.map_map]
    exact h.nodup_keys
  exact ⟨h.info _ _ hmem, lookup_eq_some hnodup hentry⟩

/-- Every record of the entries has its method in the list. -/
theorem Listed.resolves (h : Listed collected entries collected.length methods)
    (hout : ∀ el ∈ entries, Collected collected el.2) {el : BitVec 32 × Option CoverageHistory}
    (hel : el ∈ entries) {x : RawCoverageLocation}
    (hx : x ∈ (rawReport el.1 el.2).rawCoverageLocations) :
    ∃ info, collected[x.methodId.toNat]? = some info ∧
      (methods.map rawEntry).lookup x.methodId = some info.raw := by
  obtain ⟨threadId, coverage⟩ := el
  obtain ⟨r, hr, rfl⟩ := List.mem_map.mp hx
  cases coverage with
  | none => cases hr
  | some history =>
    have hvisited : r.methodId ∈ history.visitedMethods := history.visited r hr
    have hlt := (hout _ hel history rfl _ hvisited).2
    obtain ⟨info, hmem⟩ := h.complete _ hel history rfl _ hvisited hlt
    exact ⟨info, h.lookup hmem⟩

theorem mapM_ne_none {α β : Type} {f : α → Option β} {l : List α} (h : ∀ a ∈ l, f a ≠ none) :
    l.mapM f ≠ none := by
  induction l with
  | nil => simp
  | cons a l ih =>
    obtain ⟨b, hb⟩ := ne_none_iff_exists'.mp (h a mem_cons_self)
    obtain ⟨bs, hbs⟩ :=
      ne_none_iff_exists'.mp (ih fun a ha => h a (mem_cons_of_mem _ ha))
    simp [mapM_cons, hb, hbs]

/-- When every method is found, no lookup throws. -/
theorem reportsFromRawReports_ne_none {raw : RawCoverageReports}
    (h : ∀ report ∈ raw.reports, ∀ x ∈ report.rawCoverageLocations,
      raw.methods.lookup x.methodId ≠ none) :
    reportsFromRawReports raw ≠ none := by
  refine mapM_ne_none fun report hreport => ?_
  have hlocations : report.rawCoverageLocations.mapM (toLocation raw.methods) ≠ none := by
    refine mapM_ne_none fun x hx => ?_
    obtain ⟨method, hmethod⟩ := ne_none_iff_exists'.mp (h report hreport x hx)
    simp [toLocation, hmethod]
  obtain ⟨locations, heq⟩ := ne_none_iff_exists'.mp hlocations
  simp [toReport, heq]

/-- The aborted entries of the threads that did not enter main. -/
theorem resolved_reportBytes {s : System} {mapping : List (ThreadID × BitVec 32)}
    (hbuffers : s.tracker.serializedCoverage = entries.map fun el => historyBuffer el.1 el.2)
    (hout : ∀ el ∈ entries, Collected s.tracker.collectedMethods el.2)
    (hlisted : Listed s.tracker.collectedMethods entries s.tracker.collectedMethods.length
      methods) :
    Resolved s.tracker.collectedMethods (s.reportBytes methods mapping) := by
  intro hfits raw place hraw
  let all := entries ++
    (notEntered s.tracker.serializedCoverageThreadIds mapping).map fun id => (id, none)
  have hall : (s.tracker.addNotEntered mapping).serializedCoverage =
      all.map fun el => historyBuffer el.1 el.2 := by
    rw [addNotEntered_eq, map_append, List.map_map, hbuffers]
    rfl
  rw [reportBytes, getRawReports_eq hlisted.nodup_keys hall hfits] at hraw
  split at hraw
  case isFalse => cases hraw
  case isTrue hcount =>
    cases hraw
    have hresolves : ∀ report ∈ (all.take (coverageCount all.length).toNat).map fun el =>
        rawReport el.1 el.2, ∀ x ∈ report.rawCoverageLocations, ∃ info,
        s.tracker.collectedMethods[x.methodId.toNat]? = some info ∧
          (methods.map rawEntry).lookup x.methodId = some info.raw := by
      intro report hreport x hx
      obtain ⟨el, hel, rfl⟩ := List.mem_map.mp hreport
      rcases mem_append.mp (mem_of_mem_take hel) with hel | hel
      · exact hlisted.resolves hout hel hx
      · obtain ⟨id, -, rfl⟩ := List.mem_map.mp hel
        cases hx
    refine ⟨hresolves, reportsFromRawReports_ne_none fun report hreport x hx => ?_⟩
    obtain ⟨info, -, hlookup⟩ := hresolves report hreport x hx
    rw [hlookup]
    exact some_ne_none _

end

/-! ### Each step keeps it -/

section
variable {s : System} {entries : List (BitVec 32 × Option CoverageHistory)}
variable {thread : ThreadID} {coverage : Option CoverageHistory} {threadId : BitVec 32}
  {visited : Finset (BitVec 32)}

theorem addCoverage_eq_some {c c' : CoverageTracker} {collectMainOnly : Bool}
    {offset methodId : BitVec 32} {event : CoverageEvent}
    (h : c.addCoverage collectMainOnly thread offset event methodId = some c') :
    ∃ history : CoverageHistory,
      c' = { c with trackedCoverage := c.trackedCoverage.storeOrUpdate thread (some history) } ∧
      ∀ id ∈ history.visitedMethods, id = methodId ∨
        ∃ before : CoverageHistory, c.trackedCoverage.load thread = some (some before) ∧
          id ∈ before.visitedMethods := by
  rw [CoverageTracker.addCoverage] at h
  split at h
  case isTrue =>
    obtain ⟨tracked, hstore, hc⟩ := bind_eq_some_iff.mp h
    obtain ⟨-, rfl⟩ := ThreadStorage.store_eq_some.mp hstore
    refine ⟨.create offset methodId thread, (some.inj hc).symm, fun id hid => ?_⟩
    exact .inl (Finset.mem_singleton.mp hid)
  case isFalse =>
    obtain ⟨stored, hload, hrest⟩ := bind_eq_some_iff.mp h
    obtain ⟨before, rfl, hc⟩ := bind_eq_some_iff.mp hrest
    refine ⟨before.addCoverage offset event methodId thread, (some.inj hc).symm, fun id hid => ?_⟩
    rcases Finset.mem_insert.mp hid with rfl | hid
    · exact .inl rfl
    · exact .inr ⟨before, hload, hid⟩

/-- What is known of the threads after one of them goes on. -/
theorem sound_setFinishing {collected : List MethodInfo}
    (h : ∀ thread, Finishing.Sound collected visited (s.finishing thread)) {f : Finishing}
    (hf : Finishing.Sound collected visited f) (thread' : ThreadID) :
    Finishing.Sound collected visited (s.setFinishing thread f thread') := by
  rw [setFinishing, Function.update_apply]
  split
  · exact hf
  · exact h thread'

/-- The loop lists the next method when it has been visited. -/
theorem Listed.scan {collected : List MethodInfo} {i : Nat} {methods : List (Nat × MethodInfo)}
    {info : MethodInfo} (h : Listed collected entries i methods) (hinfo : collected[i]? = some info)
    (hpublished : ∀ el ∈ entries, Published collected visited el.2) :
    Listed collected entries (i + 1)
      (if isVisited visited i then methods ++ [(i, info)] else methods) := by
  split
  case isTrue hvisited =>
    rw [isVisited, decide_eq_true_eq] at hvisited
    refine ⟨fun j info' hmem => ?_, fun el hel => ?_, ?_, fun el hel g hg id hid hlt => ?_⟩
    · rcases mem_append.mp hmem with hmem | hmem
      · exact h.info j info' hmem
      · cases mem_singleton.mp hmem
        exact hinfo
    · rcases mem_append.mp hel with hel | hel
      · exact ⟨Nat.lt_succ_of_lt (h.below el hel).1, (h.below el hel).2⟩
      · cases mem_singleton.mp hel
        exact ⟨Nat.lt_succ_self i, hvisited.1⟩
    · have hfresh : i ∉ methods.map Prod.fst := by
        intro hmem
        obtain ⟨el, hel, heq⟩ := List.mem_map.mp hmem
        exact absurd (h.below el hel).1 (by omega)
      rw [map_append]
      exact nodup_append.mpr ⟨h.nodup, nodup_singleton i, by
        rintro a ha b hb rfl
        cases mem_singleton.mp hb
        exact hfresh ha⟩
    · rcases Nat.lt_succ_iff_lt_or_eq.mp hlt with hlt | heq
      · obtain ⟨info', hmem⟩ := h.complete el hel g hg id hid hlt
        exact ⟨info', mem_append_left _ hmem⟩
      · exact ⟨info, mem_append_right _ (by rw [heq]; exact mem_singleton_self _)⟩
  case isFalse hvisited =>
    refine ⟨h.info, fun el hel => ⟨Nat.lt_succ_of_lt (h.below el hel).1, (h.below el hel).2⟩,
      h.nodup, fun el hel g hg id hid hlt => ?_⟩
    rcases Nat.lt_succ_iff_lt_or_eq.mp hlt with hlt | rfl
    · exact h.complete el hel g hg id hid hlt
    · -- an id of an entry has been published before the entry was pushed
      obtain ⟨hout, hmem⟩ := hpublished el hel g hg id hid
      refine absurd ?_ hvisited
      rw [isVisited, decide_eq_true_eq, BitVec.ofNat_toNat, BitVec.setWidth_eq]
      exact ⟨hout.1, hmem⟩

section
variable (h : Invariant s entries) {tracker : CoverageTracker}

include h

theorem Invariant.collected :
    ∀ el ∈ entries, Collected s.tracker.collectedMethods el.2 :=
  fun el hel g hg id hid => (h.published el hel g hg id hid).1

theorem Invariant.collectMethod (info : MethodInfo)
    (hfree : s.reporting = .idle) :
    Invariant { s with tracker := (s.tracker.collectMethod info).2 } entries where
  tracked thread coverage hload := (h.tracked thread coverage hload).append
  finishing thread := (h.finishing thread).append
  buffers := h.buffers
  published el hel := (h.published el hel).append
  reporting := by
    show Reporting.Sound _ entries s.reporting
    rw [hfree]
    trivial
  reports bytes hbytes := (h.reports bytes hbytes).append

theorem Invariant.addCoverage {collectMainOnly : Bool} {offset methodId : BitVec 32}
    {event : CoverageEvent} (hid : HandedOut s.tracker.collectedMethods methodId)
    (hadd : s.tracker.addCoverage collectMainOnly thread offset event methodId = some tracker) :
    Invariant { s with tracker } entries := by
  obtain ⟨history, rfl, hvisited⟩ := addCoverage_eq_some hadd
  refine { h with tracked := fun thread' coverage hload => ?_ }
  rw [ThreadStorage.load_storeOrUpdate] at hload
  split at hload
  case isTrue =>
    cases hload
    intro g hg id hmem
    cases hg
    rcases hvisited id hmem with rfl | ⟨before, hbefore, hmem⟩
    · exact hid
    · exact h.tracked thread _ hbefore before rfl id hmem
  case isFalse => exact h.tracked thread' coverage hload

theorem Invariant.publish (hmapped : s.finishing thread = .mapped coverage threadId)
    (hpublish : s.tracker.publishVisited coverage = some tracker) :
    Invariant { s with
      tracker, finishing := s.setFinishing thread (.published coverage threadId) } entries := by
  obtain ⟨history, rfl, htracker⟩ := bind_eq_some_iff.mp hpublish
  cases htracker
  have hsound := h.finishing thread
  rw [hmapped] at hsound
  have hle : s.tracker.visitedMethods ⊆ s.tracker.visitedMethods ∪ history.visitedMethods :=
    Finset.subset_union_left
  refine { h with
    finishing := sound_setFinishing (fun thread' => (h.finishing thread').mono hle) ?_
    published := fun el hel => (h.published el hel).mono hle }
  intro g hg id hid
  cases hg
  exact ⟨hsound history rfl id hid, Finset.mem_union_right _ hid⟩

theorem Invariant.remove (hpublished : s.finishing thread = .published coverage threadId) :
    Invariant { s with
      tracker := { s.tracker with trackedCoverage := s.tracker.trackedCoverage.without thread }
      finishing := s.setFinishing thread (.removed coverage threadId) } entries := by
  have hsound := h.finishing thread
  rw [hpublished] at hsound
  refine { h with
    tracked := fun thread' coverage' hload => ?_
    finishing := sound_setFinishing h.finishing hsound }
  rw [ThreadStorage.load_without] at hload
  split at hload
  case isTrue => cases hload
  case isFalse => exact h.tracked thread' coverage' hload

theorem Invariant.push (hremoved : s.finishing thread = .removed coverage threadId)
    (hfree : Reporting.serializedFree s.reporting) :
    Invariant { s with
      tracker := s.tracker.pushSerialized threadId (historyBuffer threadId coverage)
      finishing := s.setFinishing thread .idle } (entries ++ [(threadId, coverage)]) := by
  have hsound := h.finishing thread
  rw [hremoved] at hsound
  refine { h with
    finishing := sound_setFinishing h.finishing trivial
    buffers := ?_
    published := fun el hel => ?_
    reporting := ?_ }
  · rw [map_append]
    exact congrArg (· ++ [historyBuffer threadId coverage]) h.buffers
  · rcases mem_append.mp hel with hel | hel
    · exact h.published el hel
    · cases mem_singleton.mp hel
      exact hsound
  · -- while a report is made, the entries stay as they are
    show Reporting.Sound _ _ s.reporting
    cases hreporting : s.reporting with
    | idle => trivial
    | lockedCollected => trivial
    | scanning i methods =>
      rw [hreporting] at hfree
      exact hfree.elim
    | mapped methods mapping =>
      rw [hreporting] at hfree
      exact hfree.elim

theorem Invariant.unlock {methods : List (Nat × MethodInfo)}
    {mapping : List (ThreadID × BitVec 32)} (hmapped : s.reporting = .mapped methods mapping) :
    Invariant { s with
      tracker := { s.tracker.addNotEntered mapping with serializedCoverage := [] }
      reporting := .idle
      reports := s.reports ++ [s.reportBytes methods mapping] } [] := by
  have hlisted := h.reporting
  rw [hmapped] at hlisted
  have hreport : Resolved s.tracker.collectedMethods (s.reportBytes methods mapping) :=
    resolved_reportBytes h.buffers h.collected hlisted
  rw [addNotEntered_eq]
  refine { h with
    buffers := rfl
    published := fun el hel => absurd hel not_mem_nil
    reporting := trivial
    reports := fun bytes hbytes => ?_ }
  rcases mem_append.mp hbytes with hbytes | hbytes
  · exact h.reports bytes hbytes
  · rw [mem_singleton.mp hbytes]
    exact hreport

/-- The invariant is kept, for the entries that there are after the step. -/
theorem Invariant.step {s' : System} (hstep : Step s s') :
    ∃ entries', Invariant s' entries' := by
  cases hstep with
  | collectMethod info hfree => exact ⟨_, h.collectMethod info hfree⟩
  | addCoverage thread collectMainOnly offset event methodId tracker hid hidle hadd =>
    exact ⟨_, h.addCoverage hid hadd⟩
  | load thread coverage hidle hload =>
    exact ⟨entries, { h with
      finishing := sound_setFinishing h.finishing (h.tracked thread coverage hload) }⟩
  | map thread coverage threadId hloaded =>
    have hsound := h.finishing thread
    rw [hloaded] at hsound
    exact ⟨entries, { h with finishing := sound_setFinishing h.finishing hsound }⟩
  | publish thread coverage threadId tracker hmapped hpublish =>
    exact ⟨_, h.publish hmapped hpublish⟩
  | remove thread coverage threadId hpublished => exact ⟨_, h.remove hpublished⟩
  | push thread coverage threadId hremoved hfree => exact ⟨_, h.push hremoved hfree⟩
  | lockCollected hfree => exact ⟨entries, { h with reporting := trivial }⟩
  | lockSerialized hlocked =>
    exact ⟨entries, { h with
      reporting := ⟨by simp, by simp, nodup_nil, by simp⟩ }⟩
  | scan i methods info hscan hinfo =>
    have hlisted := h.reporting
    rw [hscan] at hlisted
    exact ⟨entries, { h with reporting := Listed.scan hlisted hinfo h.published }⟩
  | getMapping methods mapping hscan =>
    have hlisted := h.reporting
    rw [hscan] at hlisted
    exact ⟨entries, { h with reporting := hlisted }⟩
  | clear =>
    exact ⟨entries, { h with
      tracked := fun thread coverage hload => by cases hload }⟩
  | unlock methods mapping hmapped => exact ⟨_, h.unlock hmapped⟩

end

theorem invariant_start : Invariant start [] where
  tracked thread coverage hload := by cases hload
  finishing thread := trivial
  buffers := rfl
  published el hel := absurd hel not_mem_nil
  reporting := trivial
  reports bytes hbytes := absurd hbytes not_mem_nil

theorem Reachable.invariant (h : Reachable s) : ∃ entries, Invariant s entries := by
  induction h with
  | start => exact ⟨[], invariant_start⟩
  | step h hstep ih =>
    obtain ⟨entries, hentries⟩ := ih
    exact hentries.step hstep

end

/-- Whatever the threads do, the locations of every report are resolved. -/
theorem reports_resolved {s : System} (h : Reachable s) :
    ∀ bytes ∈ s.reports, Resolved s.tracker.collectedMethods bytes := by
  obtain ⟨entries, hentries⟩ := h.invariant
  exact hentries.reports

theorem setFinishing_self (s : System) (thread : ThreadID) (f : Finishing) :
    s.setFinishing thread f thread = f :=
  Function.update_self ..

/-- A thread goes through `invocationFinished` without being interrupted. -/
theorem Reachable.finish {s : System} (h : Reachable s) (thread : ThreadID)
    {history : CoverageHistory} (threadId : BitVec 32) (hidle : s.finishing thread = .idle)
    (hload : s.tracker.trackedCoverage.load thread = some (some history))
    (hfree : Reporting.serializedFree s.reporting) :
    Reachable { s with
      tracker := { s.tracker with
        visitedMethods := s.tracker.visitedMethods ∪ history.visitedMethods
        trackedCoverage := s.tracker.trackedCoverage.without thread
        serializedCoverage :=
          s.tracker.serializedCoverage ++ [historyBuffer threadId (some history)]
        serializedCoverageThreadIds := s.tracker.serializedCoverageThreadIds ++ [threadId] } } := by
  have hloaded := h.step (.load _ thread _ hidle hload)
  have hmapped := hloaded.step (.map _ thread _ threadId (setFinishing_self ..))
  have hpublished := hmapped.step (.publish _ thread _ threadId _ (setFinishing_self ..) rfl)
  have hremoved := hpublished.step (.remove _ thread _ threadId (setFinishing_self ..))
  have hpushed := hremoved.step (.push _ thread _ threadId (setFinishing_self ..) hfree)
  simp only [setFinishing, Function.update_idem, ← hidle, Function.update_eq_self] at hpushed
  exact hpushed

/-- A method without a name. -/
def someMethod : MethodInfo := ⟨7, ⟨[], trivial⟩, ⟨[], trivial⟩⟩

/-- One thread has entered the method and finished. -/
def finished : System where
  tracker := {
    collectedMethods := [someMethod]
    visitedMethods := {0}
    trackedCoverage := .empty
    serializedCoverage := [historyBuffer 1 (some (.create 0 0 5))]
    serializedCoverageThreadIds := [1] }
  finishing _ := .idle
  reporting := .idle
  reports := []

theorem reachable_finished : Reachable finished := by
  have hcollected := Reachable.start.step (.collectMethod _ someMethod rfl)
  have hentered := hcollected.step
    (.addCoverage _ 5 true 0 .enterMain 0 _ ⟨by decide, by decide⟩ rfl rfl)
  exact hentered.finish 5 1 rfl rfl trivial

/-- The report of that thread. -/
def reported : System :=
  { finished with
    tracker := { finished.tracker with serializedCoverage := [] }
    reports := [finished.reportBytes [(0, someMethod)] []] }

theorem reachable_reported : Reachable reported := by
  have hlocked := reachable_finished.step (.lockCollected _ rfl)
  have hboth := hlocked.step (.lockSerialized _ rfl)
  have hscanned := hboth.step (.scan _ 0 [] someMethod rfl rfl)
  have hmapped := hscanned.step (.getMapping _ [(0, someMethod)] [] rfl)
  have hunlocked := hmapped.step (.unlock _ [(0, someMethod)] [] rfl)
  exact hunlocked

theorem reported_resolved :
    Reachable reported ∧
      (reported.reports.map fun bytes => (getRawReports bytes).map fun raw =>
        raw.1.reports.map fun report => report.rawCoverageLocations.length) = [some [1]] ∧
      ∀ bytes ∈ reported.reports, Resolved reported.tracker.collectedMethods bytes :=
  ⟨reachable_reported, by decide +kernel, reports_resolved reachable_reported⟩

end System

end VSharp.CoverageInstrumenter
