import VSharp.CoverageInstrumenter.ThreadViews
import VSharp.CoverageInstrumenter.WireFormat

/-!
# Coverage instrumenter — Rounds

Rounds of invocations on any number of threads, each ended by `GetHistory`.  Beside the profiler, a
session keeps what the round should report: the ids that were mapped in it, the histories of the
invocations that finished, and the ids that earlier rounds have reported.
-/

namespace VSharp.CoverageInstrumenter
open ProfilerState List

inductive Action where
  | setCurrentThreadId (thread : ThreadID) (mapId : BitVec 32)
  | enterMain (thread : ThreadID) (offset methodId : BitVec 32)
  | track (thread : ThreadID) (event : CoverageEvent) (offset methodId : BitVec 32)
  | leaveMain (thread : ThreadID) (offset methodId : BitVec 32)
  | abort (thread : ThreadID)
  | getHistory
deriving DecidableEq, Repr

structure Session where
  profiler : ProfilerState
  mapped : List (BitVec 32)
  finished : List (BitVec 32 × CoverageHistory)
  reported : List (BitVec 32)

namespace Session
variable (s : Session) {a : Action} {actions : List Action}

/-- The ids of the invocations that finished. -/
def finishedIds : List (BitVec 32) := s.finished.map Prod.fst

/-- The buffers that a report is made of. -/
def reportBuffers : List (List (BitVec 8)) :=
  (s.profiler.coverageTracker.addNotEntered
    s.profiler.threadTracker.threadIdMapping.items).serializedCoverage

/-- The histories that finish when a frame of main is left. -/
def finishing (thread : ThreadID) (offset methodId : BitVec 32) :
    List (BitVec 32 × CoverageHistory) :=
  let v := s.profiler.view thread
  if v.balance = some 1 then
    match v.mapping, v.history with
    | some id, some (some h) => [(id, h.addCoverage offset .leaveMain methodId thread)]
    | _, _ => []
  else []

def act : Action → Option Session
  | .setCurrentThreadId thread mapId => do
      let profiler ← s.profiler.setCurrentThreadId thread mapId
      pure { s with profiler, mapped := s.mapped ++ [mapId] }
  | .enterMain thread offset methodId => do
      let profiler ← s.profiler.trackEnterMain thread offset methodId
      pure { s with profiler }
  | .track thread event offset methodId => do
      let profiler ← s.profiler.trackEvent thread offset methodId event
      pure { s with profiler }
  | .leaveMain thread offset methodId => do
      let profiler ← s.profiler.trackLeaveMain thread offset methodId
      pure { s with profiler, finished := s.finished ++ s.finishing thread offset methodId }
  | .abort thread => do
      let profiler ← s.profiler.threadAbortThrown thread
      pure { s with profiler }
  | .getHistory =>
    some {
      profiler := s.profiler.getHistory.2
      mapped := []
      finished := []
      reported := s.profiler.getHistory.2.coverageTracker.serializedCoverageThreadIds }

/-- The condition on an action. -/
def Regular : Action → Prop
  | .setCurrentThreadId thread mapId =>
    (s.profiler.view thread).mapping = none ∧ mapId ∉ s.mapped
  | .enterMain thread _ _ =>
    (s.profiler.view thread).balance ≠ none ∨
      ∃ id, (s.profiler.view thread).mapping = some id ∧ id ∉ s.finishedIds
  | .abort thread => (s.profiler.view thread).balance = none
  | .getHistory =>
    (∀ thread, (s.profiler.view thread).balance = none) ∧
      ∀ id ∈ s.mapped, id ∉ s.finishedIds → id ∉ s.reported
  | .track .. | .leaveMain .. => True

def run : Session → List Action → Option Session
  | s, [] => some s
  | s, a :: actions => do
      let s' ← s.act a
      s'.run actions

/-- Every action meets the condition when it happens. -/
def RegularRun : Session → List Action → Prop
  | _, [] => True
  | s, a :: actions =>
    s.Regular a ∧
      match s.act a with
      | some s' => RegularRun s' actions
      | none => True

/-- The profiler before the first round. -/
def start (collectedMethods : List MethodInfo) (isPassiveRun collectMainOnly : Bool)
    (mainFunctionId : FunctionID) : Session where
  profiler :=
    { threadTracker := .empty
      coverageTracker := { CoverageTracker.empty with collectedMethods }
      isPassiveRun, collectMainOnly, mainFunctionId }
  mapped := []
  finished := []
  reported := []

/-- A report has one entry for each id that was mapped: the history of the invocation that finished,
or an aborted one. -/
def ReportExact : Prop :=
  ∃ entries : List (BitVec 32 × Option CoverageHistory),
    s.reportBuffers = entries.map (fun el => CoverageTracker.historyBuffer el.1 el.2) ∧
      (entries.map Prod.fst).Perm s.mapped ∧ (entries.map Prod.fst).Nodup ∧
        ∀ id h, (id, some h) ∈ entries ↔ (id, h) ∈ s.finished

/-! ### What holds all along -/

/-- The thread runs main, and has not been reported. -/
structure Running (v : View) (finishedIds : List (BitVec 32)) : Prop where
  balance : ∃ b : Int, v.balance = some b ∧ 1 ≤ b
  filters : v.filters = some 0
  history : ∃ h, v.history = some (some h)
  mapping : ∃ id, v.mapping = some id ∧ id ∉ finishedIds

structure Invariant (s : Session) : Prop where
  nodup : s.mapped.Nodup
  buffers : s.profiler.coverageTracker.serializedCoverage =
    s.finished.map fun el => CoverageTracker.historyBuffer el.1 (some el.2)
  ids : s.profiler.coverageTracker.serializedCoverageThreadIds = s.reported ++ s.finishedIds
  finished_nodup : s.finishedIds.Nodup
  finished_mapped : ∀ id ∈ s.finishedIds, id ∈ s.mapped
  accounted : ∀ id ∈ s.mapped, id ∈ s.finishedIds ∨
    ∃ thread, (s.profiler.view thread).mapping = some id
  mapping_mapped : ∀ thread id, (s.profiler.view thread).mapping = some id → id ∈ s.mapped
  mapping_injective : ∀ thread thread' id, (s.profiler.view thread).mapping = some id →
    (s.profiler.view thread').mapping = some id → thread = thread'
  threads : ∀ thread, Idle (s.profiler.view thread) ∨ Running (s.profiler.view thread) s.finishedIds

section
variable {s} {p' : ProfilerState} {thread : ThreadID}

/-- An operation that serializes nothing and leaves the mapping alone. -/
theorem Invariant.quiet (hinv : s.Invariant) (hq : Quiet thread s.profiler p')
    (hmapping : (p'.view thread).mapping = (s.profiler.view thread).mapping)
    (hthread : Idle (p'.view thread) ∨ Running (p'.view thread) s.finishedIds) :
    Invariant { s with profiler := p' } := by
  have hmappings (t : ThreadID) : (p'.view t).mapping = (s.profiler.view t).mapping := by
    rcases eq_or_ne t thread with rfl | hne
    · exact hmapping
    · rw [hq.others t hne]
  refine ⟨hinv.nodup, ?_, ?_, hinv.finished_nodup, hinv.finished_mapped, ?_, ?_, ?_, ?_⟩
  · exact hq.serializedCoverage.trans hinv.buffers
  · exact hq.threadIds.trans hinv.ids
  · simp only [hmappings]
    exact hinv.accounted
  · simp only [hmappings]
    exact hinv.mapping_mapped
  · simp only [hmappings]
    exact hinv.mapping_injective
  · intro t
    rcases eq_or_ne t thread with rfl | hne
    · exact hthread
    · show Idle (p'.view t) ∨ _
      rw [hq.others t hne]
      exact hinv.threads t

theorem Invariant.setCurrentThreadId {mapId : BitVec 32} (hinv : s.Invariant)
    (hmapping : (s.profiler.view thread).mapping = none) (hnew : mapId ∉ s.mapped) :
    Invariant { s with
      profiler := s.profiler.setMapping thread mapId, mapped := s.mapped ++ [mapId] } := by
  have hview (t : ThreadID) : ((s.profiler.setMapping thread mapId).view t).mapping =
      if t = thread then some mapId else (s.profiler.view t).mapping := by
    rcases eq_or_ne t thread with rfl | hne
    · rw [view_setMapping, if_pos rfl]
    · rw [quiet_setMapping.others t hne, if_neg hne]
  refine ⟨?_, hinv.buffers, hinv.ids, hinv.finished_nodup, ?_, ?_, ?_, ?_, ?_⟩
  · refine nodup_append.mpr ⟨hinv.nodup, nodup_singleton _, fun id hid id' hid' => ?_⟩
    cases mem_singleton.mp hid'
    exact fun heq => hnew (heq ▸ hid)
  · exact fun id hid => mem_append_left _ (hinv.finished_mapped id hid)
  · intro id hid
    rcases mem_append.mp hid with hid | hid
    · rcases hinv.accounted id hid with hfinished | ⟨t, ht⟩
      · exact .inl hfinished
      · refine .inr ⟨t, ?_⟩
        have hne : t ≠ thread := by
          rintro rfl
          rw [hmapping] at ht
          cases ht
        rw [hview, if_neg hne, ht]
    · cases mem_singleton.mp hid
      exact .inr ⟨thread, by rw [hview, if_pos rfl]⟩
  · intro t id hid
    rw [hview] at hid
    split at hid
    · cases hid
      exact mem_append_right _ (mem_singleton_self _)
    · exact mem_append_left _ (hinv.mapping_mapped t id hid)
  · intro t t' id ht ht'
    rw [hview] at ht ht'
    split at ht <;> split at ht'
    case isTrue.isTrue h h' => rw [h, h']
    case isTrue.isFalse =>
      cases ht
      exact absurd (hinv.mapping_mapped t' _ ht') hnew
    case isFalse.isTrue =>
      cases ht'
      exact absurd (hinv.mapping_mapped t _ ht) hnew
    case isFalse.isFalse => exact hinv.mapping_injective t t' id ht ht'
  · intro t
    rcases eq_or_ne t thread with rfl | hne
    · rcases hinv.threads t with hidle | hrunning
      · left
        rw [view_setMapping]
        exact ⟨hidle.balance, hidle.filters, hidle.history⟩
      · obtain ⟨id, hid, -⟩ := hrunning.mapping
        rw [hmapping] at hid
        cases hid
    · show Idle ((s.profiler.setMapping thread mapId).view t) ∨ _
      rw [quiet_setMapping.others t hne]
      exact hinv.threads t

variable {offset methodId id : BitVec 32} {ids : List (BitVec 32)}

theorem Invariant.enterMain (hinv : s.Invariant)
    (hregular : s.Regular (.enterMain thread offset methodId)) :
    ∃ p', s.profiler.trackEnterMain thread offset methodId = some p' ∧
      Invariant { s with profiler := p' } := by
  rcases hinv.threads thread with hidle | hrunning
  · refine ⟨_, trackEnterMain_first hidle.balance hidle.filters hidle.history, ?_⟩
    refine hinv.quiet quiet_startThread (by rw [view_startThread]) (.inr ?_)
    rw [view_startThread]
    rcases hregular with hbalance | hmapping
    · exact absurd hidle.balance hbalance
    · exact ⟨⟨1, rfl, Int.le_refl 1⟩, rfl, ⟨_, rfl⟩, hmapping⟩
  · obtain ⟨b, hb, hpos⟩ := hrunning.balance
    refine ⟨_, trackEnterMain_recursive hb, ?_⟩
    refine hinv.quiet quiet_setBalance (by rw [view_setBalance]) (.inr ?_)
    rw [view_setBalance]
    exact ⟨⟨b + 1, rfl, by omega⟩, hrunning.filters, hrunning.history, hrunning.mapping⟩

theorem Running.setHistory {v : View} (h : Running v ids) (history : CoverageHistory) :
    Running { v with history := some (some history) } ids :=
  ⟨h.balance, h.filters, ⟨history, rfl⟩, h.mapping⟩

theorem Invariant.track (hinv : s.Invariant) (event : CoverageEvent) :
    ∃ p', s.profiler.trackEvent thread offset methodId event = some p' ∧
      Invariant { s with profiler := p' } := by
  rcases hinv.threads thread with hidle | hrunning
  · exact ⟨_, whenTracked_of_untracked hidle.balance _, hinv.quiet .refl rfl (hinv.threads thread)⟩
  · obtain ⟨b, hb, hpos⟩ := hrunning.balance
    obtain ⟨h, hh⟩ := hrunning.history
    refine ⟨_, trackEvent_eq hb hh event, ?_⟩
    refine hinv.quiet quiet_setHistory (by rw [view_setHistory]) (.inr ?_)
    rw [view_setHistory]
    exact hrunning.setHistory _

/-- The outermost frame of main is left: the history of the thread is serialized. -/
theorem Invariant.finishThread {h : CoverageHistory} (hinv : s.Invariant)
    (hq : Quiet thread s.profiler p') (hid : (s.profiler.view thread).mapping = some id)
    (hid' : (p'.view thread).mapping = some id) (hnew : id ∉ s.finishedIds) :
    Invariant { s with
      profiler := p'.finishThread thread h, finished := s.finished ++ [(id, h)] } := by
  have hids : Session.finishedIds { s with
      profiler := p'.finishThread thread h, finished := s.finished ++ [(id, h)] } =
      s.finishedIds ++ [id] := by
    simp [finishedIds]
  have hothers (t : ThreadID) (hne : t ≠ thread) :
      (p'.finishThread thread h).view t = s.profiler.view t :=
    (updates_finishThread.others t hne).trans (hq.others t hne)
  have hmapping (t : ThreadID) (id' : BitVec 32)
      (ht : ((p'.finishThread thread h).view t).mapping = some id') :
      (s.profiler.view t).mapping = some id' := by
    rcases eq_or_ne t thread with rfl | hne
    · rw [view_finishThread] at ht
      split at ht
      · rw [hid, ← hid', ht]
      · cases ht
    · rwa [hothers t hne] at ht
  refine ⟨hinv.nodup, ?_, ?_, ?_, ?_, ?_, ?_, ?_, ?_⟩
  · show p'.coverageTracker.serializedCoverage ++ _ = _
    rw [hq.serializedCoverage, hinv.buffers, hid', map_append]
    rfl
  · show p'.coverageTracker.serializedCoverageThreadIds ++ _ = _
    rw [hq.threadIds, hinv.ids, hid', hids, append_assoc]
    rfl
  · rw [hids]
    refine nodup_append.mpr ⟨hinv.finished_nodup, nodup_singleton _, fun i hi i' hi' heq => ?_⟩
    cases mem_singleton.mp hi'
    exact hnew (heq ▸ hi)
  · rw [hids]
    intro i hi
    rcases mem_append.mp hi with hi | hi
    · exact hinv.finished_mapped i hi
    · cases mem_singleton.mp hi
      exact hinv.mapping_mapped thread id hid
  · rw [hids]
    intro i hi
    rcases hinv.accounted i hi with hfinished | ⟨t, ht⟩
    · exact .inl (mem_append_left _ hfinished)
    · rcases eq_or_ne t thread with rfl | hne
      · cases hid.symm.trans ht
        exact .inl (mem_append_right _ (mem_singleton_self _))
      · exact .inr ⟨t, by show ((p'.finishThread thread h).view t).mapping = _; rwa [hothers t hne]⟩
  · exact fun t i hi => hinv.mapping_mapped t i (hmapping t i hi)
  · exact fun t t' i hi hi' => hinv.mapping_injective t t' i (hmapping t i hi) (hmapping t' i hi')
  · rw [hids]
    intro t
    rcases eq_or_ne t thread with rfl | hne
    · left
      refine ⟨?_, ?_, ?_⟩ <;> rw [view_finishThread]
    · show Idle ((p'.finishThread thread h).view t) ∨ Running ((p'.finishThread thread h).view t) _
      rw [hothers t hne]
      refine (hinv.threads t).imp_right fun hrunning => ?_
      obtain ⟨i, hi, hfresh⟩ := hrunning.mapping
      refine ⟨hrunning.balance, hrunning.filters, hrunning.history, i, hi, ?_⟩
      intro hmem
      rcases mem_append.mp hmem with hmem | hmem
      · exact hfresh hmem
      · cases mem_singleton.mp hmem
        exact hne (hinv.mapping_injective t thread id hi hid)

theorem Invariant.leaveMain (hinv : s.Invariant) :
    ∃ p', s.profiler.trackLeaveMain thread offset methodId = some p' ∧
      Invariant { s with
        profiler := p', finished := s.finished ++ s.finishing thread offset methodId } := by
  rcases hinv.threads thread with hidle | hrunning
  · have hnone : s.finishing thread offset methodId = [] := by
      rw [finishing, hidle.balance]
      rfl
    rw [hnone, append_nil]
    exact ⟨_, whenTracked_of_untracked hidle.balance _, hinv.quiet .refl rfl (hinv.threads thread)⟩
  · obtain ⟨b, hb, hpos⟩ := hrunning.balance
    obtain ⟨h, hh⟩ := hrunning.history
    obtain ⟨id, hid, hnew⟩ := hrunning.mapping
    rw [trackLeaveMain_eq hb hh]
    rcases eq_or_ne b 1 with rfl | hne
    · have hone : s.finishing thread offset methodId =
          [(id, h.addCoverage offset .leaveMain methodId thread)] := by
        rw [finishing, hb, hid, hh]
        rfl
      rw [hone]
      refine ⟨_, popFrame_last (h := h.addCoverage offset .leaveMain methodId thread)
        ?_ ?_ ?_ ?_, ?_⟩
      · rw [view_setHistory]; exact hb
      · rw [view_setHistory]; exact hrunning.filters
      · rw [view_setHistory]
      · rw [view_setHistory, hid]; simp
      · refine hinv.finishThread (quiet_setHistory.trans quiet_setBalance) hid ?_ hnew
        rw [view_setBalance, view_setHistory]
        exact hid
    · have hnone : s.finishing thread offset methodId = [] := by
        rw [finishing, hb, if_neg]
        simpa using hne
      rw [hnone, append_nil]
      refine ⟨_, popFrame_nested (by rw [view_setHistory]; exact hb) (by omega), ?_⟩
      refine hinv.quiet (quiet_setHistory.trans quiet_setBalance)
        (by rw [view_setBalance, view_setHistory]) (.inr ?_)
      rw [view_setBalance, view_setHistory]
      exact ⟨⟨b - 1, rfl, by omega⟩, hrunning.filters, ⟨_, rfl⟩, id, hid, hnew⟩

theorem Invariant.getHistory (s : Session) :
    Invariant {
      profiler := s.profiler.getHistory.2
      mapped := []
      finished := []
      reported := s.profiler.getHistory.2.coverageTracker.serializedCoverageThreadIds } := by
  refine ⟨nodup_nil, rfl, (append_nil _).symm, nodup_nil, ?_, ?_, ?_, ?_, ?_⟩
  · exact fun id hid => absurd hid not_mem_nil
  · exact fun id hid => absurd hid not_mem_nil
  · intro t id hid
    cases hid
  · intro t t' id hid
    cases hid
  · exact fun t => .inl ⟨rfl, rfl, rfl⟩

/-! ### The report -/

theorem notEntered_eq {mapping : List (ThreadID × BitVec 32)} (h : (mapping.map Prod.snd).Nodup) :
    CoverageTracker.notEntered ids mapping =
      (mapping.map Prod.snd).filter fun id => decide (id ∉ ids) := by
  induction mapping generalizing ids with
  | nil => rfl
  | cons el mapping ih =>
    rw [map_cons, nodup_cons] at h
    rw [CoverageTracker.notEntered, map_cons]
    split
    case isTrue hmem => rw [filter_cons_of_neg (by simpa using hmem), ih h.2]
    case isFalse hmem =>
      rw [filter_cons_of_pos (by simpa using hmem), ih h.2]
      congr 1
      apply filter_congr
      intro id hid
      have hne : id ≠ el.2 := by
        rintro rfl
        exact h.1 hid
      simp [hne]

theorem Invariant.nodup_items (hinv : s.Invariant) :
    (s.profiler.threadTracker.threadIdMapping.items.map Prod.snd).Nodup := by
  have hthreads : (s.profiler.threadTracker.threadIdMapping.items).Pairwise
      fun a b => a.1 ≠ b.1 := pairwise_map.mp ThreadStorage.nodup_items
  rw [List.Nodup, pairwise_map]
  refine hthreads.imp_of_mem fun {a b} ha hb hne heq => hne ?_
  refine hinv.mapping_injective a.1 b.1 a.2 (ThreadStorage.mem_items.mp ha) ?_
  rw [heq]
  exact ThreadStorage.mem_items.mp hb

theorem mem_notEntered (hinv : s.Invariant) :
    id ∈ CoverageTracker.notEntered (s.reported ++ s.finishedIds)
        s.profiler.threadTracker.threadIdMapping.items ↔
      (∃ t, (s.profiler.view t).mapping = some id) ∧ id ∉ s.reported ∧ id ∉ s.finishedIds := by
  rw [notEntered_eq hinv.nodup_items, mem_filter, mem_map]
  simp only [decide_eq_true_eq, mem_append, not_or]
  refine and_congr_left fun _ => ⟨?_, ?_⟩
  · rintro ⟨⟨t, id'⟩, hmem, rfl⟩
    exact ⟨t, ThreadStorage.mem_items.mp hmem⟩
  · rintro ⟨t, ht⟩
    exact ⟨(t, id), ThreadStorage.mem_items.mpr ht, rfl⟩

theorem Invariant.reportExact (hinv : s.Invariant) (hregular : s.Regular .getHistory) :
    s.ReportExact := by
  let others := CoverageTracker.notEntered (s.reported ++ s.finishedIds)
    s.profiler.threadTracker.threadIdMapping.items
  let entries : List (BitVec 32 × Option CoverageHistory) :=
    s.finished.map (fun el => (el.1, some el.2)) ++ others.map fun id => (id, none)
  have hids : entries.map Prod.fst = s.finishedIds ++ others := by
    simp [entries, finishedIds, Function.comp_def]
  have hnodup : (s.finishedIds ++ others).Nodup := by
    refine nodup_append.mpr ⟨hinv.finished_nodup, ?_, ?_⟩
    · rw [show others = _ from notEntered_eq hinv.nodup_items]
      exact hinv.nodup_items.filter _
    · rintro id hid id' hid' rfl
      exact ((mem_notEntered hinv).mp hid').2.2 hid
  refine ⟨entries, ?_, ?_, ?_, ?_⟩
  · rw [reportBuffers, CoverageTracker.addNotEntered_eq, hinv.ids, hinv.buffers, map_append,
      map_map, map_map]
    rfl
  · rw [hids, perm_ext_iff_of_nodup hnodup hinv.nodup]
    intro id
    rw [mem_append]
    constructor
    · rintro (hid | hid)
      · exact hinv.finished_mapped id hid
      · obtain ⟨⟨t, ht⟩, -⟩ := (mem_notEntered hinv).mp hid
        exact hinv.mapping_mapped t id ht
    · intro hid
      by_cases hfinished : id ∈ s.finishedIds
      · exact .inl hfinished
      · rcases hinv.accounted id hid with hmem | ht
        · exact absurd hmem hfinished
        · exact .inr ((mem_notEntered hinv).mpr ⟨ht, hregular.2 id hid hfinished, hfinished⟩)
  · rw [hids]
    exact hnodup
  · intro id h
    simp [entries]

end

/-! ### Whole sessions -/

theorem Invariant.act {s : Session} (hinv : s.Invariant) (hregular : s.Regular a) :
    ∃ s', s.act a = some s' ∧ s'.Invariant := by
  cases a with
  | setCurrentThreadId thread mapId =>
    refine ⟨_, ?_, hinv.setCurrentThreadId hregular.1 hregular.2⟩
    rw [Session.act, setCurrentThreadId_eq hregular.1]
    rfl
  | enterMain thread offset methodId =>
    obtain ⟨p', hp', hinv'⟩ := hinv.enterMain hregular
    exact ⟨_, by rw [Session.act, hp']; rfl, hinv'⟩
  | track thread event offset methodId =>
    obtain ⟨p', hp', hinv'⟩ := hinv.track event
    exact ⟨_, by rw [Session.act, hp']; rfl, hinv'⟩
  | leaveMain thread offset methodId =>
    obtain ⟨p', hp', hinv'⟩ := hinv.leaveMain
    exact ⟨_, by rw [Session.act, hp']; rfl, hinv'⟩
  | abort thread =>
    refine ⟨s, ?_, hinv⟩
    rw [Session.act, threadAbortThrown, whenTracked_of_untracked hregular]
    rfl
  | getHistory => exact ⟨_, rfl, .getHistory s⟩

theorem Invariant.run {s : Session} (hinv : s.Invariant) (hregular : RegularRun s actions) :
    ∃ s', s.run actions = some s' ∧ s'.Invariant := by
  induction actions generalizing s with
  | nil => exact ⟨s, rfl, hinv⟩
  | cons a actions ih =>
    obtain ⟨hfirst, hothers⟩ := hregular
    obtain ⟨s₁, hact, hinv₁⟩ := hinv.act hfirst
    rw [hact] at hothers
    obtain ⟨s', hrun, hinv'⟩ := ih hinv₁ hothers
    exact ⟨s', by rw [Session.run, hact]; exact hrun, hinv'⟩

/-- In a session whose actions all meet the condition, every report accounts for every mapped id
exactly once. -/
theorem reports_exact {collectedMethods : List MethodInfo} {isPassiveRun collectMainOnly : Bool}
    {mainFunctionId : FunctionID} {actions : List Action}
    (hregular : RegularRun (start collectedMethods isPassiveRun collectMainOnly mainFunctionId)
      actions) :
    ∃ s, (start collectedMethods isPassiveRun collectMainOnly mainFunctionId).run actions = some s ∧
      (s.Regular .getHistory → s.ReportExact) := by
  have hinv : (start collectedMethods isPassiveRun collectMainOnly mainFunctionId).Invariant := by
    refine ⟨nodup_nil, rfl, rfl, nodup_nil, ?_, ?_, ?_, ?_, ?_⟩
    · exact fun id hid => absurd hid not_mem_nil
    · exact fun id hid => absurd hid not_mem_nil
    · intro t id hid
      cases hid
    · intro t t' id hid
      cases hid
    · exact fun t => .inl ⟨rfl, rfl, rfl⟩
  obtain ⟨s, hrun, hinv'⟩ := hinv.run hregular
  exact ⟨s, hrun, hinv'.reportExact⟩

theorem RegularRun.cons {s s' : Session} (h : s.Regular a) (hact : s.act a = some s')
    (hrun : RegularRun s' actions) : RegularRun s (a :: actions) := by
  refine ⟨h, ?_⟩
  rw [hact]
  exact hrun

/-- A thread is mapped and runs main. -/
def oneRound : List Action := [.setCurrentThreadId 5 7, .enterMain 5 0 0, .leaveMain 5 0 0]

theorem oneRound_exact :
    ∃ s, (start [] false true 1).run oneRound = some s ∧ (s.Regular .getHistory → s.ReportExact) := by
  have hmap : (start [] false true 1).act (.setCurrentThreadId 5 7) = some
      { start [] false true 1 with
        profiler := (start [] false true 1).profiler.setMapping 5 7, mapped := [7] } := by
    rw [act, setCurrentThreadId_eq rfl]
    rfl
  have henter : Session.act
      { start [] false true 1 with
        profiler := (start [] false true 1).profiler.setMapping 5 7, mapped := [7] }
      (.enterMain 5 0 0) = some
      { start [] false true 1 with
        profiler := ((start [] false true 1).profiler.setMapping 5 7).startThread 5 0 0
        mapped := [7] } := by
    rw [act, trackEnterMain_first rfl rfl rfl]
    rfl
  refine reports_exact (.cons ⟨rfl, not_mem_nil⟩ hmap (.cons (.inr ⟨7, ?_, ?_⟩) henter ?_))
  · rw [view_setMapping]
  · exact not_mem_nil
  · refine ⟨trivial, ?_⟩
    split <;> trivial

/-- An id of an earlier round is used again, by a thread that does not run main. -/
def reusedId : List Action :=
  [.setCurrentThreadId 5 7, .enterMain 5 0 0, .leaveMain 5 0 0, .getHistory,
    .setCurrentThreadId 5 7]

/-- An invocation is aborted. -/
def abortedRound : List Action := [.setCurrentThreadId 5 7, .enterMain 5 0 0, .abort 5]

theorem reusedId_not_exact :
    (∃ s, (start [] false true 1).run reusedId = some s ∧
      (∀ thread, (s.profiler.view thread).balance = none) ∧ ¬ s.ReportExact) ∧
    ((start [] false true 1).run abortedRound).isNone := by
  have hlengths : ((start [] false true 1).run reusedId).map (fun s =>
      (s.profiler.threadTracker.stackBalances.innerStorage.entries, s.reportBuffers.length,
        s.mapped.length)) = some ([], 0, 1) := by decide +kernel
  refine ⟨?_, by decide +kernel⟩
  obtain ⟨s, hrun, hs⟩ := Option.map_eq_some_iff.mp hlengths
  simp only [Prod.mk.injEq] at hs
  obtain ⟨hbalances, hbuffers, hmapped⟩ := hs
  refine ⟨s, hrun, ?_, ?_⟩
  · intro thread
    show List.dlookup thread s.profiler.threadTracker.stackBalances.innerStorage.entries = none
    rw [hbalances]
    rfl
  · rintro ⟨entries, hentries, hperm, -⟩
    have hlength := hperm.length_eq
    rw [hentries, length_map] at hbuffers
    rw [length_map] at hlength
    omega

end Session

end VSharp.CoverageInstrumenter
