import VSharp.CoverageInstrumenter.Probes

/-!
# Coverage instrumenter — Thread views

What the profiler keeps of a thread, and what each operation of a thread does to it.  An operation
leaves the other threads alone (`Updates`); all but those that finish an invocation leave the
serialized coverage alone too (`Quiet`).
-/

namespace VSharp.CoverageInstrumenter
open ThreadStorage

/-- What the profiler keeps of a thread. -/
structure View where
  mapping : Option (BitVec 32)
  balance : Option Int
  unwinding : Option FunctionID
  filters : Option Int
  history : Option (Option CoverageHistory)

/-- The thread is not tracked. -/
structure Idle (v : View) : Prop where
  balance : v.balance = none
  filters : v.filters = none
  history : v.history = none

namespace ProfilerState

def view (p : ProfilerState) (thread : ThreadID) : View where
  mapping := p.threadTracker.threadIdMapping.load thread
  balance := p.threadTracker.stackBalances.load thread
  unwinding := p.threadTracker.unwindFunctionIds.load thread
  filters := p.threadTracker.inFilterMapping.load thread
  history := p.coverageTracker.trackedCoverage.load thread

/-- An operation of the thread. -/
structure Updates (thread : ThreadID) (p p' : ProfilerState) : Prop where
  others : ∀ thread', thread' ≠ thread → p'.view thread' = p.view thread'
  isPassiveRun : p'.isPassiveRun = p.isPassiveRun := by rfl
  collectMainOnly : p'.collectMainOnly = p.collectMainOnly := by rfl
  mainFunctionId : p'.mainFunctionId = p.mainFunctionId := by rfl
  collectedMethods :
    p'.coverageTracker.collectedMethods = p.coverageTracker.collectedMethods := by rfl

/-- An operation that serializes nothing. -/
structure Quiet (thread : ThreadID) (p p' : ProfilerState) : Prop extends Updates thread p p' where
  serializedCoverage :
    p'.coverageTracker.serializedCoverage = p.coverageTracker.serializedCoverage := by rfl
  threadIds : p'.coverageTracker.serializedCoverageThreadIds =
    p.coverageTracker.serializedCoverageThreadIds := by rfl

section
variable {p p' p'' : ProfilerState} {thread : ThreadID} {offset methodId : BitVec 32} {b n : Int}
  {h : Option CoverageHistory} {id : Option FunctionID}

theorem Updates.refl : Updates thread p p := ⟨fun _ _ => rfl, rfl, rfl, rfl, rfl⟩

theorem Updates.trans (h : Updates thread p p') (h' : Updates thread p' p'') :
    Updates thread p p'' where
  others t ht := (h'.others t ht).trans (h.others t ht)
  isPassiveRun := h'.isPassiveRun.trans h.isPassiveRun
  collectMainOnly := h'.collectMainOnly.trans h.collectMainOnly
  mainFunctionId := h'.mainFunctionId.trans h.mainFunctionId
  collectedMethods := h'.collectedMethods.trans h.collectedMethods

theorem Quiet.refl : Quiet thread p p := ⟨.refl, rfl, rfl⟩

theorem Quiet.trans (h : Quiet thread p p') (h' : Quiet thread p' p'') : Quiet thread p p'' where
  toUpdates := h.toUpdates.trans h'.toUpdates
  serializedCoverage := h'.serializedCoverage.trans h.serializedCoverage
  threadIds := h'.threadIds.trans h.threadIds

theorem isTracked_eq : p.isTracked thread = (p.view thread).balance.isSome := rfl

/-! ### Changing one storage -/

/-- The profiler with another balance. -/
def setBalance (p : ProfilerState) (thread : ThreadID) (b : Int) : ProfilerState :=
  { p with threadTracker := { p.threadTracker with
      stackBalances := p.threadTracker.stackBalances.storeOrUpdate thread b } }

theorem quiet_setBalance : Quiet thread p (p.setBalance thread b) where
  others t ht := by
    simp only [view, setBalance, load_storeOrUpdate, if_neg ht]

theorem view_setBalance :
    (p.setBalance thread b).view thread = { p.view thread with balance := some b } := by
  simp only [view, setBalance, load_storeOrUpdate, if_pos]

/-- The profiler with another history. -/
def setHistory (p : ProfilerState) (thread : ThreadID) (h : Option CoverageHistory) : ProfilerState :=
  { p with coverageTracker := { p.coverageTracker with
      trackedCoverage := p.coverageTracker.trackedCoverage.storeOrUpdate thread h } }

theorem quiet_setHistory : Quiet thread p (p.setHistory thread h) where
  others t ht := by
    simp only [view, setHistory, load_storeOrUpdate, if_neg ht]

theorem view_setHistory :
    (p.setHistory thread h).view thread = { p.view thread with history := some h } := by
  simp only [view, setHistory, load_storeOrUpdate, if_pos]

/-- The profiler with another number of filters. -/
def setFilters (p : ProfilerState) (thread : ThreadID) (n : Int) : ProfilerState :=
  { p with threadTracker := { p.threadTracker with
      inFilterMapping := p.threadTracker.inFilterMapping.storeOrUpdate thread n } }

theorem quiet_setFilters : Quiet thread p (p.setFilters thread n) where
  others t ht := by
    simp only [view, setFilters, load_storeOrUpdate, if_neg ht]

theorem view_setFilters :
    (p.setFilters thread n).view thread = { p.view thread with filters := some n } := by
  simp only [view, setFilters, load_storeOrUpdate, if_pos]

/-- The profiler with another function that is being unwound. -/
def setUnwinding (p : ProfilerState) (thread : ThreadID) (id : Option FunctionID) :
    ProfilerState :=
  { p with threadTracker := { p.threadTracker with
      unwindFunctionIds := match id with
        | some id => p.threadTracker.unwindFunctionIds.storeOrUpdate thread id
        | none => p.threadTracker.unwindFunctionIds.without thread } }

theorem quiet_setUnwinding : Quiet thread p (p.setUnwinding thread id) where
  others t ht := by
    cases id <;>
      simp only [view, setUnwinding, load_storeOrUpdate, load_without, if_neg ht]

theorem view_setUnwinding :
    (p.setUnwinding thread id).view thread = { p.view thread with unwinding := id } := by
  cases id <;>
    simp only [view, setUnwinding, load_storeOrUpdate, load_without, if_pos]

/-- The profiler with the thread mapped. -/
def setMapping (p : ProfilerState) (thread : ThreadID) (id : BitVec 32) : ProfilerState :=
  { p with threadTracker := { p.threadTracker with
      threadIdMapping := p.threadTracker.threadIdMapping.storeOrUpdate thread id } }

theorem quiet_setMapping {id : BitVec 32} : Quiet thread p (p.setMapping thread id) where
  others t ht := by
    simp only [view, setMapping, load_storeOrUpdate, if_neg ht]

theorem view_setMapping {id : BitVec 32} :
    (p.setMapping thread id).view thread = { p.view thread with mapping := some id } := by
  simp only [view, setMapping, load_storeOrUpdate, if_pos]

/-- The profiler after the thread has finished with a history. -/
def finishThread (p : ProfilerState) (thread : ThreadID) (h : CoverageHistory) : ProfilerState :=
  let threadId := (p.view thread).mapping.getD 0
  { p with
    coverageTracker :=
      { p.coverageTracker with
        visitedMethods := p.coverageTracker.visitedMethods ∪ h.visitedMethods
        trackedCoverage := p.coverageTracker.trackedCoverage.without thread
        serializedCoverageThreadIds := p.coverageTracker.serializedCoverageThreadIds ++ [threadId]
        serializedCoverage := p.coverageTracker.serializedCoverage ++
          [CoverageTracker.historyBuffer threadId (some h)] }
    threadTracker :=
      { p.threadTracker with
        stackBalances := p.threadTracker.stackBalances.without thread
        inFilterMapping := p.threadTracker.inFilterMapping.without thread
        threadIdMapping := if p.isPassiveRun then p.threadTracker.threadIdMapping
          else p.threadTracker.threadIdMapping.without thread } }

theorem updates_finishThread {h : CoverageHistory} : Updates thread p (p.finishThread thread h) where
  others t ht := by
    simp only [view, finishThread, load_without, if_neg ht]
    split
    · rfl
    · simp only [load_without, if_neg ht]

theorem view_finishThread {h : CoverageHistory} :
    (p.finishThread thread h).view thread =
      { mapping := if p.isPassiveRun then (p.view thread).mapping else none
        balance := none
        unwinding := (p.view thread).unwinding
        filters := none
        history := none } := by
  simp only [view, finishThread, load_without, if_pos]
  split
  · rfl
  · simp only [load_without, if_pos]

/-! ### What the operations do -/

theorem guard_bind {α : Type} {q : Prop} [Decidable q] (h : q) (x : Option α) :
    (guard q >>= fun _ => x) = x := by
  simp [guard, h]

section
variable {b n : Int} {h : CoverageHistory}

section
variable (hb : (p.view thread).balance = some b)

include hb

theorem isTracked_of_balance : p.isTracked thread := by
  rw [isTracked_eq, hb]
  rfl

theorem stackBalanceUp_eq :
    p.threadTracker.stackBalanceUp thread = some (p.setBalance thread (b + 1)).threadTracker := by
  have hload : p.threadTracker.stackBalances.load thread = some b := hb
  have htracked : p.threadTracker.isCurrentThreadTracked thread := isTracked_of_balance hb
  rw [ThreadTracker.stackBalanceUp, guard_bind htracked, update, hload]
  rfl

theorem stackBalanceDown_eq (hpos : 1 ≤ b) :
    p.threadTracker.stackBalanceDown thread =
      some (b - 1 != 0, (p.setBalance thread (b - 1)).threadTracker) := by
  have hload : p.threadTracker.stackBalances.load thread = some b := hb
  have htracked : p.threadTracker.isCurrentThreadTracked thread := isTracked_of_balance hb
  rw [ThreadTracker.stackBalanceDown, guard_bind htracked, update, hload]
  exact guard_bind (q := b - 1 ≥ 0) (by omega) _

theorem addCoverage_eq (hh : (p.view thread).history = some (some h)) (event : CoverageEvent) :
    p.addCoverage thread offset event methodId =
      some (p.setHistory thread (some (h.addCoverage offset event methodId thread))) := by
  have hload : p.coverageTracker.trackedCoverage.load thread = some (some h) := hh
  have hexist : ¬ ((event = .enterMain ∧ p.collectMainOnly ∨ ¬ p.collectMainOnly) ∧
      ¬ p.coverageTracker.trackedCoverage.exist thread) := by
    rw [exist_eq, hload]
    simp
  rw [addCoverage, guard_bind (isTracked_of_balance hb), CoverageTracker.addCoverage, if_neg hexist,
    hload]
  rfl

theorem addCoverage_first (hh : (p.view thread).history = none) :
    p.addCoverage thread offset .enterMain methodId =
      some (p.setHistory thread (some (.create offset methodId thread))) := by
  have hload : p.coverageTracker.trackedCoverage.load thread = none := hh
  have hexist : p.coverageTracker.trackedCoverage.exist thread = false := by
    rw [exist_eq, hload]
    rfl
  have hfirst : (CoverageEvent.enterMain = .enterMain ∧ p.collectMainOnly ∨ ¬ p.collectMainOnly) ∧
      ¬ p.coverageTracker.trackedCoverage.exist thread := by
    rw [hexist]
    cases p.collectMainOnly <;> simp
  rw [addCoverage, guard_bind (isTracked_of_balance hb), CoverageTracker.addCoverage, if_pos hfirst,
    store, hexist]
  rfl

theorem whenTracked_of_tracked
    (probe : Option ProfilerState) : p.whenTracked thread probe = probe :=
  if_pos (isTracked_of_balance hb)

end

theorem whenTracked_of_untracked (hb : (p.view thread).balance = none)
    (probe : Option ProfilerState) : p.whenTracked thread probe = some p := by
  rw [whenTracked, if_neg]
  · rfl
  · rw [isTracked_eq, hb]
    simp

theorem trackEvent_eq (hb : (p.view thread).balance = some b)
    (hh : (p.view thread).history = some (some h)) (event : CoverageEvent) :
    p.trackEvent thread offset methodId event =
      some (p.setHistory thread (some (h.addCoverage offset event methodId thread))) := by
  rw [trackEvent, whenTracked_of_tracked hb, addCoverage_eq hb hh]

theorem trackEnterMain_recursive (hb : (p.view thread).balance = some b) :
    p.trackEnterMain thread offset methodId = some (p.setBalance thread (b + 1)) := by
  rw [trackEnterMain, if_pos (isTracked_of_balance hb), stackBalanceUp_eq hb]
  rfl

/-- The profiler after main is entered on a thread that is not tracked. -/
def startThread (p : ProfilerState) (thread : ThreadID) (offset methodId : BitVec 32) :
    ProfilerState :=
  (((p.setBalance thread 0).setFilters thread 0).setBalance thread 1).setHistory thread
    (some (.create offset methodId thread))

theorem trackEnterMain_first (hb : (p.view thread).balance = none)
    (hf : (p.view thread).filters = none) (hh : (p.view thread).history = none) :
    p.trackEnterMain thread offset methodId = some (p.startThread thread offset methodId) := by
  have htracked : ¬ p.isTracked thread := by
    rw [isTracked_eq, hb]
    simp
  have htrack : p.threadTracker.trackCurrentThread thread =
      some ((p.setBalance thread 0).setFilters thread 0).threadTracker := by
    have hbalance : p.threadTracker.stackBalances.store thread 0 = some _ :=
      store_eq_some.mpr ⟨hb, rfl⟩
    have hfilters : p.threadTracker.inFilterMapping.store thread 0 = some _ :=
      store_eq_some.mpr ⟨hf, rfl⟩
    rw [ThreadTracker.trackCurrentThread, hbalance, hfilters]
    rfl
  have hzero : (((p.setBalance thread 0).setFilters thread 0).view thread).balance = some 0 := by
    rw [view_setFilters, view_setBalance]
  have hone : ((((p.setBalance thread 0).setFilters thread 0).setBalance thread 1).view
      thread).balance = some 1 := by
    rw [view_setBalance]
  have hnone : ((((p.setBalance thread 0).setFilters thread 0).setBalance thread 1).view
      thread).history = none := by
    rw [view_setBalance, view_setFilters, view_setBalance]
    exact hh
  rw [trackEnterMain, if_neg htracked, htrack]
  simp only [Option.bind_eq_bind, Option.bind_some, stackBalanceUp_eq hzero]
  exact addCoverage_first hone hnone

theorem view_startThread :
    (p.startThread thread offset methodId).view thread =
      { p.view thread with
        balance := some 1
        filters := some 0
        history := some (some (.create offset methodId thread)) } := by
  rw [startThread, view_setHistory, view_setBalance, view_setFilters, view_setBalance]

theorem quiet_startThread : Quiet thread p (p.startThread thread offset methodId) :=
  ((quiet_setBalance.trans quiet_setFilters).trans quiet_setBalance).trans quiet_setHistory

theorem remove_eq {T : Type} {s : ThreadStorage T} {data : T} (hs : s.load thread = some data) :
    s.remove thread = some (s.without thread) :=
  remove_eq_some.mpr ⟨by rw [hs]; rfl, rfl⟩

theorem invocationFinished_eq (hh : (p.view thread).history = some (some h)) :
    p.invocationFinished thread =
      some { p with coverageTracker := (p.finishThread thread h).coverageTracker } := by
  have hload : p.coverageTracker.trackedCoverage.load thread = some (some h) := hh
  have hremove := remove_eq hload
  rw [invocationFinished, hload]
  simp only [Option.bind_eq_bind, Option.bind_some, CoverageTracker.finish,
    CoverageTracker.publishVisited, CoverageTracker.pushSerialized, pure, hremove]
  rfl

/-- The thread is lost: its history is serialized. -/
theorem onCurrentThreadFinished_eq (hb : (p.view thread).balance = some b)
    (hf : (p.view thread).filters = some n) (hh : (p.view thread).history = some (some h))
    (hm : p.isPassiveRun = false → (p.view thread).mapping ≠ none) :
    p.onCurrentThreadFinished thread = some (p.finishThread thread h) := by
  have hbalance : p.threadTracker.stackBalances.remove thread = some _ := remove_eq hb
  have hfilters : p.threadTracker.inFilterMapping.remove thread = some _ := remove_eq hf
  rw [onCurrentThreadFinished, invocationFinished_eq hh]
  simp only [Option.bind_eq_bind, Option.bind_some, hbalance, hfilters]
  cases hpassive : p.isPassiveRun with
  | true =>
    rw [if_pos rfl, finishThread, hpassive]
    rfl
  | false =>
    obtain ⟨id, hid⟩ := Option.ne_none_iff_exists'.mp (hm hpassive)
    have hmapping : p.threadTracker.threadIdMapping.remove thread = some _ := remove_eq hid
    rw [if_neg (by decide), hmapping, finishThread, hpassive]
    rfl

theorem loseCurrentThread_eq (hb : (p.view thread).balance = some 0)
    (hf : (p.view thread).filters = some 0) (hh : (p.view thread).history = some (some h))
    (hm : p.isPassiveRun = false → (p.view thread).mapping ≠ none) :
    p.loseCurrentThread thread = some (p.finishThread thread h) := by
  have hbalance : p.threadTracker.stackBalances.load thread = some 0 := hb
  have hfilters : p.threadTracker.inFilterMapping.load thread = some 0 := hf
  rw [loseCurrentThread, guard_bind (isTracked_of_balance hb), hbalance, hfilters]
  exact onCurrentThreadFinished_eq hb hf hh hm

/-- A frame above others is popped. -/
theorem popFrame_nested (hb : (p.view thread).balance = some b) (hpos : 2 ≤ b) :
    p.popFrame thread = some (p.setBalance thread (b - 1)) := by
  have hne : (b - 1 != 0) = true := by simp; omega
  rw [popFrame, stackBalanceDown_eq hb (by omega)]
  simp only [Option.bind_eq_bind, Option.bind_some, hne, if_pos]
  rfl

/-- The last frame is popped. -/
theorem popFrame_last (hb : (p.view thread).balance = some 1)
    (hf : (p.view thread).filters = some 0) (hh : (p.view thread).history = some (some h))
    (hm : p.isPassiveRun = false → (p.view thread).mapping ≠ none) :
    p.popFrame thread = some ((p.setBalance thread 0).finishThread thread h) := by
  rw [popFrame, stackBalanceDown_eq hb (by omega)]
  refine loseCurrentThread_eq (p := p.setBalance thread 0) ?_ ?_ ?_ ?_
  · rw [view_setBalance]
  · rw [view_setBalance]
    exact hf
  · rw [view_setBalance]
    exact hh
  · rw [view_setBalance]
    exact hm

theorem trackLeaveMain_eq (hb : (p.view thread).balance = some b)
    (hh : (p.view thread).history = some (some h)) :
    p.trackLeaveMain thread offset methodId =
      (p.setHistory thread (some (h.addCoverage offset .leaveMain methodId thread))).popFrame
        thread := by
  rw [trackLeaveMain, whenTracked_of_tracked hb, addCoverage_eq hb hh]
  rfl

section
variable (hmode : p.collectMainOnly = false) (hb : (p.view thread).balance = some b)

include hmode hb

theorem trackEnter_eq (hh : (p.view thread).history = some (some h)) :
    p.trackEnter thread offset methodId =
      some ((p.setHistory thread (some (h.addCoverage offset .enter methodId thread))).setBalance
        thread (b + 1)) := by
  have hb' : ((p.setHistory thread (some (h.addCoverage offset .enter methodId thread))).view
      thread).balance = some b := by
    rw [view_setHistory]
    exact hb
  rw [trackEnter, whenTracked_of_tracked hb, addCoverageUnlessMainOnly, hmode,
    if_neg (by decide), addCoverage_eq hb hh]
  simp only [Option.bind_eq_bind, Option.bind_some, stackBalanceUp_eq hb']
  rfl

theorem trackLeave_eq (hpos : 1 ≤ b) (hh : (p.view thread).history = some (some h)) :
    p.trackLeave thread offset methodId =
      some ((p.setHistory thread (some (h.addCoverage offset .leave methodId thread))).setBalance
        thread (b - 1)) := by
  have hb' : ((p.setHistory thread (some (h.addCoverage offset .leave methodId thread))).view
      thread).balance = some b := by
    rw [view_setHistory]
    exact hb
  rw [trackLeave, whenTracked_of_tracked hb, addCoverageUnlessMainOnly, hmode,
    if_neg (by decide), addCoverage_eq hb hh]
  simp only [Option.bind_eq_bind, Option.bind_some, stackBalanceDown_eq hb' hpos]
  rfl

end

theorem trackTailcall_eq (hb : (p.view thread).balance = some b) (hpos : 1 ≤ b)
    (hh : (p.view thread).history = some (some h)) :
    p.trackTailcall thread offset methodId =
      some ((p.setBalance thread (b - 1)).setHistory thread
        (some (h.addCoverage offset .tailcall methodId thread))) := by
  have hb' : ((p.setBalance thread (b - 1)).view thread).balance = some (b - 1) := by
    rw [view_setBalance]
  have hh' : ((p.setBalance thread (b - 1)).view thread).history = some (some h) := by
    rw [view_setBalance]
    exact hh
  rw [trackTailcall, whenTracked_of_tracked hb, stackBalanceDown_eq hb hpos]
  exact addCoverage_eq hb' hh' _

theorem exceptionUnwindFunctionEnter_eq {functionId : FunctionID}
    (hb : (p.view thread).balance = some b) (hid : functionId ≠ incorrectFunctionId) :
    p.exceptionUnwindFunctionEnter thread functionId =
      some (p.setUnwinding thread (some functionId)) := by
  rw [exceptionUnwindFunctionEnter, whenTracked_of_tracked hb, unwindFunctionEnter,
    guard_bind (isTracked_of_balance hb), guard_bind hid]
  rfl

section
variable {functionId : FunctionID}

section
variable (hb : (p.view thread).balance = some b)

include hb

/-- A frame that is not counted has been unwound. -/
theorem exceptionUnwindFunctionLeave_other (hu : (p.view thread).unwinding = some functionId)
    (hother : p.collectMainOnly ∧ p.mainFunctionId ≠ functionId) :
    p.exceptionUnwindFunctionLeave thread = some (p.setUnwinding thread none) := by
  have hload : p.threadTracker.unwindFunctionIds.load thread = some functionId := hu
  rw [exceptionUnwindFunctionLeave, whenTracked_of_tracked hb, unwindFunctionLeave,
    guard_bind (isTracked_of_balance hb), hload, remove_eq hload]
  exact if_pos hother

section
variable (hpos : 0 ≤ b) (hf : (p.view thread).filters = some n) (hcounts : n ≤ 0 ∨ 2 ≤ b)

include hpos hf hcounts

theorem notInFilterOrNested_eq : p.threadTracker.notInFilterOrNested thread = some true := by
  have htracked : p.threadTracker.isCurrentThreadTracked thread := isTracked_of_balance hb
  have hbload : p.threadTracker.stackBalances.load thread = some b := hb
  have hfload : p.threadTracker.inFilterMapping.load thread = some n := hf
  have hfilter : p.threadTracker.isInFilter thread = some (decide (n > 0)) := by
    rw [ThreadTracker.isInFilter, guard_bind htracked, hfload]
    rfl
  have hbalance : p.threadTracker.stackBalance thread = some b := by
    rw [ThreadTracker.stackBalance, guard_bind htracked, hbload]
    exact guard_bind (q := b ≥ 0) hpos _
  rw [ThreadTracker.notInFilterOrNested, hfilter, hbalance]
  rcases Int.lt_or_le 0 n with hn | hn
  · have hnested : b > 1 := by omega
    simp [hn, hnested]
  · simp [Int.not_lt.mpr hn]

/-- A frame that is counted has been unwound. -/
theorem exceptionUnwindFunctionLeave_counted (hu : (p.view thread).unwinding = some functionId)
    (hcounted : ¬ (p.collectMainOnly ∧ p.mainFunctionId ≠ functionId)) :
    p.exceptionUnwindFunctionLeave thread = (p.setUnwinding thread none).popFrame thread := by
  have hload : p.threadTracker.unwindFunctionIds.load thread = some functionId := hu
  have hcount : (p.setUnwinding thread none).threadTracker.notInFilterOrNested thread = some true :=
    notInFilterOrNested_eq (by rw [view_setUnwinding]; exact hb) hpos
      (by rw [view_setUnwinding]; exact hf) hcounts
  rw [exceptionUnwindFunctionLeave, whenTracked_of_tracked hb, unwindFunctionLeave,
    guard_bind (isTracked_of_balance hb), hload, remove_eq hload]
  refine (if_neg hcounted).trans ?_
  exact congrArg (Option.bind · _) hcount

end

end

end

section
variable (hb : (p.view thread).balance = some b) (hf : (p.view thread).filters = some n)

include hb hf

theorem exceptionSearchFilterEnter_eq :
    p.exceptionSearchFilterEnter thread = some (p.setFilters thread (n + 1)) := by
  have hload : p.threadTracker.inFilterMapping.load thread = some n := hf
  have htracked : p.threadTracker.isCurrentThreadTracked thread := isTracked_of_balance hb
  rw [exceptionSearchFilterEnter, whenTracked_of_tracked hb, ThreadTracker.filterEnter,
    ThreadTracker.filterUpdate, guard_bind htracked, update, hload]
  rfl

theorem exceptionSearchFilterLeave_eq :
    p.exceptionSearchFilterLeave thread = some (p.setFilters thread (n - 1)) := by
  have hload : p.threadTracker.inFilterMapping.load thread = some n := hf
  have htracked : p.threadTracker.isCurrentThreadTracked thread := isTracked_of_balance hb
  rw [exceptionSearchFilterLeave, whenTracked_of_tracked hb, ThreadTracker.filterLeave,
    ThreadTracker.filterUpdate, guard_bind htracked, update, hload]
  rfl

end

theorem setCurrentThreadId_eq {mapId : BitVec 32} (hm : (p.view thread).mapping = none) :
    p.setCurrentThreadId thread mapId = some (p.setMapping thread mapId) := by
  have hstore : p.threadTracker.threadIdMapping.store thread mapId = some _ :=
    store_eq_some.mpr ⟨hm, rfl⟩
  rw [setCurrentThreadId, ThreadTracker.mapCurrentThread, hstore]
  rfl

end

end

end ProfilerState

end VSharp.CoverageInstrumenter
