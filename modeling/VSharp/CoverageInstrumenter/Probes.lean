import VSharp.CoverageInstrumenter.CoverageTracker

/-!
# Coverage instrumenter — Probes

`threadTracker.cpp`, `probes.cpp` and `api.cpp` of the profiler, with the callbacks of
`corProfiler.cpp` that lead to them.  Every operation is done by a thread, which is its first argument
after the state, and happens before the process shuts down.
-/

namespace VSharp.CoverageInstrumenter

abbrev FunctionID := BitVec 64

/-! ### Thread trackers -/

structure ThreadTracker where
  threadIdMapping : ThreadStorage (BitVec 32)
  stackBalances : ThreadStorage Int
  unwindFunctionIds : ThreadStorage FunctionID
  inFilterMapping : ThreadStorage Int

namespace ThreadTracker

def empty : ThreadTracker := ⟨.empty, .empty, .empty, .empty⟩

variable (k : ThreadTracker) (thread : ThreadID)

def isCurrentThreadTracked : Bool := k.stackBalances.exist thread

def trackCurrentThread : Option ThreadTracker := do
  let stackBalances ← k.stackBalances.store thread 0
  let inFilterMapping ← k.inFilterMapping.store thread 0
  pure { k with stackBalances, inFilterMapping }

def stackBalanceUp : Option ThreadTracker := do
  guard (k.isCurrentThreadTracked thread)
  let (_, stackBalances) ← k.stackBalances.update thread (· + 1)
  pure { k with stackBalances }

def stackBalance : Option Int := do
  guard (k.isCurrentThreadTracked thread)
  let balance ← k.stackBalances.load thread
  guard (balance ≥ 0)
  pure balance

/-- Whether the stack is not empty, and the tracker after it. -/
def stackBalanceDown : Option (Bool × ThreadTracker) := do
  guard (k.isCurrentThreadTracked thread)
  let (newBalance, stackBalances) ← k.stackBalances.update thread (· - 1)
  guard (newBalance ≥ 0)
  pure (newBalance != 0, { k with stackBalances })

/-- `filterEnter` and `filterLeave`. -/
def filterUpdate (f : Int → Int) : Option ThreadTracker := do
  guard (k.isCurrentThreadTracked thread)
  let (_, inFilterMapping) ← k.inFilterMapping.update thread f
  pure { k with inFilterMapping }

def filterEnter : Option ThreadTracker := k.filterUpdate thread (· + 1)

def filterLeave : Option ThreadTracker := k.filterUpdate thread (· - 1)

def isInFilter : Option Bool := do
  guard (k.isCurrentThreadTracked thread)
  pure (decide ((← k.inFilterMapping.load thread) > 0))

/-- `!isInFilter() || stackBalance() > 1`. -/
def notInFilterOrNested : Option Bool := do
  if ← k.isInFilter thread then
    let balance ← k.stackBalance thread
    pure (decide (balance > 1))
  else pure true

def mapCurrentThread (mapId : BitVec 32) : Option ThreadTracker := do
  let threadIdMapping ← k.threadIdMapping.store thread mapId
  pure { k with threadIdMapping }

end ThreadTracker

/-! ### The profiler -/

structure ProfilerState where
  threadTracker : ThreadTracker
  coverageTracker : CoverageTracker
  isPassiveRun : Bool
  collectMainOnly : Bool
  mainFunctionId : FunctionID

namespace ProfilerState

def incorrectFunctionId : FunctionID := 0

variable (p : ProfilerState) (thread : ThreadID)

def isTracked : Bool := p.threadTracker.isCurrentThreadTracked thread

def addCoverage (offset : BitVec 32) (event : CoverageEvent) (methodId : BitVec 32) :
    Option ProfilerState := do
  guard (p.isTracked thread)
  let coverageTracker ←
    p.coverageTracker.addCoverage p.collectMainOnly thread offset event methodId
  pure { p with coverageTracker }

def invocationFinished : Option ProfilerState := do
  let coverage ← p.coverageTracker.trackedCoverage.load thread
  let threadId := (p.threadTracker.threadIdMapping.load thread).getD 0
  let c ← p.coverageTracker.finish threadId coverage
  let trackedCoverage ← c.trackedCoverage.remove thread
  pure { p with coverageTracker := { c with trackedCoverage } }

def onCurrentThreadFinished : Option ProfilerState := do
  let p ← p.invocationFinished thread
  let stackBalances ← p.threadTracker.stackBalances.remove thread
  let inFilterMapping ← p.threadTracker.inFilterMapping.remove thread
  let p := { p with threadTracker := { p.threadTracker with stackBalances, inFilterMapping } }
  if p.isPassiveRun then pure p
  else do
    let threadIdMapping ← p.threadTracker.threadIdMapping.remove thread
    pure { p with threadTracker := { p.threadTracker with threadIdMapping } }

def loseCurrentThread : Option ProfilerState := do
  guard (p.isTracked thread)
  guard ((← p.threadTracker.stackBalances.load thread) = 0)
  guard ((← p.threadTracker.inFilterMapping.load thread) = 0)
  p.onCurrentThreadFinished thread

def abortCurrentThread : Option ProfilerState := p.onCurrentThreadFinished thread

/-- `stackBalanceDown`, after which a thread with an empty stack is lost. -/
def popFrame : Option ProfilerState := do
  let (notEmpty, threadTracker) ← p.threadTracker.stackBalanceDown thread
  let p := { p with threadTracker }
  if notEmpty then pure p else p.loseCurrentThread thread

def unwindFunctionEnter (functionId : FunctionID) : Option ProfilerState := do
  guard (p.isTracked thread)
  guard (functionId ≠ incorrectFunctionId)
  let unwindFunctionIds := p.threadTracker.unwindFunctionIds.storeOrUpdate thread functionId
  pure { p with threadTracker := { p.threadTracker with unwindFunctionIds } }

def unwindFunctionLeave : Option ProfilerState := do
  guard (p.isTracked thread)
  let functionId ← p.threadTracker.unwindFunctionIds.load thread
  let unwindFunctionIds ← p.threadTracker.unwindFunctionIds.remove thread
  let p := { p with threadTracker := { p.threadTracker with unwindFunctionIds } }
  if p.collectMainOnly ∧ p.mainFunctionId ≠ functionId then pure p
  else if ← p.threadTracker.notInFilterOrNested thread then p.popFrame thread
  else pure p

/-! ### Probes -/

section
variable (offset methodId : BitVec 32)

/-- A probe that does nothing on a thread that is not tracked. -/
def whenTracked (probe : Option ProfilerState) : Option ProfilerState :=
  if p.isTracked thread then probe else pure p

/-- A probe that adds a record. -/
def trackEvent (event : CoverageEvent) : Option ProfilerState :=
  p.whenTracked thread (p.addCoverage thread offset event methodId)

def trackCoverage : Option ProfilerState := p.trackEvent thread offset methodId .trackCoverage

def trackStsfld : Option ProfilerState := p.trackEvent thread offset methodId .stsfldHit

def branch : Option ProfilerState := p.trackEvent thread offset methodId .branchHit

def trackCall : Option ProfilerState := p.trackEvent thread offset methodId .call

def trackThrow : Option ProfilerState := p.trackEvent thread offset methodId .leave

def trackTailcall : Option ProfilerState :=
  p.whenTracked thread do
    -- popping frame before tailcall execution
    let (_, threadTracker) ← p.threadTracker.stackBalanceDown thread
    ProfilerState.addCoverage { p with threadTracker } thread offset .tailcall methodId

/-- The record of a method that is not main. -/
def addCoverageUnlessMainOnly (event : CoverageEvent) : Option ProfilerState :=
  if p.collectMainOnly then pure p else p.addCoverage thread offset event methodId

def trackEnter : Option ProfilerState :=
  p.whenTracked thread do
    let p ← p.addCoverageUnlessMainOnly thread offset methodId .enter
    let threadTracker ← p.threadTracker.stackBalanceUp thread
    pure { p with threadTracker }

def trackEnterMain : Option ProfilerState :=
  if p.isTracked thread then do
    -- Recursive enter
    let threadTracker ← p.threadTracker.stackBalanceUp thread
    pure { p with threadTracker }
  else do
    let threadTracker ← p.threadTracker.trackCurrentThread thread
    let threadTracker ← threadTracker.stackBalanceUp thread
    ProfilerState.addCoverage { p with threadTracker } thread offset .enterMain methodId

def trackLeave : Option ProfilerState :=
  p.whenTracked thread do
    let p ← p.addCoverageUnlessMainOnly thread offset methodId .leave
    let (_, threadTracker) ← p.threadTracker.stackBalanceDown thread
    pure { p with threadTracker }

def trackLeaveMain : Option ProfilerState :=
  p.whenTracked thread do
    let p ← p.addCoverage thread offset .leaveMain methodId
    p.popFrame thread

end

/-! ### Callbacks and the interface -/

/-- `ExceptionThrown`, for a `ThreadAbortException`. -/
def threadAbortThrown : Option ProfilerState :=
  p.whenTracked thread do
    let coverageTracker ← p.coverageTracker.invocationAborted thread
    ProfilerState.abortCurrentThread { p with coverageTracker } thread

def exceptionUnwindFunctionEnter (functionId : FunctionID) : Option ProfilerState :=
  p.whenTracked thread (p.unwindFunctionEnter thread functionId)

def exceptionUnwindFunctionLeave : Option ProfilerState :=
  p.whenTracked thread (p.unwindFunctionLeave thread)

def exceptionSearchFilterEnter : Option ProfilerState :=
  p.whenTracked thread do
    let threadTracker ← p.threadTracker.filterEnter thread
    pure { p with threadTracker }

def exceptionSearchFilterLeave : Option ProfilerState :=
  p.whenTracked thread do
    let threadTracker ← p.threadTracker.filterLeave thread
    pure { p with threadTracker }

def setCurrentThreadId (mapId : BitVec 32) : Option ProfilerState := do
  let threadTracker ← p.threadTracker.mapCurrentThread thread mapId
  pure { p with threadTracker }

/-- `GetHistory`: the report, and the profiler after it. -/
def getHistory : List (BitVec 8) × ProfilerState :=
  let (bytes, coverageTracker) :=
    p.coverageTracker.serializeCoverageReport p.threadTracker.threadIdMapping.items
  (bytes, { p with coverageTracker := coverageTracker.clear, threadTracker := .empty })

end ProfilerState

end VSharp.CoverageInstrumenter
