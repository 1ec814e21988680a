import Mathlib.Algebra.Group.Nat.Defs
import Mathlib.Data.Finset.Basic
import Mathlib.Data.List.AList
import VSharp.Utils.CoverageDeserializer

/-!
# Coverage instrumenter — Coverage tracker

`threadStorage.h`, `serialization.h` and `coverageTracker.cpp` of the profiler.  An operation that
fails has run into a `profiler_assert` or dereferenced a null pointer.

- the functions that serialize return the bytes that they append to their buffer;
- a name is kept without its terminator, which `units` adds;
- `finish` is what `invocationFinished` does with the history and the id that it has loaded.
-/

namespace VSharp.CoverageInstrumenter
open Library CoverageDeserializer List

abbrev ThreadID := BitVec 64

/-! ### Thread storages -/

structure ThreadStorage (T : Type) where
  innerStorage : AList fun _ : ThreadID => T

namespace ThreadStorage
variable {T : Type} (s : ThreadStorage T) (thread : ThreadID)

def empty : ThreadStorage T := ⟨∅⟩

def exist : Bool := (s.innerStorage.lookup thread).isSome

def storeOrUpdate (data : T) : ThreadStorage T := ⟨s.innerStorage.insert thread data⟩

def store (data : T) : Option (ThreadStorage T) :=
  if s.exist thread then none else some (s.storeOrUpdate thread data)

def load : Option T := s.innerStorage.lookup thread

def update (f : T → T) : Option (T × ThreadStorage T) := do
  let result := f (← s.load thread)
  pure (result, s.storeOrUpdate thread result)

/-- `innerStorage.erase`. -/
def without : ThreadStorage T := ⟨s.innerStorage.erase thread⟩

def remove : Option (ThreadStorage T) :=
  if s.exist thread then some (s.without thread) else none

/-- In the order of the threads. -/
def items : List (ThreadID × T) :=
  (s.innerStorage.entries.map fun e => (e.1, e.2)).mergeSort fun a b => a.1.toNat ≤ b.1.toNat

variable {s thread} {data : T} {thread' : ThreadID} {s' : ThreadStorage T}

theorem exist_eq : s.exist thread = (s.load thread).isSome := rfl

theorem load_storeOrUpdate :
    (s.storeOrUpdate thread data).load thread' =
      if thread' = thread then some data else s.load thread' := by
  rcases eq_or_ne thread' thread with rfl | hne
  · rw [if_pos rfl]
    exact AList.lookup_insert _
  · rw [if_neg hne]
    exact AList.lookup_insert_ne hne

theorem store_eq_some :
    s.store thread data = some s' ↔ s.load thread = none ∧ s' = s.storeOrUpdate thread data := by
  rw [store, exist_eq]
  cases s.load thread <;> simp [eq_comm]

theorem remove_eq_some :
    s.remove thread = some s' ↔ (s.load thread).isSome ∧ s' = s.without thread := by
  rw [remove, exist_eq]
  cases s.load thread <;> simp [eq_comm]

theorem load_without :
    (s.without thread).load thread' = if thread' = thread then none else s.load thread' := by
  rcases eq_or_ne thread' thread with rfl | hne
  · rw [if_pos rfl]
    exact AList.lookup_erase _ _
  · rw [if_neg hne]
    exact AList.lookup_erase_ne hne

theorem mem_items : (thread, data) ∈ s.items ↔ s.load thread = some data := by
  rw [items, mem_mergeSort, mem_map]
  refine Iff.trans ?_ AList.mem_lookup_iff.symm
  constructor
  · rintro ⟨⟨t, d⟩, hmem, heq⟩
    cases heq
    exact hmem
  · intro hmem
    exact ⟨_, hmem, rfl⟩

theorem nodup_items : (s.items.map Prod.fst).Nodup := by
  have hperm : (s.items.map Prod.fst).Perm s.innerStorage.keys := by
    refine ((mergeSort_perm _ _).map Prod.fst).trans ?_
    rw [map_map]
    exact .refl _
  exact hperm.nodup_iff.mpr s.innerStorage.keys_nodup

end ThreadStorage

/-! ### Serialization -/

def serializePrimitive (k : Nat) (obj : BitVec (k * 8)) : List (BitVec 8) := leBytes obj

def serializePrimitiveArray (k : Nat) (objs : List (BitVec (k * 8))) : List (BitVec 8) :=
  objs.flatMap leBytes

/-- An `int`. -/
def serializeInt (n : Int) : List (BitVec 8) := serializePrimitive 4 (BitVec.ofInt 32 n)

/-- A UTF-16 string. -/
structure Name where
  chars : List CodeUnit
  wellFormed : WellFormed chars

/-- The string as the profiler is given it, with its terminator. -/
def Name.units (name : Name) : List CodeUnit := name.chars ++ [0]

structure MethodInfo where
  token : BitVec 32
  assemblyName : Name
  moduleName : Name

def Name.serialize (name : Name) : List (BitVec 8) :=
  serializePrimitive 4 (BitVec.ofNat 32 name.units.length) ++ serializePrimitiveArray 2 name.units

def MethodInfo.serialize (info : MethodInfo) : List (BitVec 8) :=
  serializePrimitive 4 info.token ++ info.assemblyName.serialize ++ info.moduleName.serialize

inductive CoverageEvent where
  | enterMain | enter | leaveMain | leave | branchHit | call | tailcall | trackCoverage | stsfldHit
deriving DecidableEq, Repr

/-- The value of the enumerator. -/
def CoverageEvent.toWord : CoverageEvent → BitVec 32
  | .enterMain => 0
  | .enter => 1
  | .leaveMain => 2
  | .leave => 3
  | .branchHit => 4
  | .call => 5
  | .tailcall => 6
  | .trackCoverage => 7
  | .stsfldHit => 8

structure CoverageRecord where
  offset : BitVec 32
  event : CoverageEvent
  thread : ThreadID
  methodId : BitVec 32
deriving DecidableEq, Repr

def CoverageRecord.serialize (r : CoverageRecord) : List (BitVec 8) :=
  serializePrimitive 4 r.offset ++ serializePrimitive 4 r.event.toWord ++
    serializePrimitive 4 r.methodId ++ serializePrimitive 8 r.thread

/-- A history has visited the methods of its records. -/
structure CoverageHistory where
  records : List CoverageRecord
  visitedMethods : Finset (BitVec 32)
  visited : ∀ r ∈ records, r.methodId ∈ visitedMethods

namespace CoverageHistory

/-- The constructor. -/
def create (offset methodId : BitVec 32) (thread : ThreadID) : CoverageHistory where
  records := [⟨offset, .enterMain, thread, methodId⟩]
  visitedMethods := {methodId}
  visited := by simp

def addCoverage (h : CoverageHistory) (offset : BitVec 32) (event : CoverageEvent)
    (methodId : BitVec 32) (thread : ThreadID) : CoverageHistory where
  records := h.records ++ [⟨offset, event, thread, methodId⟩]
  visitedMethods := insert methodId h.visitedMethods
  visited := by
    intro r hr
    rcases mem_append.mp hr with hr | hr
    · exact Finset.mem_insert_of_mem (h.visited r hr)
    · cases mem_singleton.mp hr
      exact Finset.mem_insert_self _ _

def serialize (h : CoverageHistory) : List (BitVec 8) :=
  serializeInt h.records.length ++ h.records.flatMap CoverageRecord.serialize

end CoverageHistory

/-! ### The tracker -/

structure CoverageTracker where
  collectedMethods : List MethodInfo
  visitedMethods : Finset (BitVec 32)
  trackedCoverage : ThreadStorage (Option CoverageHistory)
  serializedCoverage : List (List (BitVec 8))
  serializedCoverageThreadIds : List (BitVec 32)

namespace CoverageTracker

/-- A tracker that has seen nothing. -/
def empty : CoverageTracker := ⟨[], ∅, .empty, [], []⟩

variable (c : CoverageTracker)

/-- A missing or aborted history is a null pointer. -/
def addCoverage (collectMainOnly : Bool) (thread : ThreadID) (offset : BitVec 32)
    (event : CoverageEvent) (methodId : BitVec 32) : Option CoverageTracker :=
  if (event = .enterMain ∧ collectMainOnly ∨ ¬ collectMainOnly) ∧
      ¬ c.trackedCoverage.exist thread then do
    let tracked ← c.trackedCoverage.store thread (some (.create offset methodId thread))
    pure { c with trackedCoverage := tracked }
  else do
    let history ← (← c.trackedCoverage.load thread)
    let tracked := c.trackedCoverage.storeOrUpdate thread
      (some (history.addCoverage offset event methodId thread))
    pure { c with trackedCoverage := tracked }

/-- The buffer of an entry that was aborted. -/
def abortedBuffer (threadId : BitVec 32) : List (BitVec 8) :=
  serializePrimitive 4 threadId ++ serializeInt 1

/-- The buffer of an entry. -/
def historyBuffer (threadId : BitVec 32) (coverage : Option CoverageHistory) : List (BitVec 8) :=
  match coverage with
  | none => abortedBuffer threadId
  | some history => serializePrimitive 4 threadId ++ serializeInt 0 ++ history.serialize

/-- The section of `visitedMethodsMutex`.  The pointer is dereferenced before it is checked. -/
def publishVisited (coverage : Option CoverageHistory) : Option CoverageTracker := do
  let history ← coverage
  pure { c with visitedMethods := c.visitedMethods ∪ history.visitedMethods }

/-- A section of `serializedCoverageMutex`. -/
def pushSerialized (threadId : BitVec 32) (buffer : List (BitVec 8)) : CoverageTracker :=
  { c with
    serializedCoverageThreadIds := c.serializedCoverageThreadIds ++ [threadId]
    serializedCoverage := c.serializedCoverage ++ [buffer] }

/-- `invocationFinished`, for a history and a thread id. -/
def finish (threadId : BitVec 32) (coverage : Option CoverageHistory) : Option CoverageTracker := do
  let c ← c.publishVisited coverage
  pure (c.pushSerialized threadId (historyBuffer threadId coverage))

/-- `visitedMethods.count(i) > 0`, for an `int`. -/
def isVisited (visited : Finset (BitVec 32)) (i : Nat) : Bool :=
  decide (i < 2 ^ 31 ∧ BitVec.ofNat 32 i ∈ visited)

/-- The methods that a report lists, each with its id. -/
def methodsToSerialize : List (Nat × MethodInfo) :=
  (c.collectedMethods.zipIdx.filter fun el => isVisited c.visitedMethods el.2).map fun el =>
    (el.2, el.1)

def serializeMethods (methods : List (Nat × MethodInfo)) : List (BitVec 8) :=
  serializeInt methods.length ++ methods.flatMap fun el => serializeInt el.1 ++ el.2.serialize

/-- Threads that are mapped and have no entry get an aborted one. -/
def addNotEntered (mapping : List (ThreadID × BitVec 32)) : CoverageTracker :=
  mapping.foldl (fun c el =>
    if c.serializedCoverageThreadIds.count el.2 = 0 then
      c.pushSerialized el.2 (abortedBuffer el.2)
    else c) c

/-- `coverageCount` of the buffers are written. -/
def serializeBuffers : List (BitVec 8) :=
  let coverageCount := BitVec.ofNat 32 c.serializedCoverage.length
  serializePrimitive 4 coverageCount ++
    (c.serializedCoverage.take coverageCount.toInt.toNat).flatten

/-- The report, and the tracker after it. -/
def serializeCoverageReport (mapping : List (ThreadID × BitVec 32)) :
    List (BitVec 8) × CoverageTracker :=
  let buffer := serializeMethods c.methodsToSerialize
  let c := c.addNotEntered mapping
  let buffer := buffer ++ c.serializeBuffers
  (buffer, { c with trackedCoverage := .empty, serializedCoverage := [] })

/-- The id of the method, and the tracker after it. -/
def collectMethod (info : MethodInfo) : Nat × CoverageTracker :=
  (c.collectedMethods.length, { c with collectedMethods := c.collectedMethods ++ [info] })

def clear : CoverageTracker := { c with trackedCoverage := .empty }

def invocationAborted (thread : ThreadID) : Option CoverageTracker := do
  let (_, tracked) ← c.trackedCoverage.update thread fun _ => none
  pure { c with trackedCoverage := tracked }

end CoverageTracker

end VSharp.CoverageInstrumenter
