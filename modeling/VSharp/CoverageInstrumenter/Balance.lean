import VSharp.CoverageInstrumenter.ThreadViews

/-!
# Coverage instrumenter — Balance

Executions of instrumented methods on one thread, and how the profiler follows them.

An execution has a stack of frames and of filters that are being evaluated.  Its frames end by a
return, by unwinding or by a tail call; the finally blocks of a frame that is being unwound may call
other methods.  The part of the stack at or above the outermost frame of main is `active`: as long
as it is not empty the thread is to be tracked, and the stack balance is to be the number of its
instrumented frames.  When only main is instrumented, the other frames are still unwound in front of
the profiler.
-/

namespace VSharp.CoverageInstrumenter
open List

/-! ### Executions -/

structure Frame where
  isMain : Bool
  functionId : FunctionID
  unwinding : Bool
deriving DecidableEq, Repr

inductive Item where
  | frame (f : Frame)
  | filter
deriving DecidableEq, Repr

/-- The probes that add a record only. -/
inductive Visit where
  | coverage | stsfld | branch | call | throw
deriving DecidableEq, Repr

inductive Event where
  | call (isMain : Bool) (functionId : FunctionID) (offset methodId : BitVec 32)
  | visit (v : Visit) (offset methodId : BitVec 32)
  | ret (offset methodId : BitVec 32)
  | tailcall (offset methodId : BitVec 32)
  | unwindEnter
  | unwindLeave
  | filterEnter
  | filterLeave
  | abort
  | map (mapId : BitVec 32)
deriving DecidableEq, Repr

/-- The stack, and the number of outermost frames of main that have ended. -/
structure Execution where
  stack : List Item
  ended : Nat
deriving DecidableEq, Repr

def Item.isMain : Item → Bool
  | .frame f => f.isMain
  | .filter => false

/-- The stack down to the outermost frame of main. -/
def active : List Item → List Item
  | [] => []
  | i :: rest => if active rest ≠ [] ∨ i.isMain then i :: active rest else []

section
variable (mainOnly : Bool) (mainFunctionId : FunctionID)

def Frame.instrumented (f : Frame) : Bool := f.isMain || !mainOnly

def Item.instrumented : Item → Bool
  | .frame f => f.instrumented mainOnly
  | .filter => false

/-- The number of instrumented frames. -/
def liveFrames (items : List Item) : Nat := items.countP (Item.instrumented mainOnly)

/-- Main is known by its function. -/
def Frame.Known (f : Frame) : Prop :=
  f.functionId ≠ ProfilerState.incorrectFunctionId ∧
    (mainOnly → (f.isMain = true ↔ f.functionId = mainFunctionId))

instance (f : Frame) : Decidable (f.Known mainOnly mainFunctionId) :=
  inferInstanceAs (Decidable (_ ∧ _))

namespace Execution

/-- The frame on top of the stack. -/
def top (x : Execution) : Option Frame :=
  match x.stack with
  | .frame f :: _ => some f
  | _ => none

def start : Execution := ⟨[], 0⟩

def move (x : Execution) (stack : List Item) : Execution where
  stack := stack
  ended := x.ended + if active x.stack ≠ [] ∧ active stack = [] then 1 else 0

/-- The execution after the frame on top of the stack is replaced by the given items. -/
def replaceTop (x : Execution) (items : Frame → Option (List Item)) : Option Execution :=
  match x.stack with
  | .frame f :: rest => do
      let items ← items f
      pure (x.move (items ++ rest))
  | _ => none

/-- The execution after an event, which must respect the nesting. -/
def next (x : Execution) : Event → Option Execution
  | .call isMain functionId _ _ =>
    if Frame.Known mainOnly mainFunctionId ⟨isMain, functionId, false⟩ then
      some (x.move (.frame ⟨isMain, functionId, false⟩ :: x.stack))
    else none
  | .visit .. =>
    x.replaceTop fun f => if f.instrumented mainOnly then some [.frame f] else none
  | .ret .. | .tailcall .. => x.replaceTop fun f => if f.unwinding then none else some []
  | .unwindEnter =>
    x.replaceTop fun f =>
      if f.unwinding then none else some [.frame { f with unwinding := true }]
  | .unwindLeave => x.replaceTop fun f => if f.unwinding then some [] else none
  | .filterEnter => some (x.move (.filter :: x.stack))
  | .filterLeave =>
    match x.stack with
    | .filter :: rest => some (x.move rest)
    | _ => none
  | .abort | .map _ => some x

def run (x : Execution) : List Event → Option Execution
  | [] => some x
  | e :: events => do
      let x ← x.next mainOnly mainFunctionId e
      x.run events

end Execution

end

/-! ### The profiler -/

namespace ProfilerState
variable (p : ProfilerState) (thread : ThreadID)

def visit (offset methodId : BitVec 32) : Visit → Option ProfilerState
  | .coverage => p.trackCoverage thread offset methodId
  | .stsfld => p.trackStsfld thread offset methodId
  | .branch => p.branch thread offset methodId
  | .call => p.trackCall thread offset methodId
  | .throw => p.trackThrow thread offset methodId

def Visit.event : Visit → CoverageEvent
  | .coverage => .trackCoverage
  | .stsfld => .stsfldHit
  | .branch => .branchHit
  | .call => .call
  | .throw => .leave

theorem visit_eq (offset methodId : BitVec 32) (v : Visit) :
    p.visit thread offset methodId v = p.trackEvent thread offset methodId (Visit.event v) := by
  cases v <;> rfl

/-- What a return from a frame calls. -/
def handleRet (f : Frame) (offset methodId : BitVec 32) : Option ProfilerState :=
  if f.isMain then p.trackLeaveMain thread offset methodId
  else if p.collectMainOnly then pure p
  else p.trackLeave thread offset methodId

/-- The probe or the callback of an event, for the frame on top of the stack before it. -/
def handle (top : Option Frame) : Event → Option ProfilerState
  | .call isMain _ offset methodId =>
    if isMain then p.trackEnterMain thread offset methodId
    else if p.collectMainOnly then pure p
    else p.trackEnter thread offset methodId
  | .visit v offset methodId => p.visit thread offset methodId v
  | .ret offset methodId => do p.handleRet thread (← top) offset methodId
  | .tailcall offset methodId => do
      if (← top).instrumented p.collectMainOnly then p.trackTailcall thread offset methodId
      else pure p
  | .unwindEnter => do p.exceptionUnwindFunctionEnter thread (← top).functionId
  | .unwindLeave => p.exceptionUnwindFunctionLeave thread
  | .filterEnter => p.exceptionSearchFilterEnter thread
  | .filterLeave => p.exceptionSearchFilterLeave thread
  | .abort => p.threadAbortThrown thread
  | .map mapId => p.setCurrentThreadId thread mapId

/-- The profiler follows an execution. -/
def follow (thread : ThreadID) : ProfilerState → Execution → List Event → Option ProfilerState
  | p, _, [] => some p
  | p, x, e :: events => do
      let x' ← x.next p.collectMainOnly p.mainFunctionId e
      let p' ← p.handle thread x.top e
      follow thread p' x' events

end ProfilerState

/-- The frames that are being unwound. -/
def unwound (items : List Item) : List Frame :=
  items.filterMap fun
    | .frame f => if f.unwinding then some f else none
    | .filter => none

/-- The condition on an event: no abort while the thread is tracked, no tail call that ends the
outermost frame of main, no unwinding within another, and an id for the thread. -/
def Regular (p : ProfilerState) (thread : ThreadID) (stack : List Item) : Event → Prop
  | .call true _ _ _ => active stack = [] → p.isPassiveRun = false → (p.view thread).mapping ≠ none
  | .tailcall .. => active stack ≠ [] → active stack.tail ≠ []
  | .unwindEnter => unwound (active stack) = []
  | .abort => active stack = []
  | .map _ => (p.view thread).mapping = none
  | _ => True

instance (p : ProfilerState) (thread : ThreadID) (stack : List Item) :
    (e : Event) → Decidable (Regular p thread stack e)
  | .call true _ _ _ => inferInstanceAs (Decidable (_ → _ → _))
  | .tailcall .. => inferInstanceAs (Decidable (_ → _))
  | .unwindEnter | .abort | .map _ => inferInstanceAs (Decidable (_ = _))
  | .call false _ _ _ | .visit .. | .ret .. | .unwindLeave | .filterEnter | .filterLeave =>
    inferInstanceAs (Decidable True)

/-- Every event meets the condition when it happens. -/
def RegularRun (thread : ThreadID) : ProfilerState → Execution → List Event → Prop
  | _, _, [] => True
  | p, x, e :: events =>
    Regular p thread x.stack e ∧
      match x.next p.collectMainOnly p.mainFunctionId e, p.handle thread x.top e with
      | some x', some p' => RegularRun thread p' x' events
      | _, _ => True

/-- The balance of a thread is right, its history is there while it is tracked, and as many
invocations have finished as outermost frames of main have ended. -/
structure Balanced (p₀ : ProfilerState) (thread : ThreadID) (p : ProfilerState) (x : Execution) :
    Prop where
  untracked : active x.stack = [] → (p.view thread).balance = none
  balance : active x.stack ≠ [] →
    (p.view thread).balance = some (liveFrames p₀.collectMainOnly (active x.stack) : Int)
  history : active x.stack ≠ [] → ∃ h, (p.view thread).history = some (some h)
  finished : p.coverageTracker.serializedCoverage.length =
    p₀.coverageTracker.serializedCoverage.length + x.ended

/-! ### The active part of the stack -/

section
variable {mainOnly : Bool} {i : Item} {rest : List Item}

theorem active_cons_of_ne (h : active rest ≠ []) : active (i :: rest) = i :: active rest :=
  if_pos (.inl h)

theorem active_cons_main (h : active rest = []) (hi : i.isMain) : active (i :: rest) = [i] := by
  rw [active, if_pos (.inr hi), h]

theorem active_cons_other (h : active rest = []) (hi : i.isMain = false) :
    active (i :: rest) = [] := by
  rw [active, if_neg]
  simp [h, hi]

theorem active_cons_eq_nil : active (i :: rest) = [] ↔ active rest = [] ∧ i.isMain = false := by
  rcases eq_or_ne (active rest) [] with hrest | hrest
  · cases hi : i.isMain with
    | true => simp [active_cons_main hrest hi]
    | false => simp [active_cons_other hrest hi, hrest]
  · simp [active_cons_of_ne hrest, hrest]

theorem active_cons_eq (h : active (i :: rest) ≠ []) : active (i :: rest) = i :: active rest := by
  rw [active] at h ⊢
  split
  · rfl
  · simp_all

theorem liveFrames_cons :
    liveFrames mainOnly (i :: rest) =
      liveFrames mainOnly rest + if i.instrumented mainOnly then 1 else 0 :=
  countP_cons

theorem one_le_liveFrames {stack : List Item} (h : active stack ≠ []) :
    1 ≤ liveFrames mainOnly (active stack) := by
  induction stack with
  | nil => exact absurd rfl h
  | cons i rest ih =>
    rcases eq_or_ne (active rest) [] with hrest | hrest
    · cases hi : i.isMain with
      | true =>
        rw [active_cons_main hrest hi, liveFrames_cons]
        cases i with
        | frame f =>
          have hf : f.isMain = true := hi
          simp [Item.instrumented, Frame.instrumented, hf]
        | filter => cases hi
      | false => exact absurd (active_cons_other hrest hi) h
    · rw [active_cons_of_ne hrest, liveFrames_cons]
      exact Nat.le_add_right_of_le (ih hrest)

end

/-- The number of filters that are being evaluated. -/
def liveFilters (items : List Item) : Nat := items.count .filter

/-! ### How the profiler follows the stack -/

/-- The thread is tracked, with the given active part of the stack. -/
structure Busy (mainOnly isPassiveRun : Bool) (items : List Item) (v : View) : Prop where
  balance : v.balance = some (liveFrames mainOnly items : Int)
  filters : v.filters = some (liveFilters items : Int)
  history : ∃ h, v.history = some (some h)
  mapped : isPassiveRun = false → v.mapping ≠ none
  unwinding : unwound items = [] ∨ ∃ f, unwound items = [f] ∧ v.unwinding = some f.functionId

section
variable {items items' : List Item} {f : Frame} {mainOnly passive : Bool} {v : View}

theorem unwound_cons_frame :
    unwound (.frame f :: items) = if f.unwinding then f :: unwound items else unwound items := by
  simp only [unwound, filterMap_cons]
  cases f.unwinding <;> rfl

theorem liveFilters_cons_frame : liveFilters (.frame f :: items) = liveFilters items :=
  count_cons_of_ne (by simp)

theorem liveFilters_cons_filter : liveFilters (.filter :: items) = liveFilters items + 1 :=
  count_cons_self

theorem liveFrames_cons_filter : liveFrames mainOnly (.filter :: items) = liveFrames mainOnly items :=
  liveFrames_cons.trans (Nat.add_zero _)

theorem Busy.setHistory (hbusy : Busy mainOnly passive items v) (h : CoverageHistory) :
    Busy mainOnly passive items { v with history := some (some h) } where
  balance := hbusy.balance
  filters := hbusy.filters
  history := ⟨h, rfl⟩
  mapped := hbusy.mapped
  unwinding := hbusy.unwinding

theorem Busy.setMapping (hbusy : Busy mainOnly passive items v) (id : BitVec 32) :
    Busy mainOnly passive items { v with mapping := some id } where
  balance := hbusy.balance
  filters := hbusy.filters
  history := hbusy.history
  mapped _ := by simp
  unwinding := hbusy.unwinding

theorem liveFrames_cons_counted (hf : f.instrumented mainOnly) :
    liveFrames mainOnly (.frame f :: items) = liveFrames mainOnly items + 1 :=
  liveFrames_cons.trans (congrArg _ (if_pos hf))

theorem liveFrames_cons_uncounted (hf : f.instrumented mainOnly = false) :
    liveFrames mainOnly (.frame f :: items) = liveFrames mainOnly items := by
  rw [liveFrames_cons, if_neg]
  · rfl
  · simp [Item.instrumented, hf]

/-- The balance follows the frames. -/
theorem Busy.setBalance {b : Int} (hbusy : Busy mainOnly passive items v)
    (hbalance : b = liveFrames mainOnly items') (hfilters : liveFilters items' = liveFilters items)
    (hunwound : unwound items' = unwound items) :
    Busy mainOnly passive items' { v with balance := some b } where
  balance := congrArg some hbalance
  filters := by rw [hfilters, ← hbusy.filters]
  history := hbusy.history
  mapped := hbusy.mapped
  unwinding := by
    rw [hunwound]
    exact hbusy.unwinding

theorem Busy.keepBalance (hbusy : Busy mainOnly passive items v)
    (hbalance : liveFrames mainOnly items' = liveFrames mainOnly items)
    (hfilters : liveFilters items' = liveFilters items) (hunwound : unwound items' = unwound items)
    :
    Busy mainOnly passive items' v where
  balance := by rw [hbalance, ← hbusy.balance]
  filters := by rw [hfilters, ← hbusy.filters]
  history := hbusy.history
  mapped := hbusy.mapped
  unwinding := by
    rw [hunwound]
    exact hbusy.unwinding

theorem unwound_cons_running (hf : f.unwinding = false) :
    unwound (.frame f :: items) = unwound items := by
  rw [unwound_cons_frame, hf]
  rfl

theorem Busy.pushCounted (hbusy : Busy mainOnly passive items v) (hf : f.unwinding = false)
    (hcounted : f.instrumented mainOnly) :
    Busy mainOnly passive (.frame f :: items)
      { v with balance := some ((liveFrames mainOnly items : Int) + 1) } :=
  hbusy.setBalance (by rw [liveFrames_cons_counted hcounted]; rfl) liveFilters_cons_frame
    (unwound_cons_running hf)

theorem Busy.pushUncounted (hbusy : Busy mainOnly passive items v) (hf : f.unwinding = false)
    (hcounted : f.instrumented mainOnly = false) : Busy mainOnly passive (.frame f :: items) v :=
  hbusy.keepBalance (liveFrames_cons_uncounted hcounted) liveFilters_cons_frame
    (unwound_cons_running hf)

section
variable (hbusy : Busy mainOnly passive (.frame f :: items) v)

include hbusy

theorem Busy.popCounted (hf : f.unwinding = false) (hcounted : f.instrumented mainOnly) :
    Busy mainOnly passive items
      { v with balance := some ((liveFrames mainOnly (.frame f :: items) : Int) - 1) } :=
  hbusy.setBalance (by rw [liveFrames_cons_counted hcounted]; omega) liveFilters_cons_frame.symm
    (unwound_cons_running hf).symm

theorem Busy.popUncounted (hf : f.unwinding = false) (hcounted : f.instrumented mainOnly = false) :
    Busy mainOnly passive items v :=
  hbusy.keepBalance (liveFrames_cons_uncounted hcounted).symm liveFilters_cons_frame.symm
    (unwound_cons_running hf).symm

/-- A frame starts to be unwound. -/
theorem Busy.unwindFrame (h : unwound (.frame f :: items) = []) :
    Busy mainOnly passive (.frame { f with unwinding := true } :: items)
      { v with unwinding := some f.functionId } where
  balance := hbusy.balance
  filters := hbusy.filters
  history := hbusy.history
  mapped := hbusy.mapped
  unwinding := by
    have hitems : unwound items = [] := by
      rw [unwound_cons_frame] at h
      split at h
      · cases h
      · exact h
    exact .inr ⟨{ f with unwinding := true }, by rw [unwound_cons_frame, hitems]; rfl, rfl⟩

/-- The frame that was being unwound is known by the profiler, and no other frame is unwound. -/
theorem Busy.unwinding_top
    (hf : f.unwinding) : unwound items = [] ∧ v.unwinding = some f.functionId := by
  have hunwinding := hbusy.unwinding
  rw [unwound_cons_frame, if_pos hf] at hunwinding
  rcases hunwinding with hnil | ⟨g, hg, hid⟩
  · cases hnil
  · obtain ⟨rfl, hnil⟩ := List.cons.inj hg
    exact ⟨hnil, hid⟩

/-- The frame is taken for one that is not unwound any more. -/
theorem Busy.unwindDone (hf : f.unwinding) :
    Busy mainOnly passive (.frame { f with unwinding := false } :: items)
      { v with unwinding := none } where
  balance := hbusy.balance
  filters := hbusy.filters
  history := hbusy.history
  mapped := hbusy.mapped
  unwinding := by
    rw [unwound_cons_running rfl]
    exact .inl (hbusy.unwinding_top hf).1

end

theorem Busy.pushFilter (hbusy : Busy mainOnly passive items v) :
    Busy mainOnly passive (.filter :: items)
      { v with filters := some ((liveFilters items : Int) + 1) } where
  balance := by rw [liveFrames_cons_filter]; exact hbusy.balance
  filters := by rw [liveFilters_cons_filter]; rfl
  history := hbusy.history
  mapped := hbusy.mapped
  unwinding := hbusy.unwinding

theorem Busy.popFilter (hbusy : Busy mainOnly passive (.filter :: items) v) :
    Busy mainOnly passive items { v with filters := some (liveFilters items : Int) } where
  balance := by rw [← liveFrames_cons_filter]; exact hbusy.balance
  filters := rfl
  history := hbusy.history
  mapped := hbusy.mapped
  unwinding := hbusy.unwinding

end

/-- What is known of the thread. -/
structure Follows (p : ProfilerState) (thread : ThreadID) (stack : List Item) : Prop where
  idle : active stack = [] → Idle (p.view thread)
  busy : active stack ≠ [] → Busy p.collectMainOnly p.isPassiveRun (active stack) (p.view thread)

/-- An event that leads from one stack to another. -/
structure Advances (thread : ThreadID) (p : ProfilerState) (stack : List Item) (p' : ProfilerState)
    (stack' : List Item) : Prop where
  updates : ProfilerState.Updates thread p p'
  follows : Follows p' thread stack'
  finished : p'.coverageTracker.serializedCoverage.length =
    p.coverageTracker.serializedCoverage.length +
      if active stack ≠ [] ∧ active stack' = [] then 1 else 0

section
open ProfilerState

variable {thread : ThreadID} {p p' : ProfilerState} {stack stack' : List Item}

theorem Advances.quiet_busy (hq : Quiet thread p p') (hne : active stack' ≠ [])
    (hbusy : Busy p.collectMainOnly p.isPassiveRun (active stack') (p'.view thread)) :
    Advances thread p stack p' stack' where
  updates := hq.toUpdates
  follows := by
    refine ⟨fun h => absurd h hne, fun _ => ?_⟩
    rw [hq.collectMainOnly, hq.isPassiveRun]
    exact hbusy
  finished := by
    rw [hq.serializedCoverage, if_neg (fun h => hne h.2), Nat.add_zero]

theorem Advances.quiet_idle (hq : Quiet thread p p') (h : active stack = [])
    (h' : active stack' = []) (hidle : Idle (p'.view thread)) :
    Advances thread p stack p' stack' where
  updates := hq.toUpdates
  follows := ⟨fun _ => hidle, fun hne => absurd h' hne⟩
  finished := by
    rw [hq.serializedCoverage, if_neg (fun hne => hne.1 h), Nat.add_zero]

/-- The thread is lost when the active part of the stack becomes empty. -/
theorem Advances.lost (hq : Quiet thread p p') {h : CoverageHistory} (hne : active stack ≠ [])
    (h' : active stack' = []) :
    Advances thread p stack (p'.finishThread thread h) stack' where
  updates := hq.toUpdates.trans updates_finishThread
  follows := by
    refine ⟨fun _ => ⟨?_, ?_, ?_⟩, fun hne' => absurd h' hne'⟩ <;> rw [view_finishThread]
  finished := by
    rw [if_pos ⟨hne, h'⟩, ← hq.serializedCoverage]
    exact length_append

/-! ### One event -/

variable {f : Frame} {rest : List Item} {offset methodId : BitVec 32}

theorem advances_call (top : Option Frame) (hfollows : Follows p thread stack)
    (hf : f.unwinding = false)
    (hregular : Regular p thread stack (.call f.isMain f.functionId offset methodId)) :
    ∃ p', p.handle thread top (.call f.isMain f.functionId offset methodId) = some p' ∧
      Advances thread p stack p' (.frame f :: stack) := by
  rw [handle]
  rcases eq_or_ne (active stack) [] with hactive | hactive
  · have hidle := hfollows.idle hactive
    cases hmain : f.isMain with
    | true =>
      have hstack : active (.frame f :: stack) = [.frame f] := active_cons_main hactive hmain
      refine ⟨_, trackEnterMain_first hidle.balance hidle.filters hidle.history, ?_⟩
      refine .quiet_busy quiet_startThread (by simp [hstack]) ?_
      rw [hstack, view_startThread]
      rw [hmain] at hregular
      refine ⟨?_, rfl, ⟨_, rfl⟩, hregular hactive, .inl ?_⟩
      · simp [liveFrames, Item.instrumented, Frame.instrumented, hmain]
      · rw [unwound_cons_frame, hf]
        rfl
    | false =>
      have hstack : active (.frame f :: stack) = [] := active_cons_other hactive hmain
      refine ⟨p, ?_, .quiet_idle .refl hactive hstack hidle⟩
      cases p.collectMainOnly with
      | true => rfl
      | false => exact whenTracked_of_untracked hidle.balance _
  · have hbusy := hfollows.busy hactive
    have hstack : active (.frame f :: stack) = .frame f :: active stack := active_cons_of_ne hactive
    obtain ⟨h, hh⟩ := hbusy.history
    cases hmain : f.isMain with
    | true =>
      have hcounted : f.instrumented p.collectMainOnly := by simp [Frame.instrumented, hmain]
      refine ⟨_, trackEnterMain_recursive hbusy.balance, ?_⟩
      refine .quiet_busy quiet_setBalance (by simp [hstack]) ?_
      rw [hstack, view_setBalance]
      exact hbusy.pushCounted hf hcounted
    | false =>
      cases hmode : p.collectMainOnly with
      | true =>
        have hcounted : f.instrumented p.collectMainOnly = false := by
          simp [Frame.instrumented, hmain, hmode]
        refine ⟨p, rfl, .quiet_busy .refl (by simp [hstack]) ?_⟩
        rw [hstack]
        exact hbusy.pushUncounted hf hcounted
      | false =>
        have hcounted : f.instrumented p.collectMainOnly := by simp [Frame.instrumented, hmode]
        refine ⟨_, trackEnter_eq hmode hbusy.balance hh, ?_⟩
        refine .quiet_busy (quiet_setHistory.trans quiet_setBalance) (by simp [hstack]) ?_
        rw [hstack, view_setBalance, view_setHistory]
        exact (hbusy.setHistory _).pushCounted hf hcounted

theorem advances_visit (top : Option Frame) (hfollows : Follows p thread stack) (v : Visit) :
    ∃ p', p.handle thread top (.visit v offset methodId) = some p' ∧
      Advances thread p stack p' stack := by
  rw [handle, visit_eq]
  rcases eq_or_ne (active stack) [] with hactive | hactive
  · have hidle := hfollows.idle hactive
    exact ⟨p, whenTracked_of_untracked hidle.balance _, .quiet_idle .refl hactive hactive hidle⟩
  · have hbusy := hfollows.busy hactive
    obtain ⟨h, hh⟩ := hbusy.history
    refine ⟨_, trackEvent_eq hbusy.balance hh _, .quiet_busy quiet_setHistory hactive ?_⟩
    rw [view_setHistory]
    exact hbusy.setHistory _

theorem two_le_liveFrames {mainOnly : Bool} (hcounted : f.instrumented mainOnly)
    (hrest : active rest ≠ []) : 2 ≤ (liveFrames mainOnly (.frame f :: active rest) : Int) := by
  have hlive : 1 ≤ liveFrames mainOnly (active rest) := one_le_liveFrames hrest
  rw [liveFrames_cons_counted hcounted]
  omega

/-- When the outermost frame of main is popped, the thread is lost. -/
theorem Busy.popLast (hbusy : Busy p.collectMainOnly p.isPassiveRun [.frame f] (p.view thread))
    (hmain : f.isMain) :
    ∃ h, p.popFrame thread = some ((p.setBalance thread 0).finishThread thread h) := by
  obtain ⟨h, hh⟩ := hbusy.history
  have hbalance : (p.view thread).balance = some 1 := by
    rw [hbusy.balance, liveFrames_cons_counted (by simp [Frame.instrumented, hmain])]
    rfl
  exact ⟨h, popFrame_last hbalance hbusy.filters hh hbusy.mapped⟩

section
variable (hfollows : Follows p thread (.frame f :: rest))

include hfollows

theorem advances_ret (hf : f.unwinding = false) :
    ∃ p', p.handleRet thread f offset methodId = some p' ∧
      Advances thread p (.frame f :: rest) p' rest := by
  rw [handleRet]
  rcases eq_or_ne (active rest) [] with hrest | hrest
  · cases hmain : f.isMain with
    | true =>
      have hstack : active (.frame f :: rest) = [.frame f] := active_cons_main hrest hmain
      have hbusy := hfollows.busy (by simp [hstack])
      rw [hstack] at hbusy
      obtain ⟨h, hh⟩ := hbusy.history
      have hbusy' := hbusy.setHistory (h.addCoverage offset .leaveMain methodId thread)
      rw [← view_setHistory] at hbusy'
      obtain ⟨h', hpop⟩ := Busy.popLast (p := p.setHistory thread _) hbusy' hmain
      refine ⟨_, (trackLeaveMain_eq hbusy.balance hh).trans hpop, ?_⟩
      exact .lost (quiet_setHistory.trans quiet_setBalance) (by simp [hstack]) hrest
    | false =>
      have hstack : active (.frame f :: rest) = [] := active_cons_other hrest hmain
      have hidle := hfollows.idle hstack
      refine ⟨p, ?_, .quiet_idle .refl hstack hrest hidle⟩
      cases p.collectMainOnly with
      | true => rfl
      | false => exact whenTracked_of_untracked hidle.balance _
  · have hstack : active (.frame f :: rest) = .frame f :: active rest := active_cons_of_ne hrest
    have hbusy := hfollows.busy (by simp [hstack])
    rw [hstack] at hbusy
    obtain ⟨h, hh⟩ := hbusy.history
    cases hmain : f.isMain with
    | true =>
      have hcounted : f.instrumented p.collectMainOnly := by simp [Frame.instrumented, hmain]
      refine ⟨_, (trackLeaveMain_eq hbusy.balance hh).trans
        (popFrame_nested (by rw [view_setHistory]; exact hbusy.balance)
          (two_le_liveFrames hcounted hrest)), ?_⟩
      refine .quiet_busy (quiet_setHistory.trans quiet_setBalance) hrest ?_
      rw [view_setBalance, view_setHistory]
      exact (hbusy.setHistory _).popCounted hf hcounted
    | false =>
      cases hmode : p.collectMainOnly with
      | true =>
        have hcounted : f.instrumented p.collectMainOnly = false := by
          simp [Frame.instrumented, hmain, hmode]
        exact ⟨p, rfl, .quiet_busy .refl hrest (hbusy.popUncounted hf hcounted)⟩
      | false =>
        have hcounted : f.instrumented p.collectMainOnly := by simp [Frame.instrumented, hmode]
        have htwo := two_le_liveFrames hcounted hrest
        refine ⟨_, trackLeave_eq hmode hbusy.balance (by omega) hh, ?_⟩
        refine .quiet_busy (quiet_setHistory.trans quiet_setBalance) hrest ?_
        rw [view_setBalance, view_setHistory]
        exact (hbusy.setHistory _).popCounted hf hcounted

theorem advances_tailcall (hf : f.unwinding = false)
    (hregular : active (.frame f :: rest) ≠ [] → active rest ≠ []) :
    ∃ p', p.handle thread (some f) (.tailcall offset methodId) = some p' ∧
      Advances thread p (.frame f :: rest) p' rest := by
  change ∃ p', (if f.instrumented p.collectMainOnly then p.trackTailcall thread offset methodId
    else pure p) = some p' ∧ _
  rcases eq_or_ne (active rest) [] with hrest | hrest
  · have hstack : active (.frame f :: rest) = [] := by
      by_contra hne
      exact hregular hne hrest
    have hidle := hfollows.idle hstack
    refine ⟨p, ?_, .quiet_idle .refl hstack hrest hidle⟩
    split
    · exact whenTracked_of_untracked hidle.balance _
    · rfl
  · have hstack : active (.frame f :: rest) = .frame f :: active rest := active_cons_of_ne hrest
    have hbusy := hfollows.busy (by simp [hstack])
    rw [hstack] at hbusy
    obtain ⟨h, hh⟩ := hbusy.history
    split
    case isTrue hcounted =>
      have htwo := two_le_liveFrames hcounted hrest
      refine ⟨_, trackTailcall_eq hbusy.balance (by omega) hh, ?_⟩
      refine .quiet_busy (quiet_setBalance.trans quiet_setHistory) hrest ?_
      rw [view_setHistory, view_setBalance]
      exact (hbusy.popCounted hf hcounted).setHistory _
    case isFalse hcounted =>
      rw [Bool.not_eq_true] at hcounted
      exact ⟨p, rfl, .quiet_busy .refl hrest (hbusy.popUncounted hf hcounted)⟩

theorem advances_unwindEnter (hknown : f.Known p.collectMainOnly p.mainFunctionId)
    (hregular : unwound (active (.frame f :: rest)) = []) :
    ∃ p', p.exceptionUnwindFunctionEnter thread f.functionId = some p' ∧
      Advances thread p (.frame f :: rest) p' (.frame { f with unwinding := true } :: rest) := by
  have hnil : active (.frame { f with unwinding := true } :: rest) = [] ↔
      active (.frame f :: rest) = [] := by
    rw [active_cons_eq_nil, active_cons_eq_nil]
    rfl
  rcases eq_or_ne (active (.frame f :: rest)) [] with hactive | hactive
  · have hidle := hfollows.idle hactive
    exact ⟨p, whenTracked_of_untracked hidle.balance _,
      .quiet_idle .refl hactive (hnil.mpr hactive) hidle⟩
  · have hbusy := hfollows.busy hactive
    have hne := mt hnil.mp hactive
    rw [active_cons_eq hactive] at hbusy hregular
    refine ⟨_, exceptionUnwindFunctionEnter_eq hbusy.balance hknown.1, ?_⟩
    refine .quiet_busy quiet_setUnwinding hne ?_
    rw [active_cons_eq hne, view_setUnwinding]
    exact hbusy.unwindFrame hregular

end

theorem Frame.Known.counted (hknown : f.Known p.collectMainOnly p.mainFunctionId)
    (hcounted : f.instrumented p.collectMainOnly) :
    ¬ (p.collectMainOnly ∧ p.mainFunctionId ≠ f.functionId) := by
  rintro ⟨hmode, hne⟩
  have hmain : f.isMain = true := by simpa [Frame.instrumented, hmode] using hcounted
  exact hne ((hknown.2 hmode).mp hmain).symm

theorem Frame.Known.uncounted (hknown : f.Known p.collectMainOnly p.mainFunctionId)
    (hcounted : f.instrumented p.collectMainOnly = false) :
    p.collectMainOnly ∧ p.mainFunctionId ≠ f.functionId := by
  simp only [Frame.instrumented, Bool.or_eq_false_iff, Bool.not_eq_false'] at hcounted
  refine ⟨hcounted.2, fun heq => ?_⟩
  have hmain := (hknown.2 hcounted.2).mpr heq.symm
  rw [hcounted.1] at hmain
  cases hmain

theorem advances_unwindLeave (hfollows : Follows p thread (.frame f :: rest)) (hf : f.unwinding)
    (hknown : f.Known p.collectMainOnly p.mainFunctionId) :
    ∃ p', p.exceptionUnwindFunctionLeave thread = some p' ∧
      Advances thread p (.frame f :: rest) p' rest := by
  rcases eq_or_ne (active rest) [] with hrest | hrest
  · cases hmain : f.isMain with
    | true =>
      have hstack : active (.frame f :: rest) = [.frame f] := active_cons_main hrest hmain
      have hbusy := hfollows.busy (by simp [hstack])
      rw [hstack] at hbusy
      have hcounted : f.instrumented p.collectMainOnly := by simp [Frame.instrumented, hmain]
      have hbusy' := hbusy.unwindDone hf
      rw [← view_setUnwinding] at hbusy'
      obtain ⟨h, hpop⟩ := Busy.popLast (p := p.setUnwinding thread none) hbusy' hmain
      have hleave := exceptionUnwindFunctionLeave_counted hbusy.balance (by omega) hbusy.filters
        (.inl (Int.le_refl 0)) (hbusy.unwinding_top hf).2 (hknown.counted hcounted)
      exact ⟨_, hleave.trans hpop,
        .lost (quiet_setUnwinding.trans quiet_setBalance) (by simp [hstack]) hrest⟩
    | false =>
      have hstack : active (.frame f :: rest) = [] := active_cons_other hrest hmain
      have hidle := hfollows.idle hstack
      exact ⟨p, whenTracked_of_untracked hidle.balance _, .quiet_idle .refl hstack hrest hidle⟩
  · have hstack : active (.frame f :: rest) = .frame f :: active rest := active_cons_of_ne hrest
    have hbusy := hfollows.busy (by simp [hstack])
    rw [hstack] at hbusy
    have hunwinding := (hbusy.unwinding_top hf).2
    have hbusy' := hbusy.unwindDone hf
    cases hcounted : f.instrumented p.collectMainOnly with
    | true =>
      have htwo := two_le_liveFrames hcounted hrest
      have hpop := popFrame_nested (p := p.setUnwinding thread none)
        (by rw [view_setUnwinding]; exact hbusy.balance) htwo
      have hleave := exceptionUnwindFunctionLeave_counted hbusy.balance (by omega) hbusy.filters
        (.inr htwo) hunwinding (hknown.counted hcounted)
      refine ⟨_, hleave.trans hpop, ?_⟩
      refine .quiet_busy (quiet_setUnwinding.trans quiet_setBalance) hrest ?_
      rw [view_setBalance, view_setUnwinding]
      exact hbusy'.popCounted rfl hcounted
    | false =>
      refine ⟨_, exceptionUnwindFunctionLeave_other hbusy.balance hunwinding
        (hknown.uncounted hcounted), ?_⟩
      refine .quiet_busy quiet_setUnwinding hrest ?_
      rw [view_setUnwinding]
      exact hbusy'.popUncounted rfl hcounted

theorem advances_filterEnter (hfollows : Follows p thread stack) :
    ∃ p', p.exceptionSearchFilterEnter thread = some p' ∧
      Advances thread p stack p' (.filter :: stack) := by
  rcases eq_or_ne (active stack) [] with hactive | hactive
  · have hidle := hfollows.idle hactive
    exact ⟨p, whenTracked_of_untracked hidle.balance _,
      .quiet_idle .refl hactive (active_cons_other hactive rfl) hidle⟩
  · have hbusy := hfollows.busy hactive
    have hstack : active (.filter :: stack) = .filter :: active stack := active_cons_of_ne hactive
    refine ⟨_, exceptionSearchFilterEnter_eq hbusy.balance hbusy.filters, ?_⟩
    refine .quiet_busy quiet_setFilters (by simp [hstack]) ?_
    rw [hstack, view_setFilters]
    exact hbusy.pushFilter

theorem advances_filterLeave (hfollows : Follows p thread (.filter :: rest)) :
    ∃ p', p.exceptionSearchFilterLeave thread = some p' ∧
      Advances thread p (.filter :: rest) p' rest := by
  rcases eq_or_ne (active rest) [] with hrest | hrest
  · have hstack : active (.filter :: rest) = [] := active_cons_other hrest rfl
    have hidle := hfollows.idle hstack
    exact ⟨p, whenTracked_of_untracked hidle.balance _, .quiet_idle .refl hstack hrest hidle⟩
  · have hstack : active (.filter :: rest) = .filter :: active rest := active_cons_of_ne hrest
    have hbusy := hfollows.busy (by simp [hstack])
    rw [hstack] at hbusy
    have hcount : ((liveFilters (.filter :: active rest) : Nat) : Int) - 1 =
        liveFilters (active rest) := by
      rw [liveFilters_cons_filter]
      omega
    refine ⟨_, exceptionSearchFilterLeave_eq hbusy.balance hbusy.filters, ?_⟩
    refine .quiet_busy quiet_setFilters hrest ?_
    rw [view_setFilters, hcount]
    exact hbusy.popFilter

theorem advances_abort (hfollows : Follows p thread stack) (hregular : active stack = []) :
    ∃ p', p.threadAbortThrown thread = some p' ∧ Advances thread p stack p' stack := by
  have hidle := hfollows.idle hregular
  exact ⟨p, whenTracked_of_untracked hidle.balance _, .quiet_idle .refl hregular hregular hidle⟩

theorem advances_map {mapId : BitVec 32} (hfollows : Follows p thread stack)
    (hregular : (p.view thread).mapping = none) :
    ∃ p', p.setCurrentThreadId thread mapId = some p' ∧ Advances thread p stack p' stack := by
  refine ⟨_, setCurrentThreadId_eq hregular, ?_⟩
  rcases eq_or_ne (active stack) [] with hactive | hactive
  · have hidle := hfollows.idle hactive
    refine .quiet_idle quiet_setMapping hactive hactive ?_
    rw [view_setMapping]
    exact ⟨hidle.balance, hidle.filters, hidle.history⟩
  · refine .quiet_busy quiet_setMapping hactive ?_
    rw [view_setMapping]
    exact (hfollows.busy hactive).setMapping _

end

/-! ### Whole executions -/

section
open ProfilerState

variable {thread : ThreadID} {p₀ p p' : ProfilerState} {x x' : Execution} {e : Event}

/-- What holds all along an execution. -/
structure Invariant (p₀ : ProfilerState) (thread : ThreadID) (p : ProfilerState) (x : Execution) :
    Prop where
  collectMainOnly : p.collectMainOnly = p₀.collectMainOnly
  mainFunctionId : p.mainFunctionId = p₀.mainFunctionId
  known : ∀ f, Item.frame f ∈ x.stack → f.Known p₀.collectMainOnly p₀.mainFunctionId
  follows : Follows p thread x.stack
  finished : p.coverageTracker.serializedCoverage.length =
    p₀.coverageTracker.serializedCoverage.length + x.ended

theorem Invariant.move {stack : List Item} (hinv : Invariant p₀ thread p x)
    (hadvances : Advances thread p x.stack p' stack)
    (hknown : ∀ f, Item.frame f ∈ stack → f.Known p₀.collectMainOnly p₀.mainFunctionId) :
    Invariant p₀ thread p' (x.move stack) where
  collectMainOnly := hadvances.updates.collectMainOnly.trans hinv.collectMainOnly
  mainFunctionId := hadvances.updates.mainFunctionId.trans hinv.mainFunctionId
  known := hknown
  follows := hadvances.follows
  finished := by
    rw [hadvances.finished, hinv.finished, Execution.move, Nat.add_assoc]

/-- An event that leaves the stack as it is. -/
theorem Invariant.stay (hinv : Invariant p₀ thread p x)
    (hadvances : Advances thread p x.stack p' x.stack) : Invariant p₀ thread p' x := by
  have hmove := hinv.move hadvances hinv.known
  have hsame : x.move x.stack = x := by
    rw [Execution.move, if_neg (fun h => h.1 h.2)]
    rfl
  rwa [hsame] at hmove

/-- What the frame on top of the stack is replaced by. -/
theorem Execution.replaceTop_eq_some {items : Frame → Option (List Item)}
    (h : x.replaceTop items = some x') :
    ∃ f rest new, x.stack = .frame f :: rest ∧ items f = some new ∧ x' = x.move (new ++ rest) := by
  rw [replaceTop] at h
  split at h
  case h_1 f rest hstack =>
    obtain ⟨new, hnew, hx⟩ := Option.bind_eq_some_iff.mp h
    exact ⟨f, rest, new, hstack, hnew, (Option.some.inj hx).symm⟩
  case h_2 => cases h

section
variable (hinv : Invariant p₀ thread p x) {f : Frame} {rest : List Item}

include hinv

/-- The frame on top of the stack is known, and follows it. -/
theorem Invariant.top (hstack : x.stack = .frame f :: rest) :
    Follows p thread (.frame f :: rest) ∧ f.Known p.collectMainOnly p.mainFunctionId := by
  rw [hinv.collectMainOnly, hinv.mainFunctionId, ← hstack]
  exact ⟨hinv.follows, hinv.known f (by rw [hstack]; exact mem_cons_self)⟩

/-- An event of the frame on top of the stack. -/
theorem Invariant.replaceTop {new : List Item} (hstack : x.stack = .frame f :: rest)
    (hnew : ∀ g, Item.frame g ∈ new → g.Known p.collectMainOnly p.mainFunctionId)
    (hstep : ∃ p', p.handle thread (some f) e = some p' ∧
      Advances thread p (.frame f :: rest) p' (new ++ rest)) :
    ∃ p', p.handle thread x.top e = some p' ∧ Invariant p₀ thread p' (x.move (new ++ rest)) := by
  obtain ⟨p', hhandle, hadvances⟩ := hstep
  rw [← hstack] at hadvances
  refine ⟨p', ?_, hinv.move hadvances fun g hg => ?_⟩
  · rwa [Execution.top, hstack]
  · rcases mem_append.mp hg with hg | hg
    · rw [← hinv.collectMainOnly, ← hinv.mainFunctionId]
      exact hnew g hg
    · exact hinv.known g (by rw [hstack]; exact mem_cons_of_mem _ hg)

/-- One event that meets the condition. -/
theorem Invariant.step (hregular : Regular p thread x.stack e)
    (hnext : x.next p.collectMainOnly p.mainFunctionId e = some x') :
    ∃ p', p.handle thread x.top e = some p' ∧ Invariant p₀ thread p' x' := by
  cases e with
  | call isMain functionId offset methodId =>
    rw [Execution.next] at hnext
    split at hnext
    case isTrue hnew =>
      cases hnext
      obtain ⟨p', hhandle, hadvances⟩ := advances_call (f := ⟨isMain, functionId, false⟩)
        x.top hinv.follows rfl hregular
      refine ⟨p', hhandle, hinv.move hadvances ?_⟩
      intro f hf
      rcases mem_cons.mp hf with heq | hf
      · cases heq
        rwa [hinv.collectMainOnly, hinv.mainFunctionId] at hnew
      · exact hinv.known f hf
    case isFalse => cases hnext
  | visit v offset methodId =>
    obtain ⟨f, rest, new, hstack, hnew, rfl⟩ := Execution.replaceTop_eq_some hnext
    split at hnew
    · cases hnew
      obtain ⟨hfollows, hknown⟩ := hinv.top hstack
      exact hinv.replaceTop hstack (by simpa using hknown) (advances_visit _ hfollows v)
    · cases hnew
  | ret offset methodId =>
    obtain ⟨f, rest, new, hstack, hnew, rfl⟩ := Execution.replaceTop_eq_some hnext
    split at hnew
    · cases hnew
    case isFalse hf =>
      cases hnew
      exact hinv.replaceTop hstack (by simp)
        (advances_ret (hinv.top hstack).1 (Bool.eq_false_of_not_eq_true hf))
  | tailcall offset methodId =>
    obtain ⟨f, rest, new, hstack, hnew, rfl⟩ := Execution.replaceTop_eq_some hnext
    split at hnew
    · cases hnew
    case isFalse hf =>
      cases hnew
      have hregular : active x.stack ≠ [] → active x.stack.tail ≠ [] := hregular
      rw [hstack] at hregular
      exact hinv.replaceTop hstack (by simp)
        (advances_tailcall (hinv.top hstack).1 (Bool.eq_false_of_not_eq_true hf) hregular)
  | unwindEnter =>
    obtain ⟨f, rest, new, hstack, hnew, rfl⟩ := Execution.replaceTop_eq_some hnext
    split at hnew
    · cases hnew
    · cases hnew
      obtain ⟨hfollows, hknown⟩ := hinv.top hstack
      have hregular : unwound (active x.stack) = [] := hregular
      rw [hstack] at hregular
      refine hinv.replaceTop hstack ?_ (advances_unwindEnter hfollows hknown hregular)
      intro g hg
      cases mem_singleton.mp hg
      exact hknown
  | unwindLeave =>
    obtain ⟨f, rest, new, hstack, hnew, rfl⟩ := Execution.replaceTop_eq_some hnext
    split at hnew
    case isTrue hf =>
      cases hnew
      obtain ⟨hfollows, hknown⟩ := hinv.top hstack
      exact hinv.replaceTop hstack (by simp) (advances_unwindLeave hfollows hf hknown)
    · cases hnew
  | filterEnter =>
    cases hnext
    obtain ⟨p', hhandle, hadvances⟩ := advances_filterEnter hinv.follows
    exact ⟨p', hhandle, hinv.move hadvances fun f hf => hinv.known f (by simpa using hf)⟩
  | filterLeave =>
    rw [Execution.next] at hnext
    split at hnext
    case h_1 rest hstack =>
      cases hnext
      have hfollows := hinv.follows
      rw [hstack] at hfollows
      obtain ⟨p', hhandle, hadvances⟩ := advances_filterLeave hfollows
      rw [← hstack] at hadvances
      refine ⟨p', hhandle, hinv.move hadvances fun f hf => hinv.known f ?_⟩
      rw [hstack]
      exact mem_cons_of_mem _ hf
    case h_2 => cases hnext
  | abort =>
    cases hnext
    obtain ⟨p', hhandle, hadvances⟩ := advances_abort hinv.follows hregular
    exact ⟨p', hhandle, hinv.stay hadvances⟩
  | map mapId =>
    cases hnext
    obtain ⟨p', hhandle, hadvances⟩ := advances_map hinv.follows hregular
    exact ⟨p', hhandle, hinv.stay hadvances⟩

theorem Invariant.run {events : List Event} (hregular : RegularRun thread p x events)
    (hrun : x.run p.collectMainOnly p.mainFunctionId events = some x') :
    ∃ p', follow thread p x events = some p' ∧ Invariant p₀ thread p' x' := by
  induction events generalizing p x with
  | nil =>
    cases hrun
    exact ⟨p, rfl, hinv⟩
  | cons e events ih =>
    obtain ⟨x₁, hnext, hrun⟩ := Option.bind_eq_some_iff.mp hrun
    obtain ⟨hfirst, hothers⟩ := hregular
    obtain ⟨p₁, hhandle, hinv₁⟩ := hinv.step hfirst hnext
    rw [hnext, hhandle] at hothers
    have hmode : p.collectMainOnly = p₁.collectMainOnly :=
      hinv.collectMainOnly.trans hinv₁.collectMainOnly.symm
    have hmain : p.mainFunctionId = p₁.mainFunctionId :=
      hinv.mainFunctionId.trans hinv₁.mainFunctionId.symm
    rw [hmode, hmain] at hrun
    obtain ⟨p', hfollow, hinv'⟩ := ih hinv₁ hothers hrun
    refine ⟨p', ?_, hinv'⟩
    rw [follow, hnext, hhandle]
    exact hfollow

theorem Invariant.balanced : Balanced p₀ thread p x where
  untracked h := (hinv.follows.idle h).balance
  balance h := by
    rw [← hinv.collectMainOnly]
    exact (hinv.follows.busy h).balance
  history h := (hinv.follows.busy h).history
  finished := hinv.finished

end

/-- In an execution whose events all meet the condition no assertion fails, no missing history is
used, and the thread is balanced. -/
theorem follow_balanced {events : List Event} (hidle : Idle (p₀.view thread))
    (hrun : Execution.start.run p₀.collectMainOnly p₀.mainFunctionId events = some x)
    (hregular : RegularRun thread p₀ .start events) :
    ∃ p, follow thread p₀ .start events = some p ∧ Balanced p₀ thread p x := by
  have hinv : Invariant p₀ thread p₀ .start :=
    ⟨rfl, rfl, fun _ hf => absurd hf not_mem_nil, ⟨fun _ => hidle, fun h => absurd rfl h⟩, rfl⟩
  obtain ⟨p, hfollow, hinv'⟩ := hinv.run hregular hrun
  exact ⟨p, hfollow, hinv'.balanced⟩

/-- A profiler that has seen nothing, for a main with the function id 1. -/
def freshProfiler : ProfilerState := ⟨.empty, .empty, false, true, 1⟩

/-- A recursive main whose inner frame is unwound. -/
def recursiveRun : List Event :=
  [.map 7, .call true 1 0 0, .call true 1 0 0, .unwindEnter, .unwindLeave, .ret 0 0]

theorem recursiveRun_balanced :
    ∃ p, follow 5 freshProfiler .start recursiveRun = some p ∧ Balanced freshProfiler 5 p ⟨[], 1⟩ :=
  follow_balanced ⟨rfl, rfl, rfl⟩ (by decide)
    ⟨by decide, by decide, by decide, by decide, trivial, trivial, trivial⟩

/-- The invocation is aborted. -/
def abortedRun : List Event := [.map 7, .call true 1 0 0, .abort]

/-- The outermost frame of main ends by a tail call. -/
def tailcallRun : List Event := [.map 7, .call true 1 0 0, .tailcall 0 0]

/-- A finally block of main, which is being unwound, calls a method that is unwound. -/
def nestedUnwindRun : List Event :=
  [.map 7, .call true 1 0 0, .unwindEnter, .call false 2 0 0, .unwindEnter, .unwindLeave,
    .unwindLeave]

theorem not_balanced :
    (∃ x, Execution.start.run true 1 abortedRun = some x ∧
      ¬ ∃ p, follow 5 freshProfiler .start abortedRun = some p ∧ Balanced freshProfiler 5 p x) ∧
    (∃ x, Execution.start.run true 1 tailcallRun = some x ∧
      ¬ ∃ p, follow 5 freshProfiler .start tailcallRun = some p ∧ Balanced freshProfiler 5 p x) ∧
    ∃ x, Execution.start.run true 1 nestedUnwindRun = some x ∧
      ¬ ∃ p, follow 5 freshProfiler .start nestedUnwindRun = some p ∧
        Balanced freshProfiler 5 p x := by
  have haborted : (follow 5 freshProfiler .start abortedRun).isNone := by decide
  have htailcall : (follow 5 freshProfiler .start tailcallRun).map
      (·.coverageTracker.serializedCoverage.length) = some 0 := by decide
  have hnested : (follow 5 freshProfiler .start nestedUnwindRun).isNone := by decide
  refine ⟨⟨_, rfl, ?_⟩, ⟨_, rfl, ?_⟩, ⟨_, rfl, ?_⟩⟩
  · rintro ⟨p, hfollow, -⟩
    rw [hfollow] at haborted
    cases haborted
  · rintro ⟨p, hfollow, hbalanced⟩
    rw [hfollow] at htailcall
    have hfinished := hbalanced.finished.symm.trans (Option.some.inj htailcall)
    cases hfinished
  · rintro ⟨p, hfollow, -⟩
    rw [hfollow] at hnested
    cases hnested

end

end VSharp.CoverageInstrumenter
