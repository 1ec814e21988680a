import Mathlib.Data.Int.Notation
import Mathlib.Data.Nat.Notation
import VSharp.Library.Systems

/-!
# Fuzzer — Interaction

The master of the fuzzer.  It has one fuzzer process, to which it sends one method after another,
and the loop of `StartFuzzing` polls the state of that process and counts what came out.  Everything
the loop awaits is a phase of its own, so that a notification of the fuzzer may come at any moment.

- `FuzzingProcess`: the state of the process, and the flag that a notification sets.
- `Interactor`: the queue and the two counters.
- `Master`: an interactor with the place its loop is at.  `requested`, `notified` and `counted` are
  not in the source: they record the methods sent, the methods whose notification was received, and
  for each count the method it was made after, with whether it was a success.  Methods go by the
  number of their request, from one.
-/

namespace VSharp.Fuzzer
open Library

/-- The exceptions that `handleFuzzingProcessState` tells apart. -/
inductive Exn where
  | taskCanceled
  | rpc
  | httpRequest
  | other
  deriving DecidableEq, Repr

/-- The exceptions of a remote call that did not get through. -/
def Exn.isCommunication : Exn → Bool
  | rpc | httpRequest => true
  | taskCanceled | other => false

inductive FuzzingProcessState where
  | successfullyFuzzedMethod
  | successfullyFuzzedMethodWithException (info : Option (ℤ × String))
  | unexpectedExit
  | fuzzingInProcess
  | timeoutReached
  | unhandledException (e : Exn)
  | notStarted
  | started
  | restartingInProcess
  | restarted
  deriving DecidableEq, Repr

structure FuzzingProcess where
  state : FuzzingProcessState
  newSuccessfullyFuzzedNotificationReceived : Bool
  deriving DecidableEq, Repr

namespace FuzzingProcess

def markException (p : FuzzingProcess) (e : Exn) : FuzzingProcess :=
  { p with state := .unhandledException e }

/-- `updateState` on what the active pattern says.  A notification goes before all else, and is
taken. -/
def updateState (p : FuzzingProcess) (fuzzerAlive timeoutReached : Bool) : FuzzingProcess :=
  if p.newSuccessfullyFuzzedNotificationReceived then
    ⟨.successfullyFuzzedMethod, false⟩
  else if !fuzzerAlive then
    { p with state := .unexpectedExit }
  else if timeoutReached then
    { p with state := .timeoutReached }
  else
    p

/-- The notification does not say which method was fuzzed. -/
def notifyMethodFuzzingFinished (p : FuzzingProcess) : FuzzingProcess :=
  { p with newSuccessfullyFuzzedNotificationReceived := true }

end FuzzingProcess

structure Interactor (M : Type) where
  queued : List M
  methodsCount : ℕ
  fuzzingProcess : FuzzingProcess
  successfullyFuzzed : ℕ
  failedFuzzed : ℕ
  isCancellationRequested : Bool
  deriving DecidableEq, Repr

/-- Where the loop of `StartFuzzing` is. -/
inductive Phase where
  /-- The condition of the loop is next. -/
  | loop
  /-- In `Poll`, before `handleState`. -/
  | polling
  /-- `Start` is awaited, called on the first state. -/
  | starting
  /-- The request of `FuzzMethod` is awaited. -/
  | sending
  /-- `Start` is awaited, called by `RestartFuzzing`. -/
  | restarting
  /-- The condition of the loop held. -/
  | ended
  /-- An exception left the loop. -/
  | raised
  deriving DecidableEq, Repr

structure Master (M : Type) where
  interactor : Interactor M
  phase : Phase
  requested : List M
  notified : List ℕ
  counted : List (ℕ × Bool)
  deriving DecidableEq, Repr

namespace Interactor
variable {M : Type}

def isFuzzingFinished (i : Interactor M) : Bool :=
  i.successfullyFuzzed + i.failedFuzzed == i.methodsCount || i.isCancellationRequested

def setProcess (i : Interactor M) (p : FuzzingProcess) : Interactor M :=
  { i with fuzzingProcess := p }

def setState (i : Interactor M) (state : FuzzingProcessState) : Interactor M :=
  i.setProcess { i.fuzzingProcess with state := state }

end Interactor

namespace Master
variable {M : Type}

/-- The number of the last method that was sent. -/
def current (s : Master M) : ℕ := s.requested.length

def state (s : Master M) : FuzzingProcessState := s.interactor.fuzzingProcess.state

def setState (s : Master M) (state : FuzzingProcessState) : Master M :=
  { s with interactor := s.interactor.setState state }

def mapProcess (s : Master M) (f : FuzzingProcess → FuzzingProcess) : Master M :=
  { s with interactor := s.interactor.setProcess (f s.interactor.fuzzingProcess) }

def goto (s : Master M) (phase : Phase) : Master M := { s with phase := phase }

def countSuccess (s : Master M) : Master M :=
  { s with
    interactor :=
      { s.interactor with successfullyFuzzed := s.interactor.successfullyFuzzed + 1 }
    counted := s.counted ++ [(s.current, true)] }

def countFailure (s : Master M) : Master M :=
  { s with
    interactor := { s.interactor with failedFuzzed := s.interactor.failedFuzzed + 1 }
    counted := s.counted ++ [(s.current, false)] }

/-- `FuzzMethod`, up to the answer of the fuzzer. -/
def fuzzMethod (s : Master M) (method : M) : Master M :=
  { s.setState .fuzzingInProcess with
    phase := .sending
    requested := s.requested ++ [method] }

def fuzzNextMethod (s : Master M) : Master M :=
  match s.interactor.queued with
  | [] => s.goto .loop
  | method :: queued =>
    { s with interactor := { s.interactor with queued := queued } }.fuzzMethod method

/-- `RestartFuzzing`, up to the end of `Start`. -/
def restartFuzzing (s : Master M) : Master M :=
  (s.setState .restartingInProcess).goto .restarting

def onFailed (s : Master M) : Master M :=
  match s.interactor.queued with
  | [] => s.countFailure.goto .loop
  | _ :: _ => s.countFailure.restartFuzzing

/-- Assertions are left out, as they are where they are not compiled. -/
def handleFuzzingProcessState (s : Master M) : FuzzingProcessState → Master M
  | .successfullyFuzzedMethod => s.countSuccess.fuzzNextMethod
  | .successfullyFuzzedMethodWithException (some _) => s.countSuccess.goto .loop
  | .unexpectedExit => s.onFailed
  | .successfullyFuzzedMethodWithException none => s.onFailed
  | .timeoutReached => s.onFailed
  | .notStarted => s.goto .starting
  | .fuzzingInProcess => s.goto .loop
  | .started => s.fuzzNextMethod
  | .restarted => s.fuzzNextMethod
  | .restartingInProcess => s.goto .raised
  | .unhandledException e =>
    if e = .taskCanceled then s.goto .loop
    else if e.isCommunication then s.onFailed
    else s.goto .raised

end Master

/-- What may happen next: a step of the loop, an awaited call that ends, a notification, or the
cancellation, which kills the process; `Kill` may raise an exception. -/
inductive FuzzingEvent where
  | check
  | updateState (fuzzerAlive timeoutReached : Bool)
  | handleState
  | completed
  | failed (e : Exn)
  | notifyFinished (n : ℕ)
  | cancel (raised : Option Exn)
  deriving DecidableEq, Repr

namespace Master
variable {M : Type}

/-- The awaited call ends as it should. -/
def complete (s : Master M) : Option (Master M) :=
  match s.phase with
  | .starting => some ((s.setState .started).goto .loop)
  | .sending => some (s.goto .loop)
  | .restarting => some (((s.setState .started).setState .restarted).goto .loop)
  | _ => none

/-- The awaited call raises an exception.  The first `Start` is not under a `try`. -/
def fail (s : Master M) (e : Exn) : Option (Master M) :=
  match s.phase with
  | .starting => some (s.goto .raised)
  | .sending => some ((s.mapProcess (·.markException e)).goto .loop)
  | .restarting => some ((s.mapProcess (·.markException e)).goto .loop)
  | .polling =>
    if s.state = .fuzzingInProcess then some (s.mapProcess (·.markException e)) else none
  | _ => none

/-- The fuzzer tells each method it was sent at most once. -/
def notify (s : Master M) (n : ℕ) : Option (Master M) :=
  if 0 < n ∧ n ≤ s.current ∧ n ∉ s.notified then
    some { s.mapProcess (·.notifyMethodFuzzingFinished) with notified := s.notified ++ [n] }
  else
    none

def step (s : Master M) : FuzzingEvent → Option (Master M)
  | .check =>
    if s.phase = .loop then
      some (if s.interactor.isFuzzingFinished then s.goto .ended else s.goto .polling)
    else none
  | .updateState fuzzerAlive timeoutReached =>
    if s.phase = .polling ∧ s.state = .fuzzingInProcess then
      some (s.mapProcess (·.updateState fuzzerAlive timeoutReached))
    else none
  | .handleState =>
    if s.phase = .polling ∧ s.state ≠ .fuzzingInProcess then
      some (s.handleFuzzingProcessState s.state)
    else none
  | .completed => s.complete
  | .failed e => s.fail e
  | .notifyFinished n => s.notify n
  | .cancel raised =>
    let s := { s with interactor := { s.interactor with isCancellationRequested := true } }
    some (raised.elim s fun e => s.mapProcess (·.markException e))

end Master

/-- `StartFuzzing` on the methods. -/
def fuzzing {M : Type} (methods : List M) : System (Master M) FuzzingEvent where
  start :=
    { interactor :=
        { queued := methods
          methodsCount := methods.length
          fuzzingProcess := ⟨.notStarted, false⟩
          successfullyFuzzed := 0
          failedFuzzed := 0
          isCancellationRequested := false }
      phase := .loop
      requested := []
      notified := []
      counted := [] }
  step := Master.step

end VSharp.Fuzzer
