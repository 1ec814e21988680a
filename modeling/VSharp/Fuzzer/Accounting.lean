import Mathlib.Data.List.Count
import Mathlib.Data.List.Range
import VSharp.Fuzzer.Interaction

/-!
# Fuzzer — Accounting

How the master counts its methods.  A notification says nothing of its method, so one that comes
when its own method is no longer in process is taken for the next method; and a restart that fails
is counted as one more failed method.  In the runs where neither happens each method is counted
once, after it was sent, and as a success only if its own notification was received
(`accounted_once`).

- `Books`: queue, requests and counts agree, whatever the loop is at.
- `InTurn` and `Place`: whether the last method that was sent is still to be counted.
-/

namespace VSharp.Fuzzer
open Library List Option

variable {M : Type} {methods : List M} {s s' : Master M}

/-! ### What is asked -/

/-- When the loop has ended, each method was sent, and counted once; a method is a success only
after its notification. -/
structure AccountedOnce (methods : List M) (s : Master M) : Prop where
  requested : s.phase = .ended → s.requested = methods
  total : s.phase = .ended →
    s.interactor.successfullyFuzzed + s.interactor.failedFuzzed = methods.length
  successes : s.interactor.successfullyFuzzed = s.counted.countP (·.2)
  failures : s.interactor.failedFuzzed = s.counted.countP (!·.2)
  once : s.phase = .ended → ∀ n,
    (s.counted.map Prod.fst).count n = if 0 < n ∧ n ≤ methods.length then 1 else 0
  notified : ∀ n, (n, true) ∈ s.counted → n ∈ s.notified

/-- All but the cancellation. -/
def Uncancelled (_ : Master M) (e : FuzzingEvent) : Prop := ∀ raised, e ≠ .cancel raised

/-- The states in which the next method is sent. -/
def FuzzingProcessState.isReady : FuzzingProcessState → Bool
  | .successfullyFuzzedMethod | .started | .restarted => true
  | _ => false

/-- No restart fails in its communication; no method is sent while a notification is pending; and
while a method is in process, no notification of another comes before its own. -/
def Orderly (s : Master M) : FuzzingEvent → Prop
  | .cancel _ => False
  | .failed e => s.phase = .restarting → e.isCommunication = false
  | .handleState => s.state.isReady = true → s.interactor.queued ≠ [] →
      s.interactor.fuzzingProcess.newSuccessfullyFuzzedNotificationReceived = false
  | .notifyFinished n =>
    s.state = .fuzzingInProcess → n = s.current ∨ s.current ∈ s.notified
  | .check | .updateState _ _ | .completed => True

instance (s : Master M) : DecidablePred (Uncancelled s) :=
  fun e => decidable_of_iff (!e matches .cancel _) (by cases e <;> simp [Uncancelled])

instance (s : Master M) : DecidablePred (Orderly s)
  | .cancel _ => inferInstanceAs (Decidable False)
  | .failed _ | .handleState | .notifyFinished _ => inferInstanceAs (Decidable (_ → _))
  | .check | .updateState _ _ | .completed => inferInstanceAs (Decidable True)

/-! ### Books -/

/-- What the queue, the requests and the counts have to do with each other. -/
structure Books (methods : List M) (s : Master M) : Prop where
  split : s.requested ++ s.interactor.queued = methods
  count : s.interactor.methodsCount = methods.length
  uncancelled : s.interactor.isCancellationRequested = false
  successes : s.interactor.successfullyFuzzed = s.counted.countP (·.2)
  failures : s.interactor.failedFuzzed = s.counted.countP (!·.2)
  numbered : s.counted.map Prod.fst = List.range' 1 s.counted.length
  own : ∀ n, (n, true) ∈ s.counted → n ∈ s.notified

namespace Books

section
variable (h : Books methods s)

include h

theorem goto (phase : Phase) : Books methods (s.goto phase) :=
  { h with }

theorem mapProcess (f : FuzzingProcess → FuzzingProcess) :
    Books methods (s.mapProcess f) :=
  { h with }

theorem setState (state : FuzzingProcessState) :
    Books methods (s.setState state) :=
  { h with }

section
variable (hlast : s.counted.length + 1 = s.current)

include hlast

theorem numbered_concat (success : Bool) :
    (s.counted ++ [(s.current, success)]).map Prod.fst =
      List.range' 1 (s.counted ++ [(s.current, success)]).length := by
  rw [map_append, h.numbered, length_append, length_singleton,
    range'_1_concat, ← hlast, Nat.add_comm 1]
  rfl

theorem countSuccess (hnotified : s.current ∈ s.notified) : Books methods s.countSuccess where
  split := h.split
  count := h.count
  uncancelled := h.uncancelled
  successes := by simp [Master.countSuccess, h.successes]
  failures := by simp [Master.countSuccess, h.failures]
  numbered := h.numbered_concat hlast true
  own n hn := by
    rcases mem_append.mp hn with hn | hn
    · exact h.own n hn
    · obtain rfl : n = s.current := congrArg Prod.fst (mem_singleton.mp hn)
      exact hnotified

theorem countFailure :
    Books methods s.countFailure where
  split := h.split
  count := h.count
  uncancelled := h.uncancelled
  successes := by simp [Master.countFailure, h.successes]
  failures := by simp [Master.countFailure, h.failures]
  numbered := h.numbered_concat hlast false
  own n hn := by
    rcases mem_append.mp hn with hn | hn
    · exact h.own n hn
    · exact absurd (congrArg Prod.snd (mem_singleton.mp hn)) (by simp)

end

theorem dequeue {method : M} {queued : List M}
    (hqueued : s.interactor.queued = method :: queued) :
    Books methods ({ s with interactor := { s.interactor with queued := queued } }.fuzzMethod
      method) :=
  { h with
    split := by
      rw [← h.split, hqueued]
      exact append_assoc _ _ _ }

theorem notify (n : ℕ) :
    Books methods
      { s.mapProcess (·.notifyMethodFuzzingFinished) with notified := s.notified ++ [n] } :=
  { h with own := fun n' hn' => mem_append_left _ (h.own n' hn') }

/-- The counters are compared with the number of methods. -/
theorem total :
    s.interactor.successfullyFuzzed + s.interactor.failedFuzzed = s.counted.length := by
  rw [h.successes, h.failures, length_eq_countP_add_countP (·.2)]
  simp only [Bool.not_eq_true, Bool.decide_eq_false]

theorem isFuzzingFinished_iff :
    s.interactor.isFuzzingFinished = true ↔ s.counted.length = methods.length := by
  simp [Interactor.isFuzzingFinished, h.total, h.count, h.uncancelled]

theorem current_add :
    s.current + s.interactor.queued.length = methods.length := by
  rw [← h.split, length_append, Master.current]

end

end Books

/-! ### Places -/

/-- What the state of the process says on whether the last method is counted. -/
def InTurn (s : Master M) : Prop :=
  match s.state with
  | .notStarted | .started | .restarted => s.counted.length = s.current
  | .fuzzingInProcess | .unexpectedExit | .timeoutReached | .successfullyFuzzedMethod =>
    s.counted.length + 1 = s.current
  | .unhandledException e =>
    if e.isCommunication then s.counted.length + 1 = s.current
    else s.counted.length ≤ s.current
  | .successfullyFuzzedMethodWithException _ | .restartingInProcess => False

/-- What the place of the loop says on it.  When no method is left the state stays as it was
handled. -/
def Place (s : Master M) : Prop :=
  match s.phase with
  | .loop => InTurn s ∨ s.interactor.queued = [] ∧ s.counted.length = s.current
  | .polling => InTurn s
  | .starting => s.counted.length = s.current
  | .sending => s.state = .fuzzingInProcess ∧ s.counted.length + 1 = s.current
  | .restarting => s.counted.length = s.current
  | .ended => s.interactor.queued = [] ∧ s.counted.length = s.current
  | .raised => True

/-- What holds after each step of an orderly run. -/
structure Accounting (methods : List M) (s : Master M) : Prop where
  books : Books methods s
  place : Place s
  pending : s.state = .fuzzingInProcess →
    s.interactor.fuzzingProcess.newSuccessfullyFuzzedNotificationReceived = true →
    s.current ∈ s.notified
  success : s.state = .successfullyFuzzedMethod → s.current ∈ s.notified

/-- Only the process has moved, and not to a success. -/
theorem Books.accounting (h : Books methods s) (hplace : Place s)
    (hprocess : s.state ≠ .fuzzingInProcess) (hsuccess : s.state ≠ .successfullyFuzzedMethod) :
    Accounting methods s :=
  ⟨h, hplace, fun hstate => absurd hstate hprocess, fun hstate => absurd hstate hsuccess⟩

theorem InTurn.length_le (h : InTurn s) : s.counted.length ≤ s.current := by
  rw [InTurn] at h
  split at h
  all_goals first | omega | split at h <;> omega | exact h.elim

namespace Accounting

theorem goto_loop (h : Accounting methods s) (hplace : InTurn s) :
    Accounting methods (s.goto .loop) :=
  ⟨h.books.goto _, .inl hplace, h.pending, h.success⟩

/-- A method is sent when the last one is counted and no notification is pending. -/
theorem fuzzNextMethod (h : Books methods s) (hlast : s.counted.length = s.current)
    (hsuccess : s.state = .successfullyFuzzedMethod → s.current ∈ s.notified)
    (hprocess : s.state ≠ .fuzzingInProcess)
    (hpending : s.interactor.queued ≠ [] →
      s.interactor.fuzzingProcess.newSuccessfullyFuzzedNotificationReceived = false) :
    Accounting methods s.fuzzNextMethod := by
  rw [Master.fuzzNextMethod]
  cases hqueued : s.interactor.queued with
  | nil =>
    exact ⟨h.goto .loop, .inr ⟨hqueued, hlast⟩, fun hstate => absurd hstate hprocess, hsuccess⟩
  | cons method queued =>
    have hnone := hpending (by rw [hqueued]; exact cons_ne_nil _ _)
    refine ⟨h.dequeue hqueued, ⟨rfl, ?_⟩, fun _ hflag => ?_, fun hstate => by cases hstate⟩
    · simp only [Master.current, Master.fuzzMethod, Master.setState, length_append,
        length_singleton]
      rw [hlast, Master.current]
    · exact absurd (hnone.symm.trans hflag) Bool.false_ne_true

theorem onFailed (h : Books methods s) (hlast : s.counted.length + 1 = s.current)
    (hsuccess : s.state ≠ .successfullyFuzzedMethod) (hprocess : s.state ≠ .fuzzingInProcess) :
    Accounting methods s.onFailed := by
  have hcounted : s.countFailure.counted.length = s.countFailure.current := by
    rw [Master.countFailure, length_append, length_singleton, hlast]
    rfl
  rw [Master.onFailed]
  cases hqueued : s.interactor.queued with
  | nil =>
    exact ((h.countFailure hlast).goto .loop).accounting (.inr ⟨hqueued, hcounted⟩) hprocess
      hsuccess
  | cons method queued =>
    exact (((h.countFailure hlast).setState _).goto .restarting).accounting hcounted
      (by rw [Ne]; exact nofun) (by rw [Ne]; exact nofun)

section
variable (h : Accounting methods s)

include h

theorem handleState (hplace : InTurn s)
    (hprocess : s.state ≠ .fuzzingInProcess) (horderly : Orderly s .handleState) :
    Accounting methods (s.handleFuzzingProcessState s.state) := by
  have hplace' := hplace
  rw [InTurn] at hplace'
  cases hstate : s.state with
  | successfullyFuzzedMethod =>
    rw [hstate] at hplace'
    refine fuzzNextMethod (h.books.countSuccess hplace' (h.success hstate)) ?_
      (fun _ => h.success hstate) hprocess (horderly (by rw [hstate]; rfl))
    rw [Master.countSuccess, length_append, length_singleton, hplace']
    rfl
  | successfullyFuzzedMethodWithException info =>
    rw [hstate] at hplace'
    exact hplace'.elim
  | unexpectedExit | timeoutReached =>
    rw [hstate] at hplace'
    exact onFailed h.books hplace' (by rw [hstate]; exact nofun) hprocess
  | fuzzingInProcess => exact absurd hstate hprocess
  | notStarted =>
    rw [hstate] at hplace'
    exact (h.books.goto .starting).accounting hplace' hprocess (by
      rw [show (s.goto .starting).state = s.state from rfl, hstate]
      exact nofun)
  | started | restarted =>
    rw [hstate] at hplace'
    exact fuzzNextMethod h.books hplace' h.success hprocess (horderly (by rw [hstate]; rfl))
  | restartingInProcess =>
    rw [hstate] at hplace'
    exact hplace'.elim
  | unhandledException e =>
    rw [hstate] at hplace'
    have hsuccess : s.state ≠ .successfullyFuzzedMethod := by rw [hstate]; exact nofun
    rw [Master.handleFuzzingProcessState]
    split
    case isTrue => exact h.goto_loop hplace
    case isFalse =>
      split
      case isTrue hcommunication =>
        exact onFailed h.books (by simpa [hcommunication] using hplace') hsuccess hprocess
      case isFalse => exact (h.books.goto .raised).accounting trivial hprocess hsuccess

theorem check (hphase : s.phase = .loop) :
    Accounting methods
      (if s.interactor.isFuzzingFinished then s.goto .ended else s.goto .polling) := by
  have hplace := h.place
  rw [Place, hphase] at hplace
  have hcurrent := h.books.current_add
  have hfinished := h.books.isFuzzingFinished_iff
  split
  case isTrue htrue =>
    have hlength := hfinished.mp htrue
    have hle : s.counted.length ≤ s.current :=
      hplace.elim InTurn.length_le fun hdone => hdone.2.le
    have hqueued : s.interactor.queued = [] := length_eq_zero_iff.mp (by omega)
    exact ⟨h.books.goto _, ⟨hqueued, show s.counted.length = s.current by omega⟩, h.pending,
      h.success⟩
  case isFalse hfalse =>
    refine ⟨h.books.goto _, ?_, h.pending, h.success⟩
    rcases hplace with hturn | ⟨hqueued, hlast⟩
    · exact hturn
    · rw [hqueued, length_nil, ← hlast] at hcurrent
      exact absurd (hfinished.mpr hcurrent) hfalse

theorem updateState (hphase : s.phase = .polling)
    (hstate : s.state = .fuzzingInProcess) (fuzzerAlive timeoutReached : Bool) :
    Accounting methods (s.mapProcess (·.updateState fuzzerAlive timeoutReached)) := by
  have hplace := h.place
  rw [Place, hphase] at hplace
  simp only [InTurn, hstate] at hplace
  have hin {p : FuzzingProcess} (hp : p.state = .successfullyFuzzedMethod ∨
      p.state = .unexpectedExit ∨ p.state = .timeoutReached ∨ p.state = .fuzzingInProcess) :
      Place (s.mapProcess fun _ => p) := by
    rw [Place, show (s.mapProcess fun _ => p).phase = .polling from hphase]
    simp only [InTurn, show (s.mapProcess fun _ => p).state = p.state from rfl]
    rcases hp with hp | hp | hp | hp <;> rw [hp] <;> exact hplace
  change Accounting methods
    (s.mapProcess fun _ => s.interactor.fuzzingProcess.updateState fuzzerAlive timeoutReached)
  rw [FuzzingProcess.updateState]
  split
  case isTrue hflag =>
    exact ⟨h.books.mapProcess _, hin (.inl rfl), nofun, fun _ => h.pending hstate hflag⟩
  case isFalse =>
    split
    case isTrue => exact (h.books.mapProcess _).accounting (hin (.inr (.inl rfl))) nofun nofun
    case isFalse =>
      split
      case isTrue =>
        exact (h.books.mapProcess _).accounting (hin (.inr (.inr (.inl rfl)))) nofun nofun
      case isFalse =>
        exact ⟨h.books.mapProcess _, hin (.inr (.inr (.inr hstate))), h.pending, h.success⟩

theorem complete (hstep : s.complete = some s') :
    Accounting methods s' := by
  have hplace := h.place
  rw [Place] at hplace
  rw [Master.complete] at hstep
  split at hstep
  case h_1 hphase =>
    rw [hphase] at hplace
    obtain rfl := some.inj hstep
    exact ((h.books.setState .started).goto .loop).accounting (.inl hplace) nofun nofun
  case h_2 hphase =>
    rw [hphase] at hplace
    obtain rfl := some.inj hstep
    refine h.goto_loop ?_
    rw [InTurn, hplace.1]
    exact hplace.2
  case h_3 hphase =>
    rw [hphase] at hplace
    obtain rfl := some.inj hstep
    exact (((h.books.setState .started).setState .restarted).goto .loop).accounting
      (.inl hplace) nofun nofun
  case h_4 => cases hstep

theorem fail {e : Exn} (horderly : Orderly s (.failed e))
    (hstep : s.fail e = some s') : Accounting methods s' := by
  have hplace := h.place
  rw [Place] at hplace
  have hmark (hlast : s.counted.length + 1 = s.current) (phase : Phase) :
      InTurn ((s.mapProcess (·.markException e)).goto phase) := by
    change if e.isCommunication then _ else _
    split
    case isTrue => exact hlast
    case isFalse => exact (Nat.le_succ _).trans hlast.le
  rw [Master.fail] at hstep
  split at hstep
  case h_1 hphase =>
    obtain rfl := some.inj hstep
    exact ⟨h.books.goto _, trivial, h.pending, h.success⟩
  case h_2 hphase =>
    rw [hphase] at hplace
    obtain rfl := some.inj hstep
    exact ((h.books.mapProcess _).goto .loop).accounting (.inl (hmark hplace.2 .loop)) nofun nofun
  case h_3 hphase =>
    rw [hphase] at hplace
    obtain rfl := some.inj hstep
    refine ((h.books.mapProcess _).goto .loop).accounting (.inl ?_) nofun nofun
    change if e.isCommunication then _ else _
    rw [horderly hphase]
    exact hplace.le
  case h_4 hphase =>
    split at hstep
    case isTrue hstate =>
      obtain rfl := some.inj hstep
      simp only [hphase, InTurn, hstate] at hplace
      refine (h.books.mapProcess _).accounting ?_ nofun nofun
      rw [Place, show (s.mapProcess (·.markException e)).phase = .polling from hphase]
      exact hmark hplace .polling
    case isFalse => cases hstep
  case h_5 => cases hstep

theorem notify {n : ℕ} (horderly : Orderly s (.notifyFinished n))
    (hstep : s.notify n = some s') : Accounting methods s' := by
  rw [Master.notify] at hstep
  split at hstep
  case isTrue =>
    obtain rfl := some.inj hstep
    refine ⟨h.books.notify n, h.place, fun hstate _ => ?_,
      fun hstate => mem_append_left _ (h.success hstate)⟩
    rcases horderly hstate with rfl | hnotified
    · exact mem_append_right _ mem_cons_self
    · exact mem_append_left _ hnotified
  case isFalse => cases hstep

theorem step {e : FuzzingEvent} (horderly : Orderly s e)
    (hstep : s.step e = some s') : Accounting methods s' := by
  have hplace := h.place
  rw [Place] at hplace
  cases e with
  | check =>
    rw [Master.step] at hstep
    split at hstep
    case isTrue hphase => exact some.inj hstep ▸ h.check hphase
    case isFalse => cases hstep
  | updateState fuzzerAlive timeoutReached =>
    rw [Master.step] at hstep
    split at hstep
    case isTrue hphase =>
      exact some.inj hstep ▸ h.updateState hphase.1 hphase.2 fuzzerAlive timeoutReached
    case isFalse => cases hstep
  | handleState =>
    rw [Master.step] at hstep
    split at hstep
    case isTrue hphase =>
      rw [hphase.1] at hplace
      exact some.inj hstep ▸ h.handleState hplace hphase.2 horderly
    case isFalse => cases hstep
  | completed => exact h.complete hstep
  | failed e => exact h.fail horderly hstep
  | notifyFinished n => exact h.notify horderly hstep
  | cancel _ => exact horderly.elim

end

theorem start (methods : List M) : Accounting methods (fuzzing methods).start where
  books := ⟨rfl, rfl, rfl, rfl, rfl, rfl, nofun⟩
  place := .inl rfl
  pending := nofun
  success := nofun

theorem accountedOnce (h : Accounting methods s) : AccountedOnce methods s := by
  have hended (hphase : s.phase = .ended) :
      s.interactor.queued = [] ∧ s.counted.length = methods.length := by
    have hplace := h.place
    rw [Place, hphase] at hplace
    have hcurrent := h.books.current_add
    rw [hplace.1, length_nil, ← hplace.2] at hcurrent
    exact ⟨hplace.1, hcurrent⟩
  refine ⟨fun hphase => ?_, fun hphase => h.books.total.trans (hended hphase).2,
    h.books.successes, h.books.failures, fun hphase n => ?_, h.books.own⟩
  · rw [← h.books.split, (hended hphase).1, append_nil]
  · rw [h.books.numbered, (hended hphase).2, (nodup_range' 1).count]
    exact if_congr (by rw [mem_range'_1]; omega) rfl rfl

end Accounting

/-- In a run without failed restarts and late notifications each method is accounted for once. -/
theorem accounted_once (h : (fuzzing methods).Reaches Orderly s) : AccountedOnce methods s :=
  (h.invariant (P := Accounting methods) (.start methods) fun _ _ _ hs horderly hstep =>
    hs.step horderly hstep).accountedOnce

/-! ### Runs -/

/-- The process is started and the first method is sent. -/
def firstSent : List FuzzingEvent :=
  [.check, .handleState, .completed, .check, .handleState, .completed]

/-- The method in process times out, and the fuzzer is restarted. -/
def timedOut : List FuzzingEvent := [.check, .updateState true true, .handleState]

/-- A method times out, and the next one is fuzzed. -/
def orderlyRun : List FuzzingEvent :=
  firstSent ++ timedOut ++ [.completed, .check, .handleState, .completed, .notifyFinished 2,
    .check, .updateState true false, .handleState, .check]

theorem orderlyRun_accounted : ∃ s : Master ℕ,
    (fuzzing [10, 20]).run Orderly (fuzzing [10, 20]).start orderlyRun = some s ∧
      s.phase = .ended ∧ s.counted = [(1, false), (2, true)] ∧ AccountedOnce [10, 20] s :=
  ⟨_, rfl, rfl, rfl, accounted_once (System.Reaches.start.run
    (show (fuzzing [10, 20]).run Orderly _ orderlyRun = _ from rfl))⟩

/-- The first method is notified after its timeout, and the second is counted for it. -/
def lateNotification : List FuzzingEvent :=
  firstSent ++ timedOut ++ [.notifyFinished 1, .completed, .check, .handleState, .completed,
    .check, .updateState true false, .handleState, .check]

/-- The restart fails, and is counted for the second method, which is not sent. -/
def failedRestart : List FuzzingEvent :=
  firstSent ++ timedOut ++ [.failed .rpc, .check, .handleState, .completed, .check]

/-- Both end: one with a success that was not notified, one with a method that was not sent. -/
theorem misaccounted :
    (∃ s : Master ℕ, (fuzzing [10, 20]).Reaches Uncancelled s ∧ s.phase = .ended ∧
      (2, true) ∈ s.counted ∧ 2 ∉ s.notified) ∧
    (∃ s : Master ℕ, (fuzzing [10, 20]).Reaches Uncancelled s ∧ s.phase = .ended ∧
      s.requested = [10] ∧ s.counted = [(1, false), (1, false)]) ∧
    ¬ ∀ s : Master ℕ, (fuzzing [10, 20]).Reaches Uncancelled s → AccountedOnce [10, 20] s := by
  have hlate := System.Reaches.start.run
    (show (fuzzing [10, 20]).run Uncancelled _ lateNotification = _ from rfl)
  have hfailed := System.Reaches.start.run
    (show (fuzzing [10, 20]).run Uncancelled _ failedRestart = _ from rfl)
  refine ⟨⟨_, hlate, rfl, by decide, by decide⟩, ⟨_, hfailed, rfl, rfl, rfl⟩, fun hall => ?_⟩
  exact absurd ((hall _ hlate).notified 2 (by decide)) (by decide)

end VSharp.Fuzzer
