import VSharp.Fuzzer.Accounting

/-!
# Fuzzer — Tallies

What the counters of the master say in any run: whatever fails, whenever a notification comes, and
wherever the loop is cancelled.  `Owed` and `Stands` are what the state of the process and the place
of the loop say on the method that is to be counted next.
-/

namespace VSharp.Fuzzer
open Library Option

variable {M : Type} {methods : List M} {s s' : Master M}

namespace Master

/-- The number that `isFuzzingFinished` compares with the number of methods. -/
def total (s : Master M) : ℕ := s.interactor.successfullyFuzzed + s.interactor.failedFuzzed

/-- The successes, with the notification that is received and not taken. -/
def announced (s : Master M) : ℕ :=
  s.interactor.successfullyFuzzed +
    s.interactor.fuzzingProcess.newSuccessfullyFuzzedNotificationReceived.toNat

end Master

/-- The methods are sent in their order, each once at most.  No more are counted than there are, and
as many when the loop ends uncancelled.  Each success has a notification of its own. -/
structure Tallied (methods : List M) (s : Master M) : Prop where
  requested : s.requested ++ s.interactor.queued = methods
  total : s.total ≤ methods.length
  ended : s.phase = .ended → s.interactor.isCancellationRequested = true ∨ s.total = methods.length
  successes : s.interactor.successfullyFuzzed ≤ s.notified.length

structure Ledger (methods : List M) (s : Master M) : Prop where
  requested : s.requested ++ s.interactor.queued = methods
  methodsCount : s.interactor.methodsCount = methods.length
  total : s.total ≤ methods.length
  announced : s.announced ≤ s.notified.length
  sent : s.current ≤ s.total + 1

/-- After the last method the state stays a success, which is not counted again. -/
def Owed (methods : List M) (s : Master M) : Prop :=
  match s.state with
  | .successfullyFuzzedMethod => s.total < methods.length → s.announced < s.notified.length
  | .successfullyFuzzedMethodWithException _ => False
  | .notStarted | .started | .restartingInProcess | .restarted => s.current ≤ s.total
  | .unexpectedExit | .fuzzingInProcess | .timeoutReached | .unhandledException _ => True

def Stands (methods : List M) (s : Master M) : Prop :=
  match s.phase with
  | .polling => s.total < methods.length
  | .starting | .restarting => s.current ≤ s.total
  | .ended => s.interactor.isCancellationRequested = true ∨ s.total = methods.length
  | .loop | .sending | .raised => True

/-- What holds after each step of any run. -/
structure Tally (methods : List M) (s : Master M) : Prop extends Ledger methods s where
  owed : Owed methods s
  stands : Stands methods s

namespace Ledger

section
variable (h : Ledger methods s)

include h

theorem countSuccess (htotal : s.total < methods.length)
    (hannounced : s.announced < s.notified.length) : Ledger methods s.countSuccess :=
  { h with
    total := (Nat.add_right_comm _ _ _).trans_le htotal
    announced := (Nat.add_right_comm _ _ _).trans_le hannounced
    sent := h.sent.trans (Nat.succ_le_succ (Nat.add_le_add_right (Nat.le_succ _) _)) }

theorem countFailure (htotal : s.total < methods.length) : Ledger methods s.countFailure :=
  { h with
    total := htotal
    sent := h.sent.trans (Nat.le_succ _) }

/-- When no method is left to send, all are counted. -/
theorem goto_loop (hqueued : s.interactor.queued = []) (hcurrent : s.current ≤ s.total)
    (hplain : ∀ info, s.state ≠ .successfullyFuzzedMethodWithException info) :
    Tally methods (s.goto .loop) := by
  refine ⟨{ h with }, ?_, trivial⟩
  have hlength := congrArg List.length h.requested
  rw [hqueued, List.append_nil] at hlength
  rw [Owed]
  split
  case h_1 => exact fun hlt => absurd (hlength.symm.trans_le hcurrent) (Nat.not_le_of_lt hlt)
  case h_2 info hstate => exact hplain info hstate
  all_goals first | exact hcurrent | trivial

theorem fuzzNextMethod (hcurrent : s.current ≤ s.total)
    (hplain : ∀ info, s.state ≠ .successfullyFuzzedMethodWithException info) :
    Tally methods s.fuzzNextMethod := by
  rw [Master.fuzzNextMethod]
  cases hqueued : s.interactor.queued with
  | nil => exact h.goto_loop hqueued hcurrent hplain
  | cons method queued =>
    refine ⟨{ h with requested := ?_, sent := ?_ }, trivial, trivial⟩
    · rw [← h.requested, hqueued]
      exact List.append_assoc _ _ _
    · exact List.length_append.trans_le (Nat.succ_le_succ hcurrent)

end

end Ledger

namespace Tally

/-! ### Steps -/

section
variable (h : Tally methods s)

include h

theorem plain (info : Option (ℤ × String)) :
    s.state ≠ .successfullyFuzzedMethodWithException info := fun hstate => by
  have howed := h.owed
  rwa [Owed, hstate] at howed

theorem polling (hphase : s.phase = .polling) :
    s.total < methods.length := by
  have hstands := h.stands
  rwa [Stands, hphase] at hstands

theorem onFailed (hphase : s.phase = .polling) :
    Tally methods s.onFailed := by
  have hledger := h.toLedger.countFailure (h.polling hphase)
  rw [Master.onFailed]
  cases hqueued : s.interactor.queued with
  | nil => exact hledger.goto_loop hqueued h.sent h.plain
  | cons method queued => exact ⟨{ hledger with }, h.sent, h.sent⟩

theorem handleState (hphase : s.phase = .polling) :
    Tally methods (s.handleFuzzingProcessState s.state) := by
  have howed := h.owed
  rw [Owed] at howed
  have hgoto (phase : Phase) (hstands : Stands methods (s.goto phase)) :
      Tally methods (s.goto phase) :=
    ⟨{ h.toLedger with }, h.owed, hstands⟩
  cases hstate : s.state with
  | successfullyFuzzedMethod =>
    rw [hstate] at howed
    have htotal := h.polling hphase
    exact (h.toLedger.countSuccess htotal (howed htotal)).fuzzNextMethod
      (h.sent.trans_eq (Nat.add_right_comm _ _ _)) h.plain
  | successfullyFuzzedMethodWithException info => exact absurd hstate (h.plain info)
  | unexpectedExit | timeoutReached => exact h.onFailed hphase
  | fuzzingInProcess | restartingInProcess => exact hgoto _ trivial
  | notStarted =>
    rw [hstate] at howed
    exact hgoto _ howed
  | started | restarted =>
    rw [hstate] at howed
    exact h.toLedger.fuzzNextMethod howed h.plain
  | unhandledException e =>
    rw [Master.handleFuzzingProcessState]
    split
    case isTrue => exact hgoto _ trivial
    case isFalse =>
      split
      case isTrue => exact h.onFailed hphase
      case isFalse => exact hgoto _ trivial

theorem check :
    Tally methods (if s.interactor.isFuzzingFinished then s.goto .ended else s.goto .polling) := by
  have hfinished : s.interactor.isFuzzingFinished = true ↔
      s.total = methods.length ∨ s.interactor.isCancellationRequested = true := by
    rw [Interactor.isFuzzingFinished, h.methodsCount, Bool.or_eq_true, beq_iff_eq]
    rfl
  split
  case isTrue htrue => exact ⟨{ h.toLedger with }, h.owed, (hfinished.mp htrue).symm⟩
  case isFalse hfalse =>
    exact ⟨{ h.toLedger with }, h.owed,
      lt_of_le_of_ne h.total fun heq => hfalse (hfinished.mpr (.inl heq))⟩

theorem updateState (fuzzerAlive timeoutReached : Bool) :
    Tally methods (s.mapProcess (·.updateState fuzzerAlive timeoutReached)) := by
  change Tally methods
    (s.mapProcess fun _ => s.interactor.fuzzingProcess.updateState fuzzerAlive timeoutReached)
  rw [FuzzingProcess.updateState]
  split
  case isTrue hflag =>
    have hannounced := h.announced
    rw [Master.announced, hflag] at hannounced
    exact ⟨{ h.toLedger with announced := (Nat.le_succ _).trans hannounced },
      fun _ => hannounced, h.stands⟩
  case isFalse =>
    split
    case isTrue => exact ⟨{ h.toLedger with }, trivial, h.stands⟩
    case isFalse =>
      split
      case isTrue => exact ⟨{ h.toLedger with }, trivial, h.stands⟩
      case isFalse => exact h

theorem complete (hstep : s.complete = some s') : Tally methods s' := by
  have hstands := h.stands
  rw [Stands] at hstands
  rw [Master.complete] at hstep
  split at hstep
  case h_1 hphase | h_3 hphase =>
    rw [hphase] at hstands
    exact some.inj hstep ▸ ⟨{ h.toLedger with }, hstands, trivial⟩
  case h_2 => exact some.inj hstep ▸ ⟨{ h.toLedger with }, h.owed, trivial⟩
  case h_4 => cases hstep

theorem fail {e : Exn} (hstep : s.fail e = some s') :
    Tally methods s' := by
  rw [Master.fail] at hstep
  split at hstep
  case h_1 => exact some.inj hstep ▸ ⟨{ h.toLedger with }, h.owed, trivial⟩
  case h_2 | h_3 => exact some.inj hstep ▸ ⟨{ h.toLedger with }, trivial, trivial⟩
  case h_4 =>
    obtain ⟨-, hstep⟩ := ite_none_right_eq_some.mp hstep
    exact some.inj hstep ▸ ⟨{ h.toLedger with }, trivial, h.stands⟩
  case h_5 => cases hstep

/-- There is one more notification, of which one is taken at most. -/
theorem notify {n : ℕ} (hstep : s.notify n = some s') :
    Tally methods s' := by
  have hsuccesses : s.interactor.successfullyFuzzed ≤ s.announced := Nat.le_add_right _ _
  have hlength : (s.notified ++ [n]).length = s.notified.length + 1 := List.length_append
  have howed := h.owed
  rw [Owed] at howed
  obtain ⟨-, hstep⟩ := ite_none_right_eq_some.mp hstep
  obtain rfl := some.inj hstep
  refine ⟨{ h.toLedger with
    announced := (Nat.succ_le_succ (hsuccesses.trans h.announced)).trans_eq hlength.symm },
    ?_, h.stands⟩
  rw [Owed]
  split
  case h_1 hstate =>
    rw [show s.state = _ from hstate] at howed
    exact fun htotal =>
      (Nat.succ_lt_succ (hsuccesses.trans_lt (howed htotal))).trans_eq hlength.symm
  case h_2 info hstate => exact h.plain info hstate
  case h_3 hstate | h_4 hstate | h_5 hstate | h_6 hstate =>
    rw [show s.state = _ from hstate] at howed
    exact howed
  all_goals trivial

theorem step {e : FuzzingEvent} (hstep : s.step e = some s') :
    Tally methods s' := by
  cases e with
  | check =>
    obtain ⟨-, hstep⟩ := ite_none_right_eq_some.mp hstep
    exact some.inj hstep ▸ h.check
  | updateState fuzzerAlive timeoutReached =>
    obtain ⟨-, hstep⟩ := ite_none_right_eq_some.mp hstep
    exact some.inj hstep ▸ h.updateState fuzzerAlive timeoutReached
  | handleState =>
    obtain ⟨hphase, hstep⟩ := ite_none_right_eq_some.mp hstep
    exact some.inj hstep ▸ h.handleState hphase.1
  | completed => exact h.complete hstep
  | failed e => exact h.fail hstep
  | notifyFinished n => exact h.notify hstep
  | cancel raised =>
    obtain rfl := some.inj hstep
    let s' := { s with interactor := { s.interactor with isCancellationRequested := true } }
    have hcancelled : Stands methods s' := by
      have hstands := h.stands
      rw [Stands] at hstands ⊢
      split
      case h_1 hphase | h_2 hphase | h_3 hphase =>
        rw [show s.phase = _ from hphase] at hstands
        exact hstands
      case h_4 => exact .inl rfl
      all_goals trivial
    cases raised with
    | none => exact ⟨{ h.toLedger with }, h.owed, hcancelled⟩
    | some e => exact ⟨{ h.toLedger with }, trivial, hcancelled⟩

end

end Tally

/-- Whatever is allowed, the counters bound what was done. -/
theorem fuzzing_tallied {allowed : Master M → FuzzingEvent → Prop}
    (h : (fuzzing methods).Reaches allowed s) : Tallied methods s := by
  have hstart : Tally methods (fuzzing methods).start :=
    ⟨⟨rfl, rfl, Nat.zero_le _, le_rfl, Nat.zero_le _⟩, Nat.zero_le _, trivial⟩
  have htally := h.invariant hstart fun _ _ _ hs _ hstep => hs.step hstep
  refine ⟨htally.requested, htally.total, fun hphase => ?_,
    (Nat.le_add_right _ _).trans htally.announced⟩
  have hstands := htally.stands
  rwa [Stands, hphase] at hstands

theorem failedRestart_tallied : ∃ s : Master ℕ,
    (fuzzing [10, 20]).run Uncancelled (fuzzing [10, 20]).start failedRestart = some s ∧
      s.phase = .ended ∧ s.requested = [10] ∧ Tallied [10, 20] s :=
  ⟨_, rfl, rfl, rfl, fuzzing_tallied (System.Reaches.start.run
    (show (fuzzing [10, 20]).run Uncancelled _ failedRestart = _ from rfl))⟩

end VSharp.Fuzzer
