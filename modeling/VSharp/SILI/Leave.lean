import VSharp.SILI.ExceptionDispatch

/-!
# SILI — Leave

`Leave` of `VSharp.SILI/Interpreter.fs` and the part of `MakeStep` that goes on with it: the clauses
that a `leave` leaves are kept in a `Leave` instruction pointer, inside which the handlers are
executed one after the other.  A `leave` in a handler nests the pointers, so everything here is said
of a pointer in any context.  The evaluation stack is cleared at the end of a handler, and nowhere
else.

- `RunsHandlers` is a run of `MakeStep` through the handlers of a list of clauses;
- `leave_runs_finally_iff`: a `leave` is such a run, and when it ends with an empty evaluation stack.
-/

namespace VSharp.SILI
open List
variable {M S : Type}

/-! ### The code -/

namespace ILInterpreter

section
variable [DecidableEq M] (x : ILInterpreter M S)

omit [DecidableEq M] in
def ehcBetween (src dst : ℕ) (ehc : Clause) : Bool := ehc.inEHCBlock src && !ehc.inEHCBlock dst

/-- `Leave`; `dst` is `unconditionalBranchTarget`. -/
def leave (s : CilState M S) (m : M) (offset dst : ℕ) : Option (CilState M S) := do
  let loc := ⟨offset, m⟩
  let ehcs := (x.sortEHCBlocks loc).filter (ehcBetween offset dst)
  let (finallyHandlerIp, otherEhcs, s) ← leaveToFinally s ehcs loc
  let currentIp ← match finallyHandlerIp with
    | none => some (.instruction dst m)
    | some ip => ip.createLeave otherEhcs dst m
  s.setCurrentIpSafe currentIp

/-- The instruction at the offset is a `leave` to `dst`. -/
structure IsLeave (m : M) (src dst : ℕ) : Prop where
  notEndFinally : x.isEndFinally m src = false
  execute : ∀ s s', x.leave s m src dst = some s' → x.executeInstruction m src s = s'

end

end ILInterpreter

/-! ### Contexts -/

/-- What an instruction pointer is executed in: handlers of `leave` and of the second bypass. -/
inductive IpContext (M : Type) where
  | hole
  | leave (ctx : IpContext M) (ehcs : List Clause) (dst : ℕ) (m : M)
  | bypass (ctx : IpContext M) (ehcs : Option (List Clause)) (lastBlocks : List Clause)
      (lastLocation : Option (CodeLocation M)) (locations : List (CodeLocation M))
      (handlerLoc : Option (CodeLocation M))

namespace IpContext

/-- The pointer in the context. -/
def plug : IpContext M → InstructionPointer M → InstructionPointer M
  | hole, ip => ip
  | leave ctx ehcs dst m, ip => .leave (ctx.plug ip) ehcs dst m
  | bypass ctx ehcs lastBlocks lastLocation locations handlerLoc, ip =>
    .secondBypassIn (ctx.plug ip) ehcs lastBlocks lastLocation locations handlerLoc

variable {ctx : IpContext M} {ip newIp : InstructionPointer M}

theorem changeInnerIp_plug (h : ip.changeInnerIp newIp = newIp) :
    (ctx.plug ip).changeInnerIp newIp = ctx.plug newIp := by
  induction ctx with
  | hole => exact h
  | leave ctx ehcs dst m ih | bypass ctx ehcs lastBlocks lastLocation locations handlerLoc ih =>
    rw [plug, InstructionPointer.changeInnerIp, ih]
    rfl

theorem isNonRecIp_plug (h : ip.isNonRecIp = false) : (ctx.plug ip).isNonRecIp = false := by
  cases ctx with
  | hole => exact h
  | leave | bypass => rfl

/-- The innermost pointer of a handler is replaced by what the handler was executed in. -/
theorem replaceRecIp_plug (ctx : IpContext M) (o : ℕ) (m m' : M) (ehcs : List Clause) (dst : ℕ)
    (newIp : InstructionPointer M) :
    (ctx.plug (.leave (.instruction o m) ehcs dst m')).replaceRecIp newIp = ctx.plug newIp := by
  induction ctx with
  | hole => rfl
  | leave ctx ehcs dst m ih | bypass ctx ehcs lastBlocks lastLocation locations handlerLoc ih =>
    rw [plug, InstructionPointer.replaceRecIp, isNonRecIp_plug rfl, if_neg Bool.false_ne_true, ih]
    rfl

end IpContext

namespace ILInterpreter

section
variable {x : ILInterpreter M S} {ctx : IpContext M} {s : CilState M S}
variable {ip : InstructionPointer M} {o : ℕ} {m : M} {ips : List (InstructionPointer M)}

/-- The end of a handler is what the pointer itself is. -/
theorem endFinally_plug (h : x.endFinally ip = false) :
    x.endFinally (ctx.plug ip) = false := by
  cases ctx with
  | hole => exact h
  | leave | bypass => rfl

variable [DecidableEq M]

theorem makeStepAt_plug (h : x.endFinally ip = false) :
    x.makeStepAt s (ctx.plug ip) = x.makeStepAt s ip := by
  induction ctx with
  | hole => rfl
  | leave ctx ehcs dst m ih | bypass ctx ehcs lastBlocks lastLocation locations handlerLoc ih =>
    simpa [IpContext.plug, makeStepAt, endFinally_plug h] using ih

/-- `MakeStep` at the end of a handler that `leave` entered. -/
theorem makeStep_endFinally {dst : ℕ} {m' : M} {ehcs : List Clause}
    (hs : s.ipStack = ctx.plug (.leave (.instruction o m) ehcs dst m') :: ips)
    (hend : x.isEndFinally m o = true) : x.makeStep s = x.leaveNext s o ehcs dst m' := by
  rw [makeStep, hs]
  show x.makeStepAt s _ = _
  rw [makeStepAt_plug rfl]
  simp [makeStepAt, endFinally, hend, InstructionPointer.offset]

/-- `MakeStep` at an instruction. -/
theorem makeStep_instruction (hs : s.ipStack = ctx.plug (.instruction o m) :: ips)
    (hend : x.isEndFinally m o = false) :
    x.makeStep s = some (x.executeInstruction m o (x.pushExceptionRegisterIfNeeded m o s)) := by
  have hip : x.endFinally (.instruction o m) = false := hend
  rw [makeStep, hs]
  show x.makeStepAt s _ = _
  rw [makeStepAt_plug hip]
  rfl

end

/-! ### The clauses that are left -/

/-- The handlers that a `leave` at the offset executes. -/
def leaveExecutes (src : ℕ) (c : Clause) : Bool :=
  !c.inHandlerBlock src && decide (c.ehcType = .finallyClause)

section
variable {m : M} {src o n : ℕ} {s : CilState M S} {cs : List Clause}

/-- What `LeaveToFinally` gives where `n` registers are not needed: the first handler to execute, or
none. -/
inductive LeaveOutcome (m : M) (src : ℕ) (s : CilState M S) (n : ℕ) (cs : List Clause) :
    Option (Option (InstructionPointer M) × List Clause × CilState M S) → Prop where
  | done (regs : List (ExceptionRegister M)) (hlength : n ≤ regs.length)
      (hnone : cs.filter (leaveExecutes src) = []) :
      LeaveOutcome m src s n cs (some (none, [], { s with exceptionsRegister := regs }))
  | found (c : Clause) (post : List Clause) (regs : List (ExceptionRegister M))
      (hlength : frameMoves src [] post [] + 1 + n ≤ regs.length)
      (hfirst : cs.filter (leaveExecutes src) = c :: post.filter (leaveExecutes src))
      (hsub : (c :: post).Sublist cs) :
      LeaveOutcome m src s n cs (some (some (.instruction c.handlerOffset m), post,
        { s with exceptionsRegister := regs }))

theorem LeaveOutcome.skip {c : Clause} {regs : List (ExceptionRegister M)}
    {res : Option (Option (InstructionPointer M) × List Clause × CilState M S)}
    (h : LeaveOutcome m src { s with exceptionsRegister := regs } n cs res)
    (hc : leaveExecutes src c = false) : LeaveOutcome m src s n (c :: cs) res := by
  have hfilter : (c :: cs).filter (leaveExecutes src) = cs.filter (leaveExecutes src) := by
    rw [filter_cons, hc, if_neg Bool.false_ne_true]
  cases h with
  | done regs hlength hnone => exact .done regs hlength (hfilter.trans hnone)
  | found c' post regs hlength hfirst hsub =>
    exact .found c' post regs hlength (hfilter.trans hfirst) (hsub.cons c)

/-- The registers that the second bypass would need are enough: it counts each fault clause. -/
theorem moveToFinally_leave {tryBlocks counted : List (ℕ × ℕ)}
    (hin : ∀ c ∈ cs, c.inHandlerBlock o = c.inHandlerBlock src) (hsub : counted ⊆ tryBlocks)
    (hle : frameMoves src [] cs counted + n ≤ s.exceptionsRegister.length) :
    LeaveOutcome m src s n cs (moveToFinally ⟨o, m⟩ false cs tryBlocks s) := by
  induction cs generalizing s tryBlocks counted with
  | nil => exact .done s.exceptionsRegister (by simpa [frameMoves] using hle) rfl
  | cons c cs ih =>
    have hrest : ∀ c ∈ cs, c.inHandlerBlock o = c.inHandlerBlock src := fun c hc =>
      hin c (mem_cons_of_mem _ hc)
    -- a clause whose register is popped
    have hdrop {tryBlocks' counted' : List (ℕ × ℕ)} (hsub' : counted' ⊆ tryBlocks')
        (hle' : frameMoves src [] cs counted' + 1 + n ≤ s.exceptionsRegister.length)
        (hc : leaveExecutes src c = false) :
        LeaveOutcome m src s n (c :: cs) ((dropRegister false s).bind fun s =>
          moveToFinally ⟨o, m⟩ false cs tryBlocks' s) := by
      cases hregs : s.exceptionsRegister with
      | nil =>
        rw [hregs, length_nil] at hle'
        omega
      | cons r regs =>
        have hdropped : dropRegister false s = some { s with exceptionsRegister := regs } := by
          simp [dropRegister, CilState.popExceptionRegister, hregs]
        rw [hregs, length_cons] at hle'
        rw [hdropped]
        exact (ih hrest hsub' (by dsimp only; omega)).skip hc
    simp only [frameMoves] at hle
    simp only [moveToFinally, hin c mem_cons_self, Bool.false_eq_true, and_false, or_false]
    cases hhandler : c.inHandlerBlock src with
    | true =>
      simp only [hhandler, if_true] at hle ⊢
      exact hdrop hsub hle (by simp [leaveExecutes, hhandler])
    | false =>
      simp only [hhandler, Bool.false_eq_true, if_false] at hle ⊢
      by_cases hfinally : c.ehcType = .finallyClause
      · have hfinal : c.isFinal = true := Clause.isFinal_iff.mpr (.inl hfinally)
        have hc : leaveExecutes src c = true := by simp [leaveExecutes, hhandler, hfinally]
        rw [if_pos hfinally]
        simp only [hfinal, if_true] at hle
        exact .found c cs s.exceptionsRegister hle (by rw [filter_cons, if_pos hc])
          (List.Sublist.refl _)
      · have hc : leaveExecutes src c = false := by simp [leaveExecutes, hfinally]
        rw [if_neg hfinally]
        split
        case isTrue hmem =>
          obtain ⟨counted', hsub', hle'⟩ : ∃ counted', counted' ⊆ tryBlocks ∧
              frameMoves src [] cs counted' + n ≤ s.exceptionsRegister.length := by
            split at hle
            · exact ⟨[], nil_subset _, by omega⟩
            split at hle
            · exact ⟨counted, hsub, hle⟩
            · exact ⟨c.tryBlock :: counted, cons_subset.mpr ⟨hmem, hsub⟩, by omega⟩
          have hnext := ih (s := s) hrest hsub' hle'
          exact LeaveOutcome.skip (s := s) hnext hc
        case isFalse hmem =>
          obtain ⟨counted', hsub', hle'⟩ : ∃ counted', counted' ⊆ c.tryBlock :: tryBlocks ∧
              frameMoves src [] cs counted' + 1 + n ≤ s.exceptionsRegister.length := by
            split at hle
            · exact ⟨[], nil_subset _, hle⟩
            split at hle
            case isTrue hcounted => exact absurd (hsub hcounted) hmem
            case isFalse => exact ⟨_, cons_subset_cons _ hsub, hle⟩
          exact hdrop hsub' hle' hc

/-- The `endfinally` of a clause lies in the handlers that the `leave` lies in. -/
theorem inHandlerBlock_endFinally {c d : Clause} {e : ℕ} (h : c.Before d) (hd : d.WellFormed)
    (hfinally : c.ehcType = .finallyClause) (htry : c.inTryBlock src = true)
    (hsrc : d.inEHCBlock src = true) (he : c.inHandlerBlock e = true) :
    d.inHandlerBlock e = d.inHandlerBlock src := by
  have hapart := hd.2.2.1
  have hcatch : c.isCatch = false := by simp [Clause.isCatch, hfinally]
  simp only [Clause.inEHCBlock, Clause.inTryBlock, Clause.inHandlerBlock, Bool.or_eq_true,
    decide_eq_true_eq] at htry hsrc he
  simp only [Apart, Clause.tryBlock, Clause.handlerBlock] at hapart
  simp only [Clause.inHandlerBlock, decide_eq_decide]
  rcases h with (⟨hwithin, hwithin'⟩ | ⟨hwithin, hwithin'⟩) | ⟨⟨hout, hout'⟩, -⟩ | ⟨⟨hcatch', -⟩, -⟩
  · simp only [Within, Clause.tryBlock, Clause.handlerBlock] at hwithin hwithin'
    omega
  · simp only [Within, Clause.tryBlock, Clause.handlerBlock] at hwithin hwithin'
    omega
  · simp only [Apart, Clause.tryBlock, Clause.handlerBlock] at hout hout'
    omega
  · rw [hcatch] at hcatch'
    cases hcatch'

end

section
variable [DecidableEq M] (x : ILInterpreter M S) (ctx : IpContext M)
  (ips : List (InstructionPointer M)) (dst : ℕ) (m : M)

/-- `MakeStep`, any number of times. -/
def Steps : CilState M S → CilState M S → Prop :=
  Relation.ReflTransGen fun s s' => x.makeStep s = some s'

/-- A run through the handler of a finally clause, up to its `endfinally`. -/
structure FinallyBody (c : Clause) (ehcs : List Clause) (s s' : CilState M S) : Prop where
  entered : s.ipStack = ctx.plug (.leave (.instruction c.handlerOffset m) ehcs dst m) :: ips
  steps : x.Steps s s'
  ended : ∃ e, x.isEndFinally m e = true ∧ c.inHandlerBlock e = true ∧
    s'.ipStack = ctx.plug (.leave (.instruction e m) ehcs dst m) :: ips
  registers : s.exceptionsRegister.length ≤ s'.exceptionsRegister.length

/-- A run through the handlers of the clauses, one after the other, that ends at `dst`. -/
inductive RunsHandlers : List Clause → CilState M S → CilState M S → Prop where
  | nil {s : CilState M S} (h : s.ipStack = ctx.plug (.instruction dst m) :: ips) :
      RunsHandlers [] s s
  | cons {c : Clause} {cs ehcs : List Clause} {s s₁ s₂ s' : CilState M S}
      (body : FinallyBody x ctx ips dst m c ehcs s s₁) (step : x.makeStep s₁ = some s₂)
      (rest : RunsHandlers cs s₂ s') : RunsHandlers (c :: cs) s s'

/-- The finally handlers that are entered in the context from the state on terminate normally. -/
def FinallyTerminates (start : CilState M S) : Prop :=
  ∀ c ∈ x.exceptionHandlers m, c.ehcType = .finallyClause → ∀ ehcs s, x.Steps start s →
    s.ipStack = ctx.plug (.leave (.instruction c.handlerOffset m) ehcs dst m) :: ips →
    ∃ s', FinallyBody x ctx ips dst m c ehcs s s'

/-- The clauses whose try range contains `src` but not `dst`, with a finally handler, inner ones
first. -/
def leftFinallys (src : ℕ) : List Clause :=
  (x.exceptionHandlers m).filter fun c =>
    decide (c.ehcType = .finallyClause) && (c.inTryBlock src && !c.inTryBlock dst)

/-- The clauses that a `leave` leaves end in the order of the table. -/
def LeftInOrder (src : ℕ) : Prop :=
  ((x.exceptionHandlers m).filter (ehcBetween src dst)).Pairwise fun c c' =>
    c.handlerEnd < c'.handlerEnd

variable {x ctx ips dst m} {src : ℕ} {start s : CilState M S}
variable {otherEhcs post : List Clause} {handler : Option (InstructionPointer M)}
  {regs : List (ExceptionRegister M)} {newIp : InstructionPointer M} {c : Clause}

/-- The pointer that execution goes on with after `LeaveToFinally`. -/
def leaveIp (dst : ℕ) (m : M) (otherEhcs : List Clause) :
    Option (InstructionPointer M) → Option (InstructionPointer M)
  | none => some (.instruction dst m)
  | some ip => ip.createLeave otherEhcs dst m

omit [DecidableEq M] in
/-- The step at the end of a handler. -/
theorem leaveNext_eq {o : ℕ} {ehcs : List Clause} {r : ExceptionRegister M}
    (hs : s.ipStack = ctx.plug (.leave (.instruction o m) ehcs dst m) :: ips)
    (hmove : moveToFinally ⟨o, m⟩ false ehcs [] s =
      some (handler, otherEhcs, { s with exceptionsRegister := r :: regs }))
    (hip : leaveIp dst m otherEhcs handler = some newIp) :
    x.leaveNext s o ehcs dst m = some { s with
      ipStack := ctx.plug newIp :: ips
      exceptionsRegister := regs
      memory := x.clearEvaluationStackLastFrame s.memory } := by
  cases handler <;>
    simp only [leaveIp] at hip <;>
    simp [leaveNext, leaveToFinally, hmove, hip, CilState.replaceLastIp, hs,
      IpContext.replaceRecIp_plug, clearStack, CilState.popExceptionRegister]

omit [DecidableEq M] in
/-- The instruction itself. -/
theorem leave_eq (hs : s.ipStack = ctx.plug (.instruction src m) :: ips)
    (hmove : moveToFinally ⟨src, m⟩ false
        ((x.sortEHCBlocks ⟨src, m⟩).filter (ehcBetween src dst)) [] s =
      some (handler, otherEhcs, { s with exceptionsRegister := regs }))
    (hip : leaveIp dst m otherEhcs handler = some newIp) :
    x.leave s m src dst = some { s with
      ipStack := ctx.plug newIp :: ips
      exceptionsRegister := regs } := by
  have hplug : (ctx.plug (.instruction src m)).changeInnerIp newIp = ctx.plug newIp :=
    IpContext.changeInnerIp_plug rfl
  cases handler <;>
    simp only [leaveIp] at hip <;>
    simp [leave, leaveToFinally, hmove, hip, CilState.setCurrentIpSafe, hs, hplug]

/-- Where execution is after `LeaveToFinally`, with the clauses `cs` before it: at `dst`, or at the
start of the next handler with the registers that the rest needs. -/
def GoesOn (ctx : IpContext M) (ips : List (InstructionPointer M)) (dst : ℕ) (m : M) (src : ℕ)
    (cs : List Clause) (s : CilState M S) : Prop :=
  cs.filter (leaveExecutes src) = [] ∧ s.ipStack = ctx.plug (.instruction dst m) :: ips ∨
    ∃ c post, cs.filter (leaveExecutes src) = c :: post.filter (leaveExecutes src) ∧
      (c :: post).Sublist cs ∧
      s.ipStack = ctx.plug (.leave (.instruction c.handlerOffset m) post dst m) :: ips ∧
      frameMoves src [] post [] + 1 ≤ s.exceptionsRegister.length

/-- One handler, and the step after it. -/
theorem runs_finallyHandler (hnested : ProperlyNested (x.exceptionHandlers m))
    (hterm : FinallyTerminates x ctx ips dst m start) (hreach : x.Steps start s)
    (hsub : (c :: post).Sublist ((x.exceptionHandlers m).filter (ehcBetween src dst)))
    (hc : leaveExecutes src c = true)
    (hs : s.ipStack = ctx.plug (.leave (.instruction c.handlerOffset m) post dst m) :: ips)
    (hregs : frameMoves src [] post [] + 1 ≤ s.exceptionsRegister.length) :
    ∃ s₁ s₂, FinallyBody x ctx ips dst m c post s s₁ ∧ x.makeStep s₁ = some s₂ ∧
      s₂.memory = x.clearEvaluationStackLastFrame s₁.memory ∧ GoesOn ctx ips dst m src post s₂ := by
  obtain ⟨hmem, hbetween⟩ := mem_filter.mp (hsub.subset mem_cons_self)
  simp only [leaveExecutes, Bool.and_eq_true, Bool.not_eq_true', decide_eq_true_eq] at hc
  have htry : c.inTryBlock src = true := by
    rw [ehcBetween, Bool.and_eq_true, Clause.inEHCBlock, hc.1, Bool.or_false] at hbetween
    exact hbetween.1
  obtain ⟨s₁, hbody⟩ := hterm c hmem hc.2 post s hreach hs
  obtain ⟨e, hend, he, hs₁⟩ := hbody.ended
  have hin : ∀ d ∈ post, d.inHandlerBlock e = d.inHandlerBlock src := by
    intro d hd
    have hbefore := (hnested.2.sublist (hsub.trans filter_sublist))
    obtain ⟨hdmem, hdbetween⟩ := mem_filter.mp (hsub.subset (mem_cons_of_mem c hd))
    rw [ehcBetween, Bool.and_eq_true] at hdbetween
    exact inHandlerBlock_endFinally ((pairwise_cons.mp hbefore).1 d hd) (hnested.1 d hdmem)
      hc.2 htry hdbetween.1 he
  have houtcome := moveToFinally_leave (m := m) (s := s₁) (n := 1) hin
    (nil_subset ([] : List (ℕ × ℕ))) (hregs.trans hbody.registers)
  have hstep := makeStep_endFinally hs₁ hend
  generalize hres : moveToFinally ⟨e, m⟩ false post [] s₁ = res at houtcome
  cases houtcome with
  | done regs hlength hnone =>
    obtain ⟨r, regs, rfl⟩ := exists_cons_of_length_pos hlength
    rw [leaveNext_eq hs₁ hres rfl] at hstep
    exact ⟨s₁, _, hbody, hstep, rfl, .inl ⟨hnone, rfl⟩⟩
  | found d post' regs hlength hfirst hsub' =>
    obtain ⟨r, regs, rfl⟩ := exists_cons_of_length_pos (by omega : 0 < regs.length)
    rw [leaveNext_eq hs₁ hres rfl] at hstep
    refine ⟨s₁, _, hbody, hstep, rfl, .inr ⟨d, post', hfirst, hsub', rfl, ?_⟩⟩
    rw [length_cons] at hlength
    exact Nat.le_of_succ_le_succ hlength

theorem leaveExecutes_head {cs cs' : List Clause} (h : cs.filter (leaveExecutes src) = c :: cs') :
    leaveExecutes src c = true :=
  (mem_filter.mp (h ▸ mem_cons_self : c ∈ cs.filter (leaveExecutes src))).2

/-- From the start of a handler on, with `post` as the clauses that remain. -/
theorem runsHandlers_of_handler (hnested : ProperlyNested (x.exceptionHandlers m))
    (hterm : FinallyTerminates x ctx ips dst m start) (hreach : x.Steps start s)
    {fs : List Clause}
    (hsub : (c :: post).Sublist ((x.exceptionHandlers m).filter (ehcBetween src dst)))
    (hc : leaveExecutes src c = true)
    (hs : s.ipStack = ctx.plug (.leave (.instruction c.handlerOffset m) post dst m) :: ips)
    (hregs : frameMoves src [] post [] + 1 ≤ s.exceptionsRegister.length)
    (hfs : post.filter (leaveExecutes src) = fs) :
    ∃ s' μ, RunsHandlers x ctx ips dst m (c :: fs) s s' ∧
      s'.memory = x.clearEvaluationStackLastFrame μ := by
  induction fs generalizing c post s with
  | nil =>
    obtain ⟨s₁, s₂, hbody, hstep, hmemory, hgoes⟩ :=
      runs_finallyHandler hnested hterm hreach hsub hc hs hregs
    rcases hgoes with ⟨-, hdst⟩ | ⟨d, post', hfirst, -⟩
    · exact ⟨s₂, _, .cons hbody hstep (.nil hdst), hmemory⟩
    · rw [hfs] at hfirst
      cases hfirst
  | cons f fs ih =>
    obtain ⟨s₁, s₂, hbody, hstep, -, hgoes⟩ :=
      runs_finallyHandler hnested hterm hreach hsub hc hs hregs
    rcases hgoes with ⟨hnone, -⟩ | ⟨d, post', hfirst, hsub', hs₂, hregs₂⟩
    · rw [hfs] at hnone
      cases hnone
    · have hd := leaveExecutes_head hfirst
      rw [hfs] at hfirst
      obtain ⟨rfl, hfs'⟩ := List.cons.inj hfirst
      obtain ⟨s', μ, hrun, hmemory⟩ := ih ((hreach.trans hbody.steps).tail hstep)
        (hsub'.trans ((sublist_cons_self _ _).trans hsub)) hd hs₂ hregs₂ hfs'.symm
      exact ⟨s', μ, .cons hbody hstep hrun, hmemory⟩

omit [DecidableEq M] in
/-- Entering a try block only pushes registers. -/
theorem pushExceptionRegisterIfNeeded_eq (x : ILInterpreter M S) (m : M) (o : ℕ)
    (s : CilState M S) : ∃ regs, x.pushExceptionRegisterIfNeeded m o s =
      { s with exceptionsRegister := regs } := by
  have hfold (blocks : List (ℕ × ℕ)) : ∀ s : CilState M S, ∃ regs,
      blocks.foldl (fun s _ => s.newExceptionRegister) s = { s with exceptionsRegister := regs } := by
    induction blocks with
    | nil => exact fun s => ⟨s.exceptionsRegister, rfl⟩
    | cons b blocks ih => exact fun s => ih s.newExceptionRegister
  exact hfold _ s

omit [DecidableEq M] in
theorem leftFinallys_eq (hnested : ProperlyNested (x.exceptionHandlers m))
    (hdst : ∀ c ∈ x.exceptionHandlers m, c.inHandlerBlock dst = true →
      c.inHandlerBlock src = true) :
    ((x.exceptionHandlers m).filter (ehcBetween src dst)).filter (leaveExecutes src) =
      leftFinallys x dst m src := by
  rw [filter_filter]
  refine filter_congr fun c hc => ?_
  have hapart := (hnested.1 c hc).2.2.1
  have hout : c.inTryBlock src = true → c.inHandlerBlock src = false := by
    simp only [Clause.inTryBlock, Clause.inHandlerBlock, decide_eq_true_eq, decide_eq_false_iff_not,
      Apart, Clause.tryBlock, Clause.handlerBlock] at hapart ⊢
    omega
  have hdst' := hdst c hc
  rw [leaveExecutes, ehcBetween, Clause.inEHCBlock, Clause.inEHCBlock]
  cases htry : c.inTryBlock src <;> cases hsrc : c.inHandlerBlock src <;>
    cases c.inTryBlock dst <;> cases hdst : c.inHandlerBlock dst <;>
      simp_all

/-- The instruction. -/
theorem makeStep_leave (hs : s.ipStack = ctx.plug (.instruction src m) :: ips)
    (hleave : x.IsLeave m src dst) (hnested : ProperlyNested (x.exceptionHandlers m))
    (hregs : x.enteredBlocks ⟨src, m⟩ ≤
      (x.pushExceptionRegisterIfNeeded m src s).exceptionsRegister.length)
    (horder : LeftInOrder x dst m src) :
    ∃ s₁, x.makeStep s = some s₁ ∧ s₁.memory = s.memory ∧
      GoesOn ctx ips dst m src ((x.exceptionHandlers m).filter (ehcBetween src dst)) s₁ := by
  set cs := (x.exceptionHandlers m).filter (ehcBetween src dst) with hcs
  have hin : ∀ c, ehcBetween src dst c = true → c.inEHCBlock src = true := fun c hc =>
    (Bool.and_eq_true_iff.mp hc).1
  have hsorted : (x.sortEHCBlocks ⟨src, m⟩).filter (ehcBetween src dst) = cs :=
    x.filter_sortEHCBlocks_eq hin horder
  have hneeded : frameMoves src [] cs [] ≤ x.enteredBlocks ⟨src, m⟩ := by
    let loc : CodeLocation M := ⟨src, m⟩
    refine x.frameMoves_le_of_sublist (show ProperlyNested (x.exceptionHandlers loc.method) from
      hnested) ?_ (filter_sublist.filter _).length_le
    have hleft : cs.filter (fun c => !c.inHandlerBlock src) =
        (x.leftClauses ⟨src, m⟩).filter fun c => !c.inEHCBlock dst := by
      rw [hcs, leftClauses, filter_filter, filter_filter]
      refine filter_congr fun c _ => ?_
      rw [ehcBetween, Clause.inEHCBlock, protects]
      cases c.inTryBlock src <;> cases c.inHandlerBlock src <;> cases c.inEHCBlock dst <;> rfl
    rw [hleft]
    exact filter_sublist
  obtain ⟨regs₀, hpush⟩ := pushExceptionRegisterIfNeeded_eq x m src s
  rw [hpush] at hregs
  have houtcome := moveToFinally_leave (m := m) (s := { s with exceptionsRegister := regs₀ })
    (n := 0) (o := src) (fun _ _ => rfl) (nil_subset ([] : List (ℕ × ℕ)))
    (hneeded.trans hregs)
  have hstep := makeStep_instruction hs hleave.notEndFinally
  rw [hpush] at hstep
  generalize hres : moveToFinally ⟨src, m⟩ false cs [] { s with exceptionsRegister := regs₀ } =
    res at houtcome
  rw [← hsorted] at hres
  have hs₀ : ({ s with exceptionsRegister := regs₀ } : CilState M S).ipStack =
      ctx.plug (.instruction src m) :: ips := hs
  cases houtcome with
  | done regs hlength hnone =>
    rw [hleave.execute _ _ (leave_eq hs₀ hres rfl)] at hstep
    exact ⟨_, hstep, rfl, .inl ⟨hnone, rfl⟩⟩
  | found c post regs hlength hfirst hsub =>
    rw [hleave.execute _ _ (leave_eq hs₀ hres rfl)] at hstep
    exact ⟨_, hstep, rfl, .inr ⟨c, post, hfirst, hsub, rfl, hlength⟩⟩

/-- A `leave` runs the handlers of the clauses that it leaves, and goes on at its target; its
evaluation stack is empty then if a handler was run, or if it was empty before. -/
theorem leave_runs_finally_iff (x : ILInterpreter M S) {isEmpty : S → Prop}
    (hclear : ∀ μ, isEmpty (x.clearEvaluationStackLastFrame μ)) (ctx : IpContext M)
    (ips : List (InstructionPointer M)) (m : M) (src dst : ℕ) (s : CilState M S)
    (hs : s.ipStack = ctx.plug (.instruction src m) :: ips) (hleave : x.IsLeave m src dst)
    (hnested : ProperlyNested (x.exceptionHandlers m))
    (hterm : FinallyTerminates x ctx ips dst m s)
    (hdst : ∀ c ∈ x.exceptionHandlers m, c.inHandlerBlock dst = true → c.inHandlerBlock src = true)
    (hregs : x.enteredBlocks ⟨src, m⟩ ≤
      (x.pushExceptionRegisterIfNeeded m src s).exceptionsRegister.length)
    (horder : LeftInOrder x dst m src) :
    (∃ s₁ s', x.makeStep s = some s₁ ∧
      RunsHandlers x ctx ips dst m (leftFinallys x dst m src) s₁ s' ∧ isEmpty s'.memory) ↔
      isEmpty s.memory ∨ leftFinallys x dst m src ≠ [] := by
  obtain ⟨s₁, hstep, hmemory, hgoes⟩ := makeStep_leave hs hleave hnested hregs horder
  rw [GoesOn, leftFinallys_eq hnested hdst] at hgoes
  rcases hgoes with ⟨hnone, hs₁⟩ | ⟨c, post, hfirst, hsub, hs₁, hregs₁⟩
  · rw [hnone]
    constructor
    · rintro ⟨s₁', s', hstep', hrun, hempty⟩
      obtain rfl := Option.some_inj.mp (hstep.symm.trans hstep')
      cases hrun
      exact .inl (hmemory ▸ hempty)
    · intro h
      exact ⟨s₁, s₁, hstep, .nil hs₁, hmemory ▸ h.resolve_right fun h => h rfl⟩
  · have hc : leaveExecutes src c = true := by
      rw [← leftFinallys_eq hnested hdst] at hfirst
      exact leaveExecutes_head hfirst
    obtain ⟨s', μ, hrun, hμ⟩ := runsHandlers_of_handler hnested hterm (.single hstep) hsub hc hs₁
      hregs₁ rfl
    rw [hfirst]
    exact iff_of_true ⟨s₁, s', hstep, hrun, hμ ▸ hclear μ⟩ (.inr (cons_ne_nil _ _))

end

/-! ### Two methods -/

/-- A method with the given clauses and an evaluation stack; handlers at 5 and 10 end at once. -/
def ofClauses (table : List Clause) : ILInterpreter Unit (List Term) where
  exceptionHandlers _ := table
  isEndFinally _ offset := decide (offset = 5 ∨ offset = 10)
  isStaticConstructor _ := false
  fallThroughTarget _ offset := offset + 1
  isSubtypeOrEqual t t' := t = t'
  mostConcreteTypeOfRef _ _ := .named 0
  sortBy := (ofTables fun _ : Unit => table).sortBy
  sortBy_perm := (ofTables fun _ : Unit => table).sortBy_perm
  sortBy_sorted := (ofTables fun _ : Unit => table).sortBy_sorted
  popFrame := id
  clearEvaluationStackLastFrame _ := []
  push t stack := t :: stack
  pushNewObjIfNeeded _ _ := id
  filterBranch _ s := (true, s)
  executeInstruction _ _ := id

/-- The same, where every instruction is a `leave` to 20. -/
def leavesTo20 (table : List Clause) : ILInterpreter Unit (List Term) :=
  { ofClauses table with
    executeInstruction := fun m offset s => ((ofClauses table).leave s m offset 20).getD s }

theorem leavesTo20_isLeave (table : List Clause) : (leavesTo20 table).IsLeave () 3 20 where
  notEndFinally := rfl
  execute s s' h := by
    have hbase : (ofClauses table).leave s () 3 20 = some s' := h
    show ((ofClauses table).leave s () 3 20).getD s = s'
    rw [hbase]
    rfl

/-- A frame at 3, with one value on its evaluation stack. -/
def atThree : CilState Unit (List Term) where
  ipStack := [.instruction 3 ()]
  exceptionsRegister := [.noException, .noException, .noException]
  filterResult := none
  memory := [.nop]

/-- A `leave` out of two try blocks, one in the other, with a finally handler each. -/
theorem leave_runs_finally_nested :
    let table : List Clause := [⟨2, 3, 5, 5, .finallyClause⟩, ⟨0, 10, 10, 5, .finallyClause⟩]
    let x := leavesTo20 table
    (∃ s₁ s', x.makeStep atThree = some s₁ ∧
      RunsHandlers x .hole [] 20 () (leftFinallys x 20 () 3) s₁ s' ∧ s'.memory = []) ↔
      atThree.memory = [] ∨ leftFinallys x 20 () 3 ≠ [] := by
  intro table x
  let isEmpty (μ : List Term) : Prop := μ = []
  have hclear : ∀ μ, isEmpty (x.clearEvaluationStackLastFrame μ) := fun _ => rfl
  have hends : ∀ c ∈ table, x.isEndFinally () c.handlerOffset = true ∧
      c.inHandlerBlock c.handlerOffset = true := by decide
  have horder : LeftInOrder x 20 () 3 := by
    show List.Pairwise _ _
    decide
  refine leave_runs_finally_iff x hclear .hole [] () 3 20 atThree rfl (leavesTo20_isLeave table)
    (by decide) ?_ (by decide) (by decide) horder
  intro c hc _ ehcs s hreach hs
  exact ⟨s, hs, .refl, ⟨c.handlerOffset, (hends c hc).1, (hends c hc).2, hs⟩, Nat.le_refl _⟩

/-- Without a handler the evaluation stack is left as it is. -/
theorem leave_keepsStack :
    ¬ ∀ (x : ILInterpreter Unit (List Term)) (isEmpty : List Term → Prop),
      (∀ μ, isEmpty (x.clearEvaluationStackLastFrame μ)) →
      ∀ (ctx : IpContext Unit) (ips : List (InstructionPointer Unit)) (m : Unit) (src dst : ℕ)
        (s : CilState Unit (List Term)),
        s.ipStack = ctx.plug (.instruction src m) :: ips → x.IsLeave m src dst →
        ProperlyNested (x.exceptionHandlers m) → FinallyTerminates x ctx ips dst m s →
        (∀ c ∈ x.exceptionHandlers m, c.inHandlerBlock dst = true → c.inHandlerBlock src = true) →
        x.enteredBlocks ⟨src, m⟩ ≤
          (x.pushExceptionRegisterIfNeeded m src s).exceptionsRegister.length →
        ∃ s₁ s', x.makeStep s = some s₁ ∧
          RunsHandlers x ctx ips dst m (leftFinallys x dst m src) s₁ s' ∧ isEmpty s'.memory := by
  intro h
  obtain ⟨s₁, s', hstep, hrun, hempty⟩ := h (leavesTo20 []) (· = []) (fun _ => rfl) .hole [] () 3 20
    atThree rfl (leavesTo20_isLeave []) (by decide) nofun nofun (by decide)
  obtain rfl := Option.some_inj.mp hstep
  cases hrun
  cases hempty

end ILInterpreter

end VSharp.SILI
