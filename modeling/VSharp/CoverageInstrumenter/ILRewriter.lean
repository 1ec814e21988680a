import Mathlib.Data.Int.Notation
import Mathlib.Data.List.Basic

/-!
# CoverageInstrumenter — ILRewriter

`profiler/ILRewriter.cpp`: a method body as the linked list that `Import` makes of it, the probes that
`RewriteIL` inserts, and the branches that `Export` widens.

- A pointer is a number.  `Import` numbers the nodes of the list in order; the number after the last
  one is the sentinel `m_IL`, and every `NewILInstr` takes the next number.
- The arguments of a switch follow it in nodes of their own (`CEE_SWITCH_ARG`).
- The machine has 64 bits, so that `CEE_LDC_I` is `CEE_LDC_I8`.
- `Export` is modelled up to the bytes: it fixes the opcodes of the branches.
-/

namespace VSharp.CoverageInstrumenter.Rewriting
open List

/-! ### Instructions -/

/-- The opcodes that are told apart.  A branch and its short form differ in the flag, and all others
come with the number of their bytes. -/
inductive Opcode where
  | nop
  | ldcI4
  | ldcI4Zero
  | ldcI8
  | call
  | calli
  | callvirt
  | newobj
  | stsfld
  | tailcall
  | unaligned
  | volatile
  | readonly
  | constrained
  | ret
  | endfinally
  | endfilter
  | throw
  | rethrow
  | br (short : Bool)
  | condBr (code : ℕ) (short : Bool)
  | leave (short : Bool)
  | switch
  | switchArg
  | other (code size : ℕ)
deriving DecidableEq, Repr

namespace Opcode

/-- The bytes of the opcode and of its argument; those of a switch are its own and the number of its
targets. -/
def size : Opcode → ℕ
  | nop | ldcI4Zero | ret | endfinally | throw => 1
  | tailcall | volatile | readonly | endfilter | rethrow => 2
  | unaligned => 3
  | switchArg => 4
  | ldcI4 | call | calli | callvirt | newobj | stsfld | switch => 5
  | constrained => 6
  | ldcI8 => 9
  | br short | condBr _ short | leave short => if short then 2 else 5
  | other _ size => size

/-- `OpcodeIsBranch`. -/
def isBranch : Opcode → Bool
  | br _ | condBr _ _ | leave _ | switch => true
  | _ => false

/-- `OPCODEFLAGS_BranchTarget`. -/
def hasTarget : Opcode → Bool
  | br _ | condBr _ _ | leave _ | switchArg => true
  | _ => false

/-- `IsPrefix`. -/
def isPrefixOpcode : Opcode → Bool
  | tailcall | unaligned | volatile | readonly | constrained => true
  | _ => false

/-- A branch with an argument of one byte. -/
def isShort : Opcode → Bool
  | br true | condBr _ true | leave true => true
  | _ => false

/-- The long form of a branch. -/
def widen : Opcode → Opcode
  | br _ => br false
  | condBr code _ => condBr code false
  | leave _ => leave false
  | opcode => opcode

end Opcode

/-- The union of a target and a number. -/
inductive Arg where
  | target (pointer : ℕ)
  | int (n : ℤ)
deriving DecidableEq, Repr

/-- `ILInstr`, with the pointer to it. -/
structure ILInstr where
  pointer : ℕ
  opcode : Opcode
  offset : ℕ
  arg : Arg
deriving DecidableEq, Repr

/-- `EHClause`: `handlerEnd` is the last instruction of the handler, `tryEnd` the first one behind the
block. -/
structure EHClause where
  tryBegin : ℕ
  tryEnd : ℕ
  handlerBegin : ℕ
  handlerEnd : ℕ
  filter : Option ℕ
deriving DecidableEq, Repr

/-- `ProbeCall`: the address of a probe and the token of its signature. -/
structure ProbeCall where
  addr : ℤ
  sig : ℤ
deriving DecidableEq, Repr

structure CoverageProbes where
  coverage : ProbeCall
  stsfld : ProbeCall
  branch : ProbeCall
  enter : ProbeCall
  enterMain : ProbeCall
  leave : ProbeCall
  leaveMain : ProbeCall
  call : ProbeCall
  tailcall : ProbeCall
  throw : ProbeCall
deriving DecidableEq, Repr

/-- The probes with the signature `void (int, int)`. -/
def CoverageProbes.binary (probes : CoverageProbes) : List ProbeCall :=
  [probes.coverage, probes.stsfld, probes.branch, probes.leave, probes.leaveMain, probes.call,
    probes.tailcall, probes.throw]

/-- The probes with the signature `void (int, int, int)`. -/
def CoverageProbes.ternary (probes : CoverageProbes) : List ProbeCall :=
  [probes.enter, probes.enterMain]

/-! ### Method bodies -/

/-- The ranges of a clause, from the first instruction of each to the first one behind it. -/
structure Clause where
  tryBegin : ℕ
  tryEnd : ℕ
  handlerBegin : ℕ
  handlerEnd : ℕ
  filter : Option ℕ
deriving DecidableEq, Repr

/-- The opcode and the argument at an index. -/
def IsSwitchArg (il : List (Opcode × Arg)) (i : ℕ) : Prop :=
  ∃ arg, il[i]? = some (.switchArg, arg)

/-- A method body, decoded. -/
structure Body where
  il : List (Opcode × Arg)
  eh : List Clause
  /-- Targets are starts of instructions, or the end of the code. -/
  target_start : ∀ opcode pointer, (opcode, Arg.target pointer) ∈ il →
    pointer ≤ il.length ∧ ¬ IsSwitchArg il pointer
  branch_target : ∀ opcode arg, (opcode, arg) ∈ il → opcode.hasTarget = true →
    ∃ pointer, arg = .target pointer
  /-- The targets of a switch follow it. -/
  switch_table : ∀ i arg, il[i]? = some (.switch, arg) →
    ∃ n : ℕ, arg = .int n ∧ ∀ j < n, IsSwitchArg il (i + 1 + j)
  switchArg_table : ∀ i, IsSwitchArg il (i + 1) →
    IsSwitchArg il i ∨ ∃ arg, il[i]? = some (.switch, arg)
  not_switchArg_zero : ¬ IsSwitchArg il 0
  tailcall_arg : ∀ arg, (Opcode.tailcall, arg) ∈ il → arg = .int 0
  /-- The ranges of the clauses start and end at instructions; handlers are not empty. -/
  tryBegin_le : ∀ c ∈ eh, c.tryBegin ≤ il.length ∧ c.tryEnd ≤ il.length
  handler_lt : ∀ c ∈ eh, c.handlerBegin < c.handlerEnd ∧ c.handlerEnd ≤ il.length
  filter_le : ∀ c ∈ eh, ∀ f, c.filter = some f → f ≤ il.length
  handlerBegin_start : ∀ c ∈ eh, ¬ IsSwitchArg il c.handlerBegin
  /-- No handler ends between `tail.` and the call. -/
  handlerEnd_prefixed : ∀ c ∈ eh, ∀ arg, il[c.handlerEnd - 1]? ≠ some (.tailcall, arg)

/-! ### The linked list -/

structure ILRewriter where
  il : List ILInstr
  eh : List EHClause
  /-- `GetILList()`. -/
  sentinel : ℕ
  /-- The next pointer of `NewILInstr`. -/
  fresh : ℕ

def insertAfter (where' : ℕ) (what : ILInstr) : List ILInstr → List ILInstr
  | [] => []
  | x :: il => if x.pointer = where' then x :: what :: il else x :: insertAfter where' what il

def insertBefore (where' : ℕ) (what : ILInstr) : List ILInstr → List ILInstr
  | [] => [what]
  | x :: il => if x.pointer = where' then what :: x :: il else x :: insertBefore where' what il

/-- The instruction before a pointer. -/
def prevOf (pointer : ℕ) : ℕ → List ILInstr → ℕ
  | before, [] => before
  | before, x :: il => if x.pointer = pointer then before else prevOf pointer x.pointer il

/-- The list from a pointer on. -/
def suffixAt (il : List ILInstr) (pointer : ℕ) : List ILInstr :=
  il.dropWhile (·.pointer ≠ pointer)

/-- The bytes before a pointer. -/
def bytesBefore (pointer : ℕ) : List ILInstr → ℕ
  | [] => 0
  | x :: il => if x.pointer = pointer then 0 else x.opcode.size + bytesBefore pointer il

def countOffsets (il : List ILInstr) : List ILInstr :=
  il.map fun x => { x with offset := bytesBefore x.pointer il }

/-- The nodes of `ImportIL`. -/
def importIL : ℕ → List (Opcode × Arg) → List ILInstr
  | _, [] => []
  | i, (opcode, arg) :: il => ⟨i, opcode, 0, arg⟩ :: importIL (i + 1) il

/-- `ImportEH`: `m_pHandlerEnd` is the instruction before the end of the handler. -/
def importEH (c : Clause) : EHClause :=
  ⟨c.tryBegin, c.tryEnd, c.handlerBegin, c.handlerEnd - 1, c.filter⟩

/-- `Import`. -/
def importBody (body : Body) : ILRewriter where
  il := importIL 0 body.il
  eh := body.eh.map importEH
  sentinel := body.il.length
  fresh := body.il.length + 1

namespace ILRewriter
variable (r : ILRewriter) (pointer : ℕ)

def get? : Option ILInstr := r.il.find? (·.pointer = pointer)

/-- The opcode at a pointer; none at the sentinel. -/
def opcode? : Option Opcode := (r.get? pointer).map (·.opcode)

/-- `m_offset`. -/
def offset : ℕ := (r.get? pointer).elim 0 (·.offset)

/-- `m_pPrev`. -/
def prev : ℕ := prevOf pointer r.sentinel r.il

/-- `m_pNext`. -/
def next : ℕ := ((suffixAt r.il pointer).tail.head?).elim r.sentinel (·.pointer)

def modify (f : ILInstr → ILInstr) : ILRewriter :=
  { r with il := r.il.map fun x => if x.pointer = pointer then f x else x }

/-- `NewILInstr` and `InsertAfter`. -/
def insertNewAfter (opcode : Opcode) (arg : Arg) : ILRewriter :=
  { r with il := insertAfter pointer ⟨r.fresh, opcode, 0, arg⟩ r.il, fresh := r.fresh + 1 }

/-- `NewILInstr` and `InsertBefore`. -/
def insertNewBefore (opcode : Opcode) (arg : Arg) : ILRewriter :=
  { r with il := insertBefore pointer ⟨r.fresh, opcode, 0, arg⟩ r.il, fresh := r.fresh + 1 }

/-! ### Probes -/

def addProbe (probe : ProbeCall) : ILRewriter :=
  (r.insertNewBefore pointer .ldcI8 (.int probe.addr)).insertNewBefore pointer .calli
    (.int probe.sig)

def addLDCInstrBefore (n : ℤ) : ILRewriter := r.insertNewBefore pointer .ldcI4 (.int n)

def correctHandlers (newPointer : ℕ) : ILRewriter :=
  { r with
    eh := r.eh.map fun c => if c.handlerEnd = pointer then { c with handlerEnd := newPointer } else c }

def addCoverageProbeAfter (probe : ProbeCall) (methodId : ℤ) : ILRewriter :=
  let offset := r.offset pointer
  let new := r.fresh
  let r := r.insertNewAfter pointer .nop (.int 0)
  let r := r.addLDCInstrBefore new offset
  let r := r.addLDCInstrBefore new methodId
  let r := r.addProbe new probe
  r.correctHandlers pointer new

def addCoverageProbeBefore (probe : ProbeCall) (methodId : ℤ) : ILRewriter :=
  match r.get? pointer with
  | none => r
  | some instr =>
    let new := r.fresh
    let r := r.insertNewAfter pointer instr.opcode instr.arg
    let r := r.modify pointer fun x => { x with opcode := .nop }
    let r := r.addLDCInstrBefore new instr.offset
    let r := r.addLDCInstrBefore new methodId
    let r := r.addProbe new probe
    r.correctHandlers pointer new

def addEnterProbe (probe : ProbeCall) (methodId : ℤ) : ILRewriter :=
  let first := (r.il.head?).elim r.sentinel (·.pointer)
  let r' := r.insertNewBefore first .ldcI4 (.int (r.offset first))
  let r' := r'.insertNewBefore first .ldcI4 (.int methodId)
  let r' := r'.insertNewBefore first .ldcI4Zero (.int 0)
  r'.addProbe first probe

def isTailcallRet : Bool :=
  r.opcode? pointer = some .ret && r.opcode? (r.prev (r.prev pointer)) = some .tailcall

end ILRewriter

/-! ### `RewriteIL` -/

structure ProbeInsertion where
  target : ℕ
  parent : ℕ
  probe : ProbeCall
  isBeforeInstr : Bool
deriving DecidableEq, Repr

def ILRewriter.makeProbeInsertion (r : ILRewriter) (toInsert : ProbeInsertion) (methodId : ℤ) :
    ILRewriter :=
  if toInsert.isBeforeInstr then r.addCoverageProbeBefore toInsert.target toInsert.probe methodId
  else r.addCoverageProbeAfter toInsert.target toInsert.probe methodId

/-- The state of the loop that looks for the last instructions of basic blocks. -/
structure Scan where
  rewriter : ILRewriter
  isTailCall : Bool
  addPriorityProbe : List ProbeInsertion
  addTargetProbe : List ProbeInsertion

section
variable (probes : CoverageProbes) (leaveMethod : ProbeCall) (methodId : ℤ)

namespace Scan
variable (s : Scan)

def pushPriority (target : ℕ) (probe : ProbeCall) (isBeforeInstr : Bool) : Scan :=
  { s with
    addPriorityProbe := s.addPriorityProbe ++ [⟨target, s.rewriter.sentinel, probe, isBeforeInstr⟩] }

/-- The instruction before the target of `arg` ends a block. -/
def pushTarget (parent : ℕ) (arg : Arg) : Scan :=
  match arg with
  | .target pointer =>
    { s with
      addTargetProbe := s.addTargetProbe ++
        [⟨s.rewriter.prev pointer, parent, probes.coverage, false⟩] }
  | .int _ => s

/-- The nodes of the targets of a switch. -/
def switchArgs (pointer : ℕ) (arg : Arg) : List ILInstr :=
  match arg with
  | .int n => ((suffixAt s.rewriter.il pointer).drop 1).take n.toNat
  | .target _ => []

/-- The case `CEE_TAILCALL`: the new instruction takes the offset of the call, the old one that of
the return. -/
def scanTailcall (pointer : ℕ) : Scan :=
  let newTailcall := s.rewriter.fresh
  let r := s.rewriter.insertNewAfter pointer .tailcall (.int 0)
  let r := r.modify pointer fun x => { x with opcode := .nop }
  let call := r.next newTailcall
  let r := r.modify newTailcall fun x => { x with offset := r.offset call }
  let r := r.modify pointer fun x => { x with offset := r.offset (r.next call) }
  let s := { s with rewriter := r, isTailCall := true }
  let s := s.pushPriority newTailcall probes.tailcall true
  s.pushPriority pointer probes.coverage true

/-- One turn of the loop, at the instruction `x`. -/
def scanInstr (x : ILInstr) : Scan :=
  if x.opcode.isBranch then
    let s := s.pushPriority x.pointer probes.branch true
    if x.opcode = .switch then
      (s.switchArgs x.pointer x.arg).foldl (fun s y => s.pushTarget probes x.pointer y.arg) s
    else s.pushTarget probes x.pointer x.arg
  else
    match x.opcode with
    | .stsfld =>
      let before := s.rewriter.prev x.pointer
      let instr :=
        if (s.rewriter.opcode? before).elim false (·.isPrefixOpcode) then before else x.pointer
      s.pushPriority instr probes.stsfld true
    | .tailcall => s.scanTailcall probes x.pointer
    | .call | .calli | .callvirt | .newobj =>
      if s.isTailCall then s else s.pushPriority x.pointer probes.call false
    | .ret =>
      if s.isTailCall then { s with isTailCall := false }
      else s.pushPriority x.pointer leaveMethod true
    | .endfinally | .endfilter => s.pushPriority x.pointer probes.coverage true
    | .throw | .rethrow => s.pushPriority x.pointer probes.throw true
    | _ => s

/-- The probes at the beginnings of the handlers. -/
def scanHandlers : Scan :=
  s.rewriter.eh.foldl (fun s c => s.pushPriority c.handlerBegin probes.throw true) s

end Scan

/-- Both loops over the imported body. -/
def scan (r : ILRewriter) : Scan :=
  (r.il.foldl (Scan.scanInstr probes leaveMethod) ⟨r, false, [], []⟩).scanHandlers probes

/-- One turn of the loop over `addPriorityProbe`, with `coveredInstructions`. -/
def insertPriority (state : ILRewriter × List ℕ) (insertion : ProbeInsertion) :
    ILRewriter × List ℕ :=
  let r := state.1.makeProbeInsertion insertion methodId
  (r, r.offset insertion.target :: state.2)

/-- A branch to the return after a tail call gets a return of its own. -/
def addReturn (r : ILRewriter) (insertion : ProbeInsertion) : ILRewriter :=
  let branch := insertion.parent
  let offset := r.offset insertion.target
  let newRet := r.fresh
  let r := r.insertNewAfter branch .ret (.int 0)
  let probeStart := r.fresh
  let r := r.addLDCInstrBefore newRet offset
  let r := r.addLDCInstrBefore newRet methodId
  let r := r.addProbe newRet leaveMethod
  let r := r.modify branch fun x => { x with arg := .target probeStart }
  match r.opcode? branch with
  | some (.br _) => r
  | _ => r.insertNewAfter branch (.br false) (.target (r.next newRet))

/-- One turn of the loop over `addTargetProbe`. -/
def insertTarget (state : ILRewriter × List ℕ) (insertion : ProbeInsertion) :
    ILRewriter × List ℕ :=
  let (r, coveredInstructions) := state
  let target := insertion.target
  if target = r.sentinel ∨ r.offset target ∈ coveredInstructions then state
  else
    let coveredInstructions := r.offset target :: coveredInstructions
    if r.isTailcallRet (r.next target) then
      (addReturn leaveMethod methodId r insertion, coveredInstructions)
    else (r.addCoverageProbeAfter target insertion.probe methodId, coveredInstructions)

end

/-! ### `Export` -/

/-- A branch whose distance does not fit into a byte gets its long form. -/
def widenBranch (il : List ILInstr) (x : ILInstr) : ILInstr :=
  match x.opcode.isShort, x.arg with
  | true, .target pointer =>
    let delta : ℤ := bytesBefore pointer il - (bytesBefore x.pointer il + x.opcode.size)
    if -128 ≤ delta ∧ delta ≤ 127 then x else { x with opcode := x.opcode.widen }
  | _, _ => x

/-- The number of short branches. -/
def shortBranches (il : List ILInstr) : ℕ := il.countP (·.opcode.isShort)

theorem widenBranch_eq_or (il : List ILInstr) (x : ILInstr) :
    widenBranch il x = x ∨
      x.opcode.isShort = true ∧ widenBranch il x = { x with opcode := x.opcode.widen } := by
  unfold widenBranch
  split
  case h_1 pointer hshort _ =>
    dsimp only
    split
    · exact .inl rfl
    · exact .inr ⟨hshort, rfl⟩
  case h_2 => exact .inl rfl

theorem Opcode.isShort_widen (opcode : Opcode) : opcode.widen.isShort = false := by
  cases opcode <;> rfl

theorem shortBranches_map_lt {all il : List ILInstr} (h : il.map (widenBranch all) ≠ il) :
    shortBranches (il.map (widenBranch all)) < shortBranches il := by
  have hle : ∀ il : List ILInstr, shortBranches (il.map (widenBranch all)) ≤ shortBranches il := by
    intro il
    rw [shortBranches, countP_map]
    refine countP_mono_left fun x _ hx => ?_
    rcases widenBranch_eq_or all x with heq | ⟨hshort, -⟩
    · rwa [Function.comp_apply, heq] at hx
    · exact hshort
  induction il with
  | nil => exact absurd rfl h
  | cons x il ih =>
    rw [map_cons, shortBranches, countP_cons, shortBranches, countP_cons]
    rcases widenBranch_eq_or all x with heq | ⟨hshort, heq⟩
    · rw [heq]
      have htail : il.map (widenBranch all) ≠ il := by
        intro hil
        rw [map_cons, heq, hil] at h
        exact h rfl
      have := ih htail
      unfold shortBranches at this
      omega
    · rw [heq, Opcode.isShort_widen, hshort]
      have := hle il
      unfold shortBranches at this
      simp only [Bool.false_eq_true, if_false, if_true]
      omega

/-- One turn of the loop of `Export`. -/
def widenBranches (il : List ILInstr) : List ILInstr := il.map (widenBranch il)

/-- The loop of `Export`: again, as long as a branch has been widened. -/
def exportIL (il : List ILInstr) : List ILInstr :=
  if widenBranches il = il then countOffsets il else exportIL (widenBranches il)
termination_by shortBranches il
decreasing_by exact shortBranches_map_lt ‹_›

def rewriteIL (probes : CoverageProbes) (methodId : ℤ) (isMain : Bool) (body : Body) : ILRewriter :=
  let enterMethod := if isMain then probes.enterMain else probes.enter
  let leaveMethod := if isMain then probes.leaveMain else probes.leave
  let r := importBody body
  let r := { r with il := countOffsets r.il }
  let s := scan probes leaveMethod r
  let state := s.addPriorityProbe.foldl (insertPriority methodId) (s.rewriter, [])
  let state := s.addTargetProbe.foldl (insertTarget leaveMethod methodId) state
  let r := state.1.addEnterProbe enterMethod methodId
  { r with il := exportIL r.il }

end VSharp.CoverageInstrumenter.Rewriting
