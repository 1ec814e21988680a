import VSharp.IL.MethodBody

/-!
# IL — Import

`ImportIL` and `RecalculateOffsets` of `VSharp.IL/ILRewriter.fs`: the bytes of a method body as a
list of instructions.

- The linked list is a list, since every instruction is inserted before the sentinel `il`; a pointer
  to an instruction is its place in the list.
- The arguments of a switch follow it as instructions of their own (`SwitchArg`).
- `import_agrees`: the offsets of the list and of the targets in it are those that
  `findNextInstructionOffsetAndEdges` finds in the bytes.
-/

namespace VSharp.MethodBody
variable {code : List (BitVec 8)} {pos o n o' : ℕ} {op : OpCode} {instrs : List ILInstr}

open Library List

/-! ### The code -/

/-- A pointer to an instruction. -/
inductive Pointer where
  | il
  | node (i : ℕ)
deriving DecidableEq, Repr

/-- `opcode`. -/
inductive InstrOpcode where
  | opCode (op : OpCode)
  | switchArg
deriving DecidableEq, Repr

/-- `ilInstrOperand`: a target may be `null`. -/
inductive InstrOperand where
  | noArg
  | target (t : Option Pointer)
  | arg8 (v : BitVec 8)
  | arg16 (v : ℤ)
  | arg32 (v : ℤ)
  | arg64 (v : ℤ)
deriving DecidableEq, Repr

structure ILInstr where
  opcode : InstrOpcode
  offset : ℕ
  arg : InstrOperand
deriving DecidableEq, Repr

namespace InstrOperand

def size (operandType : OperandType) : InstrOperand → Except BadCode ℕ
  | noArg => .ok 0
  | target _ =>
    match operandType with
    | .shortInlineBrTarget => .ok 1
    | .inlineBrTarget => .ok 4
    | _ => .error .unreachable
  | arg8 _ => .ok 1
  | arg16 _ => .ok 2
  | arg32 _ => .ok 4
  | arg64 _ => .ok 8

end InstrOperand

namespace ILInstr

def sizeWithArg (instr : ILInstr) : Except BadCode ℕ :=
  match instr.opcode with
  | .opCode op => do .ok (op.size + (← instr.arg.size op.operandType))
  | .switchArg => .ok 4

def isJump (instr : ILInstr) : Bool :=
  match instr.opcode with
  | .opCode op => op.isBranch
  | .switchArg => true

end ILInstr

/-- What `ImportIL` has made so far. -/
structure Imported where
  instrs : List ILInstr
  offsetToInstr : ℕ → Option Pointer
  offset : ℕ
  branch : Bool

/-- At first there is the sentinel only, behind the bytes. -/
def Imported.start (code : List (BitVec 8)) : Imported where
  instrs := []
  offsetToInstr := Function.update (fun _ => none) code.length (some .il)
  offset := 0
  branch := false

/-- `InsertBefore` the sentinel. -/
def Imported.insert (s : Imported) (instr : ILInstr) : Imported :=
  { s with instrs := s.instrs ++ [instr] }

/-- The size of the operand in `ImportIL`; the targets of a switch are not counted. -/
def importSize : OperandType → Except BadCode ℕ
  | .inlineNone | .inlineSwitch => .ok 0
  | .shortInlineVar | .shortInlineI | .shortInlineBrTarget => .ok 1
  | .inlineVar => .ok 2
  | .inlineI | .inlineMethod | .inlineType | .inlineString | .inlineSig | .inlineTok
  | .shortInlineR | .inlineField | .inlineBrTarget => .ok 4
  | .inlineI8 | .inlineR => .ok 8
  | .inlinePhi => .error .unreachable

def endedUnexpectedly : BadCode := .incorrectCIL "IL stream unexpectedly ended!"

/-- The operand of an instruction in `ImportIL`; a target is an offset at first. -/
def importArg (code : List (BitVec 8)) (offset : ℕ) : OperandType → Except BadCode InstrOperand
  | .inlineNone => .ok .noArg
  | .shortInlineVar | .shortInlineI => do .ok (.arg8 (← byteAt code offset))
  | .inlineVar => do .ok (.arg16 (BitVec.ofNat 16 (← bytesAt code offset 2)).toInt)
  | .inlineI | .inlineMethod | .inlineType | .inlineString | .inlineSig | .inlineTok
  | .shortInlineR | .inlineField => do .ok (.arg32 (← extractInt32 code offset))
  | .inlineI8 | .inlineR => do .ok (.arg64 (BitVec.ofNat 64 (← bytesAt code offset 8)).toInt)
  | .shortInlineBrTarget => do
      let delta ← extractInt8 code offset
      .ok (.arg32 (int32 (offset + 1 + delta)))
  | .inlineBrTarget => do
      let delta ← extractInt32 code offset
      .ok (.arg32 (int32 (offset + 4 + delta)))
  | .inlineSwitch =>
    if code.length < offset + 4 then .error endedUnexpectedly
    else do .ok (.arg32 (← extractInt32 code offset))
  | .inlinePhi => .error (.incorrectCIL "Unexpected operand type!")

/-- One argument of a switch. -/
def importSwitchArg (code : List (BitVec 8)) (baseOffset : ℤ) (s : Imported) :
    Except BadCode Imported :=
  if code.length < s.offset + 4 then .error endedUnexpectedly
  else do
    let target := int32 (baseOffset + (← extractInt32 code s.offset))
    let s' := s.insert ⟨.switchArg, 0, .arg32 target⟩
    .ok { s' with offset := s.offset + 4 }

/-- The arguments of a switch. -/
def importSwitchArgs (code : List (BitVec 8)) (targetsCount : ℤ) (s : Imported) :
    Except BadCode Imported :=
  let baseOffset := s.offset + targetsCount * 4
  (List.range targetsCount.toNat).foldlM (fun s _ => importSwitchArg code baseOffset s) s

/-- One turn of the loop of `ImportIL`. -/
def importOne (T : OpCodes) (code : List (BitVec 8)) (s : Imported) : Except BadCode Imported := do
  let op ← getOpCode T code s.offset
  let offset := s.offset + op.size
  let size ← importSize op.operandType
  if code.length < offset + size then .error endedUnexpectedly
  else
    let arg ← importArg code offset op.operandType
    let s' := { s.insert ⟨.opCode op, s.offset, arg⟩ with
      offsetToInstr := Function.update s.offsetToInstr s.offset (some (.node s.instrs.length)) }
    match op.operandType, arg with
    | .inlineSwitch, .arg32 targetsCount =>
      importSwitchArgs code targetsCount { s' with offset := offset + 4, branch := true }
    | _, _ => .ok { s' with offset := offset + size, branch := s.branch || op.isBranch }

/-- The loop of `ImportIL`, with the number of its turns as fuel. -/
def importLoop (T : OpCodes) (code : List (BitVec 8)) : ℕ → Imported → Except BadCode Imported
  | 0, _ => .error .unreachable
  | n + 1, s =>
    if s.offset < code.length then do importLoop T code n (← importOne T code s) else .ok s

def instrFromOffset (code : List (BitVec 8)) (s : Imported) (offset : ℤ) :
    Except BadCode (Option Pointer) :=
  if code.length < offset then .error (.incorrectCIL "Too large offset requested!")
  else if offset < 0 then .error .indexOutOfRange
  else .ok (s.offsetToInstr offset.toNat)

/-- A jump gets the pointer to its target. -/
def setTarget (code : List (BitVec 8)) (s : Imported) (instr : ILInstr) : Except BadCode ILInstr :=
  if instr.isJump then
    match instr.arg with
    | .arg32 offset => do .ok { instr with arg := .target (← instrFromOffset code s offset) }
    | _ => .error (.incorrectCIL "Wrong operand of branching instruction!")
  else .ok instr

def importIL (T : OpCodes) (code : List (BitVec 8)) : Except BadCode (List ILInstr) := do
  let s ← importLoop T code (code.length + 1) (.start code)
  if s.branch then s.instrs.mapM (setTarget code s) else .ok s.instrs

/-- `RecalculateOffsets`, from an offset on. -/
def recalculateOffsets (offset : ℕ) : List ILInstr → Except BadCode (List ILInstr)
  | [] => .ok []
  | instr :: instrs => do
      let rest ← recalculateOffsets (offset + (← instr.sizeWithArg)) instrs
      .ok ({ instr with offset := offset } :: rest)

/-- `Import`, without the handlers. -/
def importInstrs (T : OpCodes) (code : List (BitVec 8)) : Except BadCode (List ILInstr) := do
  recalculateOffsets 0 (← importIL T code)

/-! ### One instruction -/

theorem int32_of_lt (h : n < 2 ^ 31) : int32 n = n := by
  rw [int32, BitVec.toInt_ofInt]
  exact Int.bmod_eq_of_le (by omega) (by omega)

theorem byteAt_ok (h : pos < code.length) :
    ∃ b, byteAt code pos = .ok b := by
  rw [byteAt, getElem?_eq_getElem h]
  exact ⟨_, rfl⟩

theorem bytesAt_ok (h : pos + n ≤ code.length) : ∃ k, bytesAt code pos n = .ok k := by
  rw [bytesAt, if_pos h]
  exact ⟨_, rfl⟩

theorem extractInt32_ok (h : pos + 4 ≤ code.length) :
    ∃ n, extractInt32 code pos = .ok n := by
  obtain ⟨k, hk⟩ := bytesAt_ok h
  exact ⟨_, by rw [extractInt32, bind_ok hk]⟩

/-- The operand of an instruction without targets is as long as its type says. -/
theorem importArg_plain {k : ℕ} {t : OperandType}
    (ht : t ≠ .inlineSwitch ∧ t ≠ .inlineBrTarget ∧ t ≠ .shortInlineBrTarget)
    (hsize : importSize t = .ok k) (hle : pos + k ≤ code.length) :
    ∃ arg, importArg code pos t = .ok arg ∧ arg.size t = .ok k := by
  cases t <;> cases hsize
  case inlineNone => exact ⟨_, rfl, rfl⟩
  case inlineSwitch => exact absurd rfl ht.1
  case inlineBrTarget => exact absurd rfl ht.2.1
  case shortInlineBrTarget => exact absurd rfl ht.2.2
  case shortInlineVar | shortInlineI =>
    obtain ⟨b, hb⟩ := byteAt_ok hle
    exact ⟨.arg8 b, by rw [importArg, bind_ok hb], rfl⟩
  case inlineVar =>
    obtain ⟨n, hn⟩ := bytesAt_ok hle
    exact ⟨_, by rw [importArg, bind_ok hn], rfl⟩
  case inlineI8 | inlineR =>
    obtain ⟨n, hn⟩ := bytesAt_ok hle
    exact ⟨_, by rw [importArg, bind_ok hn], rfl⟩
  all_goals
    obtain ⟨n, hn⟩ := extractInt32_ok hle
    exact ⟨.arg32 n, by rw [importArg, bind_ok hn], rfl⟩

/-- What `ImportIL` makes of one instruction, from its place to the one behind it, with the targets
that it has. -/
inductive Block (op : OpCode) (o : ℕ) : ℕ → List ℤ → List ILInstr → Prop where
  | plain {k : ℕ} {arg : InstrOperand} (hbranch : op.isBranch = false)
      (hswitch : op.operandType ≠ .inlineSwitch) (hsize : arg.size op.operandType = .ok k) :
      Block op o (o + op.size + k) [] [⟨.opCode op, o, arg⟩]
  | branch {k : ℕ} {t : ℤ} (hbranch : op.isBranch = true)
      (hsize : ∀ p, (InstrOperand.target p).size op.operandType = .ok k) :
      Block op o (o + op.size + k) [t] [⟨.opCode op, o, .arg32 t⟩]
  | switch {targets : List ℤ} (hswitch : op.operandType = .inlineSwitch) :
      Block op o (o + op.size + 4 + 4 * targets.length) targets
        (⟨.opCode op, o, .arg32 targets.length⟩ :: targets.map fun t => ⟨.switchArg, 0, .arg32 t⟩)

/-- The operand has the size that `findNextInstructionOffsetAndEdges` takes it to have. -/
theorem operandSize_eq (h : op.Documented) : ∃ k, importSize op.operandType = .ok k ∧
    (op.operandType ≠ .inlineSwitch → operandSize op = k) := by
  have hphi := h.operandType_ne
  rw [operandSize]
  cases ht : op.operandType
  case inlinePhi => exact absurd ht hphi
  case inlineSwitch => exact ⟨0, rfl, fun h => absurd rfl h⟩
  all_goals exact ⟨_, rfl, fun _ => rfl⟩

section
variable {T : OpCodes} {code : List (BitVec 8)} {op : OpCode} {o o' : ℕ} {transition : IpTransition}
variable {k n : ℕ} {s : Imported} {targets : List ℤ} {delta : ℤ} {instrs : List ILInstr}

/-- An instruction that is no branch and no switch has no targets. -/
theorem targets_plain (h : op.Documented) (hbranch : op.isBranch = false)
    (hswitch : op.operandType ≠ .inlineSwitch)
    (htr : findNextInstructionOffsetAndEdges op code o = .ok transition) :
    transition.targets = [] := by
  have hflow : op.flowControl ≠ .branch ∧ op.flowControl ≠ .condBranch := by
    have hno : ¬ (op.isBranch = true) := by rw [hbranch]; exact Bool.false_ne_true
    rw [h.isBranch_iff, not_or, not_and] at hno
    exact ⟨hno.1, fun hcond => hno.2 hcond hswitch⟩
  rw [findNextInstructionOffsetAndEdges] at htr
  cases hf : op.flowControl <;> rw [hf] at htr
  case branch => exact absurd hf hflow.1
  case condBranch => exact absurd hf hflow.2
  case phi => cases htr
  all_goals
    cases htr
    rfl

theorem sequentialSuccessor_eq (hswitch : op.operandType ≠ .inlineSwitch)
    (hsize : operandSize op = k) (hnext : sequentialSuccessor op code o = .ok (o' : ℤ)) :
    o' = o + op.size + k := by
  have hseq : sequentialSuccessor op code o = .ok (o + op.size + operandSize op) := by
    unfold sequentialSuccessor
    split
    · exact absurd ‹op.operandType = .inlineSwitch› hswitch
    · rfl
  rw [hseq, hsize] at hnext
  have := Except.ok.inj hnext
  omega

/-- The turn of an instruction without targets. -/
theorem importOne_plain (h : op.Documented) (hbranch : op.isBranch = false)
    (hswitch : op.operandType ≠ .inlineSwitch) (hop : getOpCode T code s.offset = .ok op)
    (hnext : sequentialSuccessor op code s.offset = .ok (o' : ℤ)) (hle : o' ≤ code.length) :
    ∃ instrs, Block op s.offset o' [] instrs ∧ importOne T code s = .ok
      ⟨s.instrs ++ instrs,
        Function.update s.offsetToInstr s.offset (some (.node s.instrs.length)), o', s.branch⟩ := by
  obtain ⟨k, hk, hsize⟩ := operandSize_eq h
  have hsize := hsize hswitch
  obtain rfl := sequentialSuccessor_eq hswitch hsize hnext
  have hnot : op.operandType ≠ .inlineBrTarget ∧ op.operandType ≠ .shortInlineBrTarget := by
    simpa [OpCode.isBranch] using hbranch
  obtain ⟨arg, harg, hargsize⟩ := importArg_plain ⟨hswitch, hnot⟩ hk hle
  refine ⟨_, .plain hbranch hswitch hargsize, ?_⟩
  rw [importOne, bind_ok hop, bind_ok hk, if_neg (by omega), bind_ok harg]
  dsimp only
  split
  · next ht _ => exact absurd ‹op.operandType = .inlineSwitch› hswitch
  · rw [hbranch, Bool.or_false]
    rfl

/-- The target of an unconditional branch; an operand that is zero needs no sum. -/
theorem unconditional_target (hn : n < 2 ^ 31) {leave : Prop} [Decidable leave] :
    (if delta = 0 ∧ ¬ leave then
        (.ok (.unconditionalBranch n) : Except BadCode IpTransition)
      else .ok (.unconditionalBranch (int32 (delta + n)))) =
      .ok (.unconditionalBranch (int32 (n + delta))) := by
  split
  · next hzero =>
      rw [hzero.1, Int.add_zero, int32_of_lt hn]
  · rw [Int.add_comm]

theorem importArg_branch (hbranch : op.isBranch = true) (hk : importSize op.operandType = .ok k)
    (hdelta : branchOperand op code o = .ok delta) :
    importArg code (o + op.size) op.operandType =
      .ok (.arg32 (int32 ((o + op.size + k : ℕ) + delta))) := by
  have htypes : op.operandType = .inlineBrTarget ∨ op.operandType = .shortInlineBrTarget := by
    simpa [OpCode.isBranch] using hbranch
  rw [branchOperand] at hdelta
  rcases htypes with ht | ht <;> rw [ht] at hk hdelta ⊢ <;> obtain rfl := Except.ok.inj hk
  · rw [importArg, bind_ok hdelta]
    push_cast
    rfl
  · rw [importArg, bind_ok hdelta]
    push_cast
    rfl

theorem findNext_branch (h : op.Documented) (hbranch : op.isBranch = true)
    (hnext : o + op.size + operandSize op = n) (hn : n < 2 ^ 31)
    (htr : findNextInstructionOffsetAndEdges op code o = .ok transition) :
    ∃ delta, branchOperand op code o = .ok delta ∧ transition.targets = [int32 (n + delta)] := by
  have htypes : op.operandType = .inlineBrTarget ∨ op.operandType = .shortInlineBrTarget := by
    simpa [OpCode.isBranch] using hbranch
  have hflow : op.flowControl = .branch ∨ op.flowControl = .condBranch :=
    (h.isBranch_iff.mp hbranch).imp id And.left
  rw [findNextInstructionOffsetAndEdges] at htr
  rcases hflow with hf | hf <;> rw [hf] at htr
  · obtain ⟨delta, hdelta, htr⟩ := bind_eq_ok (x := branchOperand op code o) htr
    dsimp only at htr
    rw [hnext, unconditional_target hn] at htr
    obtain rfl := Except.ok.inj htr
    exact ⟨delta, hdelta, rfl⟩
  · dsimp only at htr
    rw [branchOperand]
    rcases htypes with ht | ht <;> rw [ht] at htr ⊢
    · obtain ⟨delta, hdelta, htr⟩ := bind_eq_ok htr
      dsimp only at htr
      rw [hnext] at htr
      obtain rfl := Except.ok.inj htr
      exact ⟨delta, hdelta, rfl⟩
    · obtain ⟨delta, hdelta, htr⟩ := bind_eq_ok htr
      dsimp only at htr
      rw [hnext] at htr
      obtain rfl := Except.ok.inj htr
      exact ⟨delta, hdelta, rfl⟩

theorem size_target (hbranch : op.isBranch = true) (hk : importSize op.operandType = .ok k)
    (p : Option Pointer) : (InstrOperand.target p).size op.operandType = .ok k := by
  have htypes : op.operandType = .inlineBrTarget ∨ op.operandType = .shortInlineBrTarget := by
    simpa [OpCode.isBranch] using hbranch
  rcases htypes with ht | ht <;> rw [ht] at hk ⊢ <;> exact hk

/-- The turn of a branch: its target is the one that `findNextInstructionOffsetAndEdges` finds. -/
theorem importOne_branch (h : op.Documented) (hcode : code.length < 2 ^ 31)
    (hbranch : op.isBranch = true) (hop : getOpCode T code s.offset = .ok op)
    (hnext : sequentialSuccessor op code s.offset = .ok (o' : ℤ)) (hle : o' ≤ code.length)
    (htr : findNextInstructionOffsetAndEdges op code s.offset = .ok transition) :
    ∃ instrs, Block op s.offset o' transition.targets instrs ∧ importOne T code s = .ok
      ⟨s.instrs ++ instrs,
        Function.update s.offsetToInstr s.offset (some (.node s.instrs.length)), o', true⟩ := by
  obtain ⟨k, hk, hsize⟩ := operandSize_eq h
  have hswitch : op.operandType ≠ .inlineSwitch := by
    intro ht
    simp [OpCode.isBranch, ht] at hbranch
  obtain rfl := sequentialSuccessor_eq hswitch (hsize hswitch) hnext
  have hsum : (s.offset : ℤ) + op.size + operandSize op = (s.offset + op.size + k : ℕ) := by
    rw [hsize hswitch]
    push_cast
    rfl
  obtain ⟨delta, hdelta, htargets⟩ := findNext_branch h hbranch hsum (by omega) htr
  have harg := importArg_branch hbranch hk hdelta
  rw [htargets]
  refine ⟨_, .branch hbranch fun p => size_target hbranch hk p, ?_⟩
  rw [importOne, bind_ok hop, bind_ok hk, if_neg (by omega), bind_ok harg]
  dsimp only
  split
  · next ht _ => exact absurd ‹op.operandType = .inlineSwitch› hswitch
  · rw [hbranch, Bool.or_true]
    rfl

theorem le_of_extractInt32 {n : ℤ} (h : extractInt32 code pos = .ok n) : pos + 4 ≤ code.length := by
  by_contra hlt
  rw [extractInt32, bytesAt, if_neg hlt] at h
  cases h

/-- The arguments of a switch, from one of them on. -/
theorem importSwitchArgs_from {base : ℤ} {first a m : ℕ}
    (h : List.Forall₂ (fun x t => ∃ v, extractInt32 code (first + 4 * x) = .ok v ∧
      t = int32 (base + v)) (List.range' a m) targets) (hs : s.offset = first + 4 * a) :
    (List.range' a m).foldlM (fun s _ => importSwitchArg code base s) s =
      .ok { s with
        instrs := s.instrs ++ targets.map fun t => ⟨.switchArg, 0, .arg32 t⟩
        offset := s.offset + 4 * targets.length } := by
  induction m generalizing a targets s with
  | zero =>
    cases h
    simp
    rfl
  | succ m ih =>
    rw [range'_succ] at h ⊢
    obtain _ | ⟨⟨v, hv, rfl⟩, hs'⟩ := h
    have hstep : importSwitchArg code base s = .ok
        { s with
          instrs := s.instrs ++ [⟨.switchArg, 0, .arg32 (int32 (base + v))⟩]
          offset := s.offset + 4 } := by
      have hle := le_of_extractInt32 hv
      rw [importSwitchArg, if_neg (by omega), hs, bind_ok hv]
      rfl
    rw [foldlM_cons, bind_ok hstep, ih hs' (by simp [hs]; omega)]
    simp [Nat.mul_add, Nat.add_assoc, Nat.add_comm]

/-- What `inlineSwitch` reads. -/
theorem inlineSwitch_ok (htr : inlineSwitch op code o = .ok transition) :
    ∃ (n : ℕ) (targets : List ℤ), extractInt32 code (o + op.size) = .ok (n : ℤ) ∧
      transition.targets = targets ∧
      List.Forall₂ (fun x t => ∃ v, extractInt32 code (o + op.size + 4 + 4 * x) = .ok v ∧
        t = int32 ((o + op.size + 4 : ℕ) + n * 4 + v)) (List.range' 0 n) targets := by
  obtain ⟨n, hn, htr⟩ := bind_eq_ok htr
  dsimp only at htr
  split at htr
  · cases htr
  · next hneg =>
      obtain ⟨targets, htargets, htr⟩ := bind_eq_ok htr
      obtain rfl := Except.ok.inj htr
      lift n to ℕ using by omega
      refine ⟨n, targets, hn, rfl, ?_⟩
      rw [Int.toNat_natCast, range_eq_range'] at htargets
      refine (forall₂_of_mapM htargets).imp fun x t hx => ?_
      obtain ⟨v, hv, ht⟩ := bind_eq_ok hx
      have hplace : o + op.size + 4 * (x + 1) = o + op.size + 4 + 4 * x := by omega
      refine ⟨v, by rw [← hplace, hv], ?_⟩
      rw [← Except.ok.inj ht]
      congr 1
      push_cast
      omega

/-- The turn of a switch: its arguments have the targets that `findNextInstructionOffsetAndEdges`
finds. -/
theorem importOne_switch (h : op.Documented) (hswitch : op.operandType = .inlineSwitch)
    (hop : getOpCode T code s.offset = .ok op)
    (hnext : sequentialSuccessor op code s.offset = .ok (o' : ℤ))
    (htr : findNextInstructionOffsetAndEdges op code s.offset = .ok transition) :
    ∃ instrs, Block op s.offset o' transition.targets instrs ∧ importOne T code s = .ok
      ⟨s.instrs ++ instrs,
        Function.update s.offsetToInstr s.offset (some (.node s.instrs.length)), o', true⟩ := by
  rw [findNextInstructionOffsetAndEdges, h.inlineSwitch hswitch, hswitch] at htr
  obtain ⟨n, targets, hn, htargets, hall⟩ := inlineSwitch_ok htr
  have hle := le_of_extractInt32 hn
  have hlength : targets.length = n := by rw [← hall.length_eq, length_range']
  obtain rfl : o' = s.offset + op.size + 4 + 4 * targets.length := by
    rw [sequentialSuccessor, hswitch] at hnext
    obtain ⟨m, hm, hseq⟩ := bind_eq_ok hnext
    have hmn : m = n := Except.ok.inj (hm.symm.trans hn)
    have := Except.ok.inj hseq
    omega
  have harg : importArg code (s.offset + op.size) op.operandType = .ok (.arg32 targets.length) := by
    rw [hswitch, importArg, if_neg (by omega), bind_ok hn, hlength]
  have hsize : importSize op.operandType = .ok 0 := by rw [hswitch]; rfl
  rw [htargets]
  refine ⟨_, .switch hswitch, ?_⟩
  rw [importOne, bind_ok hop, bind_ok hsize, if_neg (by omega), bind_ok harg, hswitch]
  dsimp only
  rw [importSwitchArgs, Int.toNat_natCast, range_eq_range', hlength]
  refine (importSwitchArgs_from hall rfl).trans (congrArg Except.ok ?_)
  simp [Imported.insert, hlength]

theorem Block.not_isJump (h : Block op o o' targets instrs) (hbranch : op.isBranch = false)
    (hswitch : op.operandType ≠ .inlineSwitch) : ∀ instr ∈ instrs, instr.isJump = false := by
  cases h with
  | plain => exact forall_mem_singleton.mpr hbranch
  | branch hbranch' =>
    rw [hbranch] at hbranch'
    cases hbranch'
  | switch hswitch' => exact absurd hswitch' hswitch

/-- The operand of a jump in a block is one of the targets. -/
theorem Block.jump (h : Block op o o' targets instrs) {instr : ILInstr} (hinstr : instr ∈ instrs)
    (hjump : instr.isJump = true) : ∃ t, instr.arg = .arg32 t ∧ t ∈ targets := by
  cases h with
  | plain hbranch =>
    obtain rfl := mem_singleton.mp hinstr
    exact absurd hjump (Bool.eq_false_iff.mp hbranch)
  | branch =>
    obtain rfl := mem_singleton.mp hinstr
    exact ⟨_, rfl, mem_cons_self⟩
  | switch hswitch =>
    rcases mem_cons.mp hinstr with rfl | harg
    · have hbranch : op.isBranch = false := by simp [OpCode.isBranch, hswitch]
      exact absurd hjump (Bool.eq_false_iff.mp hbranch)
    · obtain ⟨t, ht, rfl⟩ := mem_map.mp harg
      exact ⟨t, rfl, ht⟩

/-- One turn imports one instruction; without branches nothing is a jump. -/
theorem importOne_ok (h : op.Documented) (hcode : code.length < 2 ^ 31)
    (hop : getOpCode T code s.offset = .ok op)
    (hnext : sequentialSuccessor op code s.offset = .ok (o' : ℤ)) (hle : o' ≤ code.length)
    (htr : findNextInstructionOffsetAndEdges op code s.offset = .ok transition) :
    ∃ instrs branch, Block op s.offset o' transition.targets instrs ∧
      importOne T code s = .ok ⟨s.instrs ++ instrs,
        Function.update s.offsetToInstr s.offset (some (.node s.instrs.length)), o', branch⟩ ∧
      (branch = false → s.branch = false ∧ ∀ instr ∈ instrs, instr.isJump = false) := by
  by_cases hswitch : op.operandType = .inlineSwitch
  · obtain ⟨instrs, hblock, hrun⟩ := importOne_switch h hswitch hop hnext htr
    exact ⟨instrs, true, hblock, hrun, nofun⟩
  cases hbranch : op.isBranch with
  | true =>
    obtain ⟨instrs, hblock, hrun⟩ := importOne_branch h hcode hbranch hop hnext hle htr
    exact ⟨instrs, true, hblock, hrun, nofun⟩
  | false =>
    obtain ⟨instrs, hblock, hrun⟩ := importOne_plain h hbranch hswitch hop hnext hle
    rw [← targets_plain h hbranch hswitch htr] at hblock
    exact ⟨instrs, s.branch, hblock, hrun, fun hs => ⟨hs, hblock.not_isJump hbranch hswitch⟩⟩

end

/-! ### The loop -/

theorem Block.lt {targets : List ℤ} (h : Block op o o' targets instrs) (hop : op.Documented) :
    o < o' := by
  have hsize := hop.size_pos
  cases h <;> omega

/-- The instruction of a block is its first one, and the only one with an opcode. -/
theorem Block.head {targets : List ℤ} (h : Block op o o' targets instrs) :
    ∃ arg args, instrs = ⟨.opCode op, o, arg⟩ :: args ∧
      ∀ instr ∈ args, instr.opcode = .switchArg := by
  cases h with
  | plain => exact ⟨_, [], rfl, nofun⟩
  | branch => exact ⟨_, [], rfl, nofun⟩
  | @switch targets hswitch =>
    refine ⟨_, _, rfl, fun instr hinstr => ?_⟩
    obtain ⟨t, -, rfl⟩ := mem_map.mp hinstr
    rfl

/-- What the turns keep: the instructions so far are found under their offsets, and none is a jump
unless `branch` says so. -/
structure Progress (s : Imported) : Prop where
  found : ∀ i instr op, s.instrs[i]? = some instr → instr.opcode = .opCode op →
    s.offsetToInstr instr.offset = some (.node i)
  below : ∀ instr ∈ s.instrs, ∀ op, instr.opcode = .opCode op → instr.offset < s.offset
  jumps : s.branch = false → ∀ instr ∈ s.instrs, instr.isJump = false

theorem Progress.start (code : List (BitVec 8)) : Progress (.start code) where
  found i instr op hi := by cases hi
  below instr hinstr := by cases hinstr
  jumps _ instr hinstr := by cases hinstr

theorem Progress.next {s : Imported} (h : Progress s) {targets : List ℤ}
    (hblock : Block op s.offset o' targets instrs) (hop : op.Documented) {branch : Bool}
    (hbranch : branch = false → s.branch = false ∧ ∀ instr ∈ instrs, instr.isJump = false) :
    Progress ⟨s.instrs ++ instrs,
      Function.update s.offsetToInstr s.offset (some (.node s.instrs.length)), o', branch⟩ := by
  obtain ⟨arg, args, rfl, hargs⟩ := hblock.head
  have hlt := hblock.lt hop
  refine ⟨fun i instr op' hi hop' => ?_, fun instr hinstr op' hop' => ?_, fun hb instr hinstr => ?_⟩
  · dsimp only at hi ⊢
    rw [getElem?_append] at hi
    split at hi
    · have hold := h.below instr (mem_of_getElem? hi) op' hop'
      rw [Function.update_of_ne (by omega)]
      exact h.found i instr op' hi hop'
    · next hge =>
        cases hi' : i - s.instrs.length with
        | zero =>
          rw [hi', getElem?_cons_zero] at hi
          obtain rfl := Option.some_inj.mp hi
          rw [Function.update_self, show i = s.instrs.length by omega]
        | succ j =>
          rw [hi', getElem?_cons_succ] at hi
          rw [hargs instr (mem_of_getElem? hi)] at hop'
          cases hop'
  · rcases mem_append.mp hinstr with hold | hnew
    · exact Nat.lt_trans (h.below instr hold op' hop') hlt
    · rcases mem_cons.mp hnew with rfl | harg
      · exact hlt
      · rw [hargs instr harg] at hop'
        cases hop'
  · obtain ⟨hs, hnew⟩ := hbranch hb
    exact (mem_append.mp hinstr).elim (h.jumps hs instr) (hnew instr)

/-- The instructions from a place on, block by block. -/
inductive Laid (T : OpCodes) (code : List (BitVec 8)) : ℕ → List ILInstr → Prop where
  | done : Laid T code code.length []
  | next {o o' : ℕ} {op : OpCode} {transition : IpTransition} {block rest : List ILInstr}
      (hlt : o < code.length) (hop : getOpCode T code o = .ok op)
      (hnext : sequentialSuccessor op code o = .ok (o' : ℤ))
      (htr : findNextInstructionOffsetAndEdges op code o = .ok transition)
      (hblock : Block op o o' transition.targets block) (hrest : Laid T code o' rest) :
      Laid T code o (block ++ rest)

section
variable {T : OpCodes} {code : List (BitVec 8)}

theorem OpCodes.Documented.getOpCode (hT : T.Documented) (hop : getOpCode T code o = .ok op) :
    op.Documented := by
  rw [MethodBody.getOpCode] at hop
  obtain ⟨b, -, hop⟩ := bind_eq_ok hop
  split at hop
  · obtain rfl := Except.ok.inj hop
    exact hT.single b
  · split at hop
    · cases hop
    · obtain ⟨b', -, hop⟩ := bind_eq_ok hop
      obtain rfl := Except.ok.inj hop
      exact hT.two b'

/-- The loop imports the instructions from its place on. -/
theorem importLoop_ok (hT : T.Documented) (hcode : WellFormed T code) {n : ℕ} {s : Imported}
    (hs : Progress s) (hreached : Reached T code s.offset) (hle : s.offset ≤ code.length)
    (hn : code.length - s.offset < n) :
    ∃ s' instrs, importLoop T code n s = .ok s' ∧ s'.instrs = s.instrs ++ instrs ∧ Progress s' ∧
      Laid T code s.offset instrs := by
  induction n generalizing s with
  | zero => omega
  | succ n ih =>
    rw [importLoop]
    split
    · next hlt =>
        obtain ⟨op, transition, o', hop, hnext, hle', htr, -⟩ :=
          hcode.instructions s.offset ⟨hreached, hlt⟩
        have hdoc := hT.getOpCode hop
        obtain ⟨block, branch, hblock, hrun, hbranch⟩ :=
          importOne_ok hdoc hcode.length_lt hop hnext hle' htr
        have hlt' := hblock.lt hdoc
        obtain ⟨s', instrs, hloop, hinstrs, hs', hlaid⟩ := ih (hs.next hblock hdoc hbranch)
          (.next hreached hlt hop hnext) hle' (by dsimp only; omega)
        refine ⟨s', block ++ instrs, by rw [bind_ok hrun, hloop], ?_, hs',
          .next hlt hop hnext htr hblock hlaid⟩
        rw [hinstrs, append_assoc]
    · next hge =>
        have heq : s.offset = code.length := by omega
        exact ⟨s, [], rfl, (append_nil _).symm, hs, heq ▸ .done⟩

end

/-! ### Targets and offsets -/

/-- An instruction with the pointer to its target. -/
def aim (s : Imported) (instr : ILInstr) : ILInstr :=
  if instr.isJump then
    match instr.arg with
    | .arg32 t => { instr with arg := .target (s.offsetToInstr t.toNat) }
    | _ => instr
  else instr

/-- An instruction in the list, with what `RecalculateOffsets` has made of it. -/
structure Moved (s : Imported) (instr node : ILInstr) : Prop where
  opcode : node.opcode = instr.opcode
  arg : node.arg = (aim s instr).arg
  offset : ∀ op, instr.opcode = .opCode op → node.offset = instr.offset

section
variable {s : Imported} {op : OpCode} {o o' : ℕ} {targets : List ℤ} {block : List ILInstr}
variable {instr : ILInstr} {q k : ℕ} {tail nodes : List ILInstr}

theorem aim_opcode (instr : ILInstr) : (aim s instr).opcode = instr.opcode := by
  unfold aim
  split
  · split <;> rfl
  · rfl

theorem moved_switchArg (t : ℤ) (q : ℕ) :
    Moved s ⟨.switchArg, 0, .arg32 t⟩ { aim s ⟨.switchArg, 0, .arg32 t⟩ with offset := q } :=
  ⟨rfl, rfl, nofun⟩

theorem aim_of_not_isJump (h : instr.isJump = false) : aim s instr = instr :=
  if_neg (by rw [h]; exact Bool.false_ne_true)

theorem aim_of_isJump (h : instr.isJump = true) {t : ℤ} (harg : instr.arg = .arg32 t) :
    aim s instr = { instr with arg := .target (s.offsetToInstr t.toNat) } := by
  rw [aim, if_pos h, harg]

theorem sizeWithArg_opCode {arg : InstrOperand} (h : arg.size op.operandType = .ok k) :
    (⟨.opCode op, q, arg⟩ : ILInstr).sizeWithArg = .ok (op.size + k) := by
  show (do .ok (op.size + (← arg.size op.operandType)) : Except BadCode ℕ) = _
  rw [bind_ok h]

theorem recalculateOffsets_cons (hsize : instr.sizeWithArg = .ok k)
    (htail : recalculateOffsets (q + k) tail = .ok nodes) :
    recalculateOffsets q (instr :: tail) = .ok ({ instr with offset := q } :: nodes) := by
  rw [recalculateOffsets, bind_ok hsize, bind_ok htail]

/-- The arguments of a switch take four bytes each. -/
theorem recalculateOffsets_args (ts : List ℤ)
    (htail : recalculateOffsets (q + 4 * ts.length) tail = .ok nodes) :
    ∃ args, recalculateOffsets q
        ((ts.map fun t => (⟨.switchArg, 0, .arg32 t⟩ : ILInstr)).map (aim s) ++ tail) =
        .ok (args ++ nodes) ∧
      List.Forall₂ (Moved s) (ts.map fun t => ⟨.switchArg, 0, .arg32 t⟩) args := by
  induction ts generalizing q with
  | nil => exact ⟨[], htail, .nil⟩
  | cons t ts ih =>
    rw [length_cons, show q + 4 * (ts.length + 1) = q + 4 + 4 * ts.length by omega] at htail
    obtain ⟨args, hargs, hmoved⟩ := ih htail
    have hsize : (aim s ⟨.switchArg, 0, .arg32 t⟩).sizeWithArg = .ok 4 := rfl
    exact ⟨_ :: args, recalculateOffsets_cons hsize hargs, .cons (moved_switchArg t q) hmoved⟩

/-- The first instruction of a block keeps its offset, and the block its length. -/
theorem Block.moved (h : Block op o o' targets block)
    (htail : recalculateOffsets o' tail = .ok nodes) :
    ∃ block', recalculateOffsets o (block.map (aim s) ++ tail) = .ok (block' ++ nodes) ∧
      List.Forall₂ (Moved s) block block' := by
  cases h with
  | @plain k arg hbranch hswitch hsize =>
    have hsize' : (aim s ⟨.opCode op, o, arg⟩).sizeWithArg = .ok (op.size + k) := by
      rw [@aim_of_not_isJump s ⟨.opCode op, o, arg⟩ hbranch]
      exact sizeWithArg_opCode hsize
    rw [Nat.add_assoc] at htail
    exact ⟨[_], recalculateOffsets_cons hsize' htail,
      .cons ⟨aim_opcode _, rfl, fun _ _ => rfl⟩ .nil⟩
  | @branch k t hbranch hsize =>
    have hsize' : (aim s ⟨.opCode op, o, .arg32 t⟩).sizeWithArg = .ok (op.size + k) := by
      rw [@aim_of_isJump s ⟨.opCode op, o, .arg32 t⟩ hbranch t rfl]
      exact sizeWithArg_opCode (hsize _)
    rw [Nat.add_assoc] at htail
    exact ⟨[_], recalculateOffsets_cons hsize' htail,
      .cons ⟨aim_opcode _, rfl, fun _ _ => rfl⟩ .nil⟩
  | switch hswitch =>
    obtain ⟨args, hargs, hmoved⟩ := recalculateOffsets_args targets htail
    have hbranch : op.isBranch = false := by simp [OpCode.isBranch, hswitch]
    have hsize' : (aim s ⟨.opCode op, o, .arg32 targets.length⟩).sizeWithArg =
        .ok (op.size + 4) := by
      rw [@aim_of_not_isJump s ⟨.opCode op, o, .arg32 targets.length⟩ hbranch]
      exact sizeWithArg_opCode rfl
    rw [Nat.add_assoc o] at hargs
    exact ⟨_ :: args, recalculateOffsets_cons hsize' hargs,
      .cons ⟨aim_opcode _, rfl, fun _ _ => rfl⟩ hmoved⟩

/-- Recalculating the offsets moves no instruction. -/
theorem Laid.moved {T : OpCodes} {instrs : List ILInstr} (h : Laid T code o instrs) :
    ∃ nodes, recalculateOffsets o (instrs.map (aim s)) = .ok nodes ∧
      List.Forall₂ (Moved s) instrs nodes := by
  induction h with
  | done => exact ⟨[], rfl, .nil⟩
  | next hlt hop hnext htr hblock hrest ih =>
    obtain ⟨nodes, hnodes, hmoved⟩ := ih
    obtain ⟨block', hrun, hmoved'⟩ := hblock.moved hnodes
    exact ⟨block' ++ nodes, by rw [map_append, hrun], rel_append hmoved' hmoved⟩

end

/-! ### The instructions of a body -/

section
variable {T : OpCodes} {code : List (BitVec 8)} {o : ℕ} {instrs : List ILInstr} {instr : ILInstr}

/-- The instructions of the list stand where the bytes have them, each with its block and followed
by the instructions behind it. -/
theorem Laid.split (h : Laid T code o instrs) {i : ℕ} (hi : instrs[i]? = some instr)
    (hop : instr.opcode = .opCode op) :
    ∃ o' transition before block after, instrs = before ++ block ++ after ∧ before.length = i ∧
      instr.offset < code.length ∧ getOpCode T code instr.offset = .ok op ∧
      sequentialSuccessor op code instr.offset = .ok ((o' : ℕ) : ℤ) ∧
      findNextInstructionOffsetAndEdges op code instr.offset = .ok transition ∧
      Block op instr.offset o' transition.targets block ∧ Laid T code o' after := by
  induction h generalizing i with
  | done => cases hi
  | @next o o' op' transition block rest hlt hop' hnext htr hblock hrest ih =>
    obtain ⟨arg, args, rfl, hargs⟩ := hblock.head
    rw [getElem?_append] at hi
    split at hi
    · cases i with
      | zero =>
        obtain rfl := Option.some_inj.mp hi
        obtain rfl := InstrOpcode.opCode.inj hop
        exact ⟨o', transition, [], _, rest, rfl, rfl, hlt, hop', hnext, htr, hblock, hrest⟩
      | succ j =>
        rw [getElem?_cons_succ] at hi
        rw [hargs instr (mem_of_getElem? hi)] at hop
        cases hop
    · next hge =>
        obtain ⟨o'', transition', before, block', after, rfl, hbefore, h⟩ := ih hi
        refine ⟨o'', transition', ⟨.opCode op', o, arg⟩ :: args ++ before, block', after, by simp,
          ?_, h⟩
        rw [length_append, hbefore]
        omega

theorem Laid.start (h : Laid T code o instrs) (hlt : o < code.length) :
    ∃ instr ∈ instrs, ∃ op, instr.opcode = .opCode op ∧ instr.offset = o := by
  cases h with
  | done => omega
  | next _ _ _ _ hblock =>
    obtain ⟨arg, args, rfl, -⟩ := hblock.head
    exact ⟨_, mem_cons_self, _, rfl, rfl⟩

/-- The offsets of the list are reached. -/
theorem Laid.reached (h : Laid T code o instrs) (ho : Reached T code o) (hinstr : instr ∈ instrs)
    (hop : instr.opcode = .opCode op) : IsInstruction T code instr.offset := by
  induction h with
  | done => cases hinstr
  | @next o o' op' transition block rest hlt hop' hnext htr hblock hrest ih =>
    obtain ⟨arg, args, rfl, hargs⟩ := hblock.head
    rcases mem_append.mp hinstr with hblock | hrest
    · rcases mem_cons.mp hblock with rfl | harg
      · exact ⟨ho, hlt⟩
      · rw [hargs instr harg] at hop
        cases hop
    · exact ih (.next ho hlt hop' hnext) hrest

/-- What is reached is in the list, up to the end of the body. -/
theorem Laid.complete (h : Laid T code 0 instrs) (ho : IsInstruction T code o) :
    ∃ instr ∈ instrs, ∃ op, instr.opcode = .opCode op ∧ instr.offset = o := by
  obtain ⟨hreached, hlt⟩ := ho
  induction hreached with
  | zero => exact h.start hlt
  | @next o o' op _ hlt' hop hnext ih =>
    obtain ⟨instr, hinstr, op', hop', rfl⟩ := ih hlt'
    obtain ⟨i, hi⟩ := getElem?_of_mem hinstr
    obtain ⟨o'', transition, before, block, after, rfl, -, -, hget, hseq, -, -, hafter⟩ :=
      h.split hi hop'
    obtain rfl := Except.ok.inj (hget.symm.trans hop)
    obtain rfl : o'' = o' := by
      have := Except.ok.inj (hseq.symm.trans hnext)
      omega
    obtain ⟨instr', hinstr', hstart⟩ := hafter.start hlt
    exact ⟨instr', mem_append_right _ hinstr', hstart⟩

end

/-! ### The targets of a list -/

/-- The target operands of the instruction at a place: its own if it is a branch, and those of the
arguments behind it if it is a switch. -/
def targetArgs (nodes : List ILInstr) (i : ℕ) : List InstrOperand :=
  match nodes.drop i with
  | ⟨.opCode op, _, arg⟩ :: after =>
    if op.operandType = .inlineSwitch then
      (after.takeWhile fun instr => instr.opcode = .switchArg).map (·.arg)
    else if op.isBranch then [arg]
    else []
  | _ => []

/-- The offset of the instruction that an operand points to. -/
def targetOffset (nodes : List ILInstr) : InstrOperand → Option ℤ
  | .target (some (.node p)) => nodes[p]?.map fun instr => (instr.offset : ℤ)
  | _ => none

section
variable {T : OpCodes} {code : List (BitVec 8)} {s : Imported}
variable {instrs nodes : List ILInstr} {instr : ILInstr} {i : ℕ}

theorem Moved.takeWhile (h : List.Forall₂ (Moved s) instrs nodes) :
    (nodes.takeWhile fun instr => instr.opcode = .switchArg).map (·.arg) =
      (instrs.takeWhile fun instr => instr.opcode = .switchArg).map fun instr =>
        (aim s instr).arg := by
  induction h with
  | nil => rfl
  | @cons instr node instrs nodes hmoved _ ih =>
    rw [takeWhile_cons, takeWhile_cons, hmoved.opcode]
    split
    · rw [map_cons, map_cons, hmoved.arg, ih]
    · rfl

theorem Laid.takeWhile (h : Laid T code o instrs) :
    (instrs.takeWhile fun instr => instr.opcode = .switchArg) = [] := by
  cases h with
  | done => rfl
  | next _ _ _ _ hblock =>
    obtain ⟨arg, args, rfl, -⟩ := hblock.head
    rfl

/-- The target operands of a block. -/
theorem Block.targetArgs {o' : ℕ} {targets : List ℤ} {block after : List ILInstr}
    (h : Block op o o' targets block) (hafter : Laid T code o' after)
    (hmoved : List.Forall₂ (Moved s) (block ++ after) (nodes.drop i)) :
    targetArgs nodes i = targets.map fun t => .target (s.offsetToInstr t.toNat) := by
  rw [MethodBody.targetArgs]
  cases h with
  | plain hbranch hswitch =>
    obtain ⟨node, nodes', hmoved, -, hdrop⟩ := forall₂_cons_left_iff.mp hmoved
    obtain ⟨opcode, q, arg⟩ := node
    obtain rfl : opcode = .opCode op := hmoved.opcode
    rw [hdrop]
    dsimp only
    rw [if_neg hswitch, hbranch, if_neg Bool.false_ne_true]
    rfl
  | @branch k t hbranch hsize =>
    obtain ⟨node, nodes', hmoved, -, hdrop⟩ := forall₂_cons_left_iff.mp hmoved
    obtain ⟨opcode, q, arg⟩ := node
    obtain rfl : opcode = .opCode op := hmoved.opcode
    have hswitch : op.operandType ≠ .inlineSwitch := fun ht => by
      simp [OpCode.isBranch, ht] at hbranch
    have harg : arg = .target (s.offsetToInstr t.toNat) :=
      hmoved.arg.trans (congrArg ILInstr.arg (@aim_of_isJump s ⟨.opCode op, o, _⟩ hbranch t rfl))
    rw [hdrop]
    dsimp only
    rw [if_neg hswitch, if_pos hbranch, harg]
    rfl
  | switch hswitch =>
    rw [cons_append] at hmoved
    obtain ⟨node, nodes', hmoved, hrest, hdrop⟩ := forall₂_cons_left_iff.mp hmoved
    obtain ⟨opcode, q, arg⟩ := node
    obtain rfl : opcode = .opCode op := hmoved.opcode
    rw [hdrop]
    dsimp only
    rw [if_pos hswitch, Moved.takeWhile hrest, takeWhile_append_of_pos, hafter.takeWhile,
      append_nil, map_map]
    · rfl
    · intro instr hinstr
      obtain ⟨t, -, rfl⟩ := mem_map.mp hinstr
      rfl

/-- The targets of the instructions are instructions. -/
theorem Laid.targets (hcode : WellFormed T code) (h : Laid T code 0 instrs)
    {transition : IpTransition} (hi : instrs[i]? = some instr) (hop : instr.opcode = .opCode op)
    (htr : findNextInstructionOffsetAndEdges op code instr.offset = .ok transition) :
    ∀ t ∈ transition.targets, ∃ n : ℕ, t = n ∧ IsInstruction T code n := by
  obtain ⟨_, _, _, _, _, -, -, -, hget, -⟩ := h.split hi hop
  obtain ⟨op', transition', o', hget', -, -, htr', htargets⟩ :=
    hcode.instructions instr.offset (h.reached .zero (mem_of_getElem? hi) hop)
  obtain rfl := Except.ok.inj (hget.symm.trans hget')
  obtain rfl := Except.ok.inj (htr.symm.trans htr')
  exact htargets

/-- The operand of a jump is the offset of an instruction. -/
theorem Laid.jump (hcode : WellFormed T code) (h : Laid T code o instrs) (ho : Reached T code o)
    (hinstr : instr ∈ instrs) (hjump : instr.isJump = true) :
    ∃ n : ℕ, instr.arg = .arg32 n ∧ n < code.length := by
  induction h with
  | done => cases hinstr
  | @next o o' op transition block rest hlt hop hnext htr hblock hrest ih =>
    rcases mem_append.mp hinstr with hmem | hmem
    · obtain ⟨op', transition', _, hget', -, -, htr', htargets⟩ :=
        hcode.instructions o ⟨ho, hlt⟩
      obtain rfl := Except.ok.inj (hop.symm.trans hget')
      obtain rfl := Except.ok.inj (htr.symm.trans htr')
      obtain ⟨t, harg, ht⟩ := hblock.jump hmem hjump
      obtain ⟨n, rfl, hn⟩ := htargets t ht
      exact ⟨n, harg, hn.2⟩
    · exact ih (.next ho hlt hop hnext) hmem

theorem setTarget_ok (h : instr.isJump = true → ∃ n : ℕ, instr.arg = .arg32 n ∧ n < code.length) :
    setTarget code s instr = .ok (aim s instr) := by
  unfold setTarget
  split
  · next hjump =>
      obtain ⟨n, harg, hn⟩ := h hjump
      rw [harg, aim_of_isJump hjump harg]
      dsimp only
      rw [instrFromOffset, if_neg (by omega), if_neg (by omega)]
      rfl
  · next hjump => rw [aim_of_not_isJump (Bool.eq_false_iff.mpr hjump)]

/-- The instructions of the list, with their targets as pointers. -/
theorem importIL_ok (hT : T.Documented) (hcode : WellFormed T code) :
    ∃ s, importIL T code = .ok (s.instrs.map (aim s)) ∧ Laid T code 0 s.instrs ∧ Progress s := by
  obtain ⟨s, instrs, hloop, hinstrs, hs, hlaid⟩ := @importLoop_ok T code hT hcode
    (code.length + 1) _ (.start code) .zero (Nat.zero_le _) (Nat.lt_succ_self _)
  obtain rfl : s.instrs = instrs := hinstrs
  refine ⟨s, ?_, hlaid, hs⟩
  rw [importIL, bind_ok hloop]
  split
  · refine mapM_of_forall₂ (forall₂_map_right_iff.mpr ?_)
    refine forall₂_same.mpr fun instr h => ?_
    exact setTarget_ok (hlaid.jump hcode .zero h)
  · next hbranch =>
      have hall := hs.jumps (Bool.eq_false_iff.mpr hbranch)
      refine congrArg Except.ok ((map_congr_left fun instr h => ?_).trans s.instrs.map_id).symm
      exact aim_of_not_isJump (hall instr h)

/-- The decoders agree: the list has the instructions that are reached over the sequential
successors, and their targets are at the offsets that `findNextInstructionOffsetAndEdges` finds. -/
theorem import_agrees (hT : T.Documented) (hcode : WellFormed T code) :
    ∃ nodes, importInstrs T code = .ok nodes ∧
      (∀ o, (∃ node ∈ nodes, ∃ op, node.opcode = .opCode op ∧ node.offset = o) ↔
        IsInstruction T code o) ∧
      ∀ i node op, nodes[i]? = some node → node.opcode = .opCode op →
        getOpCode T code node.offset = .ok op ∧ ∃ transition,
          findNextInstructionOffsetAndEdges op code node.offset = .ok transition ∧
          (targetArgs nodes i).map (targetOffset nodes) = transition.targets.map some := by
  obtain ⟨s, himport, hlaid, hprogress⟩ := importIL_ok hT hcode
  obtain ⟨nodes, hnodes, hmoved⟩ := hlaid.moved (s := s)
  have hoffset (o : ℕ) : (∃ node ∈ nodes, ∃ op, node.opcode = .opCode op ∧ node.offset = o) ↔
      IsInstruction T code o := by
    constructor
    · rintro ⟨node, hnode, op, hop, rfl⟩
      obtain ⟨instr, hinstr, hm⟩ := forall₂_mem_right hmoved hnode
      rw [hm.opcode] at hop
      rw [hm.offset op hop]
      exact hlaid.reached .zero hinstr hop
    · intro ho
      obtain ⟨instr, hinstr, op, hop, rfl⟩ := hlaid.complete ho
      obtain ⟨node, hnode, hm⟩ := forall₂_mem_left hmoved hinstr
      exact ⟨node, hnode, op, hm.opcode.trans hop, hm.offset op hop⟩
  refine ⟨nodes, by rw [importInstrs, bind_ok himport, hnodes], hoffset, fun i node op hi hop => ?_⟩
  obtain ⟨hilt, rfl⟩ := List.getElem?_eq_some_iff.mp hi
  obtain ⟨hlength, hget'⟩ := forall₂_iff_get.mp hmoved
  have hm := hget' i (hlength ▸ hilt) hilt
  set instr := s.instrs.get ⟨i, hlength ▸ hilt⟩ with hinstr
  have hi' : s.instrs[i]? = some instr := getElem?_eq_getElem _
  have hop' : instr.opcode = .opCode op := hm.opcode ▸ hop
  obtain ⟨o', transition, before, block, after, hsplit, hbefore, hlt, hget, hseq, htr, hblock,
    hafter⟩ := hlaid.split hi' hop'
  have hdropped : List.Forall₂ (Moved s) (block ++ after) (nodes.drop i) := by
    have hdrop : s.instrs.drop i = block ++ after := by
      rw [hsplit, append_assoc, ← hbefore, drop_left]
    exact hdrop ▸ forall₂_drop i hmoved
  have hoff : (nodes[i]).offset = instr.offset := hm.offset op hop'
  rw [hoff]
  refine ⟨hget, transition, htr, ?_⟩
  rw [hblock.targetArgs hafter hdropped, map_map]
  refine map_congr_left fun t ht => ?_
  -- the target is an instruction, and the list has it under its offset
  obtain ⟨n, rfl, hn⟩ := hlaid.targets hcode hi' hop' htr t ht
  obtain ⟨instr', hmem, op', hop'', rfl⟩ := hlaid.complete hn
  obtain ⟨p, hp⟩ := getElem?_of_mem hmem
  have hfound := hprogress.found p instr' op' hp hop''
  obtain ⟨hplt, hpeq⟩ := List.getElem?_eq_some_iff.mp hp
  have hm' := hget' p hplt (hlength ▸ hplt)
  have hnode : nodes[p]? = some (nodes.get ⟨p, hlength ▸ hplt⟩) := getElem?_eq_getElem _
  show targetOffset nodes (.target (s.offsetToInstr (instr'.offset : ℤ).toNat)) = _
  rw [Int.toNat_natCast, hfound, targetOffset, hnode, Option.map_some]
  rw [get_eq_getElem, hpeq] at hm'
  rw [hm'.offset op' hop'']

end

/-! ### A body with a switch -/

/-- The opcodes of the body; all others are taken to have no operand. -/
def fewOpCodes : OpCodes where
  singleByteOpCodes b :=
    if b = 0x45 then ⟨0x45, 1, .inlineSwitch, .condBranch⟩
    else if b = 0x2B then ⟨0x2B, 1, .shortInlineBrTarget, .branch⟩
    else if b = 0x2A then ⟨0x2A, 1, .inlineNone, .return⟩
    else ⟨b.toNat, 1, .inlineNone, .next⟩
  twoBytesOpCodes b := ⟨0xFE00 + b.toNat, 2, .inlineNone, .next⟩

theorem fewOpCodes_documented : fewOpCodes.Documented where
  single b := by
    dsimp only [fewOpCodes]
    split
    · exact ⟨by decide, by decide, by decide, by simp [OpCode.isBranch], fun _ => rfl⟩
    split
    · exact ⟨by decide, by decide, by decide, by simp [OpCode.isBranch], nofun⟩
    split
    · exact ⟨by decide, by decide, by decide, by simp [OpCode.isBranch], nofun⟩
    · exact ⟨Nat.one_pos, nofun, nofun, by simp [OpCode.isBranch], nofun⟩
  two b := ⟨Nat.two_pos, nofun, nofun, by simp [OpCode.isBranch, fewOpCodes], nofun⟩

/-- `ldc.i4.0`, a switch with one target, `br.s` to the next instruction, and `ret`. -/
def switchBody : List (BitVec 8) := [0x16, 0x45, 1, 0, 0, 0, 2, 0, 0, 0, 0x2B, 0, 0x2A]

theorem switchBody_reached (h : Reached fewOpCodes switchBody o) :
    o ∈ [0, 1, 10, 12, 13] := by
  induction h with
  | zero => exact mem_cons_self
  | @next o o' op _ hlt hop hnext ih =>
    have hstep : (getOpCode fewOpCodes switchBody o >>= (sequentialSuccessor · switchBody o)) =
        .ok (o' : ℤ) := (bind_ok hop _).trans hnext
    have hsucc {n : ℕ} (h : (getOpCode fewOpCodes switchBody o >>=
        (sequentialSuccessor · switchBody o)) = .ok (n : ℤ)) : o' = n :=
      Int.ofNat_inj.mp (Except.ok.inj (hstep.symm.trans h))
    simp only [mem_cons, not_mem_nil, or_false] at ih
    rcases ih with rfl | rfl | rfl | rfl | rfl
    · rw [@hsucc 1 rfl]
      decide
    · rw [@hsucc 10 rfl]
      decide
    · rw [@hsucc 12 rfl]
      decide
    · rw [@hsucc 13 rfl]
      decide
    · exact absurd hlt (by decide)

theorem switchBody_wellFormed : WellFormed fewOpCodes switchBody where
  length_lt := by decide
  instructions o ho := by
    have h0 : Reached fewOpCodes switchBody 0 := .zero
    have h1 : Reached fewOpCodes switchBody 1 := .next h0 (by decide) rfl rfl
    have h10 : Reached fewOpCodes switchBody 10 := .next h1 (by decide) rfl rfl
    have h12 : Reached fewOpCodes switchBody 12 := .next h10 (by decide) rfl rfl
    have hmem := switchBody_reached ho.1
    have hlt := ho.2
    simp only [mem_cons, not_mem_nil, or_false] at hmem
    rcases hmem with rfl | rfl | rfl | rfl | rfl
    · exact ⟨_, _, 1, rfl, rfl, by decide, rfl, nofun⟩
    · refine ⟨_, _, 10, rfl, rfl, by decide, rfl, forall_mem_singleton.mpr ⟨12, rfl, h12, ?_⟩⟩
      decide
    · refine ⟨_, _, 12, rfl, rfl, by decide, rfl, forall_mem_singleton.mpr ⟨12, rfl, h12, ?_⟩⟩
      decide
    · exact ⟨_, _, 13, rfl, rfl, by decide, rfl, nofun⟩
    · exact absurd hlt (by decide)

theorem import_agrees_switch : ∃ nodes, importInstrs fewOpCodes switchBody = .ok nodes ∧
    (∀ o, (∃ node ∈ nodes, ∃ op, node.opcode = .opCode op ∧ node.offset = o) ↔
      IsInstruction fewOpCodes switchBody o) ∧
    ∀ i node op, nodes[i]? = some node → node.opcode = .opCode op →
      getOpCode fewOpCodes switchBody node.offset = .ok op ∧ ∃ transition,
        findNextInstructionOffsetAndEdges op switchBody node.offset = .ok transition ∧
        (targetArgs nodes i).map (targetOffset nodes) = transition.targets.map some :=
  import_agrees fewOpCodes_documented switchBody_wellFormed

end VSharp.MethodBody
