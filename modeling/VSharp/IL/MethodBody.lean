import Mathlib.Algebra.Group.Nat.Defs
import VSharp.Library.Results

/-!
# IL — MethodBody

`VSharp.IL/MethodBody.fs`: the successors of an instruction in the bytes of a method body.

- The tables of opcodes, which the code fills from `System.Reflection.Emit.OpCodes`, are a
  parameter; `Documented` says what is known of every opcode.
- A body has fewer than `2 ^ 31` bytes: a place in it is a natural number, and what is computed from
  the bytes is an `int`.
- `sequentialSuccessor` is the place behind an instruction, and `Reached` the places that are
  reached from the first one over it.
-/

namespace VSharp.MethodBody
open Library

/-! ### Opcodes -/

inductive OperandType where
  | inlineBrTarget | inlineField | inlineI | inlineI8 | inlineMethod | inlineNone | inlinePhi
  | inlineR | inlineSig | inlineString | inlineSwitch | inlineTok | inlineType | inlineVar
  | shortInlineBrTarget | shortInlineI | shortInlineR | shortInlineVar
deriving DecidableEq, Repr

/-- The number of an operand type. -/
def OperandType.value : OperandType → ℕ
  | inlineBrTarget => 0
  | inlineField => 1
  | inlineI => 2
  | inlineI8 => 3
  | inlineMethod => 4
  | inlineNone => 5
  | inlinePhi => 6
  | inlineR => 7
  | inlineSig => 9
  | inlineString => 10
  | inlineSwitch => 11
  | inlineTok => 12
  | inlineType => 13
  | inlineVar => 14
  | shortInlineBrTarget => 15
  | shortInlineI => 16
  | shortInlineR => 17
  | shortInlineVar => 18

inductive FlowControl where
  | branch | break | call | condBranch | metaPrefix | next | phi | return | throw
deriving DecidableEq, Repr

/-- `System.Reflection.Emit.OpCode`: two of them are equal if their values are. -/
structure OpCode where
  value : ℕ
  size : ℕ
  operandType : OperandType
  flowControl : FlowControl
deriving DecidableEq, Repr

namespace OpCode

/-- A branch has the offset of its target as the operand. -/
def isBranch (op : OpCode) : Bool :=
  op.operandType = .inlineBrTarget || op.operandType = .shortInlineBrTarget

def isLeaveOpCode (op : OpCode) : Bool := op.value = 0xDD || op.value = 0xDE

/-- What is documented of the operand types: those of the branches, and none is `InlinePhi`. -/
structure Documented (op : OpCode) : Prop where
  size_pos : 0 < op.size
  operandType_ne : op.operandType ≠ .inlinePhi
  flowControl_ne : op.flowControl ≠ .phi
  isBranch_iff : op.isBranch = true ↔
    op.flowControl = .branch ∨ op.flowControl = .condBranch ∧ op.operandType ≠ .inlineSwitch
  inlineSwitch : op.operandType = .inlineSwitch → op.flowControl = .condBranch

end OpCode

/-- `singleByteOpCodes` and `twoBytesOpCodes`. -/
structure OpCodes where
  singleByteOpCodes : BitVec 8 → OpCode
  twoBytesOpCodes : BitVec 8 → OpCode

structure OpCodes.Documented (T : OpCodes) : Prop where
  single : ∀ b, (T.singleByteOpCodes b).Documented
  two : ∀ b, (T.twoBytesOpCodes b).Documented

/-! ### Bytes -/

/-- What the decoders raise. -/
inductive BadCode where
  /-- `IncorrectCIL`. -/
  | incorrectCIL (reason : String)
  | indexOutOfRange
  | argument
  | unreachable
  | notImplemented
deriving DecidableEq, Repr

/-- A byte of an array. -/
def byteAt (ilBytes : List (BitVec 8)) (pos : ℕ) : Except BadCode (BitVec 8) :=
  match ilBytes[pos]? with
  | some b => .ok b
  | none => .error .indexOutOfRange

/-- `BitConverter`, for `n` bytes: the first one is the lowest. -/
def bytesAt (ilBytes : List (BitVec 8)) (pos n : ℕ) : Except BadCode ℕ :=
  if pos + n ≤ ilBytes.length then
    .ok (((ilBytes.drop pos).take n).foldr (fun b acc => b.toNat + 256 * acc) 0)
  else .error .argument

/-- `extractInt32`, and `extractOffset`. -/
def extractInt32 (ilBytes : List (BitVec 8)) (pos : ℕ) : Except BadCode ℤ := do
  .ok (BitVec.ofNat 32 (← bytesAt ilBytes pos 4)).toInt

def extractInt8 (ilBytes : List (BitVec 8)) (pos : ℕ) : Except BadCode ℤ := do
  .ok (← byteAt ilBytes pos).toInt

/-- A sum of `int`s. -/
def int32 (n : ℤ) : ℤ := (BitVec.ofInt 32 n).toInt

def getOpCode (T : OpCodes) (ilBytes : List (BitVec 8)) (offset : ℕ) : Except BadCode OpCode := do
  let b₁ ← byteAt ilBytes offset
  if b₁ ≠ 0xFE then .ok (T.singleByteOpCodes b₁)
  else if ilBytes.length ≤ offset + 1 then
    .error (.incorrectCIL "Prefix instruction FE without suffix!")
  else .ok (T.twoBytesOpCodes (← byteAt ilBytes (offset + 1)))

/-! ### Successors -/

inductive IpTransition where
  | fallThrough (offset : ℤ)
  | return
  | unconditionalBranch (target : ℤ)
  | conditionalBranch (fallThrough : ℤ) (targets : List ℤ)
  | exceptionMechanism
deriving DecidableEq, Repr

/-- The targets of a branch or a switch. -/
def IpTransition.targets : IpTransition → List ℤ
  | unconditionalBranch target => [target]
  | conditionalBranch _ targets => targets
  | _ => []

def operandType2operandSize : List ℤ :=
  [4, 4, 4, 8, 4, 0, -1, 8, 4, 4, 4, 4, 4, 4, 2, 1, 1, 4, 1]

/-- The bytes of the operand. -/
def operandSize (op : OpCode) : ℤ := operandType2operandSize.getD op.operandType.value 0

variable (op : OpCode) (ilBytes : List (BitVec 8)) (pos : ℕ)

def jumpTargetsForNext : IpTransition := .fallThrough (pos + op.size + operandSize op)

/-- The operand of a branch. -/
def branchOperand : Except BadCode ℤ :=
  match op.operandType with
  | .inlineBrTarget => extractInt32 ilBytes (pos + op.size)
  | _ => extractInt8 ilBytes (pos + op.size)

def jumpTargetsForBranch : Except BadCode IpTransition := do
  let offset ← branchOperand op ilBytes pos
  let nextInstruction := pos + op.size + operandSize op
  if offset = 0 ∧ ¬ op.isLeaveOpCode then .ok (.unconditionalBranch nextInstruction)
  else .ok (.unconditionalBranch (int32 (offset + nextInstruction)))

def inlineBrTarget (extract : List (BitVec 8) → ℕ → Except BadCode ℤ) :
    Except BadCode IpTransition := do
  let offset ← extract ilBytes (pos + op.size)
  let nextInstruction := pos + op.size + operandSize op
  .ok (.conditionalBranch nextInstruction [int32 (nextInstruction + offset)])

/-- `inlineSwitch`: a negative number of targets makes no list. -/
def inlineSwitch : Except BadCode IpTransition := do
  let n ← extractInt32 ilBytes (pos + op.size)
  let nextInstruction := pos + op.size + 4 * n + 4
  if n < 0 then .error .argument
  else
    let nextOffsets ← (List.range n.toNat).mapM fun x => do
      .ok (int32 (nextInstruction + (← extractInt32 ilBytes (pos + op.size + 4 * (x + 1)))))
    .ok (.conditionalBranch nextInstruction nextOffsets)

def findNextInstructionOffsetAndEdges : Except BadCode IpTransition :=
  match op.flowControl with
  | .next | .call | .break | .metaPrefix => .ok (jumpTargetsForNext op pos)
  | .branch => jumpTargetsForBranch op ilBytes pos
  | .condBranch =>
    match op.operandType with
    | .inlineBrTarget => inlineBrTarget op ilBytes pos extractInt32
    | .shortInlineBrTarget => inlineBrTarget op ilBytes pos extractInt8
    | .inlineSwitch => inlineSwitch op ilBytes pos
    | _ => .error .notImplemented
  | .return => .ok .return
  | .throw => .ok .exceptionMechanism
  | .phi => .error .notImplemented

/-- The place behind an instruction, as the functions above compute it. -/
def sequentialSuccessor : Except BadCode ℤ :=
  match op.operandType with
  | .inlineSwitch => do
      let n ← extractInt32 ilBytes (pos + op.size)
      .ok (pos + op.size + 4 * n + 4)
  | _ => .ok (pos + op.size + operandSize op)

/-- The places that are reached from the first one over the sequential successors. -/
inductive Reached (T : OpCodes) (code : List (BitVec 8)) : ℕ → Prop where
  | zero : Reached T code 0
  | next {o o' : ℕ} {op : OpCode} (h : Reached T code o) (hlt : o < code.length)
      (hop : getOpCode T code o = .ok op) (hnext : sequentialSuccessor op code o = .ok (o' : ℤ)) :
      Reached T code o'

/-- The offset of an instruction. -/
def IsInstruction (T : OpCodes) (code : List (BitVec 8)) (o : ℕ) : Prop :=
  Reached T code o ∧ o < code.length

/-- The bytes are those of instructions, one after another, whose targets are instructions. -/
structure WellFormed (T : OpCodes) (code : List (BitVec 8)) : Prop where
  length_lt : code.length < 2 ^ 31
  instructions : ∀ o, IsInstruction T code o → ∃ op transition, ∃ o' : ℕ,
    getOpCode T code o = .ok op ∧ sequentialSuccessor op code o = .ok (o' : ℤ) ∧
    o' ≤ code.length ∧ findNextInstructionOffsetAndEdges op code o = .ok transition ∧
    ∀ t ∈ transition.targets, ∃ n : ℕ, t = n ∧ IsInstruction T code n

end VSharp.MethodBody
