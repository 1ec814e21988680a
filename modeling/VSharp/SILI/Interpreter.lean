import Mathlib.Data.List.Sort
import VSharp.SILI.InstructionPointer

/-!
# SILI — Interpreter

`VSharp.SILI/Interpreter.fs`: throwing an exception and `MakeStep`.  What the step does outside the
instruction pointers (the instructions themselves, the memory, the types) is given by an
`ILInterpreter`.  A step of the code returns all states that an instruction branches into; here it
returns the one that is followed, and nothing where the code fails.
-/

namespace VSharp.SILI
variable {M S : Type}

/-- What `MakeStep` uses of the methods, of the memory and of the types. -/
structure ILInterpreter (M S : Type) where
  exceptionHandlers : M → List Clause
  /-- Whether the instruction at an offset is `endfinally`. -/
  isEndFinally : M → ℕ → Bool
  isStaticConstructor : M → Bool
  fallThroughTarget : M → ℕ → ℕ
  isSubtypeOrEqual : Ty → Ty → Bool
  mostConcreteTypeOfRef : S → Term → Ty
  /-- `Array.sortBy`, which is not stable. -/
  sortBy : (Clause → ℕ) → List Clause → List Clause
  sortBy_perm : ∀ key l, (sortBy key l).Perm l
  sortBy_sorted : ∀ key l, (sortBy key l).Pairwise fun c c' => key c ≤ key c'
  popFrame : S → S
  clearEvaluationStackLastFrame : S → S
  push : Term → S → S
  /-- `PushNewObjForValueTypes`, after a call site that needs it. -/
  pushNewObjIfNeeded : M → ℕ → S → S
  /-- The branch that is followed on the result of a filter. -/
  filterBranch : Term → S → Bool × S
  executeInstruction : M → ℕ → CilState M S → CilState M S

/-! ### Blocks -/

namespace Clause

def inTryBlock (offset : ℕ) (clause : Clause) : Bool :=
  clause.tryOffset ≤ offset ∧ offset < clause.tryOffset + clause.tryLength

def inHandlerBlock (offset : ℕ) (clause : Clause) : Bool :=
  clause.handlerOffset ≤ offset ∧ offset < clause.handlerOffset + clause.handlerLength

def inEHCBlock (offset : ℕ) (clause : Clause) : Bool :=
  clause.inTryBlock offset || clause.inHandlerBlock offset

/-- The key of the sort in `SortEHCBlocks`. -/
def handlerEnd (clause : Clause) : ℕ := clause.handlerOffset + clause.handlerLength

/-- The key of `tryBlocks`. -/
def tryBlock (clause : Clause) : ℕ × ℕ := (clause.tryOffset, clause.tryLength)

end Clause

namespace ILInterpreter
variable [DecidableEq M] (x : ILInterpreter M S)

def sortEHCBlocks (location : CodeLocation M) : List Clause :=
  x.sortBy Clause.handlerEnd
    ((x.exceptionHandlers location.method).filter fun c => c.inEHCBlock location.offset)

/-! ### Throwing -/

def commonThrow (s : CilState M S) (error : Term) (isRuntime : Bool) : Option (CilState M S) := do
  let codeLocations ← s.codeLocations
  let s ← s.setCurrentIpSafe (.searchingForHandler none [] codeLocations [])
  s.setException (.unhandled error isRuntime codeLocations)

/-- The register of a block that is left. -/
def dropRegister (isSecondBypass : Bool) (s : CilState M S) : Option (CilState M S) :=
  if isSecondBypass then s.moveDownExceptionRegister else s.popExceptionRegister

/-- `MoveToFinally`: the handler to execute, the rest of the clauses and the new state. -/
def moveToFinally (location : CodeLocation M) (isSecondBypass : Bool) :
    List Clause → List (ℕ × ℕ) → CilState M S →
      Option (Option (InstructionPointer M) × List Clause × CilState M S)
  | [], _, s => some (none, [], s)
  | ehc :: ehcs, tryBlocks, s =>
    if ehc.inHandlerBlock location.offset then
      (dropRegister isSecondBypass s).bind fun s =>
        moveToFinally location isSecondBypass ehcs tryBlocks s
    else if ehc.ehcType = .finallyClause ∨ ehc.ehcType = .faultClause ∧ isSecondBypass then
      some (some (.instruction ehc.handlerOffset location.method), ehcs, s)
    else if ehc.tryBlock ∈ tryBlocks then moveToFinally location isSecondBypass ehcs tryBlocks s
    else
      (dropRegister isSecondBypass s).bind fun s =>
        moveToFinally location isSecondBypass ehcs (ehc.tryBlock :: tryBlocks) s

def leaveToFinally (s : CilState M S) (ehcs : List Clause) (location : CodeLocation M) :
    Option (Option (InstructionPointer M) × List Clause × CilState M S) :=
  moveToFinally location false ehcs [] s

/-- The try blocks that `BypassToFinally` starts with: that of the catch clause that was found. -/
def catchTryBlocks (currentMethod : M) (handlerLoc : Option (CodeLocation M)) :
    Option (List (ℕ × ℕ)) :=
  match handlerLoc with
  | some handlerLoc =>
    if currentMethod = handlerLoc.method then
      ((x.exceptionHandlers currentMethod).find? fun ehc =>
        ehc.handlerOffset = handlerLoc.offset).map fun ehc => [ehc.tryBlock]
    else some []
  | none => some []

def bypassToFinally (s : CilState M S) (ehcs : List Clause) (currentLocation : CodeLocation M)
    (handlerLoc : Option (CodeLocation M)) :
    Option (Option (InstructionPointer M) × List Clause × CilState M S) :=
  (x.catchTryBlocks currentLocation.method handlerLoc).bind fun tryBlocks =>
    moveToFinally currentLocation true ehcs tryBlocks s

/-- `FindCatch`, for an exception of the given type. -/
def findCatch (s : CilState M S) (errorRef : Term) (location : CodeLocation M)
    (locations framesToPop : List (CodeLocation M)) :
    List Clause → List Clause → Option (InstructionPointer M) × CilState M S
  | [], _ => (none, s)
  | ehc :: ehcs, observed =>
    let observed := observed ++ [ehc]
    if ehc.inHandlerBlock location.offset then
      findCatch s errorRef location locations framesToPop ehcs observed
    else
      match ehc.ehcType with
      | .catchClause t =>
        if x.isSubtypeOrEqual (x.mostConcreteTypeOfRef s.memory errorRef) t then
          (some (.secondBypass none observed (some location) framesToPop
            (some ⟨ehc.handlerOffset, location.method⟩)), s)
        else findCatch s errorRef location locations framesToPop ehcs observed
      | .filterClause o =>
        (some (.inFilterHandler (.instruction o location.method) ehc.handlerOffset ehcs observed
          locations framesToPop),
          { s.newExceptionRegister with memory := x.push errorRef s.memory })
      | _ => findCatch s errorRef location locations framesToPop ehcs observed

/-! ### Steps -/

def pushExceptionRegisterIfNeeded (method : M) (offset : ℕ) (s : CilState M S) : CilState M S :=
  let started := (x.exceptionHandlers method).filter fun handler => handler.tryOffset = offset
  (started.map Clause.tryBlock).eraseDups.foldl (fun s _ => s.newExceptionRegister) s

/-- `cilState.PopFrame`. -/
def popFrame' (s : CilState M S) : Option (CilState M S) :=
  match s.ipStack with
  | _ :: ips => some { s with ipStack := ips, memory := x.popFrame s.memory }
  | [] => none

/-- `cilState.ClearEvaluationStackLastFrame`. -/
def clearStack (s : CilState M S) : CilState M S :=
  { s with memory := x.clearEvaluationStackLastFrame s.memory }

def fallThroughCall (s : CilState M S) : Option (CilState M S) := do
  let ip ← s.ipStack.head?
  let caller ← ip.instructionEnding
  let newIp ← ip.moveInstruction (x.fallThroughTarget caller.method caller.offset)
  some { s.setCurrentIp newIp with
    memory := x.pushNewObjIfNeeded caller.method caller.offset s.memory }

/-- `exit` of `MakeStep`. -/
def exit (s : CilState M S) : Option (CilState M S) :=
  match s.ipStack with
  | [.exit _] => some s
  | .exit m :: _ =>
    if x.isStaticConstructor m then x.popFrame' s else (x.popFrame' s).bind x.fallThroughCall
  | _ => none

/-- The end of a finally block that was entered by `leave`. -/
def leaveNext (s : CilState M S) (offset : ℕ) (ehcs : List Clause) (dst : ℕ) (m : M) :
    Option (CilState M S) := do
  let (finallyHandlerIp, otherEhcs, s) ← leaveToFinally s ehcs ⟨offset, m⟩
  let currentIp ← match finallyHandlerIp with
    | none => some (.instruction dst m)
    | some ip => ip.createLeave otherEhcs dst m
  let s ← s.replaceLastIp currentIp
  (x.clearStack s).popExceptionRegister

/-- The search for a handler in the first of the given frames. -/
def searchStep (s : CilState M S) (sortedBlocks : Option (List Clause)) (observed : List Clause) :
    List (CodeLocation M) → List (CodeLocation M) → Option (CilState M S)
  | [], framesToPop => s.setCurrentIpSafe (.secondBypass none [] none framesToPop none)
  | location :: otherLocations, framesToPop => do
      let errorRef ← s.getError
      let ehcs := sortedBlocks.getD (x.sortEHCBlocks location)
      let (nextIp, s) :=
        x.findCatch s errorRef location (location :: otherLocations) framesToPop ehcs observed
      match nextIp with
      | some ip => s.setCurrentIpSafe ip
      | none =>
        s.setCurrentIpSafe (.searchingForHandler none [] otherLocations (framesToPop ++ [location]))

/-- All handlers were executed and no catch clause was found. -/
def unhandledStep (s : CilState M S) : Option (CilState M S) :=
  match s.tryGetFilterIp with
  | some (.inFilterHandler _ _ ehcs observed locations framesToPop) => do
      let s ← x.popFrame' s
      let s ← s.replaceLastIp (.searchingForHandler (some ehcs) observed locations framesToPop)
      let s ← s.popExceptionRegister
      s.toUnhandledException
  | _ => (s.setCurrentIp .emptySearchingForHandler).toUnhandledException

/-- Entering the catch clause that was found. -/
def catchStep (s : CilState M S) (codeLocation : CodeLocation M) : Option (CilState M S) := do
  let s ← s.setCurrentIpSafe (.instruction codeLocation.offset codeLocation.method)
  let s ← (x.clearStack s).toCaughtException
  let error ← s.getError
  some { s with memory := x.push error s.memory }

/-- The frame `BypassToFinally` is called for, with its clauses and the last blocks that remain. -/
def bypassFrame (sortedBlocks : Option (List Clause)) (lastBlocks : List Clause)
    (lastLocation : Option (CodeLocation M)) (locations : List (CodeLocation M)) :
    Option (List Clause × List Clause × CodeLocation M) :=
  match sortedBlocks, locations, lastLocation with
  | some sortedBlocks, location :: _, _ => some (sortedBlocks, lastBlocks, location)
  | some sortedBlocks, _, some lastLocation => some (sortedBlocks, lastBlocks, lastLocation)
  | none, location :: _, _ => some (x.sortEHCBlocks location, lastBlocks, location)
  | _, _, some lastLocation => some (lastBlocks, [], lastLocation)
  | _, _, _ => none

/-- A frame without more handlers is left, unless it is the last one and nothing was found. -/
def leaveFrame (s : CilState M S) (locations : List (CodeLocation M))
    (handlerLoc : Option (CodeLocation M)) :
    Option (List (CodeLocation M) × CilState M S) :=
  match locations with
  | _ :: otherLocations =>
    if !otherLocations.isEmpty || handlerLoc.isSome then
      (x.popFrame' s).map fun s => (otherLocations, x.clearStack s)
    else some (otherLocations, s)
  | [] => some (locations, s)

/-- The search for the next finally or fault handler. -/
def bypassStep (s : CilState M S) (sortedBlocks : Option (List Clause)) (lastBlocks : List Clause)
    (lastLocation : Option (CodeLocation M)) (locations : List (CodeLocation M))
    (handlerLoc : Option (CodeLocation M)) : Option (CilState M S) := do
  let (ehcs, lastBlocks, currentLocation) ←
    x.bypassFrame sortedBlocks lastBlocks lastLocation locations
  let (finallyHandlerIp, otherEhcs, s) ← x.bypassToFinally s ehcs currentLocation handlerLoc
  match finallyHandlerIp with
  | none =>
    let (locations, s) ← x.leaveFrame s locations handlerLoc
    s.setCurrentIpSafe (.secondBypass none lastBlocks lastLocation locations handlerLoc)
  | some ip =>
    let s ← s.toCaughtException
    s.setCurrentIpSafe
      (.secondBypassIn ip (some otherEhcs) lastBlocks lastLocation locations handlerLoc)

/-- The end of a handler in the second bypass. -/
def endFinallyStep (s : CilState M S) (ip : InstructionPointer M) : Option (CilState M S) := do
  let s ← s.moveDownExceptionRegister
  let s ← s.toUnhandledException
  some (s.setCurrentIp ip)

/-- The active pattern `EndFinally`. -/
def endFinally : InstructionPointer M → Bool
  | .instruction offset m => x.isEndFinally m offset
  | _ => false

/-- The active pattern `EmptySecondBypass`. -/
def emptySecondBypass : InstructionPointer M → Bool
  | .secondBypass none [] _ [] none => true
  | _ => false

/-- The exception of a filter has no handler: the search goes on after the filter. -/
def filterFailed (s : CilState M S) (ehcs observed : List Clause)
    (locations framesToPop : List (CodeLocation M)) : Option (CilState M S) := do
  let s := { s with filterResult := none }
  let s ← s.replaceLastIp (.searchingForHandler (some ehcs) observed locations framesToPop)
  let s ← s.popExceptionRegister
  s.toUnhandledException

/-- The result of a filter decides whether its handler is taken. -/
def filterDone (s : CilState M S) (t : Term) (offset : ℕ) (ehcs observed : List Clause)
    (location : CodeLocation M) (locations framesToPop : List (CodeLocation M)) :
    Option (CilState M S) :=
  let branch := x.filterBranch t s.memory
  let s := { s with filterResult := none, memory := branch.2 }
  if branch.1 then
    s.replaceLastIp (.secondBypass none observed (some location) framesToPop
      (some ⟨offset, location.method⟩))
  else s.replaceLastIp (.searchingForHandler (some ehcs) observed locations framesToPop)

/-- `makeStep'`. -/
def makeStepAt (s : CilState M S) : InstructionPointer M → Option (CilState M S)
  | .instruction offset m =>
    some (x.executeInstruction m offset (x.pushExceptionRegisterIfNeeded m offset s))
  | .exit _ => x.exit s
  | .leave ip ehcs dst m =>
    match x.endFinally ip, ip.offset with
    | true, some offset => x.leaveNext s offset ehcs dst m
    | _, _ => makeStepAt s ip
  | .searchingForHandler sortedBlocks observed locations framesToPop =>
    x.searchStep s sortedBlocks observed locations framesToPop
  | .inFilterHandler ip offset ehcs observed locations framesToPop =>
    if emptySecondBypass ip then filterFailed s ehcs observed locations framesToPop
    else
      match locations, s.filterResult with
      | _ :: _, none => makeStepAt s ip
      | location :: _, some t =>
        x.filterDone s t offset ehcs observed location locations framesToPop
      | [], _ => none
  | .secondBypass none [] _ [] none => x.unhandledStep s
  | .secondBypass none [] _ [] (some codeLocation) => x.catchStep s codeLocation
  | .secondBypass sortedBlocks lastBlocks lastLocation locations handlerLoc =>
    x.bypassStep s sortedBlocks lastBlocks lastLocation locations handlerLoc
  | .secondBypassIn ip ehcs lastBlocks lastLocation locations handlerLoc =>
    if x.endFinally ip then
      endFinallyStep s (.secondBypass ehcs lastBlocks lastLocation locations handlerLoc)
    else makeStepAt s ip

def makeStep (s : CilState M S) : Option (CilState M S) := s.ipStack.head?.bind (x.makeStepAt s)

end ILInterpreter

end VSharp.SILI
