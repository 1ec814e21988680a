import VSharp.Core.Terms

/-!
# SILI — Instruction pointers

`VSharp.SILI/InstructionPointer.fs` with the clauses of `VSharp.IL/ILRewriter.fs` and the exception
registers of `VSharp.SILI.Core/State.fs`.  Methods are any type `M`.  `SecondBypass` is split by its
first argument: `secondBypass` looks for the next handler, `secondBypassIn` executes one.
-/

namespace VSharp.SILI

inductive EhcType where
  | filterClause (offset : ℕ)
  | catchClause (t : Ty)
  | finallyClause
  | faultClause
deriving DecidableEq, Repr

/-- `exceptionHandlingClause`. -/
structure Clause where
  tryOffset : ℕ
  tryLength : ℕ
  handlerOffset : ℕ
  handlerLength : ℕ
  ehcType : EhcType
deriving DecidableEq, Repr

structure CodeLocation (M : Type) where
  offset : ℕ
  method : M
deriving DecidableEq, Repr

inductive InstructionPointer (M : Type) where
  | exit (m : M)
  | instruction (offset : ℕ) (m : M)
  | leave (ip : InstructionPointer M) (ehcs : List Clause) (dst : ℕ) (m : M)
  | searchingForHandler (sortedBlocks : Option (List Clause)) (observed : List Clause)
      (locations framesToPop : List (CodeLocation M))
  | inFilterHandler (ip : InstructionPointer M) (offset : ℕ) (ehcs observed : List Clause)
      (locations framesToPop : List (CodeLocation M))
  | secondBypass (ehcs : Option (List Clause)) (lastBlocks : List Clause)
      (lastLocation : Option (CodeLocation M)) (locations : List (CodeLocation M))
      (handlerLoc : Option (CodeLocation M))
  | secondBypassIn (ip : InstructionPointer M) (ehcs : Option (List Clause))
      (lastBlocks : List Clause) (lastLocation : Option (CodeLocation M))
      (locations : List (CodeLocation M)) (handlerLoc : Option (CodeLocation M))
deriving DecidableEq, Repr

namespace InstructionPointer
variable {M : Type}

def emptySearchingForHandler : InstructionPointer M := .searchingForHandler (some []) [] [] []

def createLeave (ip : InstructionPointer M) (ehcs : List Clause) (dst : ℕ) (m : M) :
    Option (InstructionPointer M) :=
  match ip with
  | .exit _ => none
  | _ => some (.leave ip ehcs dst m)

def changeInnerIp : InstructionPointer M → InstructionPointer M → InstructionPointer M
  | .leave ip e i m, newIp => .leave (ip.changeInnerIp newIp) e i m
  | .inFilterHandler ip offset e f lc l, newIp =>
    .inFilterHandler (ip.changeInnerIp newIp) offset e f lc l
  | .secondBypassIn ip ehcs lastBlocks loc cl ftp, newIp =>
    .secondBypassIn (ip.changeInnerIp newIp) ehcs lastBlocks loc cl ftp
  | _, newIp => newIp

def isNonRecIp : InstructionPointer M → Bool
  | .instruction .. | .exit _ | .searchingForHandler .. | .secondBypass .. => true
  | _ => false

def replaceRecIp : InstructionPointer M → InstructionPointer M → InstructionPointer M
  | .inFilterHandler ip offset e f lc l, newIp =>
    if ip.isNonRecIp then newIp else .inFilterHandler (ip.replaceRecIp newIp) offset e f lc l
  | .leave ip e i m, newIp => if ip.isNonRecIp then newIp else .leave (ip.replaceRecIp newIp) e i m
  | .secondBypassIn ip ehcs lastBlocks lastLocation locations handlerLoc, newIp =>
    if ip.isNonRecIp then newIp
    else .secondBypassIn (ip.replaceRecIp newIp) ehcs lastBlocks lastLocation locations handlerLoc
  | _, newIp => newIp

def moveInstruction (newOffset : ℕ) : InstructionPointer M → Option (InstructionPointer M)
  | .instruction _ m => some (.instruction newOffset m)
  | .inFilterHandler ip offset m f x y =>
    (ip.moveInstruction newOffset).map fun ip => .inFilterHandler ip offset m f x y
  | .secondBypassIn ip ehcs lastEhcs m toPop handler =>
    (ip.moveInstruction newOffset).map fun ip => .secondBypassIn ip ehcs lastEhcs m toPop handler
  | .leave ip ehcs dst m => (ip.moveInstruction newOffset).bind fun ip => createLeave ip ehcs dst m
  | _ => none

def offset : InstructionPointer M → Option ℕ
  | .instruction offset _ => some offset
  | .leave ip .. | .inFilterHandler ip .. | .secondBypassIn ip .. => ip.offset
  | _ => none

def method : InstructionPointer M → Option M
  | .exit m | .instruction _ m | .leave _ _ _ m => some m
  | .searchingForHandler _ _ (location :: _) [] => some location.method
  | .searchingForHandler _ _ _ locations => locations.getLast?.map CodeLocation.method
  | .inFilterHandler ip .. | .secondBypassIn ip .. => ip.method
  | .secondBypass .. => none

def toCodeLocation (ip : InstructionPointer M) : Option (CodeLocation M) :=
  match ip.offset, ip.method with
  | some offset, some m => some ⟨offset, m⟩
  | _, _ => none

def isFilter : InstructionPointer M → Bool
  | .inFilterHandler .. => true
  | _ => false

def isInFilter : InstructionPointer M → Bool
  | .inFilterHandler .. => true
  | .secondBypassIn ip .. => ip.isInFilter
  | _ => false

/-- The active pattern `InstructionEndingIp`. -/
def instructionEnding : InstructionPointer M → Option (CodeLocation M)
  | .instruction offset m => some ⟨offset, m⟩
  | .secondBypassIn ip .. | .inFilterHandler ip .. | .leave ip .. => ip.instructionEnding
  | _ => none

end InstructionPointer

/-! ### Exception registers -/

/-- `exceptionRegister`; the stack trace is kept as the locations it is printed from. -/
inductive ExceptionRegister (M : Type) where
  | unhandled (error : Term) (isRuntime : Bool) (stackTrace : List (CodeLocation M))
  | caught (error : Term) (isRuntime : Bool) (stackTrace : List (CodeLocation M))
  | noException
deriving DecidableEq

namespace ExceptionRegister
variable {M : Type}

def getError : ExceptionRegister M → Option Term
  | .unhandled error _ _ | .caught error _ _ => some error
  | .noException => none

def transformToCaught : ExceptionRegister M → Option (ExceptionRegister M)
  | .unhandled e isRuntime s => some (.caught e isRuntime s)
  | _ => none

def transformToUnhandled : ExceptionRegister M → Option (ExceptionRegister M)
  | .caught e isRuntime s | .unhandled e isRuntime s => some (.unhandled e isRuntime s)
  | .noException => none

end ExceptionRegister

/-- `cilState`, as far as `MakeStep` is concerned; `memory` is all that instructions work on. -/
structure CilState (M S : Type) where
  ipStack : List (InstructionPointer M)
  exceptionsRegister : List (ExceptionRegister M)
  filterResult : Option Term
  memory : S

namespace CilState
variable {M S : Type} (s : CilState M S)

def newExceptionRegister : CilState M S :=
  { s with exceptionsRegister := .noException :: s.exceptionsRegister }

def popExceptionRegister : Option (CilState M S) :=
  match s.exceptionsRegister with
  | _ :: registers => some { s with exceptionsRegister := registers }
  | [] => none

def setException (exc : ExceptionRegister M) : Option (CilState M S) :=
  match s.exceptionsRegister with
  | _ :: registers => some { s with exceptionsRegister := exc :: registers }
  | [] => none

def toUnhandledException : Option (CilState M S) :=
  match s.exceptionsRegister with
  | r :: registers =>
    r.transformToUnhandled.map fun r => { s with exceptionsRegister := r :: registers }
  | [] => none

def toCaughtException : Option (CilState M S) :=
  match s.exceptionsRegister with
  | r :: registers =>
    r.transformToCaught.map fun r => { s with exceptionsRegister := r :: registers }
  | [] => none

def moveDownExceptionRegister : Option (CilState M S) :=
  match s.exceptionsRegister with
  | elem :: _ :: registers => some { s with exceptionsRegister := elem :: registers }
  | _ => none

def getError : Option Term := s.exceptionsRegister.head?.bind ExceptionRegister.getError

def setCurrentIp (ip : InstructionPointer M) : CilState M S :=
  { s with ipStack := ip :: s.ipStack.tail }

def setCurrentIpSafe (ip : InstructionPointer M) : Option (CilState M S) :=
  match s.ipStack with
  | current :: ips => some { s with ipStack := current.changeInnerIp ip :: ips }
  | [] => none

def replaceLastIp (ip : InstructionPointer M) : Option (CilState M S) :=
  match s.ipStack with
  | current :: ips => some { s with ipStack := current.replaceRecIp ip :: ips }
  | [] => none

def codeLocations : Option (List (CodeLocation M)) :=
  (s.ipStack.takeWhile fun ip => !ip.isFilter).mapM InstructionPointer.toCodeLocation

def tryGetFilterIp : Option (InstructionPointer M) :=
  s.ipStack.find? InstructionPointer.isInFilter

end CilState

end VSharp.SILI
