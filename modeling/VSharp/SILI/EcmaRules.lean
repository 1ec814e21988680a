import Mathlib.Data.Finset.Card
import VSharp.Library.Traces
import VSharp.SILI.Interpreter

/-!
# SILI — The rules of ECMA-335

What a thrown exception must do to the call stack: the first pass looks for a catch clause from the
callee to the callers, the second one runs the finally and fault handlers of the blocks that are
left, pops the frames above the one that handles the exception and enters the catch clause.

- A handler table is `ProperlyNested` when its clauses are ordered from the inner to the outer ones.
- `observe` says which events are seen on a run of `MakeStep`.
- `FollowsEcma` says which of them a run must have, and where it must end.
-/

namespace VSharp.SILI
open Library

variable {M S : Type}

/-! ### Handler tables -/

/-- The first range lies in the second one; a range is its start and its length. -/
def Within (r r' : ℕ × ℕ) : Prop := r'.1 ≤ r.1 ∧ r.1 + r.2 ≤ r'.1 + r'.2

/-- The two ranges have no offset in common. -/
def Apart (r r' : ℕ × ℕ) : Prop := r.1 + r.2 ≤ r'.1 ∨ r'.1 + r'.2 ≤ r.1

instance (r r' : ℕ × ℕ) : Decidable (Within r r') := inferInstanceAs (Decidable (_ ∧ _))

instance (r r' : ℕ × ℕ) : Decidable (Apart r r') := inferInstanceAs (Decidable (_ ∨ _))

namespace Clause

def handlerBlock (c : Clause) : ℕ × ℕ := (c.handlerOffset, c.handlerLength)

/-- Catch clauses. -/
def isCatch (c : Clause) : Bool :=
  match c.ehcType with
  | .catchClause _ => true
  | _ => false

/-- Clauses whose handlers the second pass executes. -/
def isFinal (c : Clause) : Bool := c.ehcType = .finallyClause ∨ c.ehcType = .faultClause

/-- A clause without a filter, with two blocks that do not overlap. -/
def WellFormed (c : Clause) : Prop :=
  0 < c.tryLength ∧ 0 < c.handlerLength ∧ Apart c.tryBlock c.handlerBlock ∧
    (c.isCatch = true ∨ c.isFinal = true)

instance : DecidablePred WellFormed := fun _ => inferInstanceAs (Decidable (_ ∧ _ ∧ _ ∧ _))

/-- Both blocks of the first clause lie in one block of the second. -/
def NestedIn (c c' : Clause) : Prop :=
  Within c.tryBlock c'.tryBlock ∧ Within c.handlerBlock c'.tryBlock ∨
    Within c.tryBlock c'.handlerBlock ∧ Within c.handlerBlock c'.handlerBlock

/-- No block of the one clause overlaps a block of the other. -/
def DisjointFrom (c c' : Clause) : Prop :=
  (Apart c.tryBlock c'.tryBlock ∧ Apart c.tryBlock c'.handlerBlock) ∧
    Apart c.handlerBlock c'.tryBlock ∧ Apart c.handlerBlock c'.handlerBlock

/-- Two catch clauses of one try block. -/
def Siblings (c c' : Clause) : Prop :=
  (c.isCatch = true ∧ c'.isCatch = true) ∧ c.tryBlock = c'.tryBlock ∧
    Apart c.handlerBlock c'.handlerBlock

/-- What two clauses of a table may be to each other, the first being earlier in it. -/
def Before (c c' : Clause) : Prop := c.NestedIn c' ∨ c.DisjointFrom c' ∨ c.Siblings c'

instance (c c' : Clause) : Decidable (c.Before c') :=
  inferInstanceAs (Decidable ((_ ∧ _ ∨ _ ∧ _) ∨ ((_ ∧ _) ∧ _ ∧ _) ∨ ((_ ∧ _) ∧ _ ∧ _)))

end Clause

/-- A properly nested table of catch, finally and fault clauses, inner clauses first. -/
def ProperlyNested (table : List Clause) : Prop :=
  (∀ c ∈ table, c.WellFormed) ∧ table.Pairwise Clause.Before

instance (table : List Clause) : Decidable (ProperlyNested table) :=
  inferInstanceAs (Decidable (_ ∧ _))

namespace ILInterpreter
variable [DecidableEq M] (x : ILInterpreter M S)

/-! ### The rules -/

/-- The clause protects the offset. -/
def protects (offset : ℕ) (c : Clause) : Bool := c.inTryBlock offset && !c.inHandlerBlock offset

/-- The clauses whose try blocks an exception at the location may leave, from the inner to the outer
ones. -/
def leftClauses (loc : CodeLocation M) : List Clause :=
  (x.exceptionHandlers loc.method).filter (protects loc.offset)

/-- The clause catches exceptions of the type. -/
def catches (exceptionType : Ty) (c : Clause) : Bool :=
  match c.ehcType with
  | .catchClause t => x.isSubtypeOrEqual exceptionType t
  | _ => false

/-- The first frame with a clause that catches the exception: the frames above it, its location and
the clause. -/
def findHandler (exceptionType : Ty) :
    List (CodeLocation M) → Option (List (CodeLocation M) × CodeLocation M × Clause)
  | [] => none
  | loc :: locs =>
    match (x.leftClauses loc).find? (x.catches exceptionType) with
    | some k => some ([], loc, k)
    | none => (findHandler exceptionType locs).map fun r => (loc :: r.1, r.2)

/-- What is seen of the second pass. -/
inductive Event (M : Type) where
  | handler (location : CodeLocation M)
  | popFrame
  | catchEntered (location : CodeLocation M)
deriving DecidableEq, Repr

/-- The execution of the handler of a clause. -/
def handlerEvent (loc : CodeLocation M) (c : Clause) : Event M :=
  .handler ⟨c.handlerOffset, loc.method⟩

/-- The handlers of a frame that the exception leaves. -/
def unwindFrame (loc : CodeLocation M) : List (Event M) :=
  ((x.leftClauses loc).filter Clause.isFinal).map (handlerEvent loc)

/-- The handlers that lie in the try block of the clause that catches the exception. -/
def unwindTo (loc : CodeLocation M) (k : Clause) : List (Event M) :=
  ((x.leftClauses loc).filter fun c =>
    c.isFinal && decide (Within c.tryBlock k.tryBlock)).map (handlerEvent loc)

/-- The events of a caught exception. -/
def caughtEvents (above : List (CodeLocation M)) (loc : CodeLocation M) (k : Clause) :
    List (Event M) :=
  (above.flatMap fun l => x.unwindFrame l ++ [.popFrame]) ++ x.unwindTo loc k ++
    [.catchEntered ⟨k.handlerOffset, loc.method⟩]

/-- The events of an exception that nothing catches; the last frame stays. -/
def unhandledEvents : List (CodeLocation M) → List (Event M)
  | [] => []
  | [loc] => x.unwindFrame loc
  | loc :: locs => x.unwindFrame loc ++ .popFrame :: unhandledEvents locs

/-! ### What is seen of a run -/

end ILInterpreter

namespace InstructionPointer

/-- The pointer that a step is about, inside the handlers that are executed. -/
def current : InstructionPointer M → InstructionPointer M
  | .leave ip _ _ _ => ip.current
  | .secondBypassIn ip ehcs lastBlocks lastLocation locations handlerLoc =>
    match ip with
    | .instruction .. => .secondBypassIn ip ehcs lastBlocks lastLocation locations handlerLoc
    | _ => ip.current
  | ip => ip

/-- `ip` is `inner`, executed in handlers. -/
inductive Wraps (inner : InstructionPointer M) : InstructionPointer M → Prop where
  | refl : Wraps inner inner
  | leave {ip : InstructionPointer M} (h : Wraps inner ip) (ehcs : List Clause) (dst : ℕ) (m : M) :
      Wraps inner (.leave ip ehcs dst m)
  | bypass {ip : InstructionPointer M} (h : Wraps inner ip) (ehcs : Option (List Clause))
      (lastBlocks : List Clause) (lastLocation : Option (CodeLocation M))
      (locations : List (CodeLocation M)) (handlerLoc : Option (CodeLocation M)) :
      Wraps inner (.secondBypassIn ip ehcs lastBlocks lastLocation locations handlerLoc)

/-- The pointer of a frame that stands at the location. -/
def FrameOf (ip : InstructionPointer M) (loc : CodeLocation M) : Prop :=
  Wraps (.instruction loc.offset loc.method) ip ∧ ip.toCodeLocation = some loc

/-- The pointers that dispatch an exception. -/
def isDispatch : InstructionPointer M → Bool
  | .searchingForHandler .. | .secondBypass .. => true
  | .secondBypassIn (.instruction ..) .. => true
  | _ => false

variable {inner newIp ip : InstructionPointer M}

theorem Wraps.current_eq (h : Wraps inner ip) (hinner : inner.isDispatch = true) :
    ip.current = inner := by
  induction h with
  | refl =>
    unfold isDispatch at hinner
    split at hinner <;> first | rfl | cases hinner
  | leave _ _ _ _ ih => exact ih
  | @bypass ip h ehcs lastBlocks lastLocation locations handlerLoc ih =>
    cases ip with
    | instruction o m =>
      cases h
      cases hinner
    | _ => exact ih

theorem Wraps.changeInnerIp (h : Wraps inner ip) (hinner : inner.changeInnerIp newIp = newIp) :
    Wraps newIp (ip.changeInnerIp newIp) := by
  induction h with
  | refl =>
    rw [hinner]
    exact .refl
  | leave _ _ _ _ ih => exact .leave ih ..
  | bypass _ _ _ _ _ _ ih => exact .bypass ih ..

theorem Wraps.instructionEnding_eq {o : ℕ} {m : M} (h : Wraps (.instruction o m) ip) :
    ip.instructionEnding = some ⟨o, m⟩ := by
  induction h with
  | refl => rfl
  | leave _ _ _ _ ih => exact ih
  | bypass _ _ _ _ _ _ ih => exact ih

/-- A frame at a location is not in a filter. -/
theorem Wraps.isInFilter_eq (h : Wraps inner ip) (hinner : inner.isInFilter = false) :
    ip.isInFilter = false := by
  induction h with
  | refl => exact hinner
  | leave => rfl
  | bypass _ _ _ _ _ _ ih => exact ih

end InstructionPointer

namespace ILInterpreter
variable [DecidableEq M] (x : ILInterpreter M S)

/-- The events of a step. -/
def observe (s s' : CilState M S) : List (Event M) :=
  match s.ipStack.head?.map InstructionPointer.current with
  | some (.secondBypass none [] _ [] (some loc)) => [.catchEntered loc]
  | some (.secondBypass ..) =>
    if s'.ipStack.length < s.ipStack.length then [.popFrame]
    else match s'.ipStack.head?.map InstructionPointer.current with
      | some (.secondBypassIn (.instruction o m) ..) => [.handler ⟨o, m⟩]
      | _ => []
  | _ => []

/-- `MakeStep` as a machine with events. -/
def machine : Machine (CilState M S) (Event M) where
  step := x.makeStep
  observe := observe

/-- The exception that was thrown does what ECMA-335 says to a call stack. -/
def FollowsEcma (ips : List (InstructionPointer M)) (locs : List (CodeLocation M)) (error : Term)
    (isRuntime : Bool) (s : CilState M S) : Prop :=
  match x.findHandler (x.mostConcreteTypeOfRef s.memory error) locs with
  | some (above, loc, k) =>
    ∃ s' ip, x.machine.Runs s (x.caughtEvents above loc k) s' ∧
      s'.ipStack = ip :: ips.drop (above.length + 1) ∧
      ip.instructionEnding = some ⟨k.handlerOffset, loc.method⟩ ∧
      s'.exceptionsRegister.head? = some (.caught error isRuntime locs)
  | none =>
    ∃ s', x.machine.Runs s (x.unhandledEvents locs) s' ∧
      s'.ipStack = [.emptySearchingForHandler] ∧
      s'.exceptionsRegister.head? = some (.unhandled error isRuntime locs)

/-- The finally and fault handlers of a method run to their ends without an exception. -/
def HandlersFinish (m : M) : Prop :=
  ∀ c ∈ x.exceptionHandlers m, c.isFinal = true →
    ∀ (s : CilState M S) ip ips ehcs lastBlocks lastLocation locations handlerLoc,
      s.ipStack = ip :: ips →
      InstructionPointer.Wraps (.secondBypassIn (.instruction c.handlerOffset m) ehcs lastBlocks
        lastLocation locations handlerLoc) ip →
      ∃ s' ip' o, x.machine.Runs s [] s' ∧ s'.ipStack = ip' :: ips ∧
        InstructionPointer.Wraps (.secondBypassIn (.instruction o m) ehcs lastBlocks lastLocation
          locations handlerLoc) ip' ∧
        x.isEndFinally m o = true ∧ s'.exceptionsRegister = s.exceptionsRegister

/-- How many blocks with a register of their own a frame is in. -/
def enteredBlocks (loc : CodeLocation M) : ℕ :=
  let table := x.exceptionHandlers loc.method
  (table.filter fun c => c.inHandlerBlock loc.offset).length +
    ((x.leftClauses loc).map Clause.tryBlock).toFinset.card

/-- The handlers of the clauses that protect a location end in the order of the table. -/
def HandlersInOrder (loc : CodeLocation M) : Prop :=
  (x.leftClauses loc).Pairwise fun c c' => c.handlerEnd < c'.handlerEnd

/-- The frames in which a handler is looked for: those down to the one that has it. -/
def searchedFrames (exceptionType : Ty) (locs : List (CodeLocation M)) : List (CodeLocation M) :=
  match x.findHandler exceptionType locs with
  | some (above, loc, _) => above ++ [loc]
  | none => locs

end ILInterpreter

end VSharp.SILI
