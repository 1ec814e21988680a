import Mathlib.Data.Finset.Basic
import VSharp.IL.BlockLookup
import VSharp.Library.Systems
import VSharp.SILI.InstructionPointer
import VSharp.Utils.Collections

/-!
# Explorer — Statistics

`SVMStatistics` of `VSharp.Explorer/Statistics.fs`: what is visited and what is covered by tests.

- The histories of the states, which the statistics read and extend, are passed along with them.
- A reference in .NET to a mutable variable is `&x`; `ref x` is a new cell that holds what `x` does.
- `getVisitedBlocksNotCoveredByTests_iff`: what comes of it for the blocks that are not covered yet.
-/

namespace VSharp.Explorer
open PersistentDict SILI Library Option

/-! ### Methods -/

/-- What is read of a basic block. -/
structure BasicBlock where
  startOffset : ℕ
  finalOffset : ℕ
  blockSize : ℕ
deriving DecidableEq, Repr

/-- The basic blocks of a method: the first one starts at its first instruction, and none is
empty. -/
structure CfgInfo where
  sortedBasicBlocks : List BasicBlock
  entry : ∃ b, sortedBasicBlocks[0]? = some b ∧ b.startOffset = 0
  sorted : (sortedBasicBlocks.map BasicBlock.startOffset).Pairwise (· < ·)
  blockSize_pos : ∀ b ∈ sortedBasicBlocks, 0 < b.blockSize

namespace CfgInfo

def methodSize (cfg : CfgInfo) : ℕ := (cfg.sortedBasicBlocks.map BasicBlock.blockSize).sum

/-- `ResolveBasicBlock`; a wrong index raises. -/
def resolveBasicBlock (cfg : CfgInfo) (offset : ℕ) : Option BasicBlock := do
  let index ← BlockLookup.resolveBasicBlockIndex
    (cfg.sortedBasicBlocks.map BasicBlock.startOffset) offset
  if index < 0 then none else cfg.sortedBasicBlocks[index.toNat]?

end CfgInfo

/-- What the statistics read of methods. -/
structure Methods (M G : Type) where
  cfg : M → CfgInfo
  inCoverageZone : M → Bool
  generalizeIfNeeded : M → G
  hasSiblings : CodeLocation M → Bool

/-! ### The code -/

/-- The mutable fields. -/
structure SVMStatistics (S M G : Type) where
  totalVisited : Pdict (CodeLocation M) ℕ
  visitedWithHistory : Pdict (CodeLocation M) (Finset (CodeLocation M))
  isVisitedBlocksNotCoveredByTestsRelevant : ℕ
  visitedBlocksNotCoveredByTests : Pdict S (Finset (CodeLocation M))
  blocksCoveredByTests : Pdict G (List ℕ)
  stepsCount : ℕ
  coveringStepsInsideZone : ℕ
  nonCoveringStepsInsideZone : ℕ
  coveringStepsOutsideZone : ℕ
  nonCoveringStepsOutsideZone : ℕ

/-- `Interlocked.Exchange(ref x, value)`: what the cell held before, and what `x` holds now.  The
value goes into the cell. -/
def exchangeRef (x _value : ℕ) : ℕ × ℕ :=
  let cell := x
  (cell, x)

/-- What `TrackStepForward` is told of a step: the state, with its stack after the step, and the
instruction pointer and the size of the stack before it. -/
structure StepForward (S M : Type) where
  s : S
  ip : InstructionPointer M
  stackSize : ℕ
  ipStack : List (InstructionPointer M)
  sStackSize : ℕ

/-- The `history` of each state. -/
abbrev Histories (S M : Type) := S → Finset (CodeLocation M)

namespace SVMStatistics
variable {S M G : Type} [DecidableEq S] [DecidableEq M] [DecidableEq G]

/-- The statistics of no step. -/
def new : SVMStatistics S M G where
  totalVisited := []
  visitedWithHistory := []
  isVisitedBlocksNotCoveredByTestsRelevant := 1
  visitedBlocksNotCoveredByTests := []
  blocksCoveredByTests := []
  stepsCount := 0
  coveringStepsInsideZone := 0
  nonCoveringStepsInsideZone := 0
  coveringStepsOutsideZone := 0
  nonCoveringStepsOutsideZone := 0

variable (P : Methods M G) (x : SVMStatistics S M G) (history : Histories S M)

def isBasicBlockCoveredByTest (blockEnd : CodeLocation M) : Bool :=
  match tryFind x.blocksCoveredByTests (P.generalizeIfNeeded blockEnd.method) with
  | some coveredBlocks => blockEnd.offset ∈ coveredBlocks
  | none => false

/-- `setCoveredIfNeeded` of `TrackStepForward`. -/
def setCoveredIfNeeded (t : StepForward S M) (loc : CodeLocation M) : Option (Histories S M) := do
  let block ← (P.cfg loc.method).resolveBasicBlock loc.offset
  if t.sStackSize ≤ t.stackSize ∧ loc.offset = block.finalOffset then
    some (Function.update history t.s (insert loc (history t.s)))
  else some history

/-- Where the state has left a method, its call is covered. -/
def setCallCovered (t : StepForward S M) : Option (Histories S M) :=
  match t.ipStack with
  | .exit _ :: callerIp :: _ =>
    match callerIp.toCodeLocation with
    | some callerLoc => setCoveredIfNeeded P history t callerLoc
    | none => none
  | _ => some history

def isHeadOfBasicBlock (codeLocation : CodeLocation M) : Option Bool := do
  let block ← (P.cfg codeLocation.method).resolveBasicBlock codeLocation.offset
  some (block.startOffset = codeLocation.offset)

/-- The counter of the steps to a location that was visited so many times. -/
def countStep (total : ℕ) (inCoverageZone : Bool) : SVMStatistics S M G :=
  if total = 0 then
    if inCoverageZone then { x with coveringStepsInsideZone := x.coveringStepsInsideZone + 1 }
    else { x with coveringStepsOutsideZone := x.coveringStepsOutsideZone + 1 }
  else if inCoverageZone then
    { x with nonCoveringStepsInsideZone := x.nonCoveringStepsInsideZone + 1 }
  else { x with nonCoveringStepsOutsideZone := x.nonCoveringStepsOutsideZone + 1 }

/-- `visitedBlocksNotCoveredByTests.TryAdd(s, Set.empty)`. -/
def tryAddVisited (s : S) : SVMStatistics S M G :=
  match tryFind x.visitedBlocksNotCoveredByTests s with
  | some _ => x
  | none =>
    { x with
      visitedBlocksNotCoveredByTests := Dictionary.set s ∅ x.visitedBlocksNotCoveredByTests }

/-- The flag after `Interlocked.Exchange` has put 0 for it. -/
def clearRelevant : SVMStatistics S M G :=
  { x with
    isVisitedBlocksNotCoveredByTestsRelevant :=
      (exchangeRef x.isVisitedBlocksNotCoveredByTestsRelevant 0).2 }

/-- What `TrackStepForward` does at the head of a basic block. -/
def visitHead (s : S) (currentLoc : CodeLocation M) : SVMStatistics S M G :=
  let total := (tryFind x.totalVisited currentLoc).getD 0
  let inCoverageZone := P.inCoverageZone currentLoc.method
  let x := x.countStep total inCoverageZone
  let visited := (tryFind x.visitedWithHistory currentLoc).getD ∅
  let siblings := (history s).filter fun loc => P.hasSiblings loc = true
  let x := { x with
    totalVisited := Dictionary.set currentLoc (total + 1) x.totalVisited
    visitedWithHistory := Dictionary.set currentLoc (visited ∪ siblings) x.visitedWithHistory }
  if inCoverageZone && !x.isBasicBlockCoveredByTest P currentLoc then
    (x.tryAddVisited s).clearRelevant
  else x

def trackStepForward (t : StepForward S M) : Option (SVMStatistics S M G × Histories S M) := do
  let x := { x with stepsCount := x.stepsCount + 1 }
  let history ← setCallCovered P history t
  match t.ip.toCodeLocation with
  | some currentLoc => do
      let isHead ← isHeadOfBasicBlock P currentLoc
      let x := if isHead then x.visitHead P history t.s currentLoc else x
      some (x, ← setCoveredIfNeeded P history t currentLoc)
  | none => some (x, history)

def getVisitedBlocksNotCoveredByTests (s : S) :
    Finset (CodeLocation M) × SVMStatistics S M G :=
  let (wasRelevant, relevant) := exchangeRef x.isVisitedBlocksNotCoveredByTestsRelevant 1
  let x := { x with isVisitedBlocksNotCoveredByTestsRelevant := relevant }
  let x := if wasRelevant = 0 then
      { x with
        visitedBlocksNotCoveredByTests := x.visitedBlocksNotCoveredByTests.map fun e =>
          (e.1, (history e.1).filter fun loc => ¬ x.isBasicBlockCoveredByTest P loc = true) }
    else x
  ((tryFind x.visitedBlocksNotCoveredByTests s).getD ∅, x)

/-- One block of `SetBasicBlocksAsCoveredByTest`, with whether there is new coverage so far. -/
def setBasicBlockAsCoveredByTest (r : SVMStatistics S M G × Bool) (block : CodeLocation M) :
    SVMStatistics S M G × Bool :=
  let (x, hasNewCoverage) := r
  let generalizedMethod := P.generalizeIfNeeded block.method
  let coveredBlocks := (tryFind x.blocksCoveredByTests generalizedMethod).getD []
  let isNewBlock := block.offset ∉ coveredBlocks
  let x := { x with
    blocksCoveredByTests := Dictionary.set generalizedMethod
      (HashSet.add coveredBlocks block.offset) x.blocksCoveredByTests }
  let x := if P.inCoverageZone block.method then x.clearRelevant else x
  (x, hasNewCoverage || (isNewBlock && P.inCoverageZone block.method))

def setBasicBlocksAsCoveredByTest (blocks : List (CodeLocation M)) : SVMStatistics S M G × Bool :=
  blocks.eraseDups.foldl (setBasicBlockAsCoveredByTest P) (x, false)

def trackFork (parent : S) (children : List S) : SVMStatistics S M G :=
  match tryFind x.visitedBlocksNotCoveredByTests parent with
  | some parentBlocks =>
    { x with
      visitedBlocksNotCoveredByTests := children.foldl
        (fun visited child => Dictionary.set child parentBlocks visited)
        x.visitedBlocksNotCoveredByTests }
  | none => x

end SVMStatistics

/-! ### Runs -/

/-- A call of a member; `getVisitedBlocksNotCoveredByTests` may change what it reads. -/
inductive StatisticsCall (S M : Type) where
  | trackStepForward (t : StepForward S M)
  | trackFork (parent : S) (children : List S)
  | setBasicBlocksAsCoveredByTest (blocks : List (CodeLocation M))
  | getVisitedBlocksNotCoveredByTests (s : S)

section
variable {S M G : Type} [DecidableEq S] [DecidableEq M] [DecidableEq G] (P : Methods M G)

/-- What a call makes of the statistics and of the histories. -/
def StatisticsCall.apply (st : SVMStatistics S M G × Histories S M) :
    StatisticsCall S M → Option (SVMStatistics S M G × Histories S M)
  | trackStepForward t => st.1.trackStepForward P st.2 t
  | trackFork parent children => some (st.1.trackFork parent children, st.2)
  | setBasicBlocksAsCoveredByTest blocks =>
    some ((st.1.setBasicBlocksAsCoveredByTest P blocks).1, st.2)
  | getVisitedBlocksNotCoveredByTests s =>
    some ((st.1.getVisitedBlocksNotCoveredByTests P st.2 s).2, st.2)

/-- The statistics under calls in any order; a state has a history before it is seen first. -/
def statistics (history : Histories S M) :
    System (SVMStatistics S M G × Histories S M) (StatisticsCall S M) where
  start := (.new, history)
  step := StatisticsCall.apply P

namespace SVMStatistics

/-- The flag is never cleared, and the locations kept for a state are those that it was first seen
with. -/
structure Stale (x : SVMStatistics S M G) : Prop where
  relevant : x.isVisitedBlocksNotCoveredByTestsRelevant = 1
  visited : ∀ s blocks, tryFind x.visitedBlocksNotCoveredByTests s = some blocks → blocks = ∅

variable {P} {x : SVMStatistics S M G} {history history' : Histories S M}

section

omit [DecidableEq M] [DecidableEq G]

theorem stale_new : (new : SVMStatistics S M G).Stale := ⟨rfl, fun _ _ h => by cases h⟩

/-- What changes neither the flag nor the locations. -/
theorem Stale.of_eq (h : x.Stale) {x' : SVMStatistics S M G}
    (hrelevant : x'.isVisitedBlocksNotCoveredByTestsRelevant =
      x.isVisitedBlocksNotCoveredByTestsRelevant)
    (hvisited : x'.visitedBlocksNotCoveredByTests = x.visitedBlocksNotCoveredByTests) :
    x'.Stale :=
  ⟨hrelevant.trans h.relevant, by rw [hvisited]; exact h.visited⟩

theorem Stale.tryAddVisited (h : x.Stale) (s : S) : (x.tryAddVisited s).Stale := by
  unfold SVMStatistics.tryAddVisited
  split
  · exact h
  · refine ⟨h.relevant, fun s' blocks hblocks => ?_⟩
    rw [Dictionary.tryFind_set] at hblocks
    split at hblocks
    · exact (some.inj hblocks).symm
    · exact h.visited s' blocks hblocks

omit [DecidableEq S] in
theorem countStep_relevant (total : ℕ) (zone : Bool) :
    (x.countStep total zone).isVisitedBlocksNotCoveredByTestsRelevant =
      x.isVisitedBlocksNotCoveredByTestsRelevant := by
  unfold countStep
  split <;> split <;> rfl

omit [DecidableEq S] in
theorem countStep_visited (total : ℕ) (zone : Bool) :
    (x.countStep total zone).visitedBlocksNotCoveredByTests = x.visitedBlocksNotCoveredByTests := by
  unfold countStep
  split <;> split <;> rfl

end

theorem Stale.visitHead (h : x.Stale) (s : S) (loc : CodeLocation M) :
    (x.visitHead P history s loc).Stale := by
  have hcount := h.of_eq (countStep_relevant ((tryFind x.totalVisited loc).getD 0)
    (P.inCoverageZone loc.method)) (countStep_visited _ _)
  unfold SVMStatistics.visitHead
  dsimp only
  split
  · refine Stale.of_eq (Stale.tryAddVisited ?_ s) rfl rfl
    exact hcount.of_eq rfl rfl
  · exact hcount.of_eq rfl rfl

theorem Stale.trackStepForward (h : x.Stale) {t : StepForward S M} {x' : SVMStatistics S M G}
    (hstep : x.trackStepForward P history t = some (x', history')) : x'.Stale := by
  unfold SVMStatistics.trackStepForward at hstep
  obtain ⟨history₁, -, hstep⟩ := bind_eq_some_iff.mp hstep
  split at hstep
  · obtain ⟨isHead, -, hstep⟩ := bind_eq_some_iff.mp hstep
    obtain ⟨history₂, -, hstep⟩ := bind_eq_some_iff.mp hstep
    obtain ⟨rfl, -⟩ := Prod.mk.inj (some.inj hstep)
    split
    · refine Stale.visitHead ?_ t.s _
      exact h.of_eq rfl rfl
    · exact h.of_eq rfl rfl
  · obtain ⟨rfl, -⟩ := Prod.mk.inj (some.inj hstep)
    exact h.of_eq rfl rfl

omit [DecidableEq M] [DecidableEq G] in
theorem Stale.trackFork (h : x.Stale) (parent : S) (children : List S) :
    (x.trackFork parent children).Stale := by
  unfold SVMStatistics.trackFork
  split
  · next blocks hblocks =>
      obtain rfl := h.visited parent blocks hblocks
      refine ⟨h.relevant, ?_⟩
      have hkeep := h.visited
      dsimp only
      clear hblocks
      generalize x.visitedBlocksNotCoveredByTests = visited at hkeep
      induction children generalizing visited with
      | nil => exact hkeep
      | cons child children ih =>
        refine ih _ fun s blocks hs => ?_
        rw [Dictionary.tryFind_set] at hs
        split at hs
        · exact (some.inj hs).symm
        · exact hkeep s blocks hs
  · exact h

theorem Stale.setBasicBlocksAsCoveredByTest (h : x.Stale) (blocks : List (CodeLocation M)) :
    (x.setBasicBlocksAsCoveredByTest P blocks).1.Stale := by
  unfold SVMStatistics.setBasicBlocksAsCoveredByTest
  generalize blocks.eraseDups = blocks
  generalize false = hasNewCoverage
  induction blocks generalizing x hasNewCoverage with
  | nil => exact h
  | cons block blocks ih =>
    rw [List.foldl_cons]
    refine ih ?_ _
    split
    · exact h.of_eq rfl rfl
    · exact h.of_eq rfl rfl

omit [DecidableEq M] in
/-- Nothing is recomputed, and nothing is returned. -/
theorem Stale.getVisited (h : x.Stale) (s : S) :
    x.getVisitedBlocksNotCoveredByTests P history s = (∅, x) := by
  have hrelevant : x.isVisitedBlocksNotCoveredByTestsRelevant ≠ 0 := by
    rw [h.relevant]
    exact Nat.one_ne_zero
  unfold getVisitedBlocksNotCoveredByTests exchangeRef
  dsimp only
  rw [if_neg hrelevant]
  cases hs : tryFind x.visitedBlocksNotCoveredByTests s with
  | none => rfl
  | some blocks => rw [h.visited s blocks hs, getD_some]

theorem stale_of_reaches {st : SVMStatistics S M G × Histories S M}
    (h : (statistics P history).Reaches (fun _ _ => True) st) : st.1.Stale := by
  refine h.invariant (P := fun st => st.1.Stale) stale_new fun st call st' hst _ hstep => ?_
  obtain ⟨x, history⟩ := st
  obtain ⟨x', history'⟩ := st'
  cases call with
  | trackStepForward t => exact Stale.trackStepForward hst hstep
  | trackFork parent children =>
    obtain ⟨rfl, -⟩ := Prod.mk.inj (some.inj hstep)
    exact Stale.trackFork hst parent children
  | setBasicBlocksAsCoveredByTest blocks =>
    obtain ⟨rfl, -⟩ := Prod.mk.inj (some.inj hstep)
    exact Stale.setBasicBlocksAsCoveredByTest hst blocks
  | getVisitedBlocksNotCoveredByTests s =>
    obtain ⟨rfl, -⟩ := Prod.mk.inj (some.inj hstep)
    rw [Stale.getVisited hst]
    exact hst

end SVMStatistics

/-- After any calls, the blocks of a state are those of its history that are not covered by tests if
and only if there are none. -/
theorem getVisitedBlocksNotCoveredByTests_iff {history : Histories S M}
    {st : SVMStatistics S M G × Histories S M}
    (h : (statistics P history).Reaches (fun _ _ => True) st) (s : S) :
    (st.1.getVisitedBlocksNotCoveredByTests P st.2 s).1 =
        (st.2 s).filter (fun loc => ¬ st.1.isBasicBlockCoveredByTest P loc = true) ↔
      ∀ loc ∈ st.2 s, st.1.isBasicBlockCoveredByTest P loc = true := by
  rw [(SVMStatistics.stale_of_reaches h).getVisited, eq_comm, Finset.filter_eq_empty_iff]
  exact forall₂_congr fun loc _ => not_not

end

/-! ### A method of one block -/

/-- One block of two instructions. -/
def oneBlock : CfgInfo where
  sortedBasicBlocks := [⟨0, 1, 2⟩]
  entry := ⟨_, rfl, rfl⟩
  sorted := List.pairwise_singleton _ _
  blockSize_pos := by decide

/-- A method of one block in the coverage zone. -/
def oneMethod : Methods Unit Unit where
  cfg _ := oneBlock
  inCoverageZone _ := true
  generalizeIfNeeded m := m
  hasSiblings _ := false

/-- The steps of a state through the block. -/
def throughBlock : List (StatisticsCall ℕ Unit) :=
  [.trackStepForward ⟨7, .instruction 0 (), 1, [.instruction 1 ()], 1⟩,
    .trackStepForward ⟨7, .instruction 1 (), 1, [.exit ()], 1⟩]

/-- What is seen of the state behind the block. -/
theorem run_throughBlock :
    ((statistics oneMethod fun _ => ∅).run (fun _ _ => True) (.new, fun _ => ∅) throughBlock).map
      (fun st => ((st.1.getVisitedBlocksNotCoveredByTests oneMethod st.2 7).1, st.2 7,
        keys st.1.visitedBlocksNotCoveredByTests,
        st.1.isBasicBlockCoveredByTest oneMethod ⟨1, ()⟩)) =
      some (∅, {⟨1, ()⟩}, [7], false) := by
  decide +kernel

theorem getVisitedBlocksNotCoveredByTests_oneBlock :
    ∃ st : SVMStatistics ℕ Unit Unit × Histories ℕ Unit,
    st.2 7 = {⟨1, ()⟩} ∧
    ((st.1.getVisitedBlocksNotCoveredByTests oneMethod st.2 7).1 =
        (st.2 7).filter (fun loc => ¬ st.1.isBasicBlockCoveredByTest oneMethod loc = true) ↔
      ∀ loc ∈ st.2 7, st.1.isBasicBlockCoveredByTest oneMethod loc = true) := by
  obtain ⟨st, hrun, hseen⟩ := map_eq_some_iff.mp run_throughBlock
  exact ⟨st, (Prod.mk.inj (Prod.mk.inj hseen).2).1,
    getVisitedBlocksNotCoveredByTests_iff oneMethod (System.Reaches.run .start hrun) 7⟩

/-- A state that has left an uncovered block behind is seen, and no block is returned for it. -/
theorem not_getVisitedBlocksNotCoveredByTests :
    ∃ st : SVMStatistics ℕ Unit Unit × Histories ℕ Unit,
    (statistics oneMethod fun _ => ∅).Reaches (fun _ _ => True) st ∧
    7 ∈ keys st.1.visitedBlocksNotCoveredByTests ∧
    (st.1.getVisitedBlocksNotCoveredByTests oneMethod st.2 7).1 ≠
      (st.2 7).filter (fun loc => ¬ st.1.isBasicBlockCoveredByTest oneMethod loc = true) := by
  obtain ⟨st, hrun, hseen⟩ := map_eq_some_iff.mp run_throughBlock
  obtain ⟨hblocks, hhistory, hkeys, hcovered⟩ :
      (st.1.getVisitedBlocksNotCoveredByTests oneMethod st.2 7).1 = ∅ ∧ st.2 7 = {⟨1, ()⟩} ∧
      keys st.1.visitedBlocksNotCoveredByTests = [7] ∧
      st.1.isBasicBlockCoveredByTest oneMethod ⟨1, ()⟩ = false := by
    simpa only [Prod.mk.injEq] using hseen
  refine ⟨st, System.Reaches.run .start hrun, hkeys ▸ List.mem_singleton_self 7, ?_⟩
  rw [hblocks, hhistory]
  intro h
  have hmem : (⟨1, ()⟩ : CodeLocation Unit) ∈ (∅ : Finset (CodeLocation Unit)) := by
    rw [h, Finset.mem_filter]
    exact ⟨Finset.mem_singleton_self _, by rw [hcovered]; exact Bool.false_ne_true⟩
  cases hmem

end VSharp.Explorer
