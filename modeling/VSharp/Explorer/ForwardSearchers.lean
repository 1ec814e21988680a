import Mathlib.Data.List.FinRange
import Mathlib.Data.List.Sort
import VSharp.Explorer.ExecutionTree
import VSharp.Utils.PriorityCollection

/-!
# Explorer — Forward searchers

`IForwardSearcher` and the searchers of `VSharp.Explorer` that implement it: `Searcher.fs`,
`DFSSortedByContributedCoverageSearcher.fs`, `ExecutionTreeSearcher.fs` and `InterleavedSearcher.fs`.

- An operation that throws has no result; `assert` is left out.
- The statistics behind a weight change with time: the weight of a state is asked for with the number
  of the operation.
- A random generator is the sequence of its numbers.
-/

namespace VSharp.Explorer
open Utils

/-- `IForwardSearcher`, with the fields of the object as `State`; `Pick` also changes them. -/
structure ForwardSearcher (M : Type) where
  State : Type
  init : List (StateRef M) → Option State
  update : StateRef M → List (StateRef M) → State → Option State
  pick : State → Option (Option (StateRef M) × State)
  pickSelected : (StateRef M → Bool) → State → Option (Option (StateRef M) × State)
  remove : StateRef M → State → Option State
  states : State → List (StateRef M)

section
variable {M : Type} [DecidableEq M]

/-! ### Lists -/

def dfsSearcher (M : Type) [DecidableEq M] : ForwardSearcher M where
  State := List (StateRef M)
  init initialStates := some initialStates
  update parent newStates states := some (dfsUpdate states parent newStates)
  pick states := some (states.getLast?, states)
  pickSelected selector states := some (states.reverse.find? selector, states)
  remove state states := some (states.erase state)
  states := id

def bfsSearcher (M : Type) [DecidableEq M] : ForwardSearcher M where
  State := List (StateRef M)
  init initialStates := some initialStates
  update parent newStates states := some (bfsUpdate states parent newStates)
  pick states := some (states.head?, states)
  pickSelected selector states := some (states.find? selector, states)
  remove state states := some (states.erase state)
  states := id

/-- `compareWeightOpts`: the first weight is not greater. -/
def weightLe : Option ℕ → Option ℕ → Bool
  | some oneWeight, some anotherWeight => oneWeight ≤ anotherWeight
  | some _, none => false
  | none, _ => true

/-- `OrderBy`, which is stable. -/
def orderBy {σ : Type} (getWeight : σ → Option ℕ) (states : List σ) : List σ :=
  states.insertionSort fun x y => weightLe (getWeight x) (getWeight y)

/-- `DFSSortedByContributedCoverageSearcher`. -/
def sortedSearcher (getWeight : ℕ → StateRef M → Option ℕ) : ForwardSearcher M where
  State := List (StateRef M) × ℕ
  init initialStates := some (orderBy (getWeight 0) initialStates, 1)
  update _ newStates s := some (orderBy (getWeight s.2) (s.1 ++ newStates), s.2 + 1)
  pick s := some (s.1.getLast?, s)
  pickSelected selector s := some (s.1.reverse.find? selector, s)
  remove state s := some (s.1.erase state, s.2)
  states s := s.1

/-! ### Weights -/

namespace WeightedSearcher
variable {σ : Type} [DecidableEq σ] (optionWeight : σ → Option ℕ)

def add (s : σ) (storage : BidictionaryPriorityQueue σ) :
    Option (Bool × BidictionaryPriorityQueue σ) :=
  match optionWeight s with
  | some w => (storage.insert s w).map fun storage => (true, storage)
  | none => some (false, storage)

/-- `update` of one state. -/
def updateState (s : σ) (storage : BidictionaryPriorityQueue σ) :
    Option (Bool × BidictionaryPriorityQueue σ) :=
  if storage.contains s then
    match optionWeight s with
    | some w => (storage.update s w).map fun storage => (true, storage)
    | none => (storage.remove s).map fun storage => (false, storage)
  else some (false, storage)

/-- `Insert` of all states. -/
def addAll (states : List σ) (storage : BidictionaryPriorityQueue σ) :
    Option (BidictionaryPriorityQueue σ) :=
  states.foldlM (fun storage s => (add optionWeight s storage).map Prod.snd) storage

def update (parent : σ) (newStates : List σ) (storage : BidictionaryPriorityQueue σ) :
    Option (BidictionaryPriorityQueue σ) :=
  (updateState optionWeight parent storage).bind fun r => addAll optionWeight newStates r.2

end WeightedSearcher

/-- `WeightedSearcher` over a `BidictionaryPriorityQueue`. -/
def weightedSearcher (weight : ℕ → StateRef M → Option ℕ) : ForwardSearcher M where
  State := BidictionaryPriorityQueue (StateRef M) × ℕ
  init states := (WeightedSearcher.addAll (weight 0) states .empty).map fun storage => (storage, 1)
  update parent newStates s :=
    (WeightedSearcher.update (weight s.2) parent newStates s.1).map fun storage =>
      (storage, s.2 + 1)
  pick s := s.1.choose.map fun r => (r, s)
  pickSelected selector s := some (s.1.chooseWithSelector selector, s)
  remove state s :=
    if s.1.contains state then (s.1.remove state).map fun storage => (storage, s.2) else some s
  states s := s.1.toSeq

/-! ### Trees -/

namespace ExecutionTreeSearcher

def pick (random : ℕ → ℕ) (s : ExecutionTreeSearcher M × ℕ) :
    Option (Option (StateRef M) × ExecutionTreeSearcher M × ℕ) :=
  if 0 < s.1.methods.length then do
    let method ← s.1.methods[random s.2 % s.1.methods.length]?
    let tree ← s.1.trees.lookup method
    let (picked, drawn) ← tree.randomPick random (s.2 + 1)
    some (picked, s.1, drawn)
  else some (none, s)

/-- The first suitable tree; the head of an empty tree throws. -/
def tryFindSuitable (selector : StateRef M → Bool) :
    List (ExecutionTree (StateRef M)) → Option (Option (ExecutionTree (StateRef M)))
  | [] => some none
  | tree :: trees =>
    tree.states.head?.bind fun state =>
      if selector state then some (some tree) else tryFindSuitable selector trees

def pickWithSelector (random : ℕ → ℕ) (selector : StateRef M → Bool)
    (s : ExecutionTreeSearcher M × ℕ) :
    Option (Option (StateRef M) × ExecutionTreeSearcher M × ℕ) := do
  let suitable ← tryFindSuitable selector (s.1.trees.entries.map Sigma.snd)
  let (pickedOpt, drawn) ← suitable.elim (some (none, s.2)) fun tree => tree.randomPick random s.2
  if pickedOpt.any selector then some (pickedOpt, s.1, drawn)
  else some (s.1.states.find? selector, s.1, drawn)

end ExecutionTreeSearcher

/-- `ExecutionTreeSearcher`; the entry method of an isolated state throws. -/
def executionTreeSearcher (random : ℕ → ℕ) : ForwardSearcher M where
  State := ExecutionTreeSearcher M × ℕ
  init initialStates := (ExecutionTreeSearcher.init initialStates).map fun t => (t, 0)
  update parent newStates s :=
    if parent.isIsolated then none else some (s.1.update parent newStates, s.2)
  pick := ExecutionTreeSearcher.pick random
  pickSelected := ExecutionTreeSearcher.pickWithSelector random
  remove state s := if state.isIsolated then none else some (s.1.remove state, s.2)
  states s := s.1.states

end

/-! ### Interleaving -/

/-- All results, when there is one of each. -/
def sequence {n : ℕ} {α : Fin n → Type} (f : ∀ i, Option (α i)) : Option (∀ i, α i) :=
  if h : ∀ i, (f i).isSome then some fun i => (f i).get (h i) else none

namespace InterleavedSearcher
variable {M : Type} (searchersWithStepCount : List (ForwardSearcher M × ℕ))

/-- The states of the searchers. -/
abbrev States := ∀ i : Fin searchersWithStepCount.length, (searchersWithStepCount.get i).1.State

/-- One round of `searchers`. -/
def round : List (Fin searchersWithStepCount.length) :=
  (List.finRange _).flatMap fun i => List.replicate (searchersWithStepCount.get i).2 i

/-- `getCurrentSearcher`, after the given number of moves. -/
def currentSearcher (moves : ℕ) : Option (Fin searchersWithStepCount.length) :=
  let round := round searchersWithStepCount
  round[moves % round.length]?

variable {searchersWithStepCount}

def pickInternal (selectorOpt : Option (StateRef M → Bool))
    (i : Fin searchersWithStepCount.length) (s : States searchersWithStepCount) :
    Option (Option (StateRef M) × States searchersWithStepCount) :=
  let searcher := (searchersWithStepCount.get i).1
  let picked := match selectorOpt with
    | some selector => searcher.pickSelected selector (s i)
    | none => searcher.pick (s i)
  picked.map fun r => (r.1, Function.update s i r.2)

def tryPick (selectorOpt : Option (StateRef M → Bool)) :
    List (Fin searchersWithStepCount.length) → States searchersWithStepCount →
      Option (Option (StateRef M) × States searchersWithStepCount)
  | [], s => some (none, s)
  | i :: rest, s =>
    (pickInternal selectorOpt i s).bind fun r =>
      match r.1 with
      | some picked => some (some picked, r.2)
      | none => tryPick selectorOpt rest r.2

def pick (selectorOpt : Option (StateRef M → Bool)) (s : States searchersWithStepCount × ℕ) :
    Option (Option (StateRef M) × States searchersWithStepCount × ℕ) := do
  let currentSearcher ← currentSearcher searchersWithStepCount s.2
  let (pickedFromCurrent, states) ← pickInternal selectorOpt currentSearcher s.1
  match pickedFromCurrent with
  | some picked => some (some picked, states, s.2 + 1)
  | none =>
    (tryPick selectorOpt ((List.finRange _).filter (· ≠ currentSearcher)) states).map fun r =>
      (r.1, r.2, s.2 + 1)

end InterleavedSearcher

def interleavedSearcher {M : Type} [DecidableEq M]
    (searchersWithStepCount : List (ForwardSearcher M × ℕ)) : ForwardSearcher M where
  State := InterleavedSearcher.States searchersWithStepCount × ℕ
  init states :=
    (sequence fun i => (searchersWithStepCount.get i).1.init states).map fun s => (s, 0)
  update parent newStates s :=
    (sequence fun i => (searchersWithStepCount.get i).1.update parent newStates (s.1 i)).map
      fun states => (states, s.2)
  pick := InterleavedSearcher.pick none
  pickSelected selector := InterleavedSearcher.pick (some selector)
  remove state s :=
    (sequence fun i => (searchersWithStepCount.get i).1.remove state (s.1 i)).map
      fun states => (states, s.2)
  states s :=
    ((List.finRange _).flatMap fun i => (searchersWithStepCount.get i).1.states (s.1 i)).eraseDups

end VSharp.Explorer
