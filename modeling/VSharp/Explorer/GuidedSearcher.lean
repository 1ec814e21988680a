import VSharp.Explorer.ForwardSearchers
import VSharp.Library.Systems
import VSharp.Utils.Collections

/-!
# Explorer — Guided searcher

`GuidedSearcher.fs`: a searcher that sends stuck states to targets.  Each target has a searcher of
its own, and each state the set of its targets.

- What the states and the target manager say of a state changes with its execution; it is given
  with each operation (`Surroundings`).
- The targets of a state are a field of the state, and so part of what the operations change.
- `Pick` is left out: it changes neither targets nor searchers.
-/

namespace VSharp.Explorer
open Utils PersistentDict Library

/-- The base searcher, an `IForwardSearcher`, as a list of states: `Update` takes in no states but
the new ones, and `Remove` takes the state out. -/
structure BaseSearcher (S : Type) where
  State : Type
  empty : State
  init : List S → State → State
  update : S → List S → State → State
  remove : S → State → State
  states : State → List S
  states_empty : states empty = []
  mem_init : ∀ {states' b x}, x ∈ states (init states' b) → x ∈ states b ∨ x ∈ states'
  mem_update : ∀ {parent newStates b x},
    x ∈ states (update parent newStates b) → x ∈ states b ∨ x ∈ newStates
  nodup_init : ∀ {states' b}, (states b).Nodup → states'.Nodup →
    (∀ x ∈ states', x ∉ states b) → (states (init states' b)).Nodup
  nodup_update : ∀ {parent newStates b}, (states b).Nodup → newStates.Nodup →
    (∀ x ∈ newStates, x ∉ states b) → (states (update parent newStates b)).Nodup
  mem_remove : ∀ {state b x}, (states b).Nodup →
    x ∈ states (remove state b) → x ∈ states b ∧ x ≠ state
  nodup_remove : ∀ {state b}, (states b).Nodup → (states (remove state b)).Nodup

/-- A searcher that keeps its states in a list and only rearranges them. -/
def listBase {S : Type} [DecidableEq S] (update : List S → S → List S → List S)
    (h : ∀ states parent newStates, (update states parent newStates).Perm (states ++ newStates)) :
    BaseSearcher S where
  State := List S
  empty := []
  init states' states := states ++ states'
  update parent newStates states := update states parent newStates
  remove state states := states.erase state
  states := id
  states_empty := rfl
  mem_init := List.mem_append.mp
  mem_update hx := List.mem_append.mp ((h _ _ _).mem_iff.mp hx)
  nodup_init hnodup hnodup' hfresh := List.nodup_append.mpr
    ⟨hnodup, hnodup', fun _ hx y hy hxy => hfresh y hy (hxy ▸ hx)⟩
  nodup_update hnodup hnodup' hfresh := (h _ _ _).nodup_iff.mpr (List.nodup_append.mpr
    ⟨hnodup, hnodup', fun _ hx y hy hxy => hfresh y hy (hxy ▸ hx)⟩)
  mem_remove hnodup hx := ((List.Nodup.mem_erase_iff hnodup).mp hx).symm
  nodup_remove hnodup := List.Nodup.erase _ hnodup

/-- `DFSSearcher`. -/
def dfsBase (S : Type) [DecidableEq S] : BaseSearcher S :=
  listBase dfsUpdate fun _ _ _ => dfsUpdate_perm

/-- What the weighters, the target manager and the states say when an operation begins. -/
structure Surroundings (S T : Type) where
  /-- `optionWeight` of `ShortestDistanceWeighter`. -/
  weight : T → S → Option ℕ
  /-- There is a current location, and it is the start of a basic block. -/
  isBasicBlockStart : S → Bool
  isStuck : S → Bool
  calculateTarget : S → Option T
  /-- The sinks of the starting method. -/
  returnTargets : S → List T

section
variable {S T : Type} [DecidableEq S] [DecidableEq T]

/-! ### Targets of states -/

def removeTarget (targets : S → List T) (state : S) (target : T) : S → List T :=
  Function.update targets state ((targets state).filter (· ≠ target))

/-- `AddTarget`, and whether the target is new. -/
def addTarget (targets : S → List T) (state : S) (target : T) : Bool × (S → List T) :=
  if target ∈ targets state then (false, targets)
  else (true, Function.update targets state (target :: targets state))

def clearTargets (targets : S → List T) (state : S) : S → List T :=
  Function.update targets state []

/-! ### Targeted searchers -/

namespace TargetedSearcher
variable (weight : S → Option ℕ) (target : T)

def insert (state : S) (storage : BidictionaryPriorityQueue S) (targets : S → List T) :
    Option (Bool × BidictionaryPriorityQueue S × (S → List T)) :=
  (WeightedSearcher.add weight state storage).map fun r =>
    (r.1, r.2, if r.1 then targets else removeTarget targets state target)

/-- `Insert` of all states, and whether one was inserted. -/
def insertAll (states : List S) (r : Bool × BidictionaryPriorityQueue S × (S → List T)) :
    Option (Bool × BidictionaryPriorityQueue S × (S → List T)) :=
  states.foldlM (fun r state => (insert weight target state r.2.1 r.2.2).map fun r' =>
    (r'.1 || r.1, r'.2)) r

/-- The target leaves the states that the searcher does not hold. -/
def removeUnheld (storage : BidictionaryPriorityQueue S) (states : List S)
    (targets : S → List T) : S → List T :=
  states.foldl (fun targets state =>
    if storage.tryGetPriority state = none then removeTarget targets state target else targets)
    targets

omit [DecidableEq T] in
/-- Inside a block the distances from the parent did not change. -/
def updateParent (isBasicBlockStart : S → Bool) (parent : S)
    (storage : BidictionaryPriorityQueue S) : Option (Bool × BidictionaryPriorityQueue S) :=
  if isBasicBlockStart parent then WeightedSearcher.updateState weight parent storage
  else some (false, storage)

def update (isBasicBlockStart : S → Bool) (parent : S) (newStates : List S)
    (storage : BidictionaryPriorityQueue S) (targets : S → List T) :
    Option (Bool × BidictionaryPriorityQueue S × (S → List T)) := do
  let wasParentUpdated ← updateParent weight isBasicBlockStart parent storage
  let r ← insertAll weight target newStates (wasParentUpdated.1, wasParentUpdated.2, targets)
  some (r.1, r.2.1, removeUnheld target r.2.1 (parent :: newStates) r.2.2)

omit [DecidableEq T] in
def reachedTarget (storage : BidictionaryPriorityQueue S) (state : S) : Bool :=
  storage.tryGetPriority state == some 0

def remove (state : S) (storage : BidictionaryPriorityQueue S) :
    Option (BidictionaryPriorityQueue S) :=
  if storage.contains state then storage.remove state else some storage

end TargetedSearcher

/-! ### The guided searcher -/

structure GuidedSearcher (B : BaseSearcher S) (T : Type) where
  baseSearcher : B.State
  targetedSearchers : Pdict T (BidictionaryPriorityQueue S)
  targets : S → List T

namespace GuidedSearcher
variable {B : BaseSearcher S} (env : Surroundings S T) (g : GuidedSearcher B T)

def getTargetedSearcher (target : T) : BidictionaryPriorityQueue S :=
  (tryFind g.targetedSearchers target).getD .empty

/-- What a targeted searcher has done. -/
def put (target : T) (r : BidictionaryPriorityQueue S × (S → List T)) : GuidedSearcher B T :=
  { g with
    targetedSearchers := Dictionary.set target r.1 g.targetedSearchers
    targets := r.2 }

def insertInTargetedSearcher (state : S) (target : T) : Option (Bool × GuidedSearcher B T) :=
  (TargetedSearcher.insert (env.weight target) target state (g.getTargetedSearcher target)
    g.targets).map fun r => (r.1, g.put target r.2)

def addReturnTarget (state : S) : Option (GuidedSearcher B T) :=
  (env.returnTargets state).foldlM (fun g target =>
    let added := addTarget g.targets state target
    if added.1 then
      (insertInTargetedSearcher env { g with targets := added.2 } state target).map Prod.snd
    else some g) g

def deleteTargetedSearcher (target : T) : GuidedSearcher B T :=
  { g with
    targetedSearchers := PersistentDict.remove target g.targetedSearchers
    targets := (g.getTargetedSearcher target).toSeq.foldl
      (fun targets state => removeTarget targets state target) g.targets }

/-- The targets of the parent and of the new states, with the new states that have them. -/
def cilStatesByTarget (parent : S) (newStates : List S) : List (T × List S) :=
  (HashSet.unionWith [] (g.targets parent ++ newStates.flatMap g.targets)).map fun target =>
    (target, newStates.filter fun state => target ∈ g.targets state)

/-- A searcher takes all new states, with the parent if the target is one of its targets. -/
def updateOrInsert (parent : S) (newStates : List S) (target : T) :
    Option (Bool × BidictionaryPriorityQueue S × (S → List T)) :=
  if target ∈ g.targets parent then
    TargetedSearcher.update (env.weight target) target env.isBasicBlockStart parent newStates
      (g.getTargetedSearcher target) g.targets
  else
    TargetedSearcher.insertAll (env.weight target) target newStates
      (false, g.getTargetedSearcher target, g.targets)

/-- One target of `updateTargetedSearchers`.  The states that reached it are looked at only when
others were found before. -/
def updateTargetedSearcher (parent : S) (newStates : List S)
    (r : GuidedSearcher B T × List S) (entry : T × List S) :
    Option (GuidedSearcher B T × List S) :=
  (r.1.updateOrInsert env parent newStates entry.1).map fun updated =>
    let g := r.1.put entry.1 updated.2
    let statesReachedCurrentTarget :=
      (parent :: entry.2).filter (TargetedSearcher.reachedTarget updated.2.1)
    if r.2 ≠ [] then
      (g.deleteTargetedSearcher entry.1, HashSet.unionWith r.2 statesReachedCurrentTarget)
    else (g, r.2)

def updateTargetedSearchers (parent : S) (newStates : List S) : Option (GuidedSearcher B T) :=
  ((g.cilStatesByTarget parent newStates).foldlM (updateTargetedSearcher env parent newStates)
    (g, [])).bind fun r => r.2.foldlM (addReturnTarget env) r.1

def init (states : List S) : Option (GuidedSearcher B T) :=
  states.foldlM (fun g state =>
    (g.targets state).foldlM (fun g target =>
      (insertInTargetedSearcher env g state target).map Prod.snd) g)
    { g with baseSearcher := B.init states g.baseSearcher }

def remove (state : S) : Option (GuidedSearcher B T) :=
  (g.targetedSearchers.mapM fun entry =>
    (TargetedSearcher.remove state entry.2).map fun storage => (entry.1, storage)).map
      fun targetedSearchers =>
        { g with
          baseSearcher := B.remove state g.baseSearcher
          targetedSearchers := targetedSearchers }

/-- `ClearTargets`, and then `remove`. -/
def drop (state : S) : Option (GuidedSearcher B T) :=
  remove { g with targets := clearTargets g.targets state } state

/-- A stuck state without targets gets one, or goes. -/
def updateStuck (state : S) : Option (GuidedSearcher B T) :=
  if (g.targets state).isEmpty && env.isStuck state then
    match env.calculateTarget state with
    | some target =>
      (insertInTargetedSearcher env { g with targets := (addTarget g.targets state target).2 }
        state target).bind fun r => if r.1 then some r.2 else r.2.drop state
    | none => g.drop state
  else some g

def targetsWithEmptySearchers : List T :=
  (keys g.targetedSearchers).filter fun target => (g.getTargetedSearcher target).toSeq.isEmpty

def update (parent : S) (newStates : List S) : Option (GuidedSearcher B T) := do
  let g ← updateTargetedSearchers env
    { g with baseSearcher := B.update parent newStates g.baseSearcher } parent newStates
  let g ← (parent :: newStates).foldlM (updateStuck env) g
  some (g.targetsWithEmptySearchers.foldl deleteTargetedSearcher g)

/-- States come with their targets. -/
def bring (states : List (S × List T)) : GuidedSearcher B T :=
  { g with targets := states.foldl (fun targets e => Function.update targets e.1 e.2) g.targets }

/-- The weight that a state has in the searcher of a target. -/
def weightIn (target : T) (state : S) : Option ℕ :=
  (tryFind g.targetedSearchers target).bind (·.tryGetPriority state)

end GuidedSearcher

/-- An operation of the searcher.  States that come in have their targets with them. -/
inductive GuidedOperation (S T : Type) where
  | init (states : List (S × List T))
  | update (parent : S) (newStates : List (S × List T))
  | remove (state : S)

/-- The searcher under its operations. -/
def guidedSystem (B : BaseSearcher S) (T : Type) [DecidableEq T] :
    System (GuidedSearcher B T) (Surroundings S T × GuidedOperation S T) where
  start := { baseSearcher := B.empty, targetedSearchers := [], targets := fun _ => [] }
  step g op :=
    match op.2 with
    | .init states => (g.bring states).init op.1 (states.map Prod.fst)
    | .update parent newStates =>
      (g.bring newStates).update op.1 parent (newStates.map Prod.fst)
    | .remove state => g.remove state

end

end VSharp.Explorer
