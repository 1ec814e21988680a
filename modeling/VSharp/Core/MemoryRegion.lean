import VSharp.Core.Merging
import VSharp.Core.UpdateTree

/-!
# Core — MemoryRegion

`VSharp.SILI.Core/MemoryRegion.fs`: the update trees that record the writes to a memory region, and
the region's `read` and `write`.

- `IMemoryKey` is the interface of the keys; what it computes may fail, and is given as functions
  so that a key type can fix the depth of the simplifiers it calls;
- a record is *splitting* if `predicate` holds of it: its value is a concrete heap address.  A write
  hangs under the splitting records and takes its own case out of their guards;
- assertions are left out; they do not change what is returned.
-/

namespace VSharp
open Term Propositional Merging

/-- `IMemoryKey<'a, 'reg>`, without `Map` and `IsUnion`, which reading and writing do not use. -/
structure IMemoryKey (κ R : Type) where
  region : κ → Except Failure R
  unguard : κ → Except Failure (List (Term × κ))
  inRegionCondition : κ → R → Except Failure Term
  intersectionCondition : κ → κ → Except Failure Term
  matchCondition : κ → κ → R → Except Failure Term
  isExplicit : κ → Pset VectorTime → Bool
  isRange : κ → Bool

namespace UpdateTree
open RegionTree PersistentDict

variable {κ R : Type} (K : IMemoryKey κ R)

/-- The record of a tree. -/
abbrev Record (κ : Type) := UpdateTreeKey κ Term

/-- The dictionary of a node of an update tree. -/
abbrev Entries (κ R : Type) := Pdict R (Record κ × UpdateTree κ Term R)

/-! ### Writing -/

section
variable (predicate : Record κ → Bool) [DecidableEq R] [HashOrder R] [IRegion R]

/-- `keyGuard` of `hangRecordUnderSplittingTree`: what is left of the guard of a record. -/
def keyGuard (utKey treeKey : Record κ) : Except Failure Term := do
  let intersection ← K.intersectionCondition utKey.key treeKey.key
  simplifyAnd (← simplifyNegation (← simplifyAnd intersection utKey.termGuard)) treeKey.termGuard

/-- The dictionary of a node, with the record put where its splitting records leave a region. -/
def placeRecord (region : R) (utKey : Record κ) (splittingTree symbolicTree : Entries κ R) :
    Entries κ R :=
  let restRegion := splittingTree.foldl (fun acc e => IRegion.subtract acc e.1) region
  if IRegion.isEmpty restRegion then splittingTree
  else add restRegion (utKey, .node symbolicTree) splittingTree

mutual

def hangRecordUnderSplittingTree (region : R) (utKey : Record κ) :
    UpdateTree κ Term R → Except Failure (Entries κ R)
  | .node d => do
      let splittingTree ← hangUnderSplittingSubtrees utKey [] d
      let symbolicTree := d.filter fun e => !predicate e.2.1
      .ok (placeRecord region utKey splittingTree symbolicTree)
termination_by structural t => t

/-- `hangUnderSplittingSubtree`, folded over the splitting entries. -/
def hangUnderSplittingSubtrees (utKey : Record κ) (acc : Entries κ R) :
    List (R × Record κ × UpdateTree κ Term R) → Except Failure (Entries κ R)
  | [] => .ok acc
  | (stReg, stUtKey, st) :: d =>
    if predicate stUtKey then do
      let modifiedSubtree ← hangRecordUnderSplittingTree stReg utKey st
      let updatedGuard ← keyGuard K utKey stUtKey
      let acc' :=
        if isFalse updatedGuard then append acc modifiedSubtree
        else add stReg ({ stUtKey with guard := some updatedGuard }, .node modifiedSubtree) acc
      hangUnderSplittingSubtrees utKey acc' d
    else hangUnderSplittingSubtrees utKey acc d
termination_by structural d => d

end

/-- `disjointUnguardedKey`: each guard without those before it. -/
def disjointUnguardedKey (disjGuard : Term) :
    List (Term × κ) → Except Failure (List (Term × κ))
  | [] => .ok []
  | (g, k) :: gvs => do
      let guard ← simplifyAnd disjGuard g
      let rest ← disjointUnguardedKey (← simplifyAnd (← simplifyNegation g) disjGuard) gvs
      .ok ((guard, k) :: rest)

def writeOneKey [DecidableEq κ] (region : R) (utKey : Record κ) (gk : Term × κ)
    (accTree : UpdateTree κ Term R) : Except Failure (UpdateTree κ Term R) := do
  let (included, disjoint) := localizeFilterHidden region utKey accTree
  let guard ← simplifyAnd utKey.termGuard gk.1
  let refinedKey : Record κ := { utKey with guard := some guard, key := gk.2 }
  if predicate refinedKey then .ok (.node (add region (refinedKey, .node included) disjoint))
  else do
    let modifiedTree ← hangRecordUnderSplittingTree K predicate region utKey (.node included)
    .ok (.node (append modifiedTree disjoint))

def write [DecidableEq κ] (region : R) (utKey : Record κ) (tree : UpdateTree κ Term R) :
    Except Failure (UpdateTree κ Term R) :=
  if utKey.hasFalseGuard then .ok tree
  else do
    let unguardedKey ← K.unguard utKey.key
    let disjoint ← disjointUnguardedKey trueTerm unguardedKey
    disjoint.foldrM (writeOneKey K predicate region utKey) tree

end

/-! ### Reading -/

section
variable (predicate : Record κ → Bool) [DecidableEq R] [HashOrder R] [IRegion R]

mutual

/-- `recReading` of `getSplittingAndSymbolicTree`. -/
def getSplittingAndSymbolicTree (readKey : κ) :
    UpdateTree κ Term R → Except Failure (Entries κ R × Entries κ R)
  | .node d =>
    collectSplittingAndSymbolicTree readKey ([], d.filter fun e => !predicate e.2.1) d
termination_by structural t => t

/-- `collectSplittingAndSymbolicTree`, folded over the splitting entries. -/
def collectSplittingAndSymbolicTree (readKey : κ) (acc : Entries κ R × Entries κ R) :
    List (R × Record κ × UpdateTree κ Term R) → Except Failure (Entries κ R × Entries κ R)
  | [] => .ok acc
  | (stReg, stUtKey, st) :: d =>
    if predicate stUtKey then do
      let keysAreMatch ← K.matchCondition readKey stUtKey.key stReg
      let finalGuard ← simplifyAnd keysAreMatch stUtKey.termGuard
      let (stSplitting, stSymbolic) ← getSplittingAndSymbolicTree readKey st
      let modifiedSymbolic := append acc.2 stSymbolic
      let modifiedSplitting :=
        if finalGuard = falseTerm then append acc.1 stSplitting
        else
          let guard := if isTrue finalGuard then none else some finalGuard
          add stReg ({ stUtKey with guard := guard }, .node stSplitting) acc.1
      collectSplittingAndSymbolicTree readKey (modifiedSplitting, modifiedSymbolic) d
    else collectSplittingAndSymbolicTree readKey acc d
termination_by structural d => d

end

/-- The branches of a split read, newest record first. -/
def readBranches (specializedReading : κ → Record κ → Term) (key : κ)
    (concreteTree : UpdateTree κ Term R) : List (Term × Term) :=
  foldr (fun _ utKey acc =>
    (utKey.termGuard, if K.isRange utKey.key then specializedReading key utKey else utKey.value)
      :: acc) [] concreteTree

def splitRead [HashOrder FieldId] (d : Entries κ R) (key : κ) (explicitAddresses : Pset VectorTime)
    (specializedReading : κ → Record κ → Term) (isDefault : κ → Bool)
    (makeSymbolic : UpdateTree κ Term R → Except Failure Term)
    (makeDefault : Except Failure Term) : Except Failure Term := do
  let (concreteTree, symbolic) ← getSplittingAndSymbolicTree K predicate key (.node d)
  let branches := readBranches K specializedReading key (.node concreteTree)
  if symbolic.isEmpty && K.isExplicit key explicitAddresses then
    let (branches, e) ← fromGvs branches
    merge ⟨branches, e⟩
  else if symbolic.isEmpty && isDefault key then merge ⟨branches, ← makeDefault⟩
  else merge ⟨branches, ← makeSymbolic (.node symbolic)⟩

/-- The time of the first of the latest records, of which there is always one. -/
def latestTime : List (R × Record κ) → VectorTime
  | [] => []
  | (_, k) :: _ => k.time

mutual

def collectBranchLatestRecords (latestRecords : List (R × Record κ)) :
    UpdateTree κ Term R → List (R × Record κ)
  | .node d => collectSubtreeNodes latestRecords latestRecords d
termination_by structural t => t

/-- `collectSubtreeNodes`, folded over the entries of a node. -/
def collectSubtreeNodes (latestRecords acc : List (R × Record κ)) :
    List (R × Record κ × UpdateTree κ Term R) → List (R × Record κ)
  | [] => acc
  | (r, k, st) :: d =>
    let acc' :=
      if predicate k then collectBranchLatestRecords acc st
      else if VectorTime.less (latestTime latestRecords) k.time then [(r, k)]
      else if k.time = latestTime latestRecords then (r, k) :: acc
      else acc
    collectSubtreeNodes latestRecords acc' d
termination_by structural d => d

end

def collectLatestRecords (d : Entries κ R) : List (R × Record κ) :=
  d.flatMap fun e => collectBranchLatestRecords predicate [(e.1, e.2.1)] e.2.2

def read [DecidableEq κ] [HashOrder FieldId] (key : κ) (tree : UpdateTree κ Term R)
    (explicitAddresses : Pset VectorTime) (specializedReading : κ → Record κ → Term)
    (isDefault : κ → Bool) (makeSymbolic : UpdateTree κ Term R → Except Failure Term)
    (makeDefault : Except Failure Term) : Except Failure Term := do
  let reg ← K.region key
  let d := localize reg tree
  if d.isEmpty then
    if isDefault key then makeDefault else makeSymbolic (.node d)
  else do
    let (sameKey, otherKeys) := (collectLatestRecords predicate d).partition fun e => e.2.key = key
    let keyRegion := otherKeys.foldl (fun acc e => IRegion.subtract acc e.1) reg
    let split : Except Failure Term :=
      if K.isRange key then makeSymbolic (.node d)
      else splitRead K predicate d key explicitAddresses specializedReading isDefault makeSymbolic
        makeDefault
    if reg = keyRegion then
      match sameKey with
      | [] => .error (.internal "ArgumentException")
      | (_, k) :: _ => if k.hasTrueGuard then .ok k.value else split
    else split

end

end UpdateTree

/-! ### Memory regions -/

/-- `memoryRegion<'key, 'reg>`. -/
structure MemoryRegion (κ R : Type) where
  typ : Ty
  updates : UpdateTree κ Term R
  defaultValue : Option Term
  nextUpdateTime : VectorTime
  explicitAddresses : Pset VectorTime

namespace MemoryRegion
open UpdateTree

variable {κ R : Type} (K : IMemoryKey κ R)

def empty (typ : Ty) : MemoryRegion κ R := ⟨typ, RegionTree.empty, none, [1], []⟩

def isConcreteHeapAddress : Term → Bool
  | .concrete (.address _) .address => true
  | _ => false

mutual

/-- `valueIsConcreteHeapAddress`, of a value under a key that is a range or not. -/
def holdsConcreteHeapAddress (isRange : Bool) : Term → Bool
  | .concrete (.address _) _ => true
  | .heapRef address _ => isConcreteHeapAddress address || isRange
  | .struct s _ => someHoldsConcreteHeapAddress isRange s
  | _ => isRange
termination_by structural v => v

def someHoldsConcreteHeapAddress (isRange : Bool) : List (FieldId × Term) → Bool
  | [] => false
  | (_, v) :: s => holdsConcreteHeapAddress isRange v || someHoldsConcreteHeapAddress isRange s
termination_by structural s => s

end

def valueIsConcreteHeapAddress (key : Record κ) : Bool :=
  holdsConcreteHeapAddress (K.isRange key.key) key.value

section
variable [DecidableEq κ] [DecidableEq R] [HashOrder R] [IRegion R]

omit [DecidableEq κ] [IRegion R] in
def memset (mr : MemoryRegion κ R) (keysAndValues : List (κ × Term)) :
    Except Failure (MemoryRegion κ R) := do
  let regionsAndKeys ← keysAndValues.zipIdx.mapM fun e => do
    let utKey : Record κ := { key := e.1.1, value := e.1.2, guard := none, time := [(e.2 : ℤ)] }
    .ok (← K.region e.1.1, utKey)
  .ok { mr with
    updates := RegionTree.memset regionsAndKeys mr.updates
    nextUpdateTime := [1 + (keysAndValues.length : ℤ)] }

def write (mr : MemoryRegion κ R) (guard : Option Term) (key : κ) (value : Term) :
    Except Failure (MemoryRegion κ R) := do
  let utKey : Record κ := { key := key, value := value, guard := guard, time := mr.nextUpdateTime }
  let updates ← UpdateTree.write K (valueIsConcreteHeapAddress K) (← K.region key) utKey mr.updates
  .ok { mr with updates := updates, nextUpdateTime := VectorTime.next mr.nextUpdateTime }

/-- `MemoryRegion.read`; `makeDefaultValue` is the default of the region's type. -/
def read [HashOrder FieldId] (mr : MemoryRegion κ R) (key : κ) (isDefault : κ → Bool)
    (instantiate : Ty → MemoryRegion κ R → Except Failure Term)
    (specializedReading : κ → Record κ → Term) (makeDefaultValue : Ty → Except Failure Term) :
    Except Failure Term := do
  let makeSymbolic (tree : UpdateTree κ Term R) := instantiate mr.typ { mr with updates := tree }
  let makeDefault : Except Failure Term :=
    match mr.defaultValue with
    | some d => .ok d
    | none => makeDefaultValue mr.typ
  let read (k : κ) : Except Failure Term :=
    UpdateTree.read K (valueIsConcreteHeapAddress K) k mr.updates mr.explicitAddresses
      specializedReading isDefault makeSymbolic makeDefault
  match ← K.unguard key with
  | [(_, k)] => read k
  | unguardedKey =>
    let values ← unguardedKey.mapM fun gk => do .ok (gk.1, ← read gk.2)
    let (branches, e) ← fromGvs values
    merge ⟨branches, e⟩

omit [DecidableEq κ] [DecidableEq R] [HashOrder R] [IRegion R] in
/-- `MemoryRegion.flatten`: the records of a region, newest first. -/
def flatten (mr : MemoryRegion κ R) : List (R × Record κ) := RegionTree.flatten mr.updates

end

end MemoryRegion

end VSharp
