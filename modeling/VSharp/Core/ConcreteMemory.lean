import VSharp.Library.Worklist
import VSharp.Utils.Collections

/-!
# Core — ConcreteMemory

`VSharp.SILI.Core/ConcreteMemory.fs`: the objects of the program that live as real objects.  An
object is known by its identity (`O`, the reference equality of `physicalAddress`), an address is a
`concreteHeapAddress` (`A`).  `children` keeps, for the reference cells of an object that have been
read or written, the object in the cell or that it has gone symbolic; `parents` leads from a child
back to the objects that hold it, with one cell each; `fullyConcretes` caches the objects found to
reach no symbolic cell.

What `AddChild` sees of the value in a cell is a reference, `null`, or a structure with the fields
that hold references (`Child`).  A `Dictionary` does not say in which order it enumerates its entries,
and puts a new key where one was removed: the order in which the check of an object comes to its cells
is a parameter (`CellOrder`), which may be another one at each operation.
-/

namespace VSharp
open List
open PersistentDict (tryFind keys)
open Library (Links)

/-- `ChildKind`: a field, or the indices of an element with its type. -/
inductive ChildKind (F T : Type) where
  | field (f : F)
  | index (indices : List ℤ) (elemType : T)
deriving DecidableEq

structure ChildLocation (F T : Type) where
  childKind : ChildKind F T
  structFields : List F
deriving DecidableEq

namespace ChildLocation
variable {F T : Type}

def create (childKind : ChildKind F T) : ChildLocation F T := ⟨childKind, []⟩

def addStructField (x : ChildLocation F T) (fieldId : F) : ChildLocation F T :=
  { x with structFields := fieldId :: x.structFields }

end ChildLocation

inductive Cell (O : Type) where
  | concrete (phys : O)
  | symbolic
deriving DecidableEq

mutual

/-- The value in a cell, as far as `AddChild` looks at it. -/
inductive Child (O F : Type) where
  | null
  | ref (phys : O)
  | struct (fields : StructFields O F)

/-- The fields of a structure that hold references or structures with references. -/
inductive StructFields (O F : Type) where
  | nil
  | cons (fieldId : F) (child : Child O F) (rest : StructFields O F)

end

/-- The tables of a `ConcreteMemory`, for cell locations `L`. -/
structure ConcreteMemory (A O L : Type) where
  physToVirt : Pdict O A
  virtToPhys : Pdict A O
  children : Pdict O (Pdict L (Cell O))
  parents : Pdict O (Pdict O L)
  fullyConcretes : List O

namespace ConcreteMemory
variable {A O L F T : Type}

/-- `ConcreteMemory()`. -/
def empty : ConcreteMemory A O L := ⟨[], [], [], [], []⟩

section
variable [DecidableEq O] [DecidableEq L]

/-- The entries of `children[phys]`, none if it is not there. -/
def cells (children : Pdict O (Pdict L (Cell O))) (phys : O) : Pdict L (Cell O) :=
  (tryFind children phys).getD []

/-- `children[phys][loc]`. -/
def cell (children : Pdict O (Pdict L (Cell O))) (phys : O) (loc : L) : Option (Cell O) :=
  tryFind (cells children phys) loc

/-- `parents[child][parent]`. -/
def parentLoc (parents : Pdict O (Pdict O L)) (child parent : O) : Option L :=
  tryFind ((tryFind parents child).getD []) parent

/-- The parents of each object. -/
def parentLinks (parents : Pdict O (Pdict O L)) : Links O where
  next child := keys ((tryFind parents child).getD [])
  keys := keys parents
  next_eq_nil a ha := by
    rw [PersistentDict.tryFind_eq_none_iff.mpr ha]
    rfl

/-- The loops of `HasFullyConcreteParent` and `RemoveFromFullyConcretesRec` visit `phys` and its
ancestors. -/
def ancestors (parents : Pdict O (Pdict O L)) (phys : O) : List O :=
  (parentLinks parents).visit [] [phys]

def hasFullyConcreteParent (cm : ConcreteMemory A O L) (phys : O) : Bool :=
  (ancestors cm.parents phys).any fun child => child ∈ cm.fullyConcretes

def removeFromFullyConcretesRec (cm : ConcreteMemory A O L) (phys : O) : ConcreteMemory A O L :=
  { cm with
    fullyConcretes := (ancestors cm.parents phys).foldl
      (fun fullyConcretes child => fullyConcretes.filter (· ≠ child)) cm.fullyConcretes }

def addToParents (cm : ConcreteMemory A O L) (parent child : O) (childLoc : L) :
    ConcreteMemory A O L :=
  { cm with
    parents := match tryFind cm.parents child with
      | some parentDict => Dictionary.set child (Dictionary.set parent childLoc parentDict) cm.parents
      | none => Dictionary.set child [(parent, childLoc)] cm.parents }

end

/-! ### The check of one object -/

section
variable [DecidableEq O] {phys : O}

/-- The sets of a check: `tracked`, and `fullyConcretes` with what it adds. -/
structure Check (O : Type) where
  tracked : List O
  fullyConcretes : List O

/-- The order in which the dictionary of the cells of an object enumerates them. -/
class CellOrder (O L : Type) where
  enumerate : O → Pdict L (Cell O) → Pdict L (Cell O)
  perm : ∀ phys d, (enumerate phys d).Perm d

/-- Dictionaries that enumerate in insertion order. -/
@[reducible]
def insertionOrder : CellOrder O L := ⟨fun _ d => d, fun _ d => .refl d⟩

/-- The cells of an object in the order in which they are enumerated. -/
def enumerated [CellOrder O L] (children : Pdict O (Pdict L (Cell O))) (phys : O) :
    Pdict L (Cell O) :=
  CellOrder.enumerate phys (cells children phys)

theorem mem_enumerated [CellOrder O L] {children : Pdict O (Pdict L (Cell O))} {e : L × Cell O} :
    e ∈ enumerated children phys ↔ e ∈ cells children phys :=
  (CellOrder.perm phys (cells children phys)).mem_iff

/-- The loop of `CheckConcretenessRec` over the cells of an object, until one is not concrete. -/
def checkCells (checkRec : Check O → O → Option (Bool × Check O)) :
    Pdict L (Cell O) → Check O → Option (Bool × Check O)
  | [], s => some (true, s)
  | (_, .symbolic) :: _, s => some (false, s)
  | (_, .concrete child) :: rest, s =>
    match checkRec s child with
    | none => none
    | some (false, s') => some (false, s')
    | some (true, s') => checkCells checkRec rest s'

/-- `CheckConcretenessRec`, to a given depth of calls. -/
def checkConcretenessRec [CellOrder O L] (children : Pdict O (Pdict L (Cell O))) :
    ℕ → Check O → O → Option (Bool × Check O)
  | 0, _, _ => none
  | depth + 1, s, phys =>
    if phys ∈ s.fullyConcretes ∨ phys ∈ s.tracked then some (true, s)
    else
      match checkCells (checkConcretenessRec children depth) (enumerated children phys)
          { s with tracked := HashSet.add s.tracked phys } with
      | none => none
      | some (false, s') => some (false, s')
      | some (true, s') =>
        some (true, { s' with fullyConcretes := HashSet.add s'.fullyConcretes phys })

/-- The objects with cells that are not tracked yet. -/
def untracked (children : Pdict O (Pdict L (Cell O))) (s : Check O) : List O :=
  (keys children).filter fun phys => phys ∉ s.tracked

variable {children : Pdict O (Pdict L (Cell O))}

omit [DecidableEq O] in
theorem checkCells_total {checkRec : Check O → O → Option (Bool × Check O)}
    {Small : Check O → Prop} (hmono : ∀ s s', s.tracked ⊆ s'.tracked → Small s → Small s')
    (hrec : ∀ s phys, Small s → ∃ b s', checkRec s phys = some (b, s') ∧ s.tracked ⊆ s'.tracked)
    (entries : Pdict L (Cell O)) (s : Check O) (hs : Small s) :
    ∃ b s', checkCells checkRec entries s = some (b, s') ∧ s.tracked ⊆ s'.tracked := by
  induction entries generalizing s with
  | nil => exact ⟨true, s, rfl, List.Subset.refl _⟩
  | cons e rest ih =>
    obtain ⟨loc, c⟩ := e
    cases c with
    | symbolic => exact ⟨false, s, rfl, List.Subset.refl _⟩
    | concrete child =>
      obtain ⟨b, s', hb, hsub⟩ := hrec s child hs
      simp only [checkCells, hb]
      cases b with
      | false => exact ⟨false, s', rfl, hsub⟩
      | true =>
        obtain ⟨b, s'', hb', hsub'⟩ := ih s' (hmono s s' hsub hs)
        exact ⟨b, s'', hb', List.Subset.trans hsub hsub'⟩

theorem untracked_length_le {s s' : Check O} (h : s.tracked ⊆ s'.tracked) :
    (untracked children s').length ≤ (untracked children s).length := by
  refine (monotone_filter_right _ fun phys hphys => ?_).length_le
  simp only [decide_eq_true_eq] at hphys ⊢
  exact fun hs => hphys (h hs)

theorem untracked_length_lt {s : Check O} (hkey : phys ∈ keys children) (h : phys ∉ s.tracked) :
    (untracked children { s with tracked := HashSet.add s.tracked phys }).length <
      (untracked children s).length := by
  have hsub : untracked children { s with tracked := HashSet.add s.tracked phys } =
      (untracked children s).filter fun o => o ≠ phys := by
    rw [untracked, untracked, filter_filter]
    refine filter_congr fun o _ => ?_
    simp [not_or, and_comm]
  rw [hsub]
  refine length_filter_lt_length_iff_exists.mpr ⟨phys, ?_, by simp⟩
  simpa [untracked] using ⟨hkey, h⟩

variable [CellOrder O L]

theorem enumerated_eq_nil (h : phys ∉ keys children) : enumerated children phys = [] := by
  have hnil : cells children phys = [] := by
    rw [cells, PersistentDict.tryFind_eq_none_iff.mpr h]
    rfl
  rw [enumerated, hnil]
  exact (CellOrder.perm phys []).eq_nil

/-- A check that may nest more calls than objects with cells are left returns. -/
theorem checkConcretenessRec_total (depth : ℕ) (s : Check O) (phys : O)
    (hs : (untracked children s).length < depth) :
    ∃ b s', checkConcretenessRec children depth s phys = some (b, s') ∧ s.tracked ⊆ s'.tracked := by
  induction depth generalizing s phys with
  | zero => cases hs
  | succ depth ih =>
    have hadd : s.tracked ⊆ HashSet.add s.tracked phys := fun o ho => HashSet.mem_add.mpr (.inl ho)
    rw [checkConcretenessRec]
    split
    case isTrue => exact ⟨true, s, rfl, List.Subset.refl _⟩
    case isFalse h =>
      rw [not_or] at h
      have hcells : ∃ b s', checkCells (checkConcretenessRec children depth)
          (enumerated children phys) { s with tracked := HashSet.add s.tracked phys } =
            some (b, s') ∧ HashSet.add s.tracked phys ⊆ s'.tracked := by
        by_cases hkey : phys ∈ keys children
        · have hlt := untracked_length_lt hkey h.2
          exact checkCells_total
            (fun _ _ hsub => Nat.lt_of_le_of_lt (untracked_length_le hsub)) ih _ _ (by omega)
        · rw [enumerated_eq_nil hkey]
          exact ⟨true, _, rfl, List.Subset.refl _⟩
      obtain ⟨b, s', hb, hsub⟩ := hcells
      rw [hb]
      cases b with
      | false => exact ⟨false, s', rfl, List.Subset.trans hadd hsub⟩
      | true => exact ⟨true, _, rfl, List.Subset.trans hadd hsub⟩

/-- The run of `CheckConcreteness`. -/
def runCheck (children : Pdict O (Pdict L (Cell O))) (fullyConcretes : List O) (phys : O) :
    Option (Bool × Check O) :=
  checkConcretenessRec children (children.length + 1) ⟨[], fullyConcretes⟩ phys

theorem runCheck_isSome (children : Pdict O (Pdict L (Cell O))) (fullyConcretes : List O)
    (phys : O) : (runCheck children fullyConcretes phys).isSome = true := by
  have hs : (untracked children ⟨[], fullyConcretes⟩).length < children.length + 1 := by
    have hle := length_filter_le (fun phys => decide (phys ∉ ([] : List O))) (keys children)
    rw [PersistentDict.keys, length_map] at hle
    exact Nat.lt_succ_of_le hle
  obtain ⟨b, s', hb, -⟩ := checkConcretenessRec_total _ _ phys hs
  rw [runCheck, hb]
  rfl

/-- `CheckConcreteness`: the answer, and `fullyConcretes` with what the check adds. -/
def checkConcreteness (cm : ConcreteMemory A O L) (phys : O) : Bool × ConcreteMemory A O L :=
  let result := (runCheck cm.children cm.fullyConcretes phys).get (runCheck_isSome _ _ _)
  (result.1, { cm with fullyConcretes := result.2.fullyConcretes })

end

/-! ### The operations -/

section
variable [DecidableEq O] [DecidableEq L] [CellOrder O L]

/-- The cells of `parent` after `AddRefChild`. -/
def putChild (children : Pdict O (Pdict L (Cell O))) (parent child : O) (childLoc : L)
    (update : Bool) : Pdict O (Pdict L (Cell O)) :=
  match tryFind children parent with
  | some childDict =>
    if update then Dictionary.set parent (Dictionary.set childLoc (.concrete child) childDict) children
    else
      match tryFind childDict childLoc with
      | some (.concrete _) =>
        Dictionary.set parent (Dictionary.set childLoc (.concrete child) childDict) children
      | some .symbolic => children
      | none =>
        Dictionary.set parent (Dictionary.set childLoc (.concrete child) childDict) children
  | none => Dictionary.set parent [(childLoc, .concrete child)] children

/-- What `AddRefChild` does with the cache: the ancestors of `parent` stay in it only if the child
is fully concrete. -/
def recheck (cm : ConcreteMemory A O L) (parent child : O) : ConcreteMemory A O L :=
  if cm.hasFullyConcreteParent parent then
    let result := cm.checkConcreteness child
    if result.1 then result.2 else result.2.removeFromFullyConcretesRec parent
  else cm

def addRefChild (cm : ConcreteMemory A O L) (parent child : O) (childLoc : L) (update : Bool) :
    ConcreteMemory A O L :=
  let cm := { cm with children := putChild cm.children parent child childLoc update }
  let cm := if update then cm.recheck parent child else cm
  cm.addToParents parent child childLoc

/-- The cell of `parent` at `childLoc` is forgotten. -/
def removeChild (children : Pdict O (Pdict L (Cell O))) (parent : O) (childLoc : L) :
    Pdict O (Pdict L (Cell O)) :=
  match tryFind children parent with
  | some childDict => Dictionary.set parent (PersistentDict.remove childLoc childDict) children
  | none => children

/-- `MarkSymbolic`; a recorded parent has cells. -/
def markSymbolic (cm : ConcreteMemory A O L) (phys : O) : ConcreteMemory A O L :=
  { cm with
    children := ((tryFind cm.parents phys).getD []).foldl
      (fun children e =>
        Dictionary.set e.1 (Dictionary.set e.2 .symbolic (cells children e.1)) children)
      cm.children }

variable [DecidableEq A]

def contains (cm : ConcreteMemory A O L) (address : A) : Bool := address ∈ keys cm.virtToPhys

def tryFullyConcrete (cm : ConcreteMemory A O L) (address : A) :
    Option O × ConcreteMemory A O L :=
  match tryFind cm.virtToPhys address with
  | some phys =>
    let result := cm.checkConcreteness phys
    (if result.1 then some phys else none, result.2)
  | none => (none, cm)

/-- `Allocate`: an address that is taken is an error. -/
def allocate (cm : ConcreteMemory A O L) (address : A) (obj : O) : Option (ConcreteMemory A O L) :=
  if address ∈ keys cm.virtToPhys then none
  else some { cm with
    virtToPhys := Dictionary.set address obj cm.virtToPhys
    physToVirt := Dictionary.set obj address cm.physToVirt }

/-- `Remove`: an address that is not there is an error. -/
def remove (cm : ConcreteMemory A O L) (address : A) : Option (ConcreteMemory A O L) :=
  match tryFind cm.virtToPhys address with
  | none => none
  | some phys =>
    let cm := { cm with virtToPhys := PersistentDict.remove address cm.virtToPhys }
    some ((cm.removeFromFullyConcretesRec phys).markSymbolic phys)

end

section
variable [DecidableEq O] [DecidableEq F] [DecidableEq T] [CellOrder O (ChildLocation F T)]

mutual

def addChild (cm : ConcreteMemory A O (ChildLocation F T)) (parent : O) :
    Child O F → ChildLocation F T → Bool → ConcreteMemory A O (ChildLocation F T)
  | .null, childLoc, update =>
    if update then { cm with children := removeChild cm.children parent childLoc } else cm
  | .ref child, childLoc, update =>
    if parent ≠ child then cm.addRefChild parent child childLoc update else cm
  | .struct fields, childLoc, update => addStructChildren cm parent fields childLoc update

/-- The loop of `AddChild` over the fields of a structure. -/
def addStructChildren (cm : ConcreteMemory A O (ChildLocation F T)) (parent : O) :
    StructFields O F → ChildLocation F T → Bool → ConcreteMemory A O (ChildLocation F T)
  | .nil, _, _ => cm
  | .cons fieldId child rest, childLoc, update =>
    addStructChildren (addChild cm parent child (childLoc.addStructField fieldId) update) parent
      rest childLoc update

end

def trackChild (cm : ConcreteMemory A O (ChildLocation F T)) (parent : O) (child : Child O F)
    (childKind : ChildKind F T) : ConcreteMemory A O (ChildLocation F T) :=
  cm.addChild parent child (.create childKind) false

def setChild (cm : ConcreteMemory A O (ChildLocation F T)) (parent : O) (child : Child O F)
    (childKind : ChildKind F T) : ConcreteMemory A O (ChildLocation F T) :=
  cm.addChild parent child (.create childKind) true

end

/-! ### What the operations do to the tables -/

section
variable [DecidableEq O] [DecidableEq L] {children : Pdict O (Pdict L (Cell O))}
  {parents : Pdict O (Pdict O L)} {p q c c' : O} {loc : L}
variable {update : Bool}

omit [DecidableEq L] in
theorem cells_set (d : Pdict L (Cell O)) :
    cells (Dictionary.set p d children) q = if q = p then d else cells children q := by
  unfold cells
  rw [Dictionary.tryFind_set]
  split <;> rfl

/-- A cell that is written, or read and not symbolic, holds the child. -/
theorem cells_putChild (h : update = true ∨ cell children p loc ≠ some .symbolic) :
    cells (putChild children p c loc update) q =
      if q = p then Dictionary.set loc (.concrete c) (cells children p) else cells children q := by
  unfold putChild
  cases hp : tryFind children p with
  | none =>
    have hnil : cells children p = [] := by rw [cells, hp]; rfl
    rw [cells_set, hnil]
    rfl
  | some childDict =>
    have hdict : cells children p = childDict := by rw [cells, hp]; rfl
    rw [cell, hdict] at h
    rw [hdict]
    cases update with
    | true => exact cells_set _
    | false =>
      simp only [Bool.false_eq_true, false_or] at h
      simp only [Bool.false_eq_true, if_false]
      split
      · exact cells_set _
      · contradiction
      · exact cells_set _

theorem putChild_symbolic (h : cell children p loc = some .symbolic) :
    putChild children p c loc false = children := by
  unfold putChild
  cases hp : tryFind children p with
  | none =>
    rw [cell, cells, hp] at h
    cases h
  | some childDict =>
    rw [cell, cells, hp, Option.getD_some] at h
    simp only [Bool.false_eq_true, if_false, h]

theorem cells_removeChild :
    cells (removeChild children p loc) q =
      if q = p then PersistentDict.remove loc (cells children p) else cells children q := by
  unfold removeChild
  cases hp : tryFind children p with
  | none =>
    have hnil : cells children p = [] := by rw [cells, hp]; rfl
    by_cases hq : q = p
    · rw [if_pos hq, hq, hnil]
      rfl
    · rw [if_neg hq]
  | some childDict =>
    have hdict : cells children p = childDict := by rw [cells, hp]; rfl
    rw [hdict]
    exact cells_set _

section

omit [DecidableEq L]

theorem parentLoc_addToParents (cm : ConcreteMemory A O L) :
    parentLoc (cm.addToParents p c loc).parents c' q =
      if c' = c ∧ q = p then some loc else parentLoc cm.parents c' q := by
  have hset : (cm.addToParents p c loc).parents =
      Dictionary.set c (Dictionary.set p loc ((tryFind cm.parents c).getD [])) cm.parents := by
    unfold addToParents
    cases tryFind cm.parents c <;> rfl
  rw [hset, parentLoc, Dictionary.tryFind_set]
  by_cases hc : c' = c
  · subst hc
    simp [Dictionary.tryFind_set, parentLoc]
  · simp [hc, parentLoc]

theorem mem_parentLinks_next : p ∈ (parentLinks parents).next c ↔ parentLoc parents c p ≠ none := by
  rw [parentLoc, Ne, PersistentDict.tryFind_eq_none_iff, not_not]
  rfl

section
variable [CellOrder O L]

section
variable (cm : ConcreteMemory A O L)

include cm

@[simp] theorem checkConcreteness_children :
    (cm.checkConcreteness c).2.children = cm.children := rfl

@[simp] theorem checkConcreteness_parents : (cm.checkConcreteness c).2.parents = cm.parents := rfl

omit [CellOrder O L] in
@[simp] theorem removeFromFullyConcretesRec_children :
    (cm.removeFromFullyConcretesRec p).children = cm.children := rfl

omit [CellOrder O L] in
@[simp] theorem removeFromFullyConcretesRec_parents :
    (cm.removeFromFullyConcretesRec p).parents = cm.parents := rfl

@[simp] theorem recheck_children : (cm.recheck p c).children = cm.children := by
  simp [recheck, apply_ite ConcreteMemory.children]

@[simp] theorem recheck_parents : (cm.recheck p c).parents = cm.parents := by
  simp [recheck, apply_ite ConcreteMemory.parents]

end

end

end

variable [CellOrder O L]

@[simp] theorem addRefChild_children (cm : ConcreteMemory A O L) :
    (cm.addRefChild p c loc update).children = putChild cm.children p c loc update := by
  simp only [addRefChild, addToParents, apply_ite ConcreteMemory.children, recheck_children,
    ite_self]

theorem parentLoc_addRefChild (cm : ConcreteMemory A O L) :
    parentLoc (cm.addRefChild p c loc update).parents c' q =
      if c' = c ∧ q = p then some loc else parentLoc cm.parents c' q := by
  rw [addRefChild, parentLoc_addToParents]
  simp only [apply_ite ConcreteMemory.parents, recheck_parents, ite_self]

/-- The maps of a memory. -/
def maps (cm : ConcreteMemory A O L) : Pdict O A × Pdict A O := (cm.physToVirt, cm.virtToPhys)

theorem maps_addRefChild (cm : ConcreteMemory A O L) :
    (cm.addRefChild p c loc update).maps = cm.maps := by
  have hcheck (cm : ConcreteMemory A O L) : (cm.checkConcreteness c).2.maps = cm.maps := rfl
  have hremove (cm : ConcreteMemory A O L) : (cm.removeFromFullyConcretesRec p).maps = cm.maps := rfl
  have hrecheck (cm : ConcreteMemory A O L) : (cm.recheck p c).maps = cm.maps := by
    simp [recheck, apply_ite maps, hcheck, hremove]
  have hadd (cm : ConcreteMemory A O L) : (cm.addToParents p c loc).maps = cm.maps := rfl
  rw [addRefChild, hadd, apply_ite maps, hrecheck, ite_self]
  rfl

end

section
variable [DecidableEq O] [DecidableEq F] [DecidableEq T] [CellOrder O (ChildLocation F T)]
  {parent : O} {update : Bool}

mutual

/-- Tracking children leaves the maps alone. -/
theorem maps_addChild : ∀ (cm : ConcreteMemory A O (ChildLocation F T)) (child : Child O F)
    (childLoc : ChildLocation F T), (cm.addChild parent child childLoc update).maps = cm.maps
  | cm, .null, childLoc => by
      rw [addChild]
      split <;> rfl
  | cm, .ref child, childLoc => by
      rw [addChild]
      split
      · exact maps_addRefChild cm
      · rfl
  | cm, .struct fields, childLoc => by
      rw [addChild]
      exact maps_addStructChildren cm fields childLoc

theorem maps_addStructChildren : ∀ (cm : ConcreteMemory A O (ChildLocation F T))
    (fields : StructFields O F) (childLoc : ChildLocation F T),
    (cm.addStructChildren parent fields childLoc update).maps = cm.maps
  | cm, .nil, _ => by rw [addStructChildren]
  | cm, .cons fieldId child rest, childLoc => by
      rw [addStructChildren, maps_addStructChildren _ rest, maps_addChild cm child]

end

end

/-! ### Runs -/

section
variable [DecidableEq A] [DecidableEq O] [DecidableEq F] [DecidableEq T]

/-- The operations the tables change by. -/
inductive Operation (A O F T : Type) where
  | allocate (address : A) (obj : O)
  | trackChild (parent : O) (child : Child O F) (childKind : ChildKind F T)
  | setChild (parent : O) (child : Child O F) (childKind : ChildKind F T)
  | tryFullyConcrete (address : A)
  | remove (address : A)

/-- One operation. -/
def step [CellOrder O (ChildLocation F T)] (cm : ConcreteMemory A O (ChildLocation F T)) :
    Operation A O F T → Option (ConcreteMemory A O (ChildLocation F T))
  | .allocate address obj => cm.allocate address obj
  | .trackChild parent child childKind => some (cm.trackChild parent child childKind)
  | .setChild parent child childKind => some (cm.setChild parent child childKind)
  | .tryFullyConcrete address => some (cm.tryFullyConcrete address).2
  | .remove address => cm.remove address

/-- A run of operations. -/
def run [CellOrder O (ChildLocation F T)] (ops : List (Operation A O F T)) : Option (ConcreteMemory A O (ChildLocation F T)) :=
  ops.foldlM step .empty

/-- The memories that runs of operations lead to, each meeting a condition on the memory before, in
whatever order the dictionaries enumerate their entries at it. -/
inductive Reached
    (Meets : CellOrder O (ChildLocation F T) → ConcreteMemory A O (ChildLocation F T) →
      Operation A O F T → Prop) :
    ConcreteMemory A O (ChildLocation F T) → Prop where
  | empty : Reached Meets .empty
  | step [order : CellOrder O (ChildLocation F T)] {cm cm' : ConcreteMemory A O (ChildLocation F T)}
      {op : Operation A O F T} (h : Reached Meets cm) (hmeets : Meets order cm op) (hstep : cm.step op = some cm') :
      Reached Meets cm'

/-- A condition on each reference put in a cell and on each cell made null, in turn. -/
structure CellCondition (A O L : Type) where
  put : ConcreteMemory A O L → O → O → L → Prop
  null : ConcreteMemory A O L → O → L → Prop

mutual

/-- `AddChild` meets a condition at each cell it comes to. -/
def ChildMeets [CellOrder O (ChildLocation F T)] (C : CellCondition A O (ChildLocation F T))
    (cm : ConcreteMemory A O (ChildLocation F T)) (parent : O) :
    Child O F → ChildLocation F T → Bool → Prop
  | .null, childLoc, update => update = true → C.null cm parent childLoc
  | .ref child, childLoc, _ => parent ≠ child → C.put cm parent child childLoc
  | .struct fields, childLoc, update => StructMeets C cm parent fields childLoc update

/-- The loop over the fields of a structure meets a condition at each cell it comes to. -/
def StructMeets [CellOrder O (ChildLocation F T)] (C : CellCondition A O (ChildLocation F T))
    (cm : ConcreteMemory A O (ChildLocation F T)) (parent : O) :
    StructFields O F → ChildLocation F T → Bool → Prop
  | .nil, _, _ => True
  | .cons fieldId child rest, childLoc, update =>
    ChildMeets C cm parent child (childLoc.addStructField fieldId) update ∧
      StructMeets C (addChild cm parent child (childLoc.addStructField fieldId) update) parent
        rest childLoc update

end

variable [CellOrder O (ChildLocation F T)] {C : CellCondition A O (ChildLocation F T)}
  {parent : O} {update : Bool} {I : ConcreteMemory A O (ChildLocation F T) → Prop}

omit [DecidableEq A]

mutual

/-- What each cell keeps under the condition, `AddChild` keeps. -/
theorem addChild_inv (hnull : ∀ cm loc, I cm → C.null cm parent loc →
      I { cm with children := removeChild cm.children parent loc })
    (hput : ∀ cm child loc, I cm → parent ≠ child → C.put cm parent child loc →
      I (cm.addRefChild parent child loc update))
    {cm : ConcreteMemory A O (ChildLocation F T)} :
    ∀ (child : Child O F) (childLoc : ChildLocation F T),
      ChildMeets C cm parent child childLoc update → I cm →
      I (cm.addChild parent child childLoc update)
  | .null, childLoc, hmeets, hinv => by
      rw [addChild]
      split
      case isTrue h => exact hnull cm childLoc hinv (by rw [ChildMeets] at hmeets; exact hmeets h)
      case isFalse => exact hinv
  | .ref child, childLoc, hmeets, hinv => by
      rw [addChild]
      split
      case isTrue h =>
        exact hput cm child childLoc hinv h (by rw [ChildMeets] at hmeets; exact hmeets h)
      case isFalse => exact hinv
  | .struct fields, childLoc, hmeets, hinv => by
      rw [ChildMeets] at hmeets
      rw [addChild]
      exact addStructChildren_inv hnull hput fields childLoc hmeets hinv

theorem addStructChildren_inv (hnull : ∀ cm loc, I cm → C.null cm parent loc →
      I { cm with children := removeChild cm.children parent loc })
    (hput : ∀ cm child loc, I cm → parent ≠ child → C.put cm parent child loc →
      I (cm.addRefChild parent child loc update))
    {cm : ConcreteMemory A O (ChildLocation F T)} :
    ∀ (fields : StructFields O F) (childLoc : ChildLocation F T),
      StructMeets C cm parent fields childLoc update → I cm →
      I (cm.addStructChildren parent fields childLoc update)
  | .nil, _, _, hinv => by
      rw [addStructChildren]
      exact hinv
  | .cons fieldId child rest, childLoc, hmeets, hinv => by
      rw [StructMeets] at hmeets
      rw [addStructChildren]
      exact addStructChildren_inv hnull hput rest childLoc hmeets.2
        (addChild_inv hnull hput child _ hmeets.1 hinv)

end

end

end ConcreteMemory

end VSharp
