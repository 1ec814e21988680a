import VSharp.Core.TypeSolver
import VSharp.Library.Systems

/-!
# Core — Type storages

The type storages of all states beside the mocks they have: a fork copies a storage, and both copies
go on.  An operation names the storage it is done on by its number.
-/

namespace VSharp.Core
open PersistentDict Library

/-- The type storages, and all mocks. -/
structure Storages (A T : Type) where
  storages : List (TypeStorage A T)
  heap : MockHeap T

/-- What is done on a type storage. -/
inductive StorageOp (A T : Type) where
  | addConstraint (address : A) (typeConstraint : TypeConstraints T)
  | refineStorage
  | checkInequality
  | evalInModel (model : A → VectorTime)
  | copy

section
variable {A T Asm : Type} [DecidableEq A] [DecidableEq T] [DecidableEq Asm]
variable (u : TypeUniverse T Asm)

/-- The storage and the mocks after an operation, and the copy that it makes. -/
def applyOp (s : TypeStorage A T) (heap : MockHeap T) :
    StorageOp A T → TypeStorage A T × Option (TypeStorage A T) × MockHeap T
  | .addConstraint address typeConstraint => (s.addConstraint address typeConstraint, none, heap)
  | .refineStorage =>
    let r := (refineStorage u s heap).2
    (r.1, none, r.2)
  | .checkInequality =>
    let r := (checkInequality u s heap).2
    (r.1, none, r.2)
  | .evalInModel model =>
    let m := (evalInModel u model s heap).2
    ({ s with typeMocks := m.typeMocks }, none, m.heap)
  | .copy =>
    let r := s.copy heap
    (s, some r.1, r.2)

/-- The operation, on the storage with the given number. -/
def stepStorages (w : Storages A T) (op : ℕ × StorageOp A T) : Option (Storages A T) :=
  w.storages[op.1]?.map fun s =>
    let r := applyOp u s w.heap op.2
    ⟨w.storages.set op.1 r.1 ++ r.2.1.toList, r.2.2⟩

/-- A run starts with one storage, and no mock. -/
def storageSystem (A : Type) [DecidableEq A] : System (Storages A T) (ℕ × StorageOp A T) where
  start := ⟨[⟨.empty, [], []⟩], ⟨[], true⟩⟩
  step := stepStorages u

end

/-! ### A small universe -/

/-- Two structures, two interfaces, and an interface that only three classes can implement. -/
inductive SampleType where
  | object
  | int
  | long
  | iRead
  | iWrite
  | iShape
  | circle
  | square
  | triangle
deriving DecidableEq

namespace SampleType

def isShape : SampleType → Bool
  | circle | square | triangle => true
  | _ => false

def isStructure : SampleType → Bool
  | int | long => true
  | _ => false

def isInterface : SampleType → Bool
  | iRead | iWrite | iShape => true
  | _ => false

/-- `IsAssignableTo` of the small universe. -/
def isAssignableTo (t t' : SampleType) : Bool :=
  t = t' || t' = object || isShape t && t' = iShape

/-- The universe of these types: `iShape` has abstract methods that are not public. -/
def sampleUniverse : TypeUniverse SampleType Unit where
  obj := object
  isAssignableTo := isAssignableTo
  isClass t := t = object || isShape t
  isInterface := isInterface
  isSealed := isStructure
  assignable_refl t := by simp [isAssignableTo]
  assignable_trans t t' t'' h h' := by
    simp only [isAssignableTo, Bool.or_eq_true, Bool.and_eq_true, decide_eq_true_eq] at h h' ⊢
    rcases h with (rfl | rfl) | ⟨hshape, rfl⟩
    · exact h'
    · exact .inl (.inr (by simpa [isShape, eq_comm] using h'))
    · rcases h' with (rfl | rfl) | ⟨hshape', -⟩
      · exact .inr ⟨hshape, rfl⟩
      · exact .inl (.inr rfl)
      · cases hshape'
  assignable_obj t := by simp [isAssignableTo]
  eq_of_sealed t t' hsealed h := by
    simp only [isAssignableTo, Bool.or_eq_true, Bool.and_eq_true, decide_eq_true_eq] at h
    rcases h with (heq | rfl) | ⟨-, rfl⟩
    · exact heq
    · cases hsealed
    · cases hsealed
  isPublic _ := true
  isAbstract := isInterface
  isDelegate _ := false
  isBuiltInType _ := false
  hasNonPublicAbstractMethods t := t = iShape
  isInvalid _ := false
  baseTypes t := if isInterface t then [t] else [t, object]
  assembly _ := ()
  userAssembly := ()
  mscorlib := ()
  assemblies := []
  getTypesChecked _ := [object, int, long, iRead, iWrite, iShape, circle, square, triangle]
  getExportedTypesChecked _ := []
  le t t' := t.ctorIdx ≤ t'.ctorIdx
  le_trans t t' t'' h h' := by
    rw [decide_eq_true_eq] at h h' ⊢
    exact h.trans h'
  le_total t t' := by
    rw [Bool.or_eq_true, decide_eq_true_eq, decide_eq_true_eq]
    exact Nat.le_total _ _

end SampleType

end VSharp.Core
