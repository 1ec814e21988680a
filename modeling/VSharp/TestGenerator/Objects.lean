import Mathlib.Data.Int.Notation
import VSharp.Utils.PersistentDictionary

/-!
# Test generator — Objects

`term2obj`, `address2obj` and `obj2test` of `TestGenerator.fs`, and `Encode` of `MemoryGraph.fs`: how
the objects of a finished state become the entries of a memory graph.  Addresses are looked up in
`indices`; the elements of an array in concrete memory are objects of the runtime, which `Encode`
looks up in `sourceObjects`, by reference.

- `Content` is what reading the memory gives for an address: from the state of the model for the
  addresses of the model, from the finished state for the others.
- An object of the runtime goes by the address that `physToVirt` has for it, and keeps it when that
  address is unmarshalled: then the state has contents of its own for the address, and the object has
  what it had before.
- The evaluated terms have no constants left.  Pointers, nullable values, delegates, mocks and
  objects of `System.Type` are left out, and so are the numbers of the registered types and the limit
  on the length of arrays.
- The recursion is bounded by fuel; running out of it has no result.
-/

namespace VSharp.TestGenerator
open PersistentDict

/-- An evaluated term. -/
inductive Term (A Y : Type) where
  | nullRef
  | concrete (typ : Y) (value : ℤ)
  | enum (typ : Y) (value : ℤ)
  | struct (typ : Y) (fields : List (Term A Y))
  | heapRef (address : A)

/-- What is at an address.  An array in symbolic memory has a default value, and the values that
`encodeArrayCompactly` collects. -/
inductive Content (A Y : Type) where
  | classObject (typ : Y) (fields : List (Term A Y))
  | array (typ : Y) (lengths : List ℤ) (lowerBounds : Option (List ℤ)) (elements : List (Term A Y))
  | region (typ : Y) (lengths : List ℤ) (lowerBounds : Option (List ℤ)) (defaultValue : Term A Y)
      (indices : List (List ℤ)) (values : List (Term A Y))
  | string (content : String)
  | boxed (value : Term A Y)

/-- `obj` in a memory graph; an object of the runtime may stand for itself. -/
inductive Repr (A Y : Type) where
  | null
  | concrete (typ : Y) (value : ℤ)
  | object (obj : A)
  | enumRepr (typ : Y) (underlyingValue : ℤ)
  | structureRepr (typ : Y) (fields : List (Repr A Y))
  | referenceRepr (index : ℕ)
  | stringRepr (content : String)
  | arrayRepr (typ : Y) (defaultValue : Repr A Y) (indices : Option (List (List ℤ)))
      (values : List (Repr A Y)) (lengths : List ℤ) (lowerBounds : Option (List ℤ))

structure Memory (A Y : Type) where
  allocated : Pdict A (Content A Y)
  /-- The objects of the runtime, in concrete memory or unmarshalled. -/
  objects : Pdict A (Content A Y)
  /-- `ConcreteMemory.Contains`. -/
  contains : A → Bool
  /-- `IsSerializable`, of the types of arrays. -/
  isSerializable : Y → Bool

/-- `indices` of the test generator, and the lists of the memory graph. -/
structure State (A Y : Type) where
  indices : Pdict A ℕ
  sourceObjects : List (Option A)
  objReprs : List (Repr A Y)

variable {A Y : Type} [DecidableEq A]

/-! ### Contents -/

/-- The terms in an object, in the order in which they are encoded. -/
def Content.terms : Content A Y → List (Term A Y)
  | .classObject _ fields => fields
  | .array _ _ _ elements => elements
  | .region _ _ _ defaultValue _ values => defaultValue :: values
  | .string _ => []
  | .boxed value => [value]

/-- `AddClass`, `AddArray`, `AddCompactArrayRepresentation`, `AddString` and `AddBoxed`. -/
def Content.added : Content A Y → List (Repr A Y) → Repr A Y
  | .classObject typ _, reprs => .structureRepr typ reprs
  | .array typ lengths lowerBounds _, reprs => .arrayRepr typ .null none reprs lengths lowerBounds
  | .region typ lengths lowerBounds _ indices _, defaultValue :: values =>
    .arrayRepr typ defaultValue (some indices) values lengths lowerBounds
  | .region .., [] => .null
  | .string content, _ => .stringRepr content
  | .boxed _, content :: _ => content
  | .boxed _, [] => .null

/-- `InitClass` and `InitArray`, after `CreateStructure` and `CreateArray`. -/
def Content.initialised : Content A Y → List (Repr A Y) → Repr A Y
  | .classObject typ _, reprs => .structureRepr typ reprs
  | .array typ lengths lowerBounds _, reprs => .arrayRepr typ .null none reprs lengths
      (if lengths.length = 1 ∧ lowerBounds.getD [0] = [0] then none
        else some (lowerBounds.getD (lengths.map fun _ => 0)))
  | _, _ => .null

def Content.isArray : Content A Y → Bool
  | .array .. => true
  | .region .. => true
  | _ => false

/-- Objects that `Encode` gives no index: they stand for themselves, or for the value in the box. -/
def Memory.isInlined (m : Memory A Y) : Content A Y → Bool
  | .string _ => true
  | .boxed _ => true
  | .array typ _ _ _ => m.isSerializable typ
  | _ => false

/-- The elements are encoded as objects of the runtime. -/
def Memory.isConcreteArray (m : Memory A Y) (address : A) (content : Content A Y) : Bool :=
  content.isArray && m.contains address

def Memory.read (m : Memory A Y) (address : A) : Option (Content A Y) := tryFind m.allocated address

def Memory.object (m : Memory A Y) (obj : A) : Option (Content A Y) := tryFind m.objects obj

/-! ### Lists of the graph -/

/-- `Bind`: the new index is the length of `sourceObjects`. -/
def State.bind (s : State A Y) (obj : Option A) (repr : Repr A Y) : State A Y :=
  { s with sourceObjects := s.sourceObjects ++ [obj], objReprs := s.objReprs ++ [repr] }

/-- `ReserveRepresentation`, for an address. -/
def State.reserve (s : State A Y) (address : A) : State A Y :=
  { s.bind none .null with indices := (address, s.sourceObjects.length) :: s.indices }

def State.setRepr (s : State A Y) (index : ℕ) (repr : Repr A Y) : State A Y :=
  { s with objReprs := s.objReprs.set index repr }

/-! ### Encoding -/

section
variable (reference : A → State A Y → Option (Repr A Y × State A Y))

mutual

/-- `term2obj`, and `Encode` of values, with what is done at references. -/
def term2obj : Term A Y → State A Y → Option (Repr A Y × State A Y)
  | .nullRef, s => some (.null, s)
  | .concrete typ value, s => some (.concrete typ value, s)
  | .enum typ value, s => some (.enumRepr typ value, s)
  | .struct typ fields, s => do
      let (fieldReprs, s) ← terms2objs fields s
      some (.structureRepr typ fieldReprs, s)
  | .heapRef address, s => reference address s

def terms2objs : List (Term A Y) → State A Y → Option (List (Repr A Y) × State A Y)
  | [], s => some ([], s)
  | term :: terms, s => do
      let (repr, s) ← term2obj term s
      let (reprs, s) ← terms2objs terms s
      some (repr :: reprs, s)

end

end

variable (m : Memory A Y)

/-- `Encode`, of an object of the runtime. -/
def encode : ℕ → A → State A Y → Option (Repr A Y × State A Y)
  | 0, _, _ => none
  | fuel + 1, obj, s => do
      let content ← m.object obj
      match content with
      | .boxed value => term2obj (encode fuel) value s
      | .region .. => none
      | content =>
        if m.isInlined content then some (.object obj, s)
        else match s.sourceObjects.findIdx? (· = some obj) with
          | some index => some (.referenceRepr index, s)
          | none => do
              let index := s.sourceObjects.length
              let (reprs, s) ← terms2objs (encode fuel) content.terms
                (s.bind (some obj) (content.initialised []))
              some (.referenceRepr index, s.setRepr index (content.initialised reprs))

/-- `address2obj` and `obj2test`; an address of the model that is not allocated is `null`. -/
def address2obj : ℕ → A → State A Y → Option (Repr A Y × State A Y)
  | 0, _, _ => none
  | fuel + 1, address, s =>
    match m.read address with
    | none => some (.null, s)
    | some content =>
      match tryFind s.indices address with
      | some index => some (.referenceRepr index, s)
      | none => do
          let index := s.sourceObjects.length
          let reference :=
            if m.isConcreteArray address content then encode m fuel else address2obj fuel
          let (reprs, s) ← terms2objs reference content.terms (s.reserve address)
          some (.referenceRepr index, s.setRepr index (content.added reprs))

/-- The arguments of a test, and its graph. -/
def encodeArguments (fuel : ℕ) (args : List (Term A Y)) : Option (List (Repr A Y) × State A Y) :=
  terms2objs (address2obj m fuel) args ⟨[], [], []⟩

end VSharp.TestGenerator
