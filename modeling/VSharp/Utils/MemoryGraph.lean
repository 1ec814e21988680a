import VSharp.Utils.ArrayBoxes

/-!
# Utils — Memory graph

`MemoryGraph.fs`: how a serialised memory graph becomes objects.  Each entry is allocated with
default contents (`allocateDefault`), and then filled (`decodeObject`), so that entries may refer to
each other in cycles.

- An object of the graph is known by its index; the empty string is one object, whatever entry it
  comes from.
- Pointers, mocks and objects of `System.Type` are left out, as are the compact representations that
  are kept beside the arrays.
- A value is of the type of the place it is written to: the conversions of `SetValue` are left out.
- What throws has no result; `assert` is left out.
-/

namespace VSharp.MemoryGraph
open ArrayIndices ArrayBoxes

/-! ### Representations -/

/-- `obj` in a serialised graph: `referenceRepr`, `structureRepr` and so on. -/
inductive Repr (Y : Type) where
  | null
  | reference (index : ℕ)
  | structure (typ : ℕ) (fields : List (Repr Y))
  | array (typ : ℕ) (defaultValue : Repr Y) (indices : Option (List (List ℤ)))
      (values : List (Repr Y)) (lengths : List ℤ) (lowerBounds : Option (List ℤ))
  | string (content : String)
  | enum (typ : ℕ) (underlyingValue : ℤ)
  | primitive (typ : Y) (value : ℤ)

/-- `memoryRepr`, with decoded types. -/
structure MemoryRepr (Y : Type) where
  objects : List (Repr Y)
  types : List Y

/-! ### Objects -/

inductive Object where
  | entry (index : ℕ)
  | emptyString
  deriving DecidableEq

/-- A value in a field or an array; values of value types are copied. -/
inductive Value (Y : Type) where
  | null
  | primitive (typ : Y) (value : ℤ)
  | enum (typ : Y) (value : ℤ)
  | struct (typ : Y) (fields : List (Value Y))
  | string (content : String)
  | object (o : Object)

/-- What an object holds. -/
inductive Content (Y : Type) where
  | structure (typ : Y) (fields : List (Value Y))
  | array (typ : Y) (lengths lowerBounds : List ℤ) (elements : List ℤ → Value Y)
  | string (content : String)
  | primitive (typ : Y) (value : ℤ)
  | enum (typ : Y) (value : ℤ)

/-- What the runtime knows of the types, and of strings. -/
structure TypeSystem (Y : Type) where
  isValueType : Y → Bool
  isByRefLike : Y → Bool
  containsGenericParameters : Y → Bool
  /-- The types of the fields, as `Reflection.fieldsOf false` lists them. -/
  fieldsOf : Y → List Y
  elementType : Y → Y
  isEnumDefined : Y → ℤ → Bool
  getEnumValues : Y → List ℤ
  /-- What a place of the type holds before it is written to. -/
  zero : Y → Value Y
  /-- `Equals` on an uninitialized object of the same value type. -/
  equalsUninitialized : Value Y → Bool
  /-- The types that `fill` has a case for. -/
  isFilledFast : Y → Bool
  /-- `stringRepr.Decode`. -/
  decodeString : String → String

variable {Y : Type} [DecidableEq Y] (u : TypeSystem Y)

def TypeSystem.getEnumDefaultValue (t : Y) : ℤ :=
  if u.isEnumDefined t 0 then 0
  else match u.getEnumValues t with
    | [] => 0
    | v :: _ => v

/-- The value in the box, when the object is of a value type. -/
def Content.unboxed : Content Y → Option (Value Y)
  | .structure t fields => if u.isValueType t then some (.struct t fields) else none
  | .array .. => none
  | .string _ => none
  | .primitive t v => some (.primitive t v)
  | .enum t v => some (.enum t v)

/-- The objects that exist, by the indices of their entries. -/
abbrev Heap (Y : Type) := List (Option (Content Y))

/-- The value of a value type that is given, or that is in the box that is given. -/
def unboxed (heap : Heap Y) : Value Y → Option (Value Y)
  | .null => none
  | .primitive t v => some (.primitive t v)
  | .enum t v => some (.enum t v)
  | .struct t fields => some (.struct t fields)
  | .string _ => none
  | .object .emptyString => none
  | .object (.entry i) => heap[i]?.join.bind (·.unboxed u)

/-! ### Arrays -/

/-- `SetValue`, within the bounds. -/
def setValue (lengths lowerBounds : List ℤ) (elements : List ℤ → Value Y) (idx : List ℤ)
    (v : Value Y) : Option (List ℤ → Value Y) :=
  if idx ∈ allIndices lengths lowerBounds then some (Function.update elements idx v) else none

/-- Whether `fill` has a case for the value and the elements. -/
def isFilledFast (elementType : Y) : Value Y → Bool
  | .primitive t _ => u.isFilledFast t && t == elementType
  | _ => false

def fill (heap : Heap Y) (elementType : Y) (lengths lowerBounds : List ℤ)
    (elements : List ℤ → Value Y) (value : Value Y) : Option (List ℤ → Value Y) :=
  let fillSlowly := (allIndicesViaLens lowerBounds lengths).foldlM
    (fun elements idx => setValue lengths lowerBounds elements idx value) elements
  match value, unboxed u heap value with
  | .null, _ => some elements
  | _, some v =>
    if u.equalsUninitialized v then some elements
    else if isFilledFast u elementType v then some fun _ => v
    else fillSlowly
  | _, none => fillSlowly

/-- `null` lower bounds are zeros. -/
def bounds (lengths : List ℤ) (lowerBounds : Option (List ℤ)) : List ℤ :=
  lowerBounds.getD (List.replicate lengths.length 0)

variable (types : List Y)

/-- `GetUninitializedObject`, after the checks on the type. -/
def uninitialized (t : Y) : Option (Content Y) :=
  if u.isByRefLike t || u.containsGenericParameters t then none
  else some (.structure t ((u.fieldsOf t).map u.zero))

variable (sourceObjects : List (Option Object))

mutual

def decodeValue : Repr Y → Option (Value Y)
  | .null => some .null
  | .reference index => sourceObjects[index]?.map fun o => o.elim .null .object
  | .structure typ fields => do
      let t ← types[typ]?
      if u.isValueType t then
        let _ ← uninitialized u t
        let values ← decodeValues fields
        if values.length = (u.fieldsOf t).length then some (.struct t values) else none
      else none
  | .array .. => none
  | .string content => some (.string (u.decodeString content))
  | .enum typ underlyingValue => (types[typ]?).map fun t => .enum t underlyingValue
  | .primitive t v => some (.primitive t v)

/-- `decodeValue` of all. -/
def decodeValues : List (Repr Y) → Option (List (Value Y))
  | [] => some []
  | r :: rs => do
      let v ← decodeValue r
      let vs ← decodeValues rs
      some (v :: vs)

end

/-- The values written one after another. -/
def setValues (lengths lowerBounds : List ℤ) (elements : List ℤ → Value Y)
    (entries : List (List ℤ × Value Y)) : Option (List ℤ → Value Y) :=
  entries.foldlM (fun elements e => setValue lengths lowerBounds elements e.1 e.2) elements

def decodeArray (heap : Heap Y) (t : Y) (defaultValue : Repr Y)
    (indices : Option (List (List ℤ))) (values : List (Repr Y)) (lengths lowerBounds : List ℤ)
    (elements : List ℤ → Value Y) : Option (Content Y) :=
  match indices with
  | none => do
      let values ← decodeValues u types sourceObjects values
      let elements ← setValues lengths lowerBounds elements
        (values.zipIdx.map fun e => (delinearizeArrayIndex e.2 lengths lowerBounds, e.1))
      some (.array t lengths lowerBounds elements)
  | some indices => do
      let defaultValue ← decodeValue u types sourceObjects defaultValue
      let values ← decodeValues u types sourceObjects values
      let elements ← fill u heap (u.elementType t) lengths lowerBounds elements defaultValue
      if indices.length = values.length then
        let elements ← setValues lengths lowerBounds elements (indices.zip values)
        some (.array t lengths lowerBounds elements)
      else none

/-- A decoded graph: the object of each entry, and what the entries hold. -/
structure Graph (Y : Type) where
  sourceObjects : List (Option Object)
  heap : Heap Y

end VSharp.MemoryGraph
