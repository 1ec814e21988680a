import Mathlib.Algebra.Ring.Int.Defs
import VSharp.Core.ConcreteMemory

/-!
# Core — ConcreteHeap

`VSharp.SILI.Core/ConcreteMemory.fs`, the writes: what they do to the real objects and to the maps
between objects and addresses.  The objects live in a heap that is shared by all concrete memories;
their contents are class fields, array elements, characters or the fields of a boxed structure.
Strings are immutable: a write to one makes a new string and gives it the address.  The empty string
is interned (`StringPool.empty`).

What the source asks reflection is taken from `Reflection`; the values written are as `CastIfNeed`
leaves them.
-/

namespace VSharp
open PersistentDict (tryFind keys)

mutual

/-- A value in a field or an element. -/
inductive Value (O F P : Type) where
  | prim (value : P)
  | null
  | ref (phys : O)
  | struct (fields : ValueFields O F P)

/-- The fields of a structure. -/
inductive ValueFields (O F P : Type) where
  | nil
  | cons (fieldId : F) (value : Value O F P) (rest : ValueFields O F P)

end

/-- The contents of an object. -/
inductive Contents (O F T P : Type) where
  | object (fields : F → Value O F P)
  | array (elemType : T) (lengths lowerBounds : List ℤ) (elements : List ℤ → Value O F P)
  | string (chars : List P)
  | boxed (fields : ValueFields O F P)

/-- The types of fields, and `Reflection.isReferenceOrContainsReferences`. -/
class Reflection (F T : Type) where
  fieldType : F → T
  isReferenceOrContainsReferences : T → Bool

/-- The interned empty string. -/
class StringPool (O : Type) where
  empty : O

variable {A O F T P : Type}

mutual

/-- What `AddChild` sees of a value. -/
def Value.toChild (T : Type) [Reflection F T] : Value O F P → Child O F
  | .prim _ => .struct .nil
  | .null => .null
  | .ref phys => .ref phys
  | .struct fields => .struct (fields.toStructFields T)

def ValueFields.toStructFields (T : Type) [Reflection F T] : ValueFields O F P → StructFields O F
  | .nil => .nil
  | .cons fieldId value rest =>
    if Reflection.isReferenceOrContainsReferences F (Reflection.fieldType fieldId : T) then
      .cons fieldId (value.toChild T) (rest.toStructFields T)
    else rest.toStructFields T

end

/-- A heap of objects and a concrete memory over it. -/
structure ConcreteHeap (A O F T P : Type) where
  heap : O → Option (Contents O F T P)
  cm : ConcreteMemory A O (ChildLocation F T)

namespace ConcreteHeap

/-- The loop of `Array.delinearizeArrayIndex`. -/
def detach : ℤ → ℤ → List ℤ → List ℤ → List ℤ
  | acc, lensProd, _ :: lengths, lb :: lowerBounds =>
    (acc.tdiv lensProd + lb) ::
      detach (acc.tmod lensProd) (lensProd.tdiv (lengths.headD 1)) lengths lowerBounds
  | _, _, _, _ => []

def delinearizeArrayIndex (idx : ℤ) (lengths lowerBounds : List ℤ) : List ℤ :=
  detach idx lengths.tail.prod lengths lowerBounds

/-- The indices are those of an element. -/
def inBounds : List ℤ → List ℤ → List ℤ → Bool
  | i :: indices, len :: lengths, lb :: lowerBounds =>
    lb ≤ i && i < lb + len && inBounds indices lengths lowerBounds
  | [], [], [] => true
  | _, _, _ => false

section
variable [DecidableEq A] [DecidableEq O]

/-- `ReadObject`, with the contents of the object. -/
def readObject (m : ConcreteHeap A O F T P) (address : A) : Option (O × Contents O F T P) :=
  match tryFind m.cm.virtToPhys address with
  | none => none
  | some phys => (m.heap phys).map fun contents => (phys, contents)

/-- New contents for an object. -/
def put (m : ConcreteHeap A O F T P) (phys : O) (contents : Contents O F T P) :
    ConcreteHeap A O F T P :=
  { m with heap := Function.update m.heap phys (some contents) }

/-- `String(chars)`: the object `new`, or the interned empty string. -/
def newString [StringPool O] (m : ConcreteHeap A O F T P) (chars : List P) (new : O) :
    O × ConcreteHeap A O F T P :=
  if chars.isEmpty then (StringPool.empty, m) else (new, m.put new (.string chars))

def writeObject (m : ConcreteHeap A O F T P) (address : A) (obj : O) : ConcreteHeap A O F T P :=
  { m with cm := { m.cm with virtToPhys := Dictionary.set address obj m.cm.virtToPhys } }

/-- `physToVirt[obj] <- address`. -/
def setPhysToVirt (m : ConcreteHeap A O F T P) (obj : O) (address : A) : ConcreteHeap A O F T P :=
  { m with cm := { m.cm with physToVirt := Dictionary.set obj address m.cm.physToVirt } }

def allocate (m : ConcreteHeap A O F T P) (address : A) (obj : O) :
    Option (ConcreteHeap A O F T P) :=
  match m.heap obj, m.cm.allocate address obj with
  | some _, some cm => some { m with cm := cm }
  | _, _ => none

/-- `Allocate` of an object that has just been made. -/
def allocateNew (m : ConcreteHeap A O F T P) (address : A) (obj : O)
    (contents : Contents O F T P) : Option (ConcreteHeap A O F T P) :=
  (m.put obj contents).allocate address obj

def remove [DecidableEq F] [DecidableEq T] (m : ConcreteHeap A O F T P) (address : A) :
    Option (ConcreteHeap A O F T P) :=
  (m.cm.remove address).map fun cm => { m with cm := cm }

variable [DecidableEq F] [DecidableEq T] [Reflection F T]
  [ConcreteMemory.CellOrder O (ChildLocation F T)]

/-- `SetChild`, when the type of the cell holds references. -/
def setChild (m : ConcreteHeap A O F T P) (phys : O) (value : Value O F P)
    (childKind : ChildKind F T) (typ : T) : ConcreteHeap A O F T P :=
  if Reflection.isReferenceOrContainsReferences F typ then
    { m with cm := m.cm.setChild phys (value.toChild T) childKind }
  else m

def writeClassField (m : ConcreteHeap A O F T P) (address : A) (field : F) (value : Value O F P) :
    Option (ConcreteHeap A O F T P) :=
  match m.readObject address with
  | some (phys, .object fields) =>
    some ((m.put phys (.object (Function.update fields field value))).setChild phys value
      (.field field) (Reflection.fieldType field))
  | _ => none

def writeArrayIndex [StringPool O] (m : ConcreteHeap A O F T P) (address : A) (indices : List ℤ)
    (value : Value O F P) (new : O) : Option (ConcreteHeap A O F T P) :=
  match m.readObject address with
  | some (phys, .array elemType lengths lowerBounds elements) =>
    if inBounds indices lengths lowerBounds then
      some ((m.put phys (.array elemType lengths lowerBounds
        (Function.update elements indices value))).setChild phys value
          (.index indices elemType) elemType)
    else none
  | some (_, .string chars) =>
    match indices, value with
    | [i], .prim c =>
      if 0 ≤ i ∧ i < chars.length then
        let (newString, m) := m.newString (chars.set i.toNat c) new
        some (m.writeObject address newString)
      else none
    | _, _ => none
  | _ => none

/-- The loop of `WriteBoxedLocation` over the fields. -/
def setBoxedChildren (m : ConcreteHeap A O F T P) (phys : O) :
    ValueFields O F P → ConcreteHeap A O F T P
  | .nil => m
  | .cons fieldId value rest =>
    setBoxedChildren { m with cm := m.cm.setChild phys (value.toChild T) (.field fieldId) }
      phys rest

def writeBoxedLocation (m : ConcreteHeap A O F T P) (address : A) (fields : ValueFields O F P) :
    Option (ConcreteHeap A O F T P) :=
  match m.readObject address with
  | some (phys, .boxed _) => some ((m.put phys (.boxed fields)).setBoxedChildren phys fields)
  | _ => none

/-- `FillArray`, of an array of one dimension. -/
def fillArray (m : ConcreteHeap A O F T P) (address : A) (index length : ℤ)
    (value : Value O F P) : Option (ConcreteHeap A O F T P) :=
  match m.readObject address with
  | some (phys, .array elemType [len] [lb] elements) =>
    if length ≤ 0 ∨ lb ≤ index ∧ index + length ≤ lb + len then
      some (m.put phys (.array elemType [len] [lb]
        ((List.range length.toNat).foldl
          (fun elements (i : ℕ) => Function.update elements [index + i] value) elements)))
    else none
  | _ => none

/-- The elements of an array in row-major order, from a linear index on, as `Array.Copy` takes
them. -/
def elementAt (lengths lowerBounds : List ℤ) (elements : List ℤ → Value O F P) (idx : ℤ) :
    Value O F P :=
  elements (delinearizeArrayIndex (idx - lowerBounds.headD 0) lengths lowerBounds)

/-- `length` elements can be taken from `index` on. -/
def rangeInArray (lengths lowerBounds : List ℤ) (index length : ℤ) : Bool :=
  0 ≤ length && lowerBounds.headD 0 ≤ index && index - lowerBounds.headD 0 + length ≤ lengths.prod

/-- `Array.Copy` into the elements of an array, from values that were read before. -/
def copyElements (source : ℤ → Value O F P) (lengths lowerBounds : List ℤ) (dstIndex : ℤ)
    (length : ℕ) (elements : List ℤ → Value O F P) : List ℤ → Value O F P :=
  (List.range length).foldl
    (fun elements (i : ℕ) => Function.update elements
      (delinearizeArrayIndex (dstIndex - lowerBounds.headD 0 + i) lengths lowerBounds) (source i))
    elements

def trackCopy (m : ConcreteHeap A O F T P) (phys : O) (elemType : T) (lengths lowerBounds : List ℤ)
    (elements : List ℤ → Value O F P) (dstIndex : ℤ) (length : ℕ) : ConcreteHeap A O F T P :=
  (List.range length).foldl
    (fun m (i : ℕ) =>
      let index := delinearizeArrayIndex (dstIndex + i) lengths lowerBounds
      m.setChild phys (elements index) (.index index elemType) elemType)
    m

/-- The characters of a char array. -/
def charAt : Value O F P → Option P
  | .prim c => some c
  | _ => none

/-- `Array.Copy` into the characters of a string. -/
def copyChars (source : ℤ → Option P) (dstIndex length : ℕ) (chars : List P) : Option (List P) :=
  ((List.range length).mapM fun i => source i).map fun new =>
    chars.take dstIndex ++ new ++ chars.drop (dstIndex + length)

/-- What can be copied from: the values from an index on, and whether `length` of them are there. -/
def copySource (contents : Contents O F T P) (srcIndex length : ℤ) : Option (ℤ → Value O F P) :=
  match contents with
  | .array _ lengths lowerBounds elements =>
    if rangeInArray lengths lowerBounds srcIndex length then
      some fun i => elementAt lengths lowerBounds elements (srcIndex + i)
    else none
  | .string chars =>
    if 0 ≤ length ∧ 0 ≤ srcIndex ∧ srcIndex + length ≤ chars.length then
      some fun i => (chars[(srcIndex + i).toNat]?).elim .null .prim
    else none
  | _ => none

def copyArray [StringPool O] (m : ConcreteHeap A O F T P) (srcAddress dstAddress : A)
    (srcIndex dstIndex length : ℤ) (new : O) : Option (ConcreteHeap A O F T P) :=
  match m.readObject srcAddress, m.readObject dstAddress with
  | some (_, src), some (phys, .array elemType lengths lowerBounds elements) =>
    match copySource src srcIndex length with
    | none => none
    | some source =>
      if rangeInArray lengths lowerBounds dstIndex length then
        let elements := copyElements source lengths lowerBounds dstIndex length.toNat elements
        let m := m.put phys (.array elemType lengths lowerBounds elements)
        match src with
        | .array .. =>
          some (m.trackCopy phys elemType lengths lowerBounds elements dstIndex length.toNat)
        | _ => some m
      else none
  | some (_, src), some (_, .string chars) =>
    match copySource src srcIndex length with
    | none => none
    | some source =>
      if 0 ≤ dstIndex ∧ dstIndex + length ≤ chars.length then
        match copyChars (fun i => charAt (source i)) dstIndex.toNat length.toNat chars with
        | none => none
        | some chars =>
          let (newString, m) := m.newString chars new
          some (m.writeObject dstAddress newString)
      else none
  | _, _ => none

/-- The characters of a string or a char array. -/
def charArray (contents : Contents O F T P) : Option (List P) :=
  match contents with
  | .string chars => some chars
  | .array _ [len] [0] elements => (List.range len.toNat).mapM fun i => charAt (elements [(i : ℤ)])
  | _ => none

/-- The end of `CopyCharArrayToString`: the string gets the address, and both maps know it. -/
def replaceString [StringPool O] (m : ConcreteHeap A O F T P) (address : A) (chars : List P)
    (new : O) : ConcreteHeap A O F T P :=
  let (string, m) := m.newString chars new
  (m.writeObject address string).setPhysToVirt string address

/-- `CopyCharArrayToString`: `array[startIndex..]`. -/
def copyCharArrayToString [StringPool O] (m : ConcreteHeap A O F T P)
    (arrayAddress stringAddress : A) (startIndex : ℕ) (new : O) : Option (ConcreteHeap A O F T P) :=
  match (m.readObject arrayAddress).bind fun e => charArray e.2, m.readObject stringAddress with
  | some chars, some _ => some (m.replaceString stringAddress (chars.drop startIndex) new)
  | _, _ => none

/-- `CopyCharArrayToStringLen`: `array[startIndex..(length - 1)]`. -/
def copyCharArrayToStringLen [StringPool O] (m : ConcreteHeap A O F T P)
    (arrayAddress stringAddress : A) (startIndex length : ℕ) (new : O) :
    Option (ConcreteHeap A O F T P) :=
  match (m.readObject arrayAddress).bind fun e => charArray e.2, m.readObject stringAddress with
  | some chars, some _ =>
    some (m.replaceString stringAddress ((chars.take length).drop startIndex) new)
  | _, _ => none

end

end ConcreteHeap

end VSharp
