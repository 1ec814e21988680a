import VSharp.Utils.MemoryGraph
import VSharp.Utils.PersistentDictionary

/-!
# Utils — Descriptions

What the representations of a memory graph describe, and how far their values and elements are
decoded as described.  Values always are, and so are the elements of a full array: they are written
in the order of the enumerator.  The default value of a compact array is written by `fill`, which
takes it for what the array already holds when it equals an uninitialized object, and goes by wrong
upper bounds where the lower bounds are not zero.

- `describedValue`, `DescribesEntry`: what a representation describes.
- `WellFormed`: the representations in question.
- `FillsRight`: the condition on the default value of an array.
-/

namespace VSharp.MemoryGraph
open ArrayIndices ArrayBoxes PersistentDict List Option

variable {Y : Type}

/-! ### Descriptions -/

section
variable (u : TypeSystem Y) (types : List Y) (sourceObjects : List (Option Object))

mutual

/-- The value that a representation describes. -/
def describedValue : Repr Y → Value Y
  | .null => .null
  | .reference index => sourceObjects[index]?.join.elim .null .object
  | .structure typ fields => (types[typ]?).elim .null fun t => .struct t (describedValues fields)
  | .array .. => .null
  | .string content => .string (u.decodeString content)
  | .enum typ underlyingValue => (types[typ]?).elim .null fun t => .enum t underlyingValue
  | .primitive t v => .primitive t v

def describedValues : List (Repr Y) → List (Value Y)
  | [] => []
  | r :: rs => describedValue r :: describedValues rs

end

/-- The value that was written last at an index. -/
def writtenLast (defaultValue : Value Y) (entries : List (List ℤ × Value Y)) (idx : List ℤ) :
    Value Y :=
  (tryFind entries.reverse idx).getD defaultValue

end

section
variable (u : TypeSystem Y) (repr : MemoryRepr Y)

/-- The type can be allocated, and has as many fields as are given. -/
def FitsFields (t : Y) (fields : List (Repr Y)) : Prop :=
  u.isByRefLike t = false ∧ u.containsGenericParameters t = false ∧
    fields.length = (u.fieldsOf t).length

mutual

/-- Values: primitives, enums, structures of value types, strings, and references to entries. -/
def ValueFits : Repr Y → Prop
  | .null => True
  | .reference index => index < repr.objects.length
  | .structure typ fields =>
    (∃ t, repr.types[typ]? = some t ∧ u.isValueType t = true ∧ FitsFields u t fields) ∧
      ValuesFit fields
  | .array .. => False
  | .string _ => True
  | .enum typ _ => typ < repr.types.length
  | .primitive .. => True

def ValuesFit : List (Repr Y) → Prop
  | [] => True
  | r :: rs => ValueFits r ∧ ValuesFit rs

end

/-- Lengths and lower bounds of an array. -/
def FitsBounds (lengths : List ℤ) (lowerBounds : Option (List ℤ)) : Prop :=
  lengths ≠ [] ∧ (∀ len ∈ lengths, 0 ≤ len) ∧
    (bounds lengths lowerBounds).length = lengths.length ∧
    ∀ ub ∈ upperBounds lengths (bounds lengths lowerBounds), ub < 2 ^ 31

/-- Entries: classes, arrays, strings, and boxed values. -/
def EntryFits : Repr Y → Prop
  | .structure typ fields =>
    (∃ t, repr.types[typ]? = some t ∧ FitsFields u t fields) ∧ ValuesFit u repr fields
  | .array typ defaultValue indices values lengths lowerBounds =>
    typ < repr.types.length ∧ FitsBounds lengths lowerBounds ∧ ValuesFit u repr values ∧
      match indices with
      | none => values.length = (allIndices lengths (bounds lengths lowerBounds)).length
      | some indices => ValueFits u repr defaultValue ∧ indices.length = values.length ∧
          ∀ idx ∈ indices, idx ∈ allIndices lengths (bounds lengths lowerBounds)
  | .string _ => True
  | .enum typ _ => typ < repr.types.length
  | .primitive .. => True
  | .null | .reference _ => False

/-- The representations in question. -/
def WellFormed : Prop := ∀ r ∈ repr.objects, EntryFits u repr r

end

/-! ### Values -/

section
variable {u : TypeSystem Y} {repr : MemoryRepr Y} {sourceObjects : List (Option Object)}

theorem length_describedValues (types : List Y) (l : List (Repr Y)) :
    (describedValues u types sourceObjects l).length = l.length := by
  induction l with
  | nil => rfl
  | cons r l ih => rw [describedValues, length_cons, ih, length_cons]

mutual

/-- A value that fits is decoded as it is described. -/
theorem decodeValue_eq (hobjects : sourceObjects.length = repr.objects.length) :
    ∀ r, ValueFits u repr r → decodeValue u repr.types sourceObjects r =
      some (describedValue u repr.types sourceObjects r)
  | .null, _ => rfl
  | .reference index, h => by
      have hlt : index < sourceObjects.length := hobjects ▸ h
      rw [decodeValue, describedValue, getElem?_eq_getElem hlt]
      rfl
  | .structure typ fields, h => by
      obtain ⟨⟨t, ht, hvalue, hbyref, hgeneric, hlength⟩, hfields⟩ := h
      rw [decodeValue, describedValue, ht]
      simp only [bind_eq_bind, bind_some, hvalue, if_true, uninitialized, hbyref,
        hgeneric, Bool.or_self, Bool.false_eq_true, if_false,
        decodeValues_eq hobjects fields hfields, length_describedValues, hlength, elim_some]
  | .array .., h => h.elim
  | .string _, _ => rfl
  | .enum typ v, h => by
      rw [decodeValue, describedValue, getElem?_eq_getElem h]
      rfl
  | .primitive .., _ => rfl

theorem decodeValues_eq (hobjects : sourceObjects.length = repr.objects.length) :
    ∀ l, ValuesFit u repr l → decodeValues u repr.types sourceObjects l =
      some (describedValues u repr.types sourceObjects l)
  | [], _ => rfl
  | r :: rs, h => by
      rw [decodeValues, decodeValue_eq hobjects r h.1, decodeValues_eq hobjects rs h.2]
      rfl

end

end

/-! ### Arrays -/

section
variable {lengths lowerBounds idx : List ℤ} {elements : List ℤ → Value Y}
variable {entries : List (List ℤ × Value Y)} {v : Value Y}

theorem writtenLast_cons (d : Value Y) (e : List ℤ × Value Y) :
    writtenLast d (e :: entries) idx = writtenLast (if e.1 = idx then e.2 else d) entries idx := by
  rw [writtenLast, writtenLast, reverse_cons, tryFind_append, tryFind_cons]
  cases tryFind entries.reverse idx with
  | some v => rfl
  | none => split <;> rfl

theorem writtenLast_of_wf (d : Value Y) (hwf : Wf entries) (h : (idx, v) ∈ entries) :
    writtenLast d entries idx = v := by
  rw [writtenLast, hwf.tryFind_reverse, (tryFind_eq_some_iff hwf).mpr h, getD_some]

/-- Within the bounds all values are written, and the last one stays. -/
theorem setValues_eq (h : ∀ e ∈ entries, e.1 ∈ allIndices lengths lowerBounds) :
    setValues lengths lowerBounds elements entries =
      some fun idx => writtenLast (elements idx) entries idx := by
  induction entries generalizing elements with
  | nil => rfl
  | cons e entries ih =>
    rw [setValues, foldlM_cons, setValue, if_pos (h e mem_cons_self), bind_eq_bind, bind_some]
    refine (ih fun e' he' => h e' (mem_cons_of_mem e he')).trans (congrArg some ?_)
    funext idx
    rw [writtenLast_cons, Function.update_apply]
    exact congrArg (writtenLast · entries idx) (if_congr eq_comm rfl rfl)

theorem mem_of_setValues {elements' : List ℤ → Value Y}
    (h : setValues lengths lowerBounds elements entries = some elements') :
    ∀ e ∈ entries, e.1 ∈ allIndices lengths lowerBounds := by
  induction entries generalizing elements with
  | nil => exact nofun
  | cons e entries ih =>
    rw [setValues, foldlM_cons, setValue] at h
    split at h
    case isTrue hmem => exact forall_mem_cons.mpr ⟨hmem, ih h⟩
    case isFalse => cases h

/-- A whole content is written in the order of the enumerator. -/
theorem setValues_zipIdx {values : List (Value Y)} (elements : List ℤ → Value Y)
    (hrank : lengths.length = lowerBounds.length)
    (hlengths : ∀ len ∈ lengths, 0 ≤ len)
    (hlength : values.length = (allIndices lengths lowerBounds).length) :
    ∃ elements', setValues lengths lowerBounds elements (values.zipIdx.map fun e =>
        (delinearizeArrayIndex e.2 lengths lowerBounds, e.1)) = some elements' ∧
      (allIndices lengths lowerBounds).map elements' = values := by
  have hentries : (values.zipIdx.map fun e =>
      (delinearizeArrayIndex (e.2 : ℤ) lengths lowerBounds, e.1)) =
        (allIndices lengths lowerBounds).zip values := by
    refine ext_getElem (by simp [hlength]) fun k hk _ => ?_
    have hk' : k < (allIndices lengths lowerBounds).length := by
      rw [length_map, length_zipIdx] at hk
      exact hlength ▸ hk
    have hidx := getElem?_allIndices hrank hlengths hk'
    rw [getElem?_eq_getElem hk', some.injEq] at hidx
    rw [getElem_map, getElem_zip, hidx, getElem_zipIdx, Nat.zero_add]
  have hfst : ((allIndices lengths lowerBounds).zip values).map Prod.fst =
      allIndices lengths lowerBounds := 
    map_fst_zip (Nat.le_of_eq hlength.symm)
  have hwf : Wf ((allIndices lengths lowerBounds).zip values) := by
    rw [Wf, PersistentDict.keys, hfst]
    exact nodup_allIndices lengths lowerBounds
  rw [hentries]
  refine ⟨_, setValues_eq fun e he => (of_mem_zip he).1, ?_⟩
  refine ext_getElem (by rw [length_map, hlength]) fun k hk hk' => ?_
  rw [length_map] at hk
  rw [getElem_map]
  refine writtenLast_of_wf _ hwf (mem_of_getElem? (i := k) ?_)
  exact getElem?_zip_eq_some.mpr ⟨getElem?_eq_getElem hk, getElem?_eq_getElem hk'⟩

end

/-! ### Filling -/

section
variable (u : TypeSystem Y)

/-- What `fill` leaves where no value is listed, is the default value. -/
def FillsRight [DecidableEq Y] (box : Option (Value Y)) (t : Y) (lengths lowerBounds : List ℤ)
    (indices : List (List ℤ)) (value : Value Y) : Prop :=
  let unlisted (idx : List ℤ) := idx ∈ allIndices lengths lowerBounds ∧ idx ∉ indices
  let slowly := (∀ idx ∈ allIndicesViaLens lowerBounds lengths,
      idx ∈ allIndices lengths lowerBounds) ∧
    ∀ idx, unlisted idx → idx ∉ allIndicesViaLens lowerBounds lengths → u.zero t = value
  match value, box with
  | .null, _ => ∀ idx, unlisted idx → u.zero t = value
  | _, some v =>
    if u.equalsUninitialized v then ∀ idx, unlisted idx → u.zero t = value
    else if isFilledFast u t v then ∀ idx, unlisted idx → v = value
    else slowly
  | _, none => slowly

variable {u} [DecidableEq Y] {heap : Heap Y} {t : Y} {lengths lowerBounds : List ℤ}
variable {indices : List (List ℤ)} {value : Value Y}

end

end VSharp.MemoryGraph
