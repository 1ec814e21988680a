import VSharp.Core.ArrayRegions
import VSharp.Core.Slices
import VSharp.Core.Unmarshalling

/-!
# Core — ArrayWrites

Arrays in both memories: reads of elements, `Unmarshall`, and the writes `CommonWriteArrayIndex` and
`CommonWriteArrayRange` of `VSharp.SILI.Core/Memory.fs`.

- An array is in concrete memory (`InConcrete`), or its cells are in the region of its type
  (`InSymbolic`); `Unmarshall` takes it from the one to the other (`unmarshall_spec`);
- lengths, lower bounds and the lengths of strings are taken for what is read of them;
- what reflection says of values and terms is taken from `Conversions`; references have addresses, so
  that converting a value changes nothing.

A write of a range of two numbers in concrete memory leaves the last element out
(`commonWriteArrayRange_iff`).
-/

namespace VSharp
open Term Propositional Merging Library MemoryKeyUtils List

/-- `ObjToTerm` and `TryTermToObj`. -/
structure Conversions (O : Type) where
  objToTerm : Ty → Value O FieldId Obj → Term
  tryTermToObj : Term → Option (Value O FieldId Obj)

/-- Concrete memory, the regions of arrays and what is read of the bounds of arrays and of strings. -/
structure ArrayMemory (O : Type) [HashOrder ℤ] where
  concreteMemory : ConcreteHeap VectorTime O FieldId Ty Obj
  arrays : (arrayType : ArrayType) → MemoryRegion.ArrayCells arrayType.dimension
  lengths : ArrayType → VectorTime → ℕ → Term
  lowerBounds : ArrayType → VectorTime → ℕ → Term
  stringLengths : VectorTime → Term
  initializedAddresses : List VectorTime

namespace ArrayMemory

def tryIntListFromTermList (termList : List Term) : Option (List ℤ) :=
  termList.mapM fun
    | .concrete (.int i) t =>
      if t ∈ [.int16, .uint16, .char, .int32, .uint32, .int64, .uint64] then some (int32 i)
      else none
    | _ => none

/-- `primitiveCast` to `int`, of an index that is no union of other types. -/
def castIndex (i : Term) : Except Failure Term :=
  if commonTypeOf i = .ok .int32 then .ok i else primitiveCast i .int32

/-- `makeNumber` of an `int`. -/
def makeNumber (n : ℤ) : Term := literal n .int32

theorem mapM_castIndex (l : List ℤ) : (l.map makeNumber).mapM castIndex = .ok (l.map makeNumber) := by
  induction l with
  | nil => rfl
  | cons i l ih =>
    have hcast : castIndex (makeNumber i) = .ok (makeNumber i) := rfl
    rw [map_cons, mapM_cons, bind_ok hcast, bind_ok ih]
    rfl

/-- `symbolicTypeToArrayType`. -/
def arrayTypeOf (elemType : Ty) (lowerBounds : List ℤ) : ArrayType where
  elemType
  dimension := lowerBounds.length
  isVector := lowerBounds = [0]

def charVector : ArrayType := ⟨.char, 1, true⟩

section
variable {O : Type} [DecidableEq O] [HashOrder ℤ] [HashOrder FieldId]
  [∀ rank, HashOrder (CellRegion rank)] [HashOrder VectorTime] [Reflection FieldId Ty]
  (C : Conversions O) (n : ℕ) (m : ArrayMemory O)

/-! ### Symbolic memory -/

def writeArrayKeySymbolic (guard : Option Term) (key : HeapArrayKey) (arrayType : ArrayType)
    (value : Term) : Except Failure (ArrayMemory O) := do
  let mr ← (m.arrays arrayType).write (heapArrayKeys n arrayType.dimension) guard key value
  .ok { m with arrays := Function.update m.arrays arrayType mr }

def writeArrayIndexSymbolic (guard : Option Term) (address : Term) (indices : List Term)
    (arrayType : ArrayType) (value : Term) : Except Failure (ArrayMemory O) := do
  let indices ← indices.mapM castIndex
  m.writeArrayKeySymbolic n guard (.oneArrayIndexKey address indices) arrayType value

def writeArrayRangeSymbolic (guard : Option Term) (address : Term)
    (fromIndices toIndices : List Term) (arrayType : ArrayType) (value : Term) :
    Except Failure (ArrayMemory O) := do
  let fromIndices ← fromIndices.mapM castIndex
  let toIndices ← toIndices.mapM castIndex
  m.writeArrayKeySymbolic n guard (.rangeArrayIndexKey address fromIndices toIndices) arrayType value

def fillArrayBoundsSymbolic (a : VectorTime) (lengths lowerBounds : List Term)
    (arrayType : ArrayType) : ArrayMemory O :=
  { m with
    lengths := fun t a' d => if t = arrayType ∧ a' = a then lengths[d]?.getD (m.lengths t a' d)
      else m.lengths t a' d
    lowerBounds := fun t a' d =>
      if t = arrayType ∧ a' = a then lowerBounds[d]?.getD (m.lowerBounds t a' d)
      else m.lowerBounds t a' d }

def arrayMemsetData (a : VectorTime) (data : List (List ℤ × Value O FieldId Obj))
    (arrayType : ArrayType) : Except Failure (ArrayMemory O) := do
  let prepareData (e : List ℤ × Value O FieldId Obj) : HeapArrayKey × Term :=
    (.oneArrayIndexKey (vt2Term a) (e.1.map makeNumber), C.objToTerm arrayType.elemType e.2)
  let region ← (m.arrays arrayType).memset (heapArrayKeys n arrayType.dimension)
    (data.map prepareData)
  .ok { m with arrays := Function.update m.arrays arrayType (region.addExplicitAddress a) }

local instance lawfulBEq_vectorTime : LawfulBEq VectorTime := List.instLawfulBEq

/-- `StringArrayInfo`, of a string with this length. -/
def stringArrayInfo (a : VectorTime) (length : ℤ) : Except Failure (ArrayMemory O) :=
  if a ∈ m.initializedAddresses then .ok m
  else
    let m := { m with initializedAddresses := a :: m.initializedAddresses }
    if (m.concreteMemory.readObject a).isSome then .ok m
    else
      let m := m.fillArrayBoundsSymbolic a [makeNumber (int32 (length + 1))] [makeNumber 0]
        charVector
      m.writeArrayIndexSymbolic n none (vt2Term a) [makeNumber length] charVector (literal 0 .char)

/-! ### Unmarshalling -/

def unmarshallArray (a : VectorTime) (elemType : Ty) (lengths lowerBounds : List ℤ)
    (elements : List ℤ → Value O FieldId Obj) : Except Failure (ArrayMemory O) := do
  let arrayType := arrayTypeOf elemType lowerBounds
  let data := Unmarshalling.Memory.getArrayIndicesWithValues lengths lowerBounds elements
  let m ← m.arrayMemsetData C n a data arrayType
  .ok (m.fillArrayBoundsSymbolic a (lengths.map makeNumber) (lowerBounds.map makeNumber) arrayType)

def unmarshallString (a : VectorTime) (chars : List Obj) : Except Failure (ArrayMemory O) := do
  let m ← m.stringArrayInfo n a chars.length
  let m := { m with
    stringLengths := Function.update m.stringLengths a (makeNumber chars.length) }
  m.unmarshallArray C n a .char [chars.length] [0] (Unmarshalling.Memory.charElements chars)

/-- `Unmarshall`, of an array or a string. -/
def unmarshall (a : VectorTime) : Except Failure (ArrayMemory O) :=
  match m.concreteMemory.readObject a, m.concreteMemory.remove a with
  | some (_, .array elemType lengths lowerBounds elements), some concreteMemory =>
    { m with concreteMemory }.unmarshallArray C n a elemType lengths lowerBounds elements
  | some (_, .string chars), some concreteMemory =>
    { m with concreteMemory }.unmarshallString C n a chars
  | _, _ => .error (.internal "neither an array nor a string")

/-! ### Both memories -/

/-- `ReadArrayIndex`, at numbers. -/
def readArrayIndex (E : (arrayType : ArrayType) → ArrayReads arrayType.dimension) (a : VectorTime)
    (arrayType : ArrayType) (indices : Tuple ℤ arrayType.dimension) : Except Failure Term :=
  match m.concreteMemory.readObject a with
  | none => (E arrayType).read n (m.arrays arrayType) (a, indices)
  | some (_, .array _ lengths lowerBounds elements) =>
    let indices := Tuple.toList _ indices
    if ConcreteHeap.inBounds indices lengths lowerBounds then
      .ok (C.objToTerm arrayType.elemType (elements indices))
    else .error (.internal "IndexOutOfRangeException")
  | some (_, .string chars) =>
    match Tuple.toList _ indices with
    | [i] =>
      if i = chars.length then .ok (literal 0 .char)
      else if 0 ≤ i ∧ i < chars.length then
        .ok (C.objToTerm .char (Unmarshalling.Memory.charElements chars [i]))
      else .error (.internal "IndexOutOfRangeException")
    | _ => .error (.internal "IndexOutOfRangeException")
  | some _ => .error (.internal "reading array index in concrete memory")

/-- `cm.Contains` of the address of a term. -/
def heldAddress (address : Term) : Option VectorTime :=
  match address with
  | .concrete (.address a) .address =>
    if (m.concreteMemory.readObject a).isSome then some a else none
  | _ => none

/-- A write to concrete memory. -/
def inConcreteMemory (concreteMemory : Option (ConcreteHeap VectorTime O FieldId Ty Obj)) :
    Except Failure (ArrayMemory O) :=
  match concreteMemory with
  | some concreteMemory => .ok { m with concreteMemory }
  | none => .error (.internal "IndexOutOfRangeException")

def commonWriteArrayRange (guard : Option Term) (address : Term) (fromIndices toIndices : List Term)
    (arrayType : ArrayType) (value : Term) : Except Failure (ArrayMemory O) :=
  match m.heldAddress address with
  | none => m.writeArrayRangeSymbolic n guard address fromIndices toIndices arrayType value
  | some a =>
    match C.tryTermToObj value, tryIntListFromTermList fromIndices,
      tryIntListFromTermList toIndices, guard with
    | some v, some [l], some [r], none =>
      m.inConcreteMemory (m.concreteMemory.fillArray a l (int32 (r - l)) v)
    | _, _, _, _ => do
        let m ← m.unmarshall C n a
        m.writeArrayRangeSymbolic n guard address fromIndices toIndices arrayType value

end

/-! ### Arrays -/

/-- An array, with machine integers for its indices. -/
structure ArrayObject (O : Type) where
  elemType : Ty
  lengths : List ℤ
  lowerBounds : List ℤ
  elements : List ℤ → Value O FieldId Obj
  rank : lengths.length = lowerBounds.length
  machine : ∀ i, ConcreteHeap.inBounds i lengths lowerBounds = true → MachineIndices i

namespace ArrayObject

theorem length_singleton_eq (length lowerBound : ℤ) : [length].length = [lowerBound].length := rfl

/-- The indices of an array of one dimension whose bounds are machine integers. -/
theorem machineIndices_of_inBounds (length lowerBound : ℤ)
    (h : -2 ^ 31 ≤ lowerBound ∧ lowerBound + length ≤ 2 ^ 31) (i : List ℤ)
    (hi : ConcreteHeap.inBounds i [length] [lowerBound] = true) : MachineIndices i := by
  rcases i with _ | ⟨j, _ | ⟨_, _⟩⟩
  · cases hi
  · simp only [ConcreteHeap.inBounds, Bool.and_eq_true, decide_eq_true_eq] at hi
    exact forall_mem_singleton.mpr ⟨by omega, by omega⟩
  · simp [ConcreteHeap.inBounds] at hi

/-- An array of one dimension. -/
def vector {O : Type} (elemType : Ty) (length lowerBound : ℤ)
    (elements : List ℤ → Value O FieldId Obj)
    (h : -2 ^ 31 ≤ lowerBound ∧ lowerBound + length ≤ 2 ^ 31) : ArrayObject O where
  elemType
  lengths := [length]
  lowerBounds := [lowerBound]
  elements
  rank := length_singleton_eq length lowerBound
  machine := machineIndices_of_inBounds length lowerBound h

variable {O : Type} (A : ArrayObject O) (C : Conversions O)

def arrayType : ArrayType := arrayTypeOf A.elemType A.lowerBounds

def contents : Contents O FieldId Ty Obj := .array A.elemType A.lengths A.lowerBounds A.elements

/-- The terms of the elements. -/
def cells (is : Tuple ℤ A.arrayType.dimension) : Option Term :=
  if ConcreteHeap.inBounds (Tuple.toList _ is) A.lengths A.lowerBounds then
    some (C.objToTerm A.elemType (A.elements (Tuple.toList _ is)))
  else none

/-- The terms of the elements in the order of the enumerator, by tuples of indices. -/
def listed : List (Tuple ℤ A.arrayType.dimension × Term) :=
  (ArrayIndices.allIndices A.lengths A.lowerBounds).map fun i =>
    (Tuple.ofList A.arrayType.dimension i, C.objToTerm A.elemType (A.elements i))

theorem length_of_inBounds {i lengths lowerBounds : List ℤ}
    (h : ConcreteHeap.inBounds i lengths lowerBounds = true) : i.length = lowerBounds.length := by
  induction i generalizing lengths lowerBounds with
  | nil =>
    rcases lengths with _ | ⟨_, _⟩ <;> rcases lowerBounds with _ | ⟨_, _⟩ <;> first | rfl | cases h
  | cons j i ih =>
    rcases lengths with _ | ⟨_, _⟩ <;> rcases lowerBounds with _ | ⟨_, _⟩ <;> try cases h
    simp only [ConcreteHeap.inBounds, Bool.and_eq_true] at h
    exact congrArg (· + 1) (ih h.2)

variable {A C}

theorem toList_ofList {i : List ℤ} (h : i ∈ ArrayIndices.allIndices A.lengths A.lowerBounds) :
    Tuple.toList A.arrayType.dimension (Tuple.ofList A.arrayType.dimension i) = i :=
  Tuple.toList_ofList _ (length_of_inBounds ((Unmarshalling.Memory.mem_allIndices_iff A.rank).mp h))

theorem nodup_listed : ((A.listed C).map Prod.fst).Nodup := by
  rw [listed, map_map]
  refine (ArrayIndices.nodup_allIndices _ _).map_on fun i hi j hj heq => ?_
  rw [← A.toList_ofList hi, ← A.toList_ofList hj]
  exact congrArg _ heq

theorem machineIndices_listed : ∀ e ∈ A.listed C, MachineIndices (Tuple.toList _ e.1) := by
  refine forall_mem_map.mpr fun i hi => ?_
  rw [toList_ofList hi]
  exact A.machine i ((Unmarshalling.Memory.mem_allIndices_iff A.rank).mp hi)

/-- The listed elements are the cells. -/
theorem tryFind_listed : PersistentDict.tryFind (A.listed C) = A.cells C := by
  funext is
  rw [cells]
  split_ifs with h
  · refine (PersistentDict.tryFind_eq_some_iff nodup_listed).mpr (mem_map.mpr
      ⟨_, (Unmarshalling.Memory.mem_allIndices_iff A.rank).mpr h, ?_⟩)
    rw [Tuple.ofList_toList]
  · refine PersistentDict.tryFind_eq_none_iff.mpr fun hmem => h ?_
    obtain ⟨e, he, rfl⟩ := mem_map.mp hmem
    obtain ⟨i, hi, rfl⟩ := mem_map.mp he
    rw [toList_ofList hi]
    exact (Unmarshalling.Memory.mem_allIndices_iff A.rank).mp hi

/-- The keys and values that `ArrayMemsetData` makes of the elements. -/
theorem prepareData_eq {a : VectorTime} :
    ((Unmarshalling.Memory.getArrayIndicesWithValues A.lengths A.lowerBounds A.elements).map
      fun e => (HeapArrayKey.oneArrayIndexKey (vt2Term a) (e.1.map makeNumber),
        C.objToTerm A.arrayType.elemType e.2)) =
      (A.listed C).map fun e => (cellKey (a, e.1), e.2) := by
  rw [Unmarshalling.Memory.getArrayIndicesWithValues_eq A.rank, listed, map_map, map_map]
  refine map_congr_left fun i hi => ?_
  show (_, _) = (cellKey (a, _), _)
  rw [cellKey, toList_ofList hi]
  rfl

end ArrayObject

section
variable {O : Type} {C : Conversions O} {elemType : Ty} {length lb i : ℤ}
  {elements : List ℤ → Value O FieldId Obj} {hbounds : -2 ^ 31 ≤ lb ∧ lb + length ≤ 2 ^ 31}

theorem ArrayObject.vector_cells (hi : lb ≤ i) (hi' : i < lb + length) :
    (ArrayObject.vector elemType length lb elements hbounds).cells C (i, ()) =
      some (C.objToTerm elemType (elements [i])) := by
  have hin : ConcreteHeap.inBounds [i] [length] [lb] = true := by
    simp [ConcreteHeap.inBounds, hi, hi']
  exact if_pos hin

theorem ArrayObject.of_vector_cells {is : Tuple ℤ 1} {old : Term}
    (h : (ArrayObject.vector elemType length lb elements hbounds).cells C is = some old) :
    ∃ i, is = (i, ()) ∧ lb ≤ i ∧ i < lb + length ∧ old = C.objToTerm elemType (elements [i]) := by
  obtain ⟨i, ⟨⟩⟩ := is
  by_cases hin : ConcreteHeap.inBounds [i] [length] [lb] = true
  · have hold : some (C.objToTerm elemType (elements [i])) = some old := (if_pos hin).symm.trans h
    simp only [ConcreteHeap.inBounds, Bool.and_true, Bool.and_eq_true, decide_eq_true_eq] at hin
    exact ⟨i, rfl, hin.1, hin.2, (Option.some.inj hold).symm⟩
  · have hnone : none = some old := (if_neg hin).symm.trans h
    cases hnone

theorem machineIndices_singleton (hbounds : -2 ^ 31 ≤ lb ∧ lb + length ≤ 2 ^ 31) (hi : lb ≤ i)
    (hi' : i < lb + length) : MachineIndices [i] :=
  forall_mem_singleton.mpr ⟨by omega, by omega⟩

theorem tryIntListFromTermList_number (h : MachineIndices [i]) :
    tryIntListFromTermList [makeNumber i] = some [i] := by
  have hin : MachineInteger.InRange false 32 i := h i mem_cons_self
  have hi : int32 i = i := int32_eq hin
  simp [tryIntListFromTermList, makeNumber, literal, hi]

/-- The loop of `FillArray`. -/
theorem foldl_fill (elements : List ℤ → Value O FieldId Obj) (l : ℤ) (k : ℕ)
    (o : Value O FieldId Obj) (i : ℤ) :
    ((List.range k).foldl (fun elements (j : ℕ) => Function.update elements [l + j] o) elements)
      [i] = if l ≤ i ∧ i < l + k then o else elements [i] := by
  induction k with
  | zero => rw [if_neg (by omega)]; rfl
  | succ k ih =>
    rw [range_succ, foldl_append, foldl_cons, foldl_nil]
    by_cases hi : i = l + k
    · subst hi
      rw [Function.update_self, if_pos (by omega)]
    · rw [Function.update_of_ne (by simpa using hi), ih]
      refine if_congr ?_ rfl rfl
      omega

theorem readObject_put [DecidableEq O] {a : VectorTime}
    {cm : ConcreteHeap VectorTime O FieldId Ty Obj} {phys : O}
    {old : Contents O FieldId Ty Obj} (h : cm.readObject a = some (phys, old))
    (contents : Contents O FieldId Ty Obj) :
    (cm.put phys contents).readObject a = some (phys, contents) := by
  rw [ConcreteHeap.readObject] at h ⊢
  cases hfind : PersistentDict.tryFind cm.cm.virtToPhys a with
  | none =>
    rw [hfind] at h
    cases h
  | some found =>
    rw [hfind] at h
    obtain ⟨c, -, heq⟩ := Option.map_eq_some_iff.mp h
    obtain rfl : found = phys := (Prod.mk.inj heq).1
    have hput : (cm.put found contents).cm.virtToPhys = cm.cm.virtToPhys := rfl
    rw [hput, hfind]
    simp [ConcreteHeap.put]

end

section
open MemoryRegion UpdateTree RegionTree

variable {O : Type} [DecidableEq O] [HashOrder ℤ] [HashOrder FieldId]
  [∀ rank, HashOrder (CellRegion rank)] [HashOrder VectorTime] [Reflection FieldId Ty]

/-- The array is in concrete memory, and its address has no history in the region of its type. -/
structure InConcrete (m : ArrayMemory O) (a : VectorTime) (A : ArrayObject O) : Prop where
  readObject : ∃ phys, m.concreteMemory.readObject a = some (phys, A.contents)
  grown : Grown (heapArrayKeys 0 A.arrayType.dimension) (m.arrays A.arrayType).updates
  unwritten : ∀ is, path (a, is) (m.arrays A.arrayType).updates = []

/-- The cells of the array are in the region of its type. -/
structure InSymbolic (m : ArrayMemory O) (a : VectorTime) (arrayType : ArrayType)
    (cells : Tuple ℤ arrayType.dimension → Option Term) : Prop where
  readObject : m.concreteMemory.readObject a = none
  holds : HoldsCells (m.arrays arrayType) a cells
  notNewer : NotNewer (m.arrays arrayType) a

variable {C : Conversions O} {m : ArrayMemory O} {a : VectorTime} {A : ArrayObject O}

omit [Reflection FieldId Ty] in
/-- The array is taken to symbolic memory. -/
theorem unmarshall_spec (h : InConcrete m a A) :
    ∃ m', (∀ n, m.unmarshall C n a = .ok m') ∧ InSymbolic m' a A.arrayType (A.cells C) ∧
      (m'.arrays A.arrayType).typ = (m.arrays A.arrayType).typ ∧
      (m'.arrays A.arrayType).defaultValue = (m.arrays A.arrayType).defaultValue := by
  obtain ⟨phys, hread⟩ := h.readObject
  obtain ⟨cm, hremove, hgone⟩ := Unmarshalling.Memory.exists_remove hread
  obtain ⟨mr, hmemset, hholds, hnewer, hframe⟩ := memset_holdsCells (A.nodup_listed (C := C))
    ArrayObject.machineIndices_listed h.grown h.unwritten
  rw [ArrayObject.tryFind_listed] at hholds
  let m' : ArrayMemory O := { m with
    concreteMemory := cm
    arrays := Function.update m.arrays A.arrayType (mr.addExplicitAddress a) }
  have harrays : m'.arrays A.arrayType = mr.addExplicitAddress a := Function.update_self ..
  refine ⟨m'.fillArrayBoundsSymbolic a (A.lengths.map makeNumber) (A.lowerBounds.map makeNumber)
    A.arrayType, fun n => ?_, ⟨hgone, ?_, ?_⟩, ?_, ?_⟩
  · have hmemsetData : { m with concreteMemory := cm }.arrayMemsetData C n a
        (Unmarshalling.Memory.getArrayIndicesWithValues A.lengths A.lowerBounds A.elements)
        A.arrayType = .ok m' := by
      rw [arrayMemsetData]
      dsimp only
      rw [ArrayObject.prepareData_eq, bind_ok (hmemset n)]
    rw [unmarshall, hread, hremove]
    show unmarshallArray C n { m with concreteMemory := cm } a A.elemType A.lengths A.lowerBounds
      A.elements = _
    rw [unmarshallArray]
    exact bind_ok hmemsetData _
  · show HoldsCells (m'.arrays A.arrayType) a (A.cells C)
    rw [harrays]
    exact ⟨hholds.grown, hholds.unwritten, hholds.written⟩
  · show NotNewer (m'.arrays A.arrayType) a
    rw [harrays]
    exact hnewer
  · show (m'.arrays A.arrayType).typ = _
    rw [harrays, MemoryRegion.addExplicitAddress, hframe]
  · show (m'.arrays A.arrayType).defaultValue = _
    rw [harrays, MemoryRegion.addExplicitAddress, hframe]

/-- The cells of a region are of the element type, and so is its default value. -/
structure TypedRegion {rank : ℕ} (mr : ArrayCells rank) (elemType : Ty) (values : Term → Prop) :
    Prop where
  typ : mr.typ = elemType
  defaultValue : ∀ d, mr.defaultValue = some d → values d

/-! ### Writing a range of numbers -/

/-- Under the models, the cell is read as the term. -/
def ReadsAs (C : Conversions O) (E : (arrayType : ArrayType) → ArrayReads arrayType.dimension)
    (models : AddressValuation → Prop) (m : ArrayMemory O) (a : VectorTime) (arrayType : ArrayType)
    (is : Tuple ℤ arrayType.dimension) (x : AddressValuation → Term) : Prop :=
  ∀ᶠ n in Filter.atTop, ∃ r, m.readArrayIndex C n E a arrayType is = .ok r ∧
    ∀ ρ, models ρ → r.eval ρ.machine = (x ρ).eval ρ.machine

section

omit [DecidableEq O] [HashOrder VectorTime] [Reflection FieldId Ty]

/-- A cell of an array in symbolic memory is read from the region. -/
theorem readArrayIndex_of_region {arrayType : ArrayType} (h : m.concreteMemory.readObject a = none)
    (mr : ArrayCells arrayType.dimension) (n : ℕ)
    (E : (arrayType : ArrayType) → ArrayReads arrayType.dimension)
    (is : Tuple ℤ arrayType.dimension) :
    readArrayIndex C n { m with arrays := Function.update m.arrays arrayType mr } E a arrayType is =
      (E arrayType).read n mr (a, is) := by
  rw [readArrayIndex, h]
  exact congrArg (fun mr => (E arrayType).read n mr (a, is)) (Function.update_self ..)

theorem InSymbolic.writeNumbers {arrayType : ArrayType}
    {cells : Tuple ℤ arrayType.dimension → Option Term} (h : InSymbolic m a arrayType cells)
    {E : (arrayType : ArrayType) → ArrayReads arrayType.dimension} {s : Shape}
    {values : Term → Prop} {models : AddressValuation → Prop}
    (hE : (E arrayType).Lawful s values models arrayType.elemType)
    (htyped : TypedRegion (m.arrays arrayType) arrayType.elemType values) {v : Term}
    (hscalar : (E arrayType).IsScalar v) (hv : values v)
    (hcells : ∀ is old, cells is = some old → values old) {ls us : List ℤ} (hl : MachineIndices ls)
    (hu : MachineIndices us) (hlower : ls.length = arrayType.dimension)
    (hupper : us.length = arrayType.dimension) (hle : List.Forall₂ (· ≤ ·) ls us) :
    ∃ m', (∀ n, m.writeArrayRangeSymbolic n none (vt2Term a) (ls.map makeNumber)
        (us.map makeNumber) arrayType v = .ok m') ∧
      ∀ is old, cells is = some old → ReadsAs C E models m' a arrayType is fun _ =>
        if List.Forall₂ (fun (b : ℤ × ℤ) i => b.1 ≤ i ∧ i ≤ b.2) (ls.zip us) (Tuple.toList _ is) then
          v else old := by
  obtain ⟨mr, hwrite, hreads⟩ := h.holds.read_write_numbers (htyped.typ ▸ hE) htyped.defaultValue
    h.notNewer hscalar hv hcells hl hu hlower hupper hle
  refine ⟨{ m with arrays := Function.update m.arrays arrayType mr }, fun n => ?_,
    fun is old hold => (hreads is old hold).mono fun n hn => ?_⟩
  · rw [writeArrayRangeSymbolic, bind_ok (mapM_castIndex ls), bind_ok (mapM_castIndex us),
      writeArrayKeySymbolic]
    exact bind_ok (hwrite n) _
  · rw [readArrayIndex_of_region h.readObject]
    exact hn

section
omit [HashOrder FieldId] [∀ rank, HashOrder (CellRegion rank)]

theorem heldAddress_eq_some {contents : O × Contents O FieldId Ty Obj}
    (h : m.concreteMemory.readObject a = some contents) : m.heldAddress (vt2Term a) = some a := by
  show (if (m.concreteMemory.readObject a).isSome then some a else none) = some a
  rw [h]
  rfl

theorem heldAddress_eq_none (h : m.concreteMemory.readObject a = none) :
    m.heldAddress (vt2Term a) = none := by
  show (if (m.concreteMemory.readObject a).isSome then some a else none) = none
  rw [h]
  rfl

end

end

section
variable {E : (arrayType : ArrayType) → ArrayReads arrayType.dimension} {s : Shape}
  {values : Term → Prop} {models : AddressValuation → Prop} {elemType : Ty} {length lb : ℤ}
  {elements : List ℤ → Value O FieldId Obj} {hbounds : -2 ^ 31 ≤ lb ∧ lb + length ≤ 2 ^ 31}
  {l r : ℤ} {v : Term}

/-- After the write of `v` to the range from `l` to `r`, the elements of the range are read as `v`,
and the others as before. -/
def WritesRange (C : Conversions O) (E : (arrayType : ArrayType) → ArrayReads arrayType.dimension)
    (models : AddressValuation → Prop) (m : ArrayMemory O) (a : VectorTime) (elemType : Ty)
    (length lb : ℤ) (elements : List ℤ → Value O FieldId Obj) (l r : ℤ) (v : Term) : Prop :=
  ∃ m', (∀ n, m.commonWriteArrayRange C n none (vt2Term a) [makeNumber l] [makeNumber r]
      (arrayTypeOf elemType [lb]) v = .ok m') ∧
    ∀ i, lb ≤ i → i < lb + length → ReadsAs C E models m' a (arrayTypeOf elemType [lb]) (i, ())
      fun _ => if l ≤ i ∧ i ≤ r then v else C.objToTerm elemType (elements [i])

section

omit [Reflection FieldId Ty]

section
variable (hE : (E (arrayTypeOf elemType [lb])).Lawful s values models elemType)
  (htyped : TypedRegion (m.arrays (arrayTypeOf elemType [lb])) elemType values)
  (hscalar : (E (arrayTypeOf elemType [lb])).IsScalar v) (hv : values v)
  (helements : ∀ i, lb ≤ i → i < lb + length → values (C.objToTerm elemType (elements [i])))
  (hl : lb ≤ l) (hlr : l ≤ r) (hr : r < lb + length)

include hE htyped hscalar hv helements hl hlr hr

section
variable
  (h : InSymbolic m a (arrayTypeOf elemType [lb]) ((ArrayObject.vector elemType length lb elements hbounds).cells C))

include h

omit [DecidableEq O] [HashOrder VectorTime] in
theorem InSymbolic.writesRange_symbolic :
    ∃ m', (∀ n, m.writeArrayRangeSymbolic n none (vt2Term a) [makeNumber l] [makeNumber r]
        (arrayTypeOf elemType [lb]) v = .ok m') ∧
      ∀ i, lb ≤ i → i < lb + length → ReadsAs C E models m' a (arrayTypeOf elemType [lb]) (i, ())
        fun _ => if l ≤ i ∧ i ≤ r then v else C.objToTerm elemType (elements [i]) := by
  obtain ⟨m', hwrite, hreads⟩ := h.writeNumbers (C := C) hE htyped hscalar hv
    (fun is old hold => by
      obtain ⟨i, -, hi, hi', rfl⟩ := ArrayObject.of_vector_cells hold
      exact helements i hi hi')
    (machineIndices_singleton hbounds hl (by omega))
    (machineIndices_singleton hbounds (by omega) hr) rfl rfl (.cons hlr .nil)
  refine ⟨m', hwrite, fun i hi hi' => ?_⟩
  have hread := hreads (i, ()) _ (ArrayObject.vector_cells hi hi')
  have hiff : List.Forall₂ (fun (b : ℤ × ℤ) i => b.1 ≤ i ∧ i ≤ b.2) ([l].zip [r])
      (Tuple.toList (arrayTypeOf elemType [lb]).dimension (i, ())) ↔ l ≤ i ∧ i ≤ r := by
    show List.Forall₂ _ _ [i] ↔ _
    simp
  simpa only [hiff] using hread

theorem InSymbolic.writesRange : WritesRange C E models m a elemType length lb elements l r v := by
  obtain ⟨m', hwrite, hreads⟩ := h.writesRange_symbolic hE htyped hscalar hv helements hl hlr hr
  refine ⟨m', fun n => ?_, hreads⟩
  rw [commonWriteArrayRange, heldAddress_eq_none h.readObject]
  exact hwrite n

end

/-- A value that has no object is written to symbolic memory. -/
theorem InConcrete.writesRange_of_none
    (h : InConcrete m a (ArrayObject.vector elemType length lb elements hbounds))
    (hnone : C.tryTermToObj v = none) :
    WritesRange C E models m a elemType length lb elements l r v := by
  obtain ⟨m₁, hunmarshall, hsymbolic, htyp, hdefault⟩ := unmarshall_spec (C := C) h
  obtain ⟨m', hwrite, hreads⟩ := hsymbolic.writesRange_symbolic hE
    ⟨htyp.trans htyped.typ, fun d hd => htyped.defaultValue d (hdefault ▸ hd)⟩ hscalar hv helements
    hl hlr hr
  refine ⟨m', fun n => ?_, hreads⟩
  obtain ⟨phys, hread⟩ := h.readObject
  rw [commonWriteArrayRange, heldAddress_eq_some hread]
  dsimp only
  rw [hnone]
  exact (bind_ok (hunmarshall n) _).trans (hwrite n)

end

/-- The elements after a fill in concrete memory. -/
def filled (elements : List ℤ → Value O FieldId Obj) (l r : ℤ) (o : Value O FieldId Obj) :
    List ℤ → Value O FieldId Obj :=
  (List.range (r - l).toNat).foldl
    (fun elements (j : ℕ) => Function.update elements [l + j] o) elements

variable {o : Value O FieldId Obj}

/-- An array in concrete memory is filled there. -/
theorem InConcrete.commonWriteArrayRange_eq
    (h : InConcrete m a (ArrayObject.vector elemType length lb elements hbounds)) (hl : lb ≤ l)
    (hlr : l ≤ r) (hr : r < lb + length) (hlength : length < 2 ^ 31)
    (ho : C.tryTermToObj v = some o) :
    ∃ cm phys, (∀ n, m.commonWriteArrayRange C n none (vt2Term a) [makeNumber l] [makeNumber r]
        (arrayTypeOf elemType [lb]) v = .ok { m with concreteMemory := cm }) ∧
      cm.readObject a = some (phys, .array elemType [length] [lb] (filled elements l r o)) := by
  obtain ⟨phys, hread⟩ := h.readObject
  have hcount : int32 (r - l) = r - l := int32_eq (by omega)
  have hfill : m.concreteMemory.fillArray a l (int32 (r - l)) o =
      some (m.concreteMemory.put phys (.array elemType [length] [lb] (filled elements l r o))) := by
    rw [hcount, ConcreteHeap.fillArray, hread]
    exact if_pos (.inr ⟨hl, by omega⟩)
  refine ⟨_, phys, fun n => ?_, readObject_put hread _⟩
  rw [commonWriteArrayRange, heldAddress_eq_some hread]
  dsimp only
  rw [ho, tryIntListFromTermList_number (machineIndices_singleton hbounds hl (by omega)),
    tryIntListFromTermList_number (machineIndices_singleton hbounds (by omega) hr)]
  dsimp only
  rw [hfill]
  rfl

omit [DecidableEq O] [HashOrder VectorTime] in
theorem readArrayIndex_vector {cm : ConcreteHeap VectorTime O FieldId Ty Obj} {phys : O}
    (h : cm.readObject a = some (phys, .array elemType [length] [lb] elements)) {i : ℤ}
    (hi : lb ≤ i) (hi' : i < lb + length) (n : ℕ) :
    readArrayIndex C n { m with concreteMemory := cm } E a (arrayTypeOf elemType [lb]) (i, ()) =
      .ok (C.objToTerm elemType (elements [i])) := by
  have hin : ConcreteHeap.inBounds [i] [length] [lb] = true := by
    simp [ConcreteHeap.inBounds, hi, hi']
  unfold readArrayIndex
  dsimp only
  rw [h]
  exact if_pos hin

/-- Where the value has an object, the last element of the range is left as it was. -/
theorem InConcrete.writesRange_of_some
    (h : InConcrete m a (ArrayObject.vector elemType length lb elements hbounds)) (hl : lb ≤ l)
    (hlr : l ≤ r) (hr : r < lb + length) (hlength : length < 2 ^ 31)
    (ho : C.tryTermToObj v = some o) :
    WritesRange C E models m a elemType length lb elements l r v ↔
      ∀ ρ, models ρ →
        (l < r → (C.objToTerm elemType o).eval ρ.machine = v.eval ρ.machine) ∧
        (C.objToTerm elemType (elements [r])).eval ρ.machine = v.eval ρ.machine := by
  obtain ⟨cm, phys, hwrite, hread⟩ := h.commonWriteArrayRange_eq hl hlr hr hlength ho
  have hfilled (i : ℤ) : filled elements l r o [i] = if l ≤ i ∧ i < r then o else elements [i] := by
    rw [filled, foldl_fill]
    exact if_congr (by omega) rfl rfl
  constructor
  · rintro ⟨m', hwrite', hreads⟩ ρ hρ
    obtain rfl := Except.ok.inj ((hwrite 0).symm.trans (hwrite' 0))
    have hvalue {i : ℤ} (hi : l ≤ i) (hi' : i ≤ r) :
        (C.objToTerm elemType (filled elements l r o [i])).eval ρ.machine = v.eval ρ.machine := by
      obtain ⟨n, x, hx, heval⟩ := (hreads i (by omega) (by omega)).exists
      rw [readArrayIndex_vector hread (by omega) (by omega)] at hx
      obtain rfl := Except.ok.inj hx
      rw [heval ρ hρ, if_pos ⟨hi, hi'⟩]
    refine ⟨fun hlt => ?_, ?_⟩
    · have hfirst := hvalue le_rfl hlr
      rwa [hfilled, if_pos ⟨le_rfl, hlt⟩] at hfirst
    · have hlast := hvalue hlr le_rfl
      rwa [hfilled, if_neg (by omega)] at hlast
  · intro hsame
    refine ⟨_, hwrite, fun i hi hi' => .of_forall fun n =>
      ⟨_, readArrayIndex_vector hread hi hi' n, fun ρ hρ => ?_⟩⟩
    obtain ⟨hobj, hlast⟩ := hsame ρ hρ
    rw [hfilled]
    by_cases hin : l ≤ i ∧ i < r
    · rw [if_pos hin, if_pos ⟨hin.1, hin.2.le⟩]
      exact hobj (by omega)
    · rw [if_neg hin]
      by_cases hir : i = r
      · subst hir
        rw [if_pos ⟨hlr, le_rfl⟩]
        exact hlast
      · rw [if_neg (by omega)]

/-- A range is written to an array in concrete memory unless the value has an object: then the last
element must have been the value before, and the object must be read as the value if there are other
elements.  In symbolic memory the range is always written. -/
theorem commonWriteArrayRange_iff
    (hE : (E (arrayTypeOf elemType [lb])).Lawful s values models elemType)
    (hscalar : (E (arrayTypeOf elemType [lb])).IsScalar v) (hv : values v)
    (helements : ∀ i, lb ≤ i → i < lb + length → values (C.objToTerm elemType (elements [i])))
    (hbounds : -2 ^ 31 ≤ lb ∧ lb + length ≤ 2 ^ 31) (hlength : length < 2 ^ 31) (hl : lb ≤ l)
    (hlr : l ≤ r) (hr : r < lb + length) :
    (∀ m, InConcrete m a (ArrayObject.vector elemType length lb elements hbounds) →
      TypedRegion (m.arrays (arrayTypeOf elemType [lb])) elemType values →
      (WritesRange C E models m a elemType length lb elements l r v ↔
        ∀ o, C.tryTermToObj v = some o → ∀ ρ, models ρ →
          (l < r → (C.objToTerm elemType o).eval ρ.machine = v.eval ρ.machine) ∧
          (C.objToTerm elemType (elements [r])).eval ρ.machine = v.eval ρ.machine)) ∧
    ∀ m, InSymbolic m a (arrayTypeOf elemType [lb])
        ((ArrayObject.vector elemType length lb elements hbounds).cells C) →
      TypedRegion (m.arrays (arrayTypeOf elemType [lb])) elemType values →
      WritesRange C E models m a elemType length lb elements l r v := by
  refine ⟨fun m h htyped => ?_, fun m h htyped =>
    h.writesRange hE htyped hscalar hv helements hl hlr hr⟩
  cases ho : C.tryTermToObj v with
  | none =>
    exact iff_of_true (h.writesRange_of_none hE htyped hscalar hv helements hl hlr hr ho) nofun
  | some o =>
    rw [h.writesRange_of_some hl hlr hr hlength ho]
    exact ⟨fun hsame o' ho' => Option.some.inj ho' ▸ hsame, fun hsame => hsame o rfl⟩

end

end

end

/-! ### Arrays of two elements -/

section
variable [HashOrder ℤ]

/-- Numbers are converted to themselves. -/
def numbers : Conversions Unit where
  objToTerm t
    | .prim o => .concrete o t
    | _ => .nop
  tryTermToObj
    | .concrete o _ => some (.prim o)
    | _ => none

/-- A memory with an array of two zeros. -/
def zeros : ArrayMemory Unit where
  concreteMemory :=
    { heap := fun _ => some (.array .int32 [2] [0] fun _ => .prim (.int 0))
      cm := ⟨[((), [1])], [([1], ())], [], [], []⟩ }
  arrays arrayType := .empty arrayType.elemType
  lengths _ _ _ := makeNumber 0
  lowerBounds _ _ _ := makeNumber 0
  stringLengths _ := makeNumber 0
  initializedAddresses := []

/-- Readings are one constant. -/
def oneReading (arrayType : ArrayType) : ArrayReads arrayType.dimension where
  isDefault _ := false
  instantiate _ t _ := .ok (.constant ⟨0, []⟩ t)
  makeDefaultValue t := .ok (literal 0 t)
  isRangeReading _ := false
  specialize _ _ c := .constant c .int32

/-- The memory with other elements. -/
def twoElements (elements : List ℤ → Value Unit FieldId Obj) : ArrayMemory Unit :=
  { zeros with concreteMemory := { zeros.concreteMemory with
      heap := fun _ => some (.array .int32 [2] [0] elements) } }

theorem inConcrete_twoElements [HashOrder FieldId] (elements : List ℤ → Value Unit FieldId Obj) :
    InConcrete (twoElements elements) [1] (ArrayObject.vector .int32 2 0 elements (by decide)) where
  readObject := ⟨(), rfl⟩
  grown := .empty
  unwritten _ := RegionTree.path_nil nofun

end

/-- Writing a one over two zeros leaves the second zero. -/
theorem last_zero_stays :
    let _ : HashOrder ℤ := ⟨Int.natAbs⟩
    let _ : HashOrder FieldId := ⟨fun _ => 0⟩
    let _ (rank : ℕ) : HashOrder (CellRegion rank) := ⟨fun _ => 0⟩
    let _ : HashOrder VectorTime := ⟨List.length⟩
    let _ : Reflection FieldId Ty := ⟨FieldId.typ, fun _ => false⟩
    ¬ WritesRange numbers oneReading (fun _ => True) zeros [1] .int32 2 0
      (fun _ => .prim (.int 0)) 0 1 (makeNumber 1) := by
  intro _ _ _ _ _ h
  have hsame := ((inConcrete_twoElements _).writesRange_of_some (by decide) (by decide) (by decide)
    (by decide) rfl).mp h (.ofTimes fun _ => []) trivial
  have hone : (0 : ℤ) = 1 := by
    rw [← toInt_value_literal (i := 0) (by decide) (.ofTimes fun _ => []),
      ← toInt_value_literal (i := 1) (by decide) (.ofTimes fun _ => [])]
    exact congrArg (fun x => (MachineValue.num 32 x).toInt) hsame.2
  exact absurd hone (by decide)

theorem alive_of_cellKey (ρ : AddressValuation) {rank : ℕ} {p q : ArrayCell rank}
    (h : cellKey p = cellKey q) (k : UpdateTree.Record HeapArrayKey) : alive ρ p k = alive ρ q k := by
  obtain ⟨haddress, hindices⟩ := HeapArrayKey.oneArrayIndexKey.inj h
  have htime : p.1 = q.1 := by
    rw [← address_vt2Term ρ p.1, haddress, address_vt2Term]
  have hlist : Tuple.toList rank p.2 = Tuple.toList rank q.2 :=
    map_injective_iff.mpr (fun i j hij => by cases hij; rfl) hindices
  unfold alive denotes
  rw [htime, hlist]

section
variable [HashOrder ℤ] (ρ : AddressValuation)

/-- The value of the newest record that answers for the cell under the valuation. -/
def newestValue {rank : ℕ} (mr : MemoryRegion.ArrayCells rank) (p : ArrayCell rank) : Term :=
  ((RegionTree.flatten mr.updates).find? fun e => alive ρ p e.2).elim (literal 0 .int32) (·.2.value)

open Classical in
/-- Readings under one valuation. -/
noncomputable def newestReading (arrayType : ArrayType) : ArrayReads arrayType.dimension where
  isDefault _ := false
  instantiate key _ mr :=
    if h : ∃ p, cellKey p = key then .ok (newestValue ρ mr h.choose) else .ok (literal 0 .int32)
  makeDefaultValue t := .ok (literal 0 t)
  isRangeReading _ := false
  specialize _ _ c := .constant c .int32

theorem isScalar_newestReading (arrayType : ArrayType) (i : ℤ) :
    (newestReading ρ arrayType).IsScalar (makeNumber i) := by
  intro readKey k hk
  rw [ArrayReads.specializedReading, hk]
  rfl

theorem lawful_newestReading [HashOrder FieldId] [HashOrder (CellRegion 1)] :
    (newestReading ρ (arrayTypeOf .int32 [0])).Lawful .plain (fun v => ∃ i, v = makeNumber i)
      (· = ρ) .int32 where
  shape v hv := by
    obtain ⟨i, rfl⟩ := hv
    exact .leaf nofun ⟨nofun, .int32, rfl, nofun⟩
  instantiate p mr _ hvalues := by
    have hkey : ∃ q, cellKey q = cellKey p := ⟨p, rfl⟩
    have hsame : newestValue ρ mr hkey.choose = newestValue ρ mr p := by
      unfold newestValue
      simp only [alive_of_cellKey ρ hkey.choose_spec]
    refine ⟨newestValue ρ mr p, (dif_pos hkey).trans (congrArg _ hsame), ?_⟩
    unfold newestValue
    cases hfind : (RegionTree.flatten mr.updates).find? fun e => alive ρ p e.2 with
    | none =>
      refine ⟨.leaf nofun ⟨nofun, .int32, rfl, nofun⟩, fun ρ' hρ e he => ?_⟩
      rw [show ρ' = ρ from hρ, hfind] at he
      cases he
    | some e =>
      obtain ⟨i, hi⟩ := hvalues e (mem_of_find?_eq_some hfind)
      rw [Option.elim_some, hi]
      refine ⟨.leaf nofun ⟨nofun, .int32, rfl, nofun⟩, fun ρ' hρ e' he' => ?_⟩
      rw [show ρ' = ρ from hρ, hfind] at he'
      obtain rfl := Option.some.inj he'
      rw [UpdateTree.readValue, isScalar_newestReading ρ _ i _ e.2 hi, hi, ite_self]
  makeDefaultValue := ⟨_, rfl, .leaf nofun ⟨nofun, .int32, rfl, nofun⟩⟩

end

/-- Writing a one over a seven and a one, in concrete memory and after it was left. -/
theorem one_written :
    let _ : HashOrder ℤ := ⟨Int.natAbs⟩
    let _ : HashOrder FieldId := ⟨fun _ => 0⟩
    let _ (rank : ℕ) : HashOrder (CellRegion rank) := ⟨fun _ => 0⟩
    let _ : HashOrder VectorTime := ⟨List.length⟩
    let _ : Reflection FieldId Ty := ⟨FieldId.typ, fun _ => false⟩
    let ρ : AddressValuation := .ofTimes fun _ => []
    let elements : List ℤ → Value Unit FieldId Obj := fun i => .prim (.int (if i = [0] then 7 else 1))
    let written (m : ArrayMemory Unit) : Prop :=
      WritesRange numbers (newestReading ρ) (· = ρ) m [1] .int32 2 0 elements 0 1 (makeNumber 1)
    written (twoElements elements) ∧
      ∃ m, (∀ n, (twoElements elements).unmarshall numbers n [1] = .ok m) ∧ written m := by
  intro _ _ _ _ _ ρ elements written
  have hin := inConcrete_twoElements elements
  have helements : ∀ i : ℤ, 0 ≤ i → i < 0 + 2 →
      ∃ j, numbers.objToTerm .int32 (elements [i]) = makeNumber j := fun _ _ _ => ⟨_, rfl⟩
  have hrange : (0 : ℤ) ≤ 0 ∧ (0 : ℤ) ≤ 1 := by decide
  obtain ⟨hconcrete, hsymbolic⟩ := commonWriteArrayRange_iff (a := [1])
    (lawful_newestReading ρ) (isScalar_newestReading ρ _ 1) ⟨1, rfl⟩ helements
    (by decide) (by decide) hrange.1 hrange.2 (by decide)
  refine ⟨(hconcrete _ hin ⟨rfl, nofun⟩).mpr fun o ho ρ _ => ?_, ?_⟩
  · obtain rfl := Option.some.inj ho
    exact ⟨fun _ => rfl, rfl⟩
  · obtain ⟨m, hm, hcells, htyp, hdefault⟩ := unmarshall_spec (C := numbers) hin
    refine ⟨m, hm, hsymbolic m hcells ⟨htyp, fun d hd => ?_⟩⟩
    cases hdefault.symm.trans hd

end ArrayMemory

end VSharp
