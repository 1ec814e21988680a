import VSharp.Core.ConcreteHeap
import VSharp.Utils.ArrayIndices

/-!
# Core — Unmarshalling

`VSharp.SILI.Core/Memory.fs`: an object goes from concrete to symbolic memory, and what is read of
it before and after.

- A region of symbolic memory is taken for what it reads under a concrete address and concrete
  indices: the last value written there, or whatever stood there before.
- The term of a value (`ObjToTerm`) is the value itself.
- The length of a string in `StringArrayInfo` is a number; where it would be read as a term from
  symbolic memory, the operation is left undefined.
-/

namespace VSharp.Unmarshalling
open ArrayIndices Option

structure ArrayType (T : Type) where
  elemType : T
  dimension : ℕ
  isVector : Bool
deriving DecidableEq, Repr

/-- Numbers, characters and the members of `string`. -/
class Primitives (F T P : Type) where
  makeNumber : ℤ → P
  makeNumber_injective : Function.Injective makeNumber
  /-- The character `'\000'`. -/
  zeroChar : P
  charType : T
  stringLengthField : F

variable {A O F T P : Type}

/-- `symbolicTypeToArrayType`. -/
def arrayTypeOf (elemType : T) (lowerBounds : List ℤ) : ArrayType T where
  elemType
  dimension := lowerBounds.length
  isVector := lowerBounds = [0]

def charVector (F P : Type) [Primitives F T P] : ArrayType T :=
  ⟨Primitives.charType F P, 1, true⟩

/-- The concrete memory and the regions that hold arrays and strings. -/
structure Memory (A O F T P : Type) where
  concreteMemory : ConcreteHeap A O F T P
  initializedAddresses : List A
  lengths : ArrayType T → A → ℕ → Value O F P
  lowerBounds : ArrayType T → A → ℕ → Value O F P
  arrays : ArrayType T → A → List ℤ → Value O F P
  classFields : F → A → Value O F P

namespace Memory
variable [DecidableEq A] [DecidableEq O] [DecidableEq F] [DecidableEq T] [Primitives F T P]

/-- `makeNumber`, as a value. -/
def number (T : Type) [Primitives F T P] (n : ℤ) : Value O F P :=
  .prim (Primitives.makeNumber F T n)

variable (m : Memory A O F T P) (address : A)

/-! ### Writing -/

def writeLengthSymbolic (dimension : ℕ) (arrayType : ArrayType T) (value : Value O F P) :
    Memory A O F T P :=
  { m with
    lengths := fun t a d =>
      if t = arrayType ∧ a = address ∧ d = dimension then value else m.lengths t a d }

def writeLowerBoundSymbolic (dimension : ℕ) (arrayType : ArrayType T) (value : Value O F P) :
    Memory A O F T P :=
  { m with
    lowerBounds := fun t a d =>
      if t = arrayType ∧ a = address ∧ d = dimension then value else m.lowerBounds t a d }

def writeArrayIndexSymbolic (indices : List ℤ) (arrayType : ArrayType T) (value : Value O F P) :
    Memory A O F T P :=
  { m with
    arrays := fun t a i =>
      if t = arrayType ∧ a = address ∧ i = indices then value else m.arrays t a i }

def writeClassFieldSymbolic (field : F) (value : Value O F P) : Memory A O F T P :=
  { m with
    classFields := fun f a => if f = field ∧ a = address then value else m.classFields f a }

def fillArrayBoundsSymbolic (lengths lowerBounds : List (Value O F P)) (arrayType : ArrayType T) :
    Memory A O F T P :=
  let m := lengths.zipIdx.foldl
    (fun m e => m.writeLengthSymbolic address e.2 arrayType e.1) m
  lowerBounds.zipIdx.foldl (fun m e => m.writeLowerBoundSymbolic address e.2 arrayType e.1) m

def arrayMemsetData (data : List (List ℤ × Value O F P)) (arrayType : ArrayType T) :
    Memory A O F T P :=
  data.foldl (fun m e => m.writeArrayIndexSymbolic address e.1 arrayType e.2) m

/-! ### Unmarshalling -/

def stringArrayInfo (length : Option ℤ) : Option (Memory A O F T P) :=
  if address ∈ m.initializedAddresses then some m
  else
    let m := { m with initializedAddresses := address :: m.initializedAddresses }
    if (m.concreteMemory.readObject address).isSome then some m
    else do
      let stringLength ← length
      let m := m.writeLengthSymbolic address 0 (charVector F P) (number T (stringLength + 1))
      let m := m.writeLowerBoundSymbolic address 0 (charVector F P) (number T 0)
      some (m.writeArrayIndexSymbolic address [stringLength] (charVector F P)
        (.prim (Primitives.zeroChar F T)))

def getArrayIndicesWithValues (lengths lowerBounds : List ℤ) (elements : List ℤ → Value O F P) :
    List (List ℤ × Value O F P) :=
  match lengths, lowerBounds with
  | [len], [0] => (List.range len.toNat).map fun i : ℕ => ([(i : ℤ)], elements [(i : ℤ)])
  | _, _ => indexedArrayElems lengths lowerBounds elements

def unmarshallArray (elemType : T) (lengths lowerBounds : List ℤ)
    (elements : List ℤ → Value O F P) : Memory A O F T P :=
  let arrayType := arrayTypeOf elemType lowerBounds
  let m := m.arrayMemsetData address (getArrayIndicesWithValues lengths lowerBounds elements)
    arrayType
  m.fillArrayBoundsSymbolic address (lengths.map (number T)) (lowerBounds.map (number T)) arrayType

/-- The characters of `ToCharArray`. -/
def charElements (chars : List P) : List ℤ → Value O F P
  | [i] => (chars[i.toNat]?).elim .null .prim
  | _ => .null

def unmarshallString (chars : List P) : Option (Memory A O F T P) := do
  let m ← m.stringArrayInfo address (some chars.length)
  let m := m.writeClassFieldSymbolic address (Primitives.stringLengthField T P)
    (number T chars.length)
  some (m.unmarshallArray address (Primitives.charType F P) [chars.length] [0]
    (charElements chars))

/-- `UnmarshallClass`, for the fields of the type of the object. -/
def unmarshallClass (fields : List (F × Value O F P)) : Memory A O F T P :=
  fields.foldl (fun m e => m.writeClassFieldSymbolic address e.1 e.2) m

/-- The fields of a boxed structure. -/
def boxedFields : ValueFields O F P → List (F × Value O F P)
  | .nil => []
  | .cons fieldId value rest => (fieldId, value) :: boxedFields rest

/-- `Unmarshall`; the fields of an object are those of its type. -/
def unmarshall (fieldsOf : O → List F) : Option (Memory A O F T P) := do
  let (phys, obj) ← m.concreteMemory.readObject address
  let concreteMemory ← m.concreteMemory.remove address
  let m := { m with concreteMemory }
  match obj with
  | .array elemType lengths lowerBounds elements =>
    some (m.unmarshallArray address elemType lengths lowerBounds elements)
  | .string chars => m.unmarshallString address chars
  | .object fields => some (m.unmarshallClass address ((fieldsOf phys).map fun f => (f, fields f)))
  | .boxed fields => some (m.unmarshallClass address (boxedFields fields))

/-! ### Reading -/

def readLength (dimension : ℕ) (arrayType : ArrayType T) : Option (Value O F P) :=
  match m.concreteMemory.readObject address with
  | none => some (m.lengths arrayType address dimension)
  | some (_, .array _ lengths _ _) => lengths[dimension]?.map (number T)
  | some (_, .string chars) => if dimension = 0 then some (number T (1 + chars.length)) else none
  | some _ => none

def readLowerBound (dimension : ℕ) (arrayType : ArrayType T) : Option (Value O F P) :=
  match m.concreteMemory.readObject address with
  | none => some (m.lowerBounds arrayType address dimension)
  | some (_, .array _ _ lowerBounds _) => lowerBounds[dimension]?.map (number T)
  | some (_, .string _) => if dimension = 0 then some (number T 0) else none
  | some _ => none

def readArrayIndex (indices : List ℤ) (arrayType : ArrayType T) : Option (Value O F P) :=
  match m.concreteMemory.readObject address with
  | none => some (m.arrays arrayType address indices)
  | some (_, .array _ lengths lowerBounds elements) =>
    if ConcreteHeap.inBounds indices lengths lowerBounds then some (elements indices) else none
  | some (_, .string chars) =>
    match indices with
    | [i] =>
      if i = chars.length then some (.prim (Primitives.zeroChar F T))
      else if 0 ≤ i then chars[i.toNat]?.map .prim else none
    | _ => none
  | some _ => none

/-- `ReadClassField` of the length of a string. -/
def readStringLength : Option (Value O F P) :=
  match m.concreteMemory.readObject address with
  | none => some (m.classFields (Primitives.stringLengthField T P) address)
  | some (_, .string chars) => some (number T chars.length)
  | some _ => none

/-! ### Observations -/

end Memory

/-- What can be read of an array or a string. -/
inductive Observation where
  | length (dimension : ℕ)
  | lowerBound (dimension : ℕ)
  | element (indices : List ℤ)
  | stringLength
deriving DecidableEq, Repr

/-- An array; its dimensions are as many as its lower bounds. -/
def IsArray (contents : Contents O F T P) : Prop :=
  match contents with
  | .array _ lengths lowerBounds _ => lengths.length = lowerBounds.length
  | _ => False

/-- A string. -/
def IsString (contents : Contents O F T P) : Prop :=
  match contents with
  | .string _ => True
  | _ => False

/-- The type under which an array or a string is read. -/
def readType (F P : Type) [Primitives F T P] : Contents O F T P → ArrayType T
  | .array elemType _ lowerBounds _ => arrayTypeOf elemType lowerBounds
  | _ => charVector F P

/-- A dimension or an element that is there; the characters of a string end with a terminator. -/
def InScope (contents : Contents O F T P) (o : Observation) : Prop :=
  match contents, o with
  | .array _ lengths _ _, .length d => d < lengths.length
  | .array _ _ lowerBounds _, .lowerBound d => d < lowerBounds.length
  | .array _ lengths lowerBounds _, .element i => ConcreteHeap.inBounds i lengths lowerBounds
  | .string _, .length d | .string _, .lowerBound d => d = 0
  | .string chars, .element i => ∃ k : ℕ, i = [(k : ℤ)] ∧ k ≤ chars.length
  | .string _, .stringLength => True
  | _, _ => False

namespace Memory
variable [DecidableEq A] [DecidableEq O] [DecidableEq F] [DecidableEq T] [Primitives F T P]

def observe (m : Memory A O F T P) (address : A) (arrayType : ArrayType T) :
    Observation → Option (Value O F P)
  | .length dimension => m.readLength address dimension arrayType
  | .lowerBound dimension => m.readLowerBound address dimension arrayType
  | .element indices => m.readArrayIndex address indices arrayType
  | .stringLength => m.readStringLength address

/-- The object at the address is unmarshalled, and everything is read as before. -/
def Invisible (m : Memory A O F T P) (address : A) (fieldsOf : O → List F)
    (contents : Contents O F T P) : Prop :=
  ∃ m', m.unmarshall address fieldsOf = some m' ∧ ∀ o, InScope contents o →
    m'.observe address (readType F P contents) o = m.observe address (readType F P contents) o

variable {m : Memory A O F T P} {address : A}

omit [Primitives F T P] in
theorem exists_remove {cm : ConcreteHeap A O F T P} {phys : O} {contents : Contents O F T P}
    (h : cm.readObject address = some (phys, contents)) :
    ∃ cm', cm.remove address = some cm' ∧ cm'.readObject address = none := by
  rw [ConcreteHeap.readObject] at h
  cases hfind : PersistentDict.tryFind cm.cm.virtToPhys address with
  | none =>
    rw [hfind] at h
    cases h
  | some found =>
    simp only [ConcreteHeap.remove, ConcreteMemory.remove, hfind, map_some]
    refine ⟨_, rfl, ?_⟩
    rw [ConcreteHeap.readObject]
    simp [ConcreteMemory.markSymbolic, ConcreteMemory.removeFromFullyConcretesRec,
      Dictionary.tryFind_remove]

end Memory

/-! ### Regions -/

namespace Memory

section
variable [DecidableEq A] [DecidableEq T] (address : A) (arrayType : ArrayType T)

/-- The numbers of the dimensions are written one after the other. -/
theorem foldl_writeDimensions (values : List (Value O F P)) (n : ℕ)
    (table : ArrayType T → A → ℕ → Value O F P) (d : ℕ) :
    (values.zipIdx n).foldl (fun table e t a d =>
        if t = arrayType ∧ a = address ∧ d = e.2 then e.1 else table t a d) table
        arrayType address d =
      if n ≤ d then values[d - n]?.getD (table arrayType address d)
      else table arrayType address d := by
  induction values generalizing n table with
  | nil => simp
  | cons value values ih =>
    rw [List.zipIdx_cons, List.foldl_cons, ih]
    simp only [true_and]
    -- At `n` the value is written now, and no later step writes there.
    rcases Nat.lt_trichotomy d n with hlt | rfl | hgt
    · rw [if_neg (by omega), if_neg (by omega), if_neg (by omega)]
    · rw [if_neg (by omega), if_pos rfl, if_pos le_rfl, Nat.sub_self]
      rfl
    · have hsub : d - n = d - (n + 1) + 1 := by omega
      rw [if_pos (show n + 1 ≤ d from hgt), if_neg (show ¬ d = n by omega),
        if_pos (show n ≤ d by omega), hsub, List.getElem?_cons_succ]

theorem foldl_writeLengthSymbolic (values : List (Value O F P)) (m : Memory A O F T P) :
    ∃ lengths,
      values.zipIdx.foldl (fun m e => m.writeLengthSymbolic address e.2 arrayType e.1) m =
        { m with lengths } ∧
      ∀ d, lengths arrayType address d = values[d]?.getD (m.lengths arrayType address d) :=
  ⟨_, List.foldl_hom (fun lengths => { m with lengths }) fun _ _ => rfl,
    fun d => by simp [foldl_writeDimensions]⟩

theorem foldl_writeLowerBoundSymbolic (values : List (Value O F P)) (m : Memory A O F T P) :
    ∃ lowerBounds,
      values.zipIdx.foldl (fun m e => m.writeLowerBoundSymbolic address e.2 arrayType e.1) m =
        { m with lowerBounds } ∧
      ∀ d, lowerBounds arrayType address d =
        values[d]?.getD (m.lowerBounds arrayType address d) :=
  ⟨_, List.foldl_hom (fun lowerBounds => { m with lowerBounds }) fun _ _ => rfl,
    fun d => by simp [foldl_writeDimensions]⟩

theorem arrayMemsetData_map (f : List ℤ → Value O F P) (l : List (List ℤ))
    (m : Memory A O F T P) :
    ∃ arrays, m.arrayMemsetData address (l.map fun i => (i, f i)) arrayType = { m with arrays } ∧
      ∀ i ∈ l, arrays arrayType address i = f i := by
  have hread : ∀ m : Memory A O F T P, ∃ arrays,
      m.arrayMemsetData address (l.map fun i => (i, f i)) arrayType = { m with arrays } ∧
        ∀ i, i ∈ l ∨ m.arrays arrayType address i = f i → arrays arrayType address i = f i := by
    induction l with
    | nil =>
      intro m
      exact ⟨m.arrays, rfl, fun i h => h.resolve_left List.not_mem_nil⟩
    | cons j l ih =>
      intro m
      obtain ⟨arrays, heq, hread⟩ := ih (m.writeArrayIndexSymbolic address j arrayType (f j))
      refine ⟨arrays, heq, fun i h => hread i ?_⟩
      by_cases hj : i = j
      · subst hj
        simp [writeArrayIndexSymbolic]
      · simpa [writeArrayIndexSymbolic, hj] using h
  obtain ⟨arrays, heq, h⟩ := hread m
  exact ⟨arrays, heq, fun i hi => h i (.inl hi)⟩

end

/-! ### Arrays -/

variable {lengths lowerBounds : List ℤ}

/-- The enumerated indices are those of the elements. -/
theorem mem_allIndices_iff {i : List ℤ} (hrank : lengths.length = lowerBounds.length) :
    i ∈ allIndices lengths lowerBounds ↔ ConcreteHeap.inBounds i lengths lowerBounds := by
  induction lengths generalizing lowerBounds i with
  | nil =>
    obtain rfl := List.eq_nil_of_length_eq_zero hrank.symm
    cases i <;> simp [allIndices, ConcreteHeap.inBounds]
  | cons len lengths ih =>
    cases lowerBounds with
    | nil => cases hrank
    | cons lb lowerBounds =>
      rw [mem_allIndices_cons]
      cases i with
      | nil => simp [ConcreteHeap.inBounds]
      | cons j i => simp [ConcreteHeap.inBounds, ih (Nat.succ.inj hrank), and_assoc]

/-- Both ways to enumerate an array give every element with its index. -/
theorem getArrayIndicesWithValues_eq (hrank : lengths.length = lowerBounds.length)
    (elements : List ℤ → Value O F P) :
    getArrayIndicesWithValues lengths lowerBounds elements =
      (allIndices lengths lowerBounds).map fun i => (i, elements i) := by
  unfold getArrayIndicesWithValues
  split
  · rw [allIndices_vector, List.map_map]
    rfl
  · exact indexedArrayElems_eq hrank elements

section
variable [DecidableEq A] [DecidableEq O] [DecidableEq F] [DecidableEq T] [Primitives F T P]
variable {m m' : Memory A O F T P} {address : A} {fieldsOf : O → List F} {chars : List P} {phys : O}

omit [DecidableEq O] [DecidableEq F] in
/-- What `UnmarshallArray` writes. -/
theorem unmarshallArray_eq (m : Memory A O F T P) (address : A) (elemType : T)
    (lengths lowerBounds : List ℤ) (hrank : lengths.length = lowerBounds.length)
    (elements : List ℤ → Value O F P) :
    ∃ ls lbs arrays,
      m.unmarshallArray address elemType lengths lowerBounds elements =
        { m with lengths := ls, lowerBounds := lbs, arrays := arrays } ∧
      (∀ d len, lengths[d]? = some len →
        ls (arrayTypeOf elemType lowerBounds) address d = number T len) ∧
      (∀ d lb, lowerBounds[d]? = some lb →
        lbs (arrayTypeOf elemType lowerBounds) address d = number T lb) ∧
      ∀ i, ConcreteHeap.inBounds i lengths lowerBounds →
        arrays (arrayTypeOf elemType lowerBounds) address i = elements i := by
  obtain ⟨arrays, hdata, harrays⟩ := arrayMemsetData_map address
    (arrayTypeOf elemType lowerBounds) elements (allIndices lengths lowerBounds) m
  obtain ⟨ls, hlengths, hls⟩ := foldl_writeLengthSymbolic address
    (arrayTypeOf elemType lowerBounds) (lengths.map (number T)) { m with arrays }
  obtain ⟨lbs, hlowerBounds, hlbs⟩ := foldl_writeLowerBoundSymbolic address
    (arrayTypeOf elemType lowerBounds) (lowerBounds.map (number T))
    { m with arrays := arrays, lengths := ls }
  refine ⟨ls, lbs, arrays, ?_, ?_, ?_, ?_⟩
  · rw [unmarshallArray, getArrayIndicesWithValues_eq hrank, hdata, fillArrayBoundsSymbolic,
      hlengths, hlowerBounds]
  · intro d len hd
    rw [hls, List.getElem?_map, hd]
    rfl
  · intro d lb hd
    rw [hlbs, List.getElem?_map, hd]
    rfl
  · intro i hi
    exact harrays i ((mem_allIndices_iff hrank).mpr hi)

/-- An array is read as before. -/
theorem invisible_of_array {elemType : T} {elements : List ℤ → Value O F P}
    (h : m.concreteMemory.readObject address =
      some (phys, .array elemType lengths lowerBounds elements))
    (hrank : lengths.length = lowerBounds.length) :
    m.Invisible address fieldsOf (.array elemType lengths lowerBounds elements) := by
  obtain ⟨cm, hremove, hnone⟩ := exists_remove h
  obtain ⟨ls, lbs, arrays, heq, hls, hlbs, harrays⟩ := unmarshallArray_eq
    { m with concreteMemory := cm } address elemType lengths lowerBounds hrank elements
  refine ⟨{ m with concreteMemory := cm, lengths := ls, lowerBounds := lbs, arrays := arrays },
    ?_, ?_⟩
  · simp only [unmarshall, h, bind_eq_bind, bind_some, hremove, heq]
  · intro o ho
    cases o with
    | length d =>
      have hd : lengths[d]? = some lengths[d] := List.getElem?_eq_getElem ho
      simp only [observe, readLength, hnone, h, readType, hls d _ hd, hd, map_some]
    | lowerBound d =>
      have hd : lowerBounds[d]? = some lowerBounds[d] := List.getElem?_eq_getElem ho
      simp only [observe, readLowerBound, hnone, h, readType, hlbs d _ hd, hd, map_some]
    | element i =>
      have hi : ConcreteHeap.inBounds i lengths lowerBounds = true := ho
      simp only [observe, readArrayIndex, hnone, h, readType, harrays i hi, hi, if_true]
    | stringLength => exact ho.elim

omit [DecidableEq O] [DecidableEq F] in
/-- `StringArrayInfo` leaves the concrete memory. -/
theorem concreteMemory_stringArrayInfo {length : Option ℤ}
    (h : m.stringArrayInfo address length = some m') : m'.concreteMemory = m.concreteMemory := by
  unfold stringArrayInfo at h
  split at h
  case isTrue =>
    cases h
    rfl
  case isFalse =>
    dsimp only at h
    split at h
    case isTrue =>
      cases h
      rfl
    case isFalse =>
      cases length with
      | none => cases h
      | some length =>
        cases h
        rfl

omit [DecidableEq O] in
/-- The array of characters is written last, with the length of the string. -/
theorem lengths_unmarshallString (h : m.unmarshallString address chars = some m') :
    m'.concreteMemory = m.concreteMemory ∧
      m'.lengths (charVector F P) address 0 = number T chars.length := by
  rw [unmarshallString, bind_eq_bind, bind_eq_some_iff] at h
  obtain ⟨m₁, hinfo, hm'⟩ := h
  cases hm'
  obtain ⟨ls, lbs, arrays, heq, hls, -, -⟩ := unmarshallArray_eq
    (m₁.writeClassFieldSymbolic address (Primitives.stringLengthField T P)
      (number T chars.length)) address (Primitives.charType F P)
    [chars.length] [0] rfl (charElements chars)
  rw [heq]
  have hcm : m₁.concreteMemory = m.concreteMemory := concreteMemory_stringArrayInfo hinfo
  exact ⟨hcm, hls 0 _ rfl⟩

/-- A string has one element less than before. -/
theorem not_invisible_of_string
    (h : m.concreteMemory.readObject address = some (phys, .string chars)) :
    ¬ m.Invisible address fieldsOf (.string chars) := by
  rintro ⟨m', hm', hread⟩
  obtain ⟨cm, hremove, hnone⟩ := exists_remove h
  simp only [unmarshall, h, bind_eq_bind, bind_some, hremove] at hm'
  obtain ⟨hcm, hlength⟩ := lengths_unmarshallString hm'
  have hsame := hread (.length 0) rfl
  simp only [observe, readLength, hcm, hnone, h, if_true, some.injEq] at hsame
  have hnumber : number T (chars.length : ℤ) = (number T (1 + chars.length) : Value O F P) :=
    hlength.symm.trans hsame
  have hequal := Primitives.makeNumber_injective (Value.prim.inj hnumber)
  omega

/-- Exactly the arrays are read as before. -/
theorem unmarshall_invisible_iff {fieldsOf : O → List F} {phys : O} {contents : Contents O F T P}
    (h : m.concreteMemory.readObject address = some (phys, contents))
    (hkind : IsArray contents ∨ IsString contents) :
    m.Invisible address fieldsOf contents ↔ IsArray contents := by
  cases contents with
  | array elemType lengths lowerBounds elements =>
    have hrank : lengths.length = lowerBounds.length := hkind.resolve_right id
    exact iff_of_true (invisible_of_array h hrank) hrank
  | string chars => exact iff_of_false (not_invisible_of_string h) id
  | object fields => exact (hkind.elim id id).elim
  | boxed fields => exact (hkind.elim id id).elim

end

end Memory

/-! ### A matrix and a string -/

/-- Integers and characters. -/
inductive Prim where
  | int (n : ℤ)
  | char (c : Char)

instance : Primitives ℕ ℕ Prim where
  makeNumber := .int
  makeNumber_injective := fun _ _ h => Prim.int.inj h
  zeroChar := .char (Char.ofNat 0)
  charType := 0
  stringLengthField := 0

/-- A memory with one object, at the address 0. -/
def holding (contents : Contents ℕ ℕ ℕ Prim) : Memory ℕ ℕ ℕ ℕ Prim where
  concreteMemory :=
    { heap := fun _ => some contents
      cm := ⟨[(0, 0)], [(0, 0)], [], [], []⟩ }
  initializedAddresses := []
  lengths := fun _ _ _ => .null
  lowerBounds := fun _ _ _ => .null
  arrays := fun _ _ _ => .null
  classFields := fun _ _ => .null

/-- A matrix of two rows from 1 on and three columns from -1 on. -/
def matrix : Contents ℕ ℕ ℕ Prim :=
  .array 1 [2, 3] [1, -1] fun i => .prim (.int i.sum)

theorem matrix_invisible : (holding matrix).Invisible 0 (fun _ => []) matrix := by
  have hobject : (holding matrix).concreteMemory.readObject 0 = some (0, matrix) := rfl
  have harray : IsArray matrix := rfl
  exact (Memory.unmarshall_invisible_iff hobject (.inl harray)).mpr harray

/-- The string "ab" has three elements before, and two afterwards. -/
theorem string_not_invisible :
    ∃ chars m', (holding (.string chars)).concreteMemory.readObject 0 = some (0, .string chars) ∧
      (holding (.string chars)).unmarshall 0 (fun _ => []) = some m' ∧
      (holding (.string chars)).readLength 0 0 (charVector ℕ Prim) = some (Memory.number ℕ 3) ∧
      m'.readLength 0 0 (charVector ℕ Prim) = some (Memory.number ℕ 2) ∧
      ¬ (holding (.string chars)).Invisible 0 (fun _ => []) (.string chars) := by
  refine ⟨[.char 'a', .char 'b'], _, rfl, rfl, rfl, rfl, ?_⟩
  have hobject : (holding (.string [.char 'a', .char 'b'])).concreteMemory.readObject 0 =
      some (0, .string [.char 'a', .char 'b']) := rfl
  exact Memory.not_invisible_of_string hobject

end VSharp.Unmarshalling
