import VSharp.Core.ArrayKeys
import VSharp.Core.MemoryRegion
import VSharp.Utils.ArrayBoxes
import VSharp.Utils.Descriptions
import VSharp.Utils.SortedDictionary

/-!
# Test generator — Compact arrays

`encodeArrayCompactly` of `TestGenerator.fs`, and how `decodeArray` of `MemoryGraph.fs` reads its
result.  An array in concrete memory is encoded with all its elements, any other with the writes to
it in the region of its type, as far as `checkArrayIndex` lets them through.

- The evaluation of terms, their encoding and what reflection says of types are parameters; what
  raises an exception has no result.
- `mem_indices_iff`: the index lists that come out.
- `decodable_iff`: they are inside the array, except that a vector lets negative indices through;
  and no index is out of range in the decoder, except where `Array.fill` lists its own.
-/

namespace VSharp.CompactArrays
open Library ArrayBoxes MemoryGraph List Option

/-! ### The inputs -/

inductive SymbolicType where
  | concreteType (t : Ty)
  | mockType

/-- A region of arrays with as many indices. -/
structure ArrayRegion (R : Type) (rank : ℕ) extends MemoryRegion HeapArrayKey R where
  ofRank : ∀ e ∈ updates.flatten, e.2.key.OfRank rank

/-- The arrays of a state, and the types of its addresses. -/
structure ModelState (R : Type) where
  arrays : (t : ArrayType) → Option (ArrayRegion R t.dimension)
  allocatedTypes : VectorTime → Option SymbolicType

/-- The lengths and the lower bounds of an array; a vector has none. -/
structure Dimensions (rank : ℕ) where
  lengths : List ℤ
  lowerBounds : Option (List ℤ)
  length_lengths : lengths.length = rank
  length_nonneg : ∀ len ∈ lengths, 0 ≤ len
  rank_vector : lowerBounds = none → rank = 1
  length_lowerBounds : ∀ lbs ∈ lowerBounds, lbs.length = rank
  lowest : ∀ lbs ∈ lowerBounds, ∀ lb ∈ lbs, -2 ^ 31 ≤ lb

/-- The lower bounds of the array, which are zero for a vector. -/
def Dimensions.bounds {rank : ℕ} (d : Dimensions rank) : List ℤ :=
  MemoryGraph.bounds d.lengths d.lowerBounds

/-- What `encodeArrayCompactly` asks of the state, the model and the runtime. -/
structure Encoding (R O : Type) where
  /-- The arrays of the state. -/
  arrays : (t : ArrayType) → Option (ArrayRegion R t.dimension)
  /-- The state of the model, when it is a `StateModel`. -/
  modelState : Option (ModelState R)
  /-- `model.Eval`. -/
  eval : Term → Option Term
  encode : Term → Option O
  /-- `unbox` to `int`. -/
  unbox : O → Option ℤ
  specializeWithKey : Term → HeapArrayKey → HeapArrayKey → Option Term
  /-- Whether it is `Constant(_, ArrayRangeReading, _)`. -/
  isArrayRangeReading : Term → Bool
  isSafeContextWrite : Ty → Ty → Bool
  isValueType : Ty → Bool

/-- The elements of an array in concrete memory, each encoded. -/
structure PhysicalArray (O : Type) (lengths : List ℤ) where
  contents : List O
  length_contents : (contents.length : ℤ) = lengths.prod

/-- `arrayRepr`. -/
structure CompactArray (O : Type) where
  defaultValue : Option O
  indices : Option (List (List ℤ))
  values : List O
deriving DecidableEq

/-! ### Encoding -/

section
variable {R O : Type} (env : Encoding R O)

def checkArrayIndex {rank : ℕ} (d : Dimensions rank) (i : List ℤ) : Bool :=
  match d.lowerBounds with
  | none => decide (i.headD 0 < d.lengths.headD 0)
  | some lowerBounds => (lowerBounds.zip (d.lengths.zip i)).all fun e =>
    decide (e.1 ≤ e.2.2) && decide (e.2.2 < int32 (e.1 + e.2.1))

def isModelArray (cha : VectorTime) : Bool := VectorTime.less cha VectorTime.zero

/-- `PersistentDict.tryFind arrays arrayType`. -/
def tryFindRegion (arrayType : ArrayType) (cha : VectorTime) :
    Option (Option (ArrayRegion R arrayType.dimension)) :=
  if isModelArray cha then env.modelState.map fun s => s.arrays arrayType
  else some (env.arrays arrayType)

def checkElem (elemType : Ty) (value : Term) : Option Bool :=
  match value, env.modelState with
  | .heapRef (.concrete (.address address) .address) _, some modelState =>
    match modelState.allocatedTypes address with
    | some (.concreteType typ) => some (env.isSafeContextWrite typ elemType)
    | _ => some true
  | _, _ => none

def isSuitableElem (elemType : Ty) (cha : VectorTime) (value : Term) : Option Bool :=
  if isModelArray cha && !env.isValueType elemType then checkElem env elemType value else some true

/-- `encode >> unbox`, of each index. -/
def encodeIndices (indices : List Term) : Option (List ℤ) :=
  indices.mapM fun t => (env.encode t).bind env.unbox

variable {rank : ℕ} (d : Dimensions rank)

/-- Writes a value at an index list that passes the check. -/
def addIndex (i : List ℤ) (v : O) (indicesWithValues : List (List ℤ × O)) : List (List ℤ × O) :=
  if checkArrayIndex d i then SortedDictionary.set i v indicesWithValues else indicesWithValues

/-- The loop over the indices of a range. -/
def addIndices (valueAt : List ℤ → Option O) (indices : List (List ℤ))
    (indicesWithValues : List (List ℤ × O)) : Option (List (List ℤ × O)) :=
  indices.foldlM (fun acc i => (valueAt i).map fun v => addIndex d i v acc) indicesWithValues

/-- Whether the model takes the guard for false. -/
def isDisabled : Option Term → Option Bool
  | none => some false
  | some g => (env.eval g).map fun g => g == Term.falseTerm

/-- The last two cases of `addOneKey`. -/
def addKey (cha : VectorTime) (k : UpdateTreeKey HeapArrayKey Term)
    (indicesWithValues : List (List ℤ × O)) : Option (List (List ℤ × O)) :=
  match k.key with
  | .oneArrayIndexKey address keyIndices => do
      let heapAddress ← env.eval address
      if heapAddress = Term.concreteHeapAddress cha then
        let i ← encodeIndices env keyIndices
        let v ← env.encode k.value
        some (addIndex d i v indicesWithValues)
      else some indicesWithValues
  | .rangeArrayIndexKey address fromIndices toIndices => do
      let heapAddress ← env.eval address
      if heapAddress = Term.concreteHeapAddress cha then
        let fromIndices ← encodeIndices env fromIndices
        let toIndices ← encodeIndices env toIndices
        let allIndices := allIndicesViaBound fromIndices toIndices
        if env.isArrayRangeReading k.value then
          let valueAt (i : List ℤ) : Option O := do
            let key := .oneArrayIndexKey heapAddress (i.map fun n => Term.concrete (.int n) .int32)
            let v ← env.specializeWithKey k.value key k.key
            env.encode v
          addIndices d valueAt allIndices indicesWithValues
        else addIndices d (fun _ => env.encode k.value) allIndices indicesWithValues
      else some indicesWithValues

def addOneKey (elemType : Ty) (cha : VectorTime) (k : UpdateTreeKey HeapArrayKey Term)
    (indicesWithValues : List (List ℤ × O)) : Option (List (List ℤ × O)) := do
  let suitable ← isSuitableElem env elemType cha k.value
  if suitable then
    let disabled ← isDisabled env k.guard
    if disabled then some indicesWithValues else addKey env d cha k indicesWithValues
  else some indicesWithValues

/-- The encoded default value, or `null`. -/
def encodeDefault : Option Term → Option (Option O)
  | none => some none
  | some defaultValue => (env.encode defaultValue).map some

/-- `encodeArrayCompactly`, of an array that is in concrete memory or not. -/
def encodeArrayCompactly (arrayType : ArrayType) (cha : VectorTime)
    (d : Dimensions arrayType.dimension) (physical : Option (PhysicalArray O d.lengths)) :
    Option (CompactArray O) :=
  match physical with
  | some array => some ⟨none, none, array.contents⟩
  | none => do
      match ← tryFindRegion env arrayType cha with
      | none => some ⟨none, some [], []⟩
      | some region =>
        let defaultValue ← encodeDefault env region.defaultValue
        let indicesWithValues ← RegionTree.foldr
          (fun _ k acc => acc.bind (addOneKey env d arrayType.elemType cha k)) (some [])
          region.updates
        some ⟨defaultValue, some (indicesWithValues.map Prod.fst), indicesWithValues.map Prod.snd⟩

end

/-! ### Decoding -/

section
variable {O Y : Type} [DecidableEq Y] (u : TypeSystem Y) (heap : Heap Y) (elementType : Y)

/-- Whether `Array.fill` goes through the indices. -/
def fillsSlowly (value : MemoryGraph.Value Y) : Bool :=
  match value, unboxed u heap value with
  | .null, _ => false
  | _, some v => !u.equalsUninitialized v && !isFilledFast u elementType v
  | _, none => true

variable (lengths lowerBounds : List ℤ) (elements : List ℤ → MemoryGraph.Value Y)

/-- `Array.fill`, in `int32` arithmetic. -/
def fillArray (value : MemoryGraph.Value Y) : Option (List ℤ → MemoryGraph.Value Y) :=
  if fillsSlowly u heap elementType value then
    setValues lengths lowerBounds elements
      ((allIndicesViaLens lowerBounds lengths).map fun i => (i, value))
  else fill u heap elementType lengths lowerBounds elements value

variable (decodeValue : O → MemoryGraph.Value Y)

/-- `decodeArray`, of an array that `allocateDefault` has made. -/
def CompactArray.decodeArray {rank : ℕ} (repr : CompactArray O) (d : Dimensions rank) :
    Option (List ℤ → MemoryGraph.Value Y) :=
  let values := repr.values.map decodeValue
  let zeros := fun _ => u.zero elementType
  match repr.indices with
  | none => setValues d.lengths d.bounds zeros (values.zipIdx.map fun e =>
    (ArrayIndices.delinearizeArrayIndex e.2 d.lengths d.bounds, e.1))
  | some indices => do
      let defaultValue := (repr.defaultValue.map decodeValue).getD .null
      let filled ← fillArray u heap elementType d.lengths d.bounds zeros defaultValue
      if indices.length = values.length then
        setValues d.lengths d.bounds filled (indices.zip values)
      else none

/-- The index lists are those of elements, no two are the same, each has its value, and no index is
out of range in the decoder. -/
structure Decodable {rank : ℕ} (d : Dimensions rank) (repr : CompactArray O) : Prop where
  inside : ∀ indices ∈ repr.indices, ∀ i ∈ indices, InBox (lensBox d.bounds d.lengths) i
  nodup : ∀ indices ∈ repr.indices, indices.Nodup
  length : ∀ indices ∈ repr.indices, indices.length = repr.values.length
  decoded : (repr.decodeArray u heap elementType decodeValue d).isSome

end

/-! ### Indices that are added -/

section
variable {R O : Type} {env : Encoding R O} {rank : ℕ} {d : Dimensions rank}
  {acc acc' acc'' : List (List ℤ × O)} {new new' : List ℤ → Prop}

/-- Of the new index lists those that pass the check are added. -/
structure Adds (d : Dimensions rank) (new : List ℤ → Prop) (acc acc' : List (List ℤ × O)) :
    Prop where
  ascending : SortedDictionary.Ascending acc → SortedDictionary.Ascending acc'
  mem_keys : ∀ i, i ∈ acc'.map Prod.fst ↔ i ∈ acc.map Prod.fst ∨ new i ∧ checkArrayIndex d i

theorem Adds.refl (h : ∀ i, ¬ new i) : Adds d new acc acc where
  ascending := id
  mem_keys i := by rw [iff_false_intro (h i), false_and, or_false]

theorem Adds.trans (h : Adds d new acc acc') (h' : Adds d new' acc' acc'') :
    Adds d (fun i => new i ∨ new' i) acc acc'' where
  ascending := h'.ascending ∘ h.ascending
  mem_keys i := by
    rw [h'.mem_keys, h.mem_keys, or_and_right]
    exact or_assoc

theorem Adds.congr (h : Adds d new acc acc') (heq : ∀ i, new i ↔ new' i) :
    Adds d new' acc acc' where
  ascending := h.ascending
  mem_keys i := by rw [h.mem_keys, heq]

theorem addIndex_adds (i : List ℤ) (v : O) (acc : List (List ℤ × O)) :
    Adds d (· = i) acc (addIndex d i v acc) := by
  unfold addIndex
  split
  case isTrue hcheck =>
    refine ⟨fun h => h.set, fun j => ?_⟩
    rw [SortedDictionary.mem_keys_set, or_comm]
    refine or_congr_right ⟨?_, And.left⟩
    rintro rfl
    exact ⟨rfl, hcheck⟩
  case isFalse hcheck =>
    refine ⟨id, fun j => (or_iff_left ?_).symm⟩
    rintro ⟨rfl, h⟩
    exact hcheck h

theorem addIndices_adds {valueAt : List ℤ → Option O} {indices : List (List ℤ)}
    (h : addIndices d valueAt indices acc = some acc') : Adds d (· ∈ indices) acc acc' := by
  induction indices generalizing acc with
  | nil =>
    obtain rfl := some.inj h
    exact .refl fun i => not_mem_nil
  | cons i indices ih =>
    rw [addIndices, foldlM_cons, bind_eq_bind, bind_eq_some_iff] at h
    obtain ⟨middle, hfirst, hrest⟩ := h
    obtain ⟨v, -, rfl⟩ := map_eq_some_iff.mp hfirst
    exact ((addIndex_adds i v acc).trans (ih hrest)).congr fun j => mem_cons.symm

/-- The address of a key. -/
def addressOf : HeapArrayKey → Term
  | .oneArrayIndexKey address _ => address
  | .rangeArrayIndexKey address _ _ => address

/-- The write counts: its element is suitable, its guard is not false, and it is to this array. -/
structure Kept (env : Encoding R O) (elemType : Ty) (cha : VectorTime)
    (k : UpdateTreeKey HeapArrayKey Term) : Prop where
  suitable : isSuitableElem env elemType cha k.value = some true
  enabled : isDisabled env k.guard = some false
  address : env.eval (addressOf k.key) = some (Term.concreteHeapAddress cha)

/-- The key is evaluated to the index list, or to bounds between which it is listed. -/
def Touches (env : Encoding R O) (i : List ℤ) : HeapArrayKey → Prop
  | .oneArrayIndexKey _ indices => encodeIndices env indices = some i
  | .rangeArrayIndexKey _ fromIndices toIndices => ∃ lower upper,
      encodeIndices env fromIndices = some lower ∧ encodeIndices env toIndices = some upper ∧
        i ∈ allIndicesViaBound lower upper

variable {elemType : Ty} {cha : VectorTime} {k : UpdateTreeKey HeapArrayKey Term}

theorem addKey_adds (h : addKey env d cha k acc = some acc') :
    Adds d (fun i => env.eval (addressOf k.key) = some (Term.concreteHeapAddress cha) ∧
      Touches env i k.key) acc acc' := by
  unfold addKey at h
  split at h
  case h_1 address indices hkey =>
    rw [hkey]
    obtain ⟨heapAddress, heval, h⟩ := bind_eq_some_iff.mp h
    split at h
    case isTrue haddress =>
      obtain ⟨i, hi, h⟩ := bind_eq_some_iff.mp h
      obtain ⟨v, -, h⟩ := bind_eq_some_iff.mp h
      obtain rfl := some.inj h
      refine (addIndex_adds i v acc).congr fun j => ?_
      have hone : Touches env j (.oneArrayIndexKey address indices) ↔ some i = some j := by
        rw [← hi]
        rfl
      rw [hone, some_inj, eq_comm, and_iff_right (haddress ▸ heval)]
    case isFalse haddress =>
      obtain rfl := some.inj h
      exact .refl fun i hi => haddress (some.inj (heval.symm.trans hi.1))
  case h_2 address fromIndices toIndices hkey =>
    rw [hkey]
    obtain ⟨heapAddress, heval, h⟩ := bind_eq_some_iff.mp h
    split at h
    case isTrue haddress =>
      obtain ⟨lower, hlower, h⟩ := bind_eq_some_iff.mp h
      obtain ⟨upper, hupper, h⟩ := bind_eq_some_iff.mp h
      have hadds : Adds d (· ∈ allIndicesViaBound lower upper) acc acc' := by
        split at h
        case isTrue => exact addIndices_adds h
        case isFalse => exact addIndices_adds h
      refine hadds.congr fun j => ⟨fun hj => ⟨haddress ▸ heval, _, _, hlower, hupper, hj⟩, ?_⟩
      rintro ⟨-, lower', upper', hlower', hupper', hj⟩
      rwa [some.inj (hlower.symm.trans hlower'), some.inj (hupper.symm.trans hupper')]
    case isFalse haddress =>
      obtain rfl := some.inj h
      exact .refl fun i hi => haddress (some.inj (heval.symm.trans hi.1))

theorem addOneKey_adds (h : addOneKey env d elemType cha k acc = some acc') :
    Adds d (fun i => Kept env elemType cha k ∧ Touches env i k.key) acc acc' := by
  obtain ⟨suitable, hsuitable, h⟩ := bind_eq_some_iff.mp h
  cases suitable with
  | false =>
    obtain rfl := some.inj h
    exact .refl fun i hi => nomatch hsuitable.symm.trans hi.1.suitable
  | true =>
    obtain ⟨disabled, hdisabled, h⟩ := bind_eq_some_iff.mp h
    cases disabled with
    | true =>
      obtain rfl := some.inj h
      exact .refl fun i hi => nomatch hdisabled.symm.trans hi.1.enabled
    | false =>
      refine (addKey_adds h).congr fun i => and_congr_left' ⟨fun ha => ?_, fun hk => hk.address⟩
      exact ⟨hsuitable, hdisabled, ha⟩

/-- The writes of a region, one after another. -/
theorem addKeys_adds {R' : Type} {l : List (R' × UpdateTreeKey HeapArrayKey Term)}
    (h : l.foldr (fun e acc => acc.bind (addOneKey env d elemType cha e.2)) (some []) = some acc) :
    Adds d (fun i => ∃ e ∈ l, Kept env elemType cha e.2 ∧ Touches env i e.2.key) [] acc := by
  induction l generalizing acc with
  | nil =>
    obtain rfl := some.inj h
    exact .refl fun i ⟨e, he, _⟩ => not_mem_nil he
  | cons e l ih =>
    rw [foldr_cons, bind_eq_some_iff] at h
    obtain ⟨middle, hrest, hfirst⟩ := h
    refine ((ih hrest).trans (addOneKey_adds hfirst)).congr fun i => ?_
    rw [exists_mem_cons_iff, or_comm]

end

/-! ### What comes out -/

section
variable {R O : Type} {env : Encoding R O} {arrayType : ArrayType} {cha : VectorTime}
  {d : Dimensions arrayType.dimension} {repr : CompactArray O}

/-- Some write of the region counts and touches the index list. -/
def Written (env : Encoding R O) (arrayType : ArrayType) (cha : VectorTime) (i : List ℤ) : Prop :=
  ∃ region, tryFindRegion env arrayType cha = some (some region) ∧
    ∃ e ∈ region.updates.flatten, Kept env arrayType.elemType cha e.2 ∧ Touches env i e.2.key

section
variable (h : encodeArrayCompactly env arrayType cha d none = some repr)

include h

/-- The index lists ascend, each has its value, and they are those of the writes that pass the
check. -/
theorem mem_indices_iff :
    ∃ indices, repr.indices = some indices ∧ indices.Nodup ∧
      indices.length = repr.values.length ∧
        ∀ i, i ∈ indices ↔ Written env arrayType cha i ∧ checkArrayIndex d i := by
  obtain ⟨found, hfound, h⟩ := bind_eq_some_iff.mp h
  cases found with
  | none =>
    obtain rfl := some.inj h
    refine ⟨[], rfl, nodup_nil, rfl, fun i => iff_of_false not_mem_nil ?_⟩
    rintro ⟨⟨region, hregion, -⟩, -⟩
    exact nomatch hfound.symm.trans hregion
  | some region =>
    obtain ⟨defaultValue, -, h⟩ := bind_eq_some_iff.mp h
    obtain ⟨indicesWithValues, hfold, h⟩ := bind_eq_some_iff.mp h
    obtain rfl := some.inj h
    rw [RegionTree.foldr_eq_flatten] at hfold
    have hadds := addKeys_adds hfold
    refine ⟨_, rfl, (hadds.ascending .nil).nodup, by simp, fun i => ?_⟩
    rw [hadds.mem_keys, map_nil, or_iff_right not_mem_nil]
    refine and_congr_left' ⟨fun he => ⟨region, hfound, he⟩, ?_⟩
    rintro ⟨region', hregion', he⟩
    obtain rfl := some.inj (some.inj (hfound.symm.trans hregion'))
    exact he

/-- The default value is that of the region. -/
theorem forall_defaultValue_iff {p : O → Prop} : (∀ o ∈ repr.defaultValue, p o) ↔
      ∀ region, tryFindRegion env arrayType cha = some (some region) →
        ∀ t ∈ region.defaultValue, ∀ o ∈ env.encode t, p o := by
  obtain ⟨found, hfound, h⟩ := bind_eq_some_iff.mp h
  cases found with
  | none =>
    obtain rfl := some.inj h
    exact iff_of_true nofun fun region hregion => nomatch hfound.symm.trans hregion
  | some region =>
    obtain ⟨defaultValue, hdefault, h⟩ := bind_eq_some_iff.mp h
    obtain ⟨indicesWithValues, -, h⟩ := bind_eq_some_iff.mp h
    obtain rfl := some.inj h
    have hregion : (∀ o ∈ defaultValue, p o) ↔
        ∀ t ∈ region.defaultValue, ∀ o ∈ env.encode t, p o := by
      cases hterm : region.defaultValue with
      | none =>
        rw [hterm, encodeDefault] at hdefault
        obtain rfl := some.inj hdefault
        exact iff_of_true nofun nofun
      | some t =>
        rw [hterm, encodeDefault] at hdefault
        obtain ⟨o, ho, rfl⟩ := map_eq_some_iff.mp hdefault
        simp [ho]
    refine hregion.trans ⟨fun hall region' hregion' => ?_, fun hall => hall region hfound⟩
    obtain rfl := some.inj (some.inj (hfound.symm.trans hregion'))
    exact hall

end

end

/-! ### Indices inside the array -/

section
variable {rank : ℕ} (d : Dimensions rank) {lengths lowerBounds i : List ℤ} {R O : Type}
  {env : Encoding R O}

theorem Dimensions.length_bounds : d.bounds.length = d.lengths.length := by
  unfold Dimensions.bounds MemoryGraph.bounds
  cases h : d.lowerBounds with
  | none => exact length_replicate
  | some lbs => exact (d.length_lowerBounds lbs h).trans d.length_lengths.symm

theorem mem_allIndices_iff_inBox (hrank : lowerBounds.length = lengths.length) :
    i ∈ ArrayIndices.allIndices lengths lowerBounds ↔ InBox (lensBox lowerBounds lengths) i := by
  induction lengths generalizing lowerBounds i with
  | nil =>
    obtain rfl := eq_nil_of_length_eq_zero hrank
    simp [ArrayIndices.allIndices, lensBox, InBox]
  | cons len lengths ih =>
    cases lowerBounds with
    | nil => cases hrank
    | cons lb lowerBounds =>
      rw [ArrayIndices.mem_allIndices_cons, lensBox, zip_cons_cons, map_cons, InBox,
        forall₂_cons_left_iff]
      constructor
      · rintro ⟨j, rest, rfl, hle, hlt, hrest⟩
        exact ⟨j, rest, ⟨hle, by dsimp only; omega⟩, (ih (Nat.succ.inj hrank)).mp hrest, rfl⟩
      · rintro ⟨j, rest, ⟨hle, hlt⟩, hrest, rfl⟩
        dsimp only at hlt
        exact ⟨j, rest, rfl, hle, by omega, (ih (Nat.succ.inj hrank)).mpr hrest⟩

theorem int32_le {x : ℤ} (h : -2 ^ 31 ≤ x) : int32 x ≤ x := by
  rcases lt_or_ge x (2 ^ 31) with hlt | hge
  · exact le_of_eq (int32_eq ⟨h, hlt⟩)
  · have hwrapped : int32 x < (((2 ^ 32 : ℕ) : ℤ) + 1) / 2 := Int.bmod_lt (by decide)
    exact le_trans (by omega) hge

/-- The sum of a bound and a length can only overflow upwards, and then no index passes. -/
theorem inBox_of_check (hlbs : lowerBounds.length = lengths.length) (hi : i.length = lengths.length)
    (hlengths : ∀ len ∈ lengths, 0 ≤ len) (hlowest : ∀ lb ∈ lowerBounds, -2 ^ 31 ≤ lb)
    (h : (lowerBounds.zip (lengths.zip i)).all fun e =>
      decide (e.1 ≤ e.2.2) && decide (e.2.2 < int32 (e.1 + e.2.1))) :
    InBox (lensBox lowerBounds lengths) i := by
  induction lengths generalizing lowerBounds i with
  | nil =>
    obtain rfl := eq_nil_of_length_eq_zero hlbs
    obtain rfl := eq_nil_of_length_eq_zero hi
    exact .nil
  | cons len lengths ih =>
    cases lowerBounds with
    | nil => cases hlbs
    | cons lb lowerBounds =>
    cases i with
    | nil => cases hi
    | cons j i =>
      simp only [zip_cons_cons, all_cons, Bool.and_eq_true, decide_eq_true_eq] at h
      obtain ⟨⟨hle, hlt⟩, hrest⟩ := h
      obtain ⟨hlen, hlengths⟩ := forall_mem_cons.mp hlengths
      obtain ⟨hlb, hlowest⟩ := forall_mem_cons.mp hlowest
      have hwrap : int32 (lb + len) ≤ lb + len := int32_le (by omega)
      have hlast : j ≤ lb + len - 1 := by omega
      exact .cons ⟨hle, hlast⟩ (ih (Nat.succ.inj hlbs) (Nat.succ.inj hi) hlengths hlowest hrest)

theorem length_allIndicesViaBound {lower upper : List ℤ} (hrank : lower.length = upper.length)
    (h : i ∈ allIndicesViaBound lower upper) : i.length = lower.length := by
  cases lower with
  | nil =>
    obtain rfl := mem_singleton.mp h
    rfl
  | cons lb lower =>
    cases upper with
    | nil => cases hrank
    | cons ub upper =>
      obtain ⟨j, -, h⟩ := mem_flatMap.mp h
      obtain ⟨rest, hrest, rfl⟩ := List.mem_map.mp h
      rw [allIndicesViaLens_eq, mem_listBox] at hrest
      have hlength := List.Forall₂.length_eq hrest
      rw [listedBox, length_map, length_zip, ← Nat.succ.inj hrank, Nat.min_self] at hlength
      rw [length_cons, length_cons, hlength]

theorem length_encodeIndices {indices : List Term} (h : encodeIndices env indices = some i) :
    i.length = indices.length := by
  induction indices generalizing i with
  | nil =>
    obtain rfl := some.inj h
    rfl
  | cons t indices ih =>
    rw [encodeIndices, mapM_cons] at h
    obtain ⟨j, -, h⟩ := bind_eq_some_iff.mp h
    obtain ⟨rest, hrest, h⟩ := bind_eq_some_iff.mp h
    obtain rfl := some.inj h
    rw [length_cons, length_cons, ih hrest]

/-- A key touches index lists of its rank. -/
theorem length_of_touches {key : HeapArrayKey} (hrank : key.OfRank rank) (h : Touches env i key) :
    i.length = rank := by
  cases key with
  | oneArrayIndexKey address indices => exact (length_encodeIndices h).trans hrank
  | rangeArrayIndexKey address fromIndices toIndices =>
    obtain ⟨lower, upper, hlower, hupper, hi⟩ := h
    have hl := (length_encodeIndices hlower).trans hrank.1
    have hu := (length_encodeIndices hupper).trans hrank.2
    exact (length_allIndicesViaBound (hl.trans hu.symm) hi).trans hl

end

/-! ### Indices in range -/

section
variable {Y : Type} [DecidableEq Y] {u : TypeSystem Y} {heap : Heap Y} {elementType : Y}
  {lengths lowerBounds : List ℤ} {elements : List ℤ → MemoryGraph.Value Y}
  {value : MemoryGraph.Value Y}

omit [DecidableEq Y] in
theorem setValues_isSome_iff {entries : List (List ℤ × MemoryGraph.Value Y)} :
    (setValues lengths lowerBounds elements entries).isSome ↔
      ∀ e ∈ entries, e.1 ∈ ArrayIndices.allIndices lengths lowerBounds := by
  constructor
  · intro h
    obtain ⟨elements', helements⟩ := isSome_iff_exists.mp h
    exact mem_of_setValues helements
  · intro h
    rw [setValues_eq h]
    rfl

/-- What `Array.fill` lists is nothing, or ends within the array in every dimension. -/
def ListedInside (lowerBounds lengths : List ℤ) : Prop :=
  (∃ p ∈ lowerBounds.zip lengths, int32 (p.2 - p.1 - 1) < p.1) ∨
    ∀ p ∈ lowerBounds.zip lengths, int32 (p.2 - p.1 - 1) ≤ p.1 + p.2 - 1

theorem fillArray_isSome_iff (hrank : lowerBounds.length = lengths.length) :
    (fillArray u heap elementType lengths lowerBounds elements value).isSome ↔
      (fillsSlowly u heap elementType value → ListedInside lowerBounds lengths) := by
  unfold fillArray
  split
  case isTrue hslow =>
    rw [setValues_isSome_iff, List.forall_mem_map, imp_iff_right hslow, allIndicesViaLens_eq,
      ListedInside, ← inBox_imp_iff]
    refine forall_congr' fun i => ?_
    rw [mem_listBox, mem_allIndices_iff_inBox hrank]
    rfl
  case isFalse hfast =>
    refine iff_of_true ?_ fun hslow => absurd hslow hfast
    unfold fillsSlowly at hfast
    unfold fill
    generalize unboxed u heap value = o at hfast ⊢
    cases value with
    | null => rfl
    | _ =>
      cases o with
      | none => exact absurd rfl hfast
      | some v =>
        dsimp only at hfast ⊢
        split
        · rfl
        split
        · rfl
        · next hzero hslow => simp [hzero, hslow] at hfast

end

/-! ### Decoding what has been encoded -/

section
variable {R O Y : Type} [DecidableEq Y] {env : Encoding R O} {u : TypeSystem Y} {heap : Heap Y}
  {elementType : Y} {decodeValue : O → MemoryGraph.Value Y} {arrayType : ArrayType}
  {cha : VectorTime} {d : Dimensions arrayType.dimension} {repr : CompactArray O}

/-- An array from concrete memory is written in the order of its elements. -/
theorem decodable_physical (array : PhysicalArray O d.lengths) :
    Decodable u heap elementType decodeValue d ⟨none, none, array.contents⟩ where
  inside := nofun
  nodup := nofun
  length := nofun
  decoded := by
    have hrank := d.length_bounds.symm
    have hcount := ArrayIndices.length_allIndices hrank d.length_nonneg
    have hlength : (array.contents.map decodeValue).length =
        (ArrayIndices.allIndices d.lengths d.bounds).length := by
      rw [length_map]
      exact Int.ofNat.inj (array.length_contents.trans hcount.symm)
    obtain ⟨elements, helements, -⟩ :=
      setValues_zipIdx (fun _ => u.zero elementType) hrank d.length_nonneg hlength
    exact isSome_iff_exists.mpr ⟨elements, helements⟩

/-- Every write that counts is at an index from zero on. -/
def WrittenFromZero (env : Encoding R O) (arrayType : ArrayType) (cha : VectorTime) : Prop :=
  ∀ i : ℤ, Written env arrayType cha [i] → 0 ≤ i

/-- The written indices that pass the check are inside, except for negative ones of a vector. -/
theorem checked_inside_iff :
    (∀ i, Written env arrayType cha i ∧ checkArrayIndex d i →
        InBox (lensBox d.bounds d.lengths) i) ↔
      (d.lowerBounds = none → WrittenFromZero env arrayType cha) := by
  have hrank : ∀ i, Written env arrayType cha i → i.length = arrayType.dimension := by
    rintro i ⟨region, -, e, he, -, htouches⟩
    exact length_of_touches (region.ofRank e he) htouches
  cases hbounds : d.lowerBounds with
  | some lowerBounds =>
    refine iff_of_true (fun i hi => ?_) nofun
    obtain ⟨hwritten, hcheck⟩ := hi
    rw [checkArrayIndex, hbounds] at hcheck
    have hsame : d.bounds = lowerBounds := by rw [Dimensions.bounds, hbounds]; rfl
    rw [hsame]
    exact inBox_of_check
      ((d.length_lowerBounds lowerBounds hbounds).trans d.length_lengths.symm)
      ((hrank i hwritten).trans d.length_lengths.symm) d.length_nonneg
      (d.lowest lowerBounds hbounds) hcheck
  | none =>
    rw [imp_iff_right rfl]
    obtain ⟨len, hlen⟩ := length_eq_one_iff.mp (d.length_lengths.trans (d.rank_vector hbounds))
    have hnonneg : 0 ≤ len := d.length_nonneg len (hlen ▸ mem_singleton_self len)
    have hbox : ∀ i : ℤ, InBox (lensBox d.bounds d.lengths) [i] ↔ 0 ≤ i ∧ i ≤ len - 1 := by
      intro i
      rw [Dimensions.bounds, hbounds, hlen]
      simp [lensBox, InBox, MemoryGraph.bounds]
    have hcheck : ∀ i : ℤ, checkArrayIndex d [i] = true ↔ i < len := by
      intro i
      rw [checkArrayIndex, hbounds, hlen]
      exact decide_eq_true_iff
    constructor
    · intro h i hwritten
      by_contra hneg
      exact hneg ((hbox i).mp (h [i] ⟨hwritten, (hcheck i).mpr (by omega)⟩)).1
    · rintro h i ⟨hwritten, hpassed⟩
      obtain ⟨j, rfl⟩ := length_eq_one_iff.mp ((hrank i hwritten).trans (d.rank_vector hbounds))
      have hlt := (hcheck j).mp hpassed
      exact (hbox j).mpr ⟨h j hwritten, by omega⟩

/-- The default value is filled in without indices, or the indices listed for it are inside. -/
def FillsInside (env : Encoding R O) (u : TypeSystem Y) (heap : Heap Y) (elementType : Y)
    (decodeValue : O → MemoryGraph.Value Y) (arrayType : ArrayType) (cha : VectorTime)
    (d : Dimensions arrayType.dimension) : Prop :=
  ∀ region, tryFindRegion env arrayType cha = some (some region) →
    ∀ t ∈ region.defaultValue, ∀ o ∈ env.encode t,
      fillsSlowly u heap elementType (decodeValue o) → ListedInside d.bounds d.lengths

/-- The decoder fills the array and writes the listed values. -/
theorem decodeArray_isSome_iff {indices : List (List ℤ)} (hindices : repr.indices = some indices)
    (hlength : indices.length = repr.values.length) :
    (repr.decodeArray u heap elementType decodeValue d).isSome ↔
      (∀ o ∈ repr.defaultValue, fillsSlowly u heap elementType (decodeValue o) →
        ListedInside d.bounds d.lengths) ∧
      ∀ i ∈ indices, InBox (lensBox d.bounds d.lengths) i := by
  have hdefault : (∀ o ∈ repr.defaultValue, fillsSlowly u heap elementType (decodeValue o) →
      ListedInside d.bounds d.lengths) ↔ (fillsSlowly u heap elementType
        ((repr.defaultValue.map decodeValue).getD .null) → ListedInside d.bounds d.lengths) := by
    cases repr.defaultValue with
    | none => exact iff_of_true nofun nofun
    | some o => simp
  have hkeys : (indices.zip (repr.values.map decodeValue)).map Prod.fst = indices :=
    map_fst_zip (Nat.le_of_eq (by rw [length_map, hlength]))
  have hwrites (elements : List ℤ → MemoryGraph.Value Y) : (setValues d.lengths d.bounds elements
      (indices.zip (repr.values.map decodeValue))).isSome ↔
        ∀ i ∈ indices, InBox (lensBox d.bounds d.lengths) i := by
    rw [setValues_isSome_iff]
    conv_rhs => rw [← hkeys]
    rw [List.forall_mem_map]
    exact forall₂_congr fun e _ => mem_allIndices_iff_inBox d.length_bounds
  rw [hdefault, ← @fillArray_isSome_iff Y _ u heap elementType d.lengths d.bounds
    (fun _ => u.zero elementType) _ d.length_bounds]
  simp only [CompactArray.decodeArray, hindices, length_map, if_pos hlength]
  cases fillArray u heap elementType d.lengths d.bounds (fun _ => u.zero elementType)
      ((repr.defaultValue.map decodeValue).getD .null) with
  | none => exact iff_of_false nofun fun h => nomatch h.1
  | some filled => exact (hwrites filled).trans (and_iff_right rfl).symm

/-- An array is encoded so that it can be decoded exactly if it is in concrete memory, or no write
to a vector is at a negative index and the default value is filled in within the array. -/
theorem decodable_iff {physical : Option (PhysicalArray O d.lengths)}
    (h : encodeArrayCompactly env arrayType cha d physical = some repr) :
    Decodable u heap elementType decodeValue d repr ↔
      (physical = none → (d.lowerBounds = none → WrittenFromZero env arrayType cha) ∧
        FillsInside env u heap elementType decodeValue arrayType cha d) := by
  cases physical with
  | some array =>
    obtain rfl := some.inj h
    exact iff_of_true (decodable_physical array) nofun
  | none =>
    obtain ⟨indices, hindices, hnodup, hlength, hmem⟩ := mem_indices_iff h
    have hinside : (∀ i ∈ indices, InBox (lensBox d.bounds d.lengths) i) ↔
        (d.lowerBounds = none → WrittenFromZero env arrayType cha) := by
      rw [← checked_inside_iff]
      exact forall_congr' fun i => imp_congr_left (hmem i)
    have hdecoded : (repr.decodeArray u heap elementType decodeValue d).isSome ↔ _ :=
      decodeArray_isSome_iff hindices hlength
    rw [forall_defaultValue_iff h, hinside] at hdecoded
    rw [imp_iff_right rfl, and_comm]
    refine ⟨fun hd => hdecoded.mp hd.decoded, fun hboth => ?_⟩
    have honly {p : List (List ℤ) → Prop} (hp : p indices) : ∀ l ∈ repr.indices, p l :=
      fun l hl => some.inj (hindices.symm.trans hl) ▸ hp
    exact ⟨honly (hinside.mpr hboth.2), honly hnodup, honly hlength, hdecoded.mpr hboth⟩

end

/-! ### A write at a negative index -/

section

def vector (length : ℕ) : Dimensions 1 where
  lengths := [(length : ℤ)]
  lowerBounds := none
  length_lengths := rfl
  length_nonneg := forall_mem_singleton.mpr (Int.natCast_nonneg length)
  rank_vector _ := rfl
  length_lowerBounds := nofun
  lowest := nofun

def intVector : ArrayType := ⟨.int32, 1, true⟩

/-- The model writes `7` at an index of the vector. -/
def writtenRegion (index : ℤ) (defaultValue : Option Term) :
    ArrayRegion Unit intVector.dimension where
  typ := .int32
  updates := .node [((), ⟨.oneArrayIndexKey (Term.concreteHeapAddress [-1])
    [.concrete (.int index) .int32], .concrete (.int 7) .int32, none, [1]⟩, .node [])]
  defaultValue
  nextUpdateTime := [2]
  explicitAddresses := []
  ofRank := by
    intro e he
    obtain rfl := mem_singleton.mp he
    rfl

def writing (index : ℤ) (defaultValue : Option Term) : Encoding Unit ℤ where
  arrays _ := none
  modelState := some {
    arrays := fun t =>
      if h : t = intVector then some (h ▸ writtenRegion index defaultValue) else none
    allocatedTypes := fun _ => none }
  eval := some
  encode
    | .concrete (.int n) _ => some n
    | _ => none
  unbox := some
  specializeWithKey _ _ _ := none
  isArrayRangeReading _ := false
  isSafeContextWrite _ _ := true
  isValueType _ := true

/-- Integers only. -/
def intTypes : TypeSystem Unit where
  isValueType _ := true
  isByRefLike _ := false
  containsGenericParameters _ := false
  fieldsOf _ := []
  elementType _ := ()
  isEnumDefined _ _ := false
  getEnumValues _ := []
  zero _ := .primitive () 0
  equalsUninitialized
    | .primitive _ 0 => true
    | _ => false
  isFilledFast _ := true
  decodeString s := s

/-- `7` at the index `1` of three elements, and `5` at the others, which `Array.fill` lists. -/
theorem decodable_innerWrite : Decodable { intTypes with isFilledFast := fun _ => false } [] ()
    (MemoryGraph.Value.primitive ()) (vector 3) ⟨some 5, some [[1]], [7]⟩ := by
  let defaultValue := Term.concrete (.int 5) .int32
  have hencoded : encodeArrayCompactly (writing 1 (some defaultValue)) intVector [-1] (vector 3)
      none = some ⟨some 5, some [[1]], [7]⟩ := rfl
  refine (decodable_iff hencoded).mpr fun _ => ⟨fun _ i hwritten => ?_, ?_⟩
  · obtain ⟨region, hregion, e, he, -, htouches⟩ := hwritten
    obtain rfl : writtenRegion 1 (some defaultValue) = region :=
      some.inj (some.inj hregion)
    obtain rfl := mem_singleton.mp he
    obtain rfl : 1 = i := List.cons.inj (some.inj htouches) |>.1
    decide
  · exact fun _ _ _ _ _ _ _ => .inr (by decide)

/-- The index comes out, and the decoder of the vector raises an exception on it. -/
theorem not_decodable_negativeWrite :
    encodeArrayCompactly (writing (-1) none) intVector [-1] (vector 1) none =
        some ⟨none, some [[-1]], [7]⟩ ∧
      ¬ Decodable intTypes [] () (MemoryGraph.Value.primitive ()) (vector 1)
        ⟨none, some [[-1]], [7]⟩ := by
  refine ⟨rfl, fun h => ?_⟩
  have hin : InBox [(0, 0)] [-1] := h.inside [[-1]] rfl [-1] (mem_singleton_self _)
  exact absurd hin (by simp [InBox])

end

end VSharp.CompactArrays
