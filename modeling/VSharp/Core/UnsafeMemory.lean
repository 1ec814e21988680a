import VSharp.Core.Slices

/-!
# Core — UnsafeMemory

Reads and writes at byte offsets of a cell that holds a concrete primitive value.

- `writeTermUnsafe` cuts the cell and the written value into slices and combines them again;
- `writeBytes` is a write to an array of bytes;
- `readTermUnsafe_run`: a run of writes followed by a read does to a cell what the same writes and
  read do to the array of its bytes, if a `bool` is kept as the byte `0` or `1` and a zero or a NaN
  of a floating-point type as the one that a term is alive for.
-/

namespace VSharp
open Library SliceTerm List

def commonReadTermUnsafe (term : PrimitiveObj) (startByte endByte pos : Int) (isWrite : Bool)
    (sightType : Option PrimitiveType) : List SliceTerm :=
  if startByte = 0 ∧ endByte = term.typ.internalSizeOf ∧ sightType = some term.typ then
    [.concrete term]
  else [createSlice term [⟨startByte, endByte, pos, isWrite⟩]]

def readTermUnsafe (term : PrimitiveObj) (startByte endByte : Int)
    (sightType : Option PrimitiveType) : List SliceTerm :=
  commonReadTermUnsafe term startByte endByte (int32 (-startByte)) false sightType

def readTermPartUnsafe (term : PrimitiveObj) (startByte endByte : Int)
    (sightType : Option PrimitiveType) : List SliceTerm :=
  commonReadTermUnsafe term startByte endByte startByte true sightType

/-- `live` are the values of the terms that are alive when the new term is made. -/
def writeTermUnsafe (live : List PrimitiveObj) (term : PrimitiveObj) (startByte : Int)
    (value : PrimitiveObj) : Option PrimitiveObj :=
  let termSize : Int := term.typ.internalSizeOf
  let valueSize : Int := value.typ.internalSizeOf
  if startByte = 0 ∧ term.typ = value.typ then some value
  else if startByte = 0 ∧ valueSize = termSize then
    (combine [.concrete value] term.typ).map (addTerm live)
  else
    let left := readTermPartUnsafe term 0 startByte none
    let valueSlices := readTermUnsafe value (int32 (-startByte)) (int32 (termSize - startByte)) none
    let right := readTermPartUnsafe term (int32 (startByte + valueSize)) termSize none
    (combine (left ++ valueSlices ++ right) term.typ).map (addTerm live)

/-- A write: where it starts, which may be before the cell, the value, and the values of the terms
that are alive then. -/
structure Write where
  startByte : Int
  value : PrimitiveObj
  live : List PrimitiveObj

/-- The writes of a run, one after another. -/
def writeAll (term : PrimitiveObj) (writes : List Write) : Option PrimitiveObj :=
  writes.foldlM (fun term w => writeTermUnsafe w.live term w.startByte w.value) term

/-- The value of type `sightType` that is read at `startByte`. -/
def readAs (live : List PrimitiveObj) (term : PrimitiveObj) (startByte : Int)
    (sightType : PrimitiveType) : Option PrimitiveObj :=
  let endByte := int32 (startByte + sightType.internalSizeOf)
  (combine (readTermUnsafe term startByte endByte (some sightType)) sightType).map (addTerm live)

/-! ### The array of bytes -/

/-- The value is written byte by byte; what sticks out of the array is lost. -/
def writeBytes (bytes : List Byte) (startByte : Int) (value : List Byte) : List Byte :=
  bytes.mapIdx fun i b =>
    if startByte ≤ i ∧ i < startByte + value.length then value.getD (i - startByte).toNat b else b

def writeAllBytes (bytes : List Byte) (writes : List Write) : List Byte :=
  writes.foldl (fun bytes w => writeBytes bytes w.startByte w.value.bytes) bytes

/-- The bytes of a window. -/
def window (bytes : List Byte) (startByte size : Nat) : List Byte :=
  (bytes.drop startByte).take size

/-- The value shares a byte with the cell. -/
def Overlaps (t : PrimitiveType) (startByte : Int) (value : PrimitiveObj) : Prop :=
  -value.typ.internalSizeOf < startByte ∧ startByte < t.internalSizeOf

instance {t : PrimitiveType} {s : Int} {value : PrimitiveObj} : Decidable (Overlaps t s value) :=
  inferInstanceAs (Decidable (_ ∧ _))

/-- The bytes of the term that is made of a value of type `t` read from `bytes`. -/
def termBytes (live : List PrimitiveObj) (t : PrimitiveType) (bytes : List Byte) : List Byte :=
  match bytesToObj bytes t with
  | some o => (addTerm live o).bytes
  | none => []

/-- What a cell of type `t` keeps of its bytes of the array after a write: a value of its own type
that covers it is the new term, and a write elsewhere makes none. -/
def keptBytes (t : PrimitiveType) (w : Write) (written : List Byte) : List Byte :=
  if Overlaps t w.startByte w.value ∧ ¬(w.startByte = 0 ∧ t = w.value.typ) then
    termBytes w.live t written
  else written

/-- The writes to a cell of type `t`, which keeps a value of `t` after every one. -/
def writeAllKept (t : PrimitiveType) (bytes : List Byte) (writes : List Write) : List Byte :=
  writes.foldl (fun bytes w => keptBytes t w (writeBytes bytes w.startByte w.value.bytes)) bytes

section
variable {bytes value : List Byte} {s : Int} {i : Nat}

@[simp] theorem length_writeBytes : (writeBytes bytes s value).length = bytes.length := by
  simp [writeBytes]

theorem getElem?_writeBytes_of_mem (hi : i < bytes.length)
    (h : s ≤ i ∧ i < s + value.length) :
    (writeBytes bytes s value)[i]? = value[(i - s).toNat]? := by
  have hv : (i - s).toNat < value.length := by omega
  simp [writeBytes, hi, h, hv]

theorem getElem?_writeBytes_of_notMem (h : ¬(s ≤ i ∧ i < s + value.length)) :
    (writeBytes bytes s value)[i]? = bytes[i]? := by
  simp only [writeBytes, getElem?_mapIdx, if_neg h, Option.map_id']

end

/-! ### One write -/

variable {term value : PrimitiveObj} {s : Int} {live : List PrimitiveObj}
variable {bytes : List Byte} {o : PrimitiveObj} {c : Cut} {i : Nat}

/-- The term of a value that is read from as many bytes as its type has. -/
theorem map_bytesToObj {t : PrimitiveType} (h : bytes.length = t.internalSizeOf) :
    ∃ o, (bytesToObj bytes t).map (addTerm live) = some o ∧ o.typ = t ∧
      o.bytes = termBytes live t bytes := by
  have hobj : ∃ o, bytesToObj bytes t = some o ∧ o.typ = t := ⟨_, dif_pos h, rfl⟩
  obtain ⟨o, ho, htyp⟩ := hobj
  exact ⟨addTerm live o, by rw [ho]; rfl, addTerm_typ.trans htyp, by rw [termBytes, ho]⟩

/-- A term keeps the bytes that are read, if these are no zero and no NaN of a floating-point
type. -/
theorem termBytes_eq {t : PrimitiveType} (ho : bytesToObj bytes t = some o)
    (hzero : o.isZero = false) (hnan : o.isNaN = false) : termBytes live t bytes = reread t bytes := by
  rw [termBytes, ho]
  dsimp only
  rw [addTerm_eq hzero hnan]
  unfold bytesToObj at ho
  split at ho
  · rw [← Option.some.inj ho]
  · cases ho

/-- The bytes before the value. -/
def leftCut (s : Int) : Cut := ⟨0, s, 0, true⟩

/-- The part of the value that lies in the cell. -/
def valueCut (s termSize : Int) : Cut := ⟨-s, termSize - s, s, false⟩

/-- The bytes after the value. -/
def rightCut (s valueSize termSize : Int) : Cut := ⟨s + valueSize, termSize, s + valueSize, true⟩

/-- The three slices of a write. -/
def writeSlices (term : PrimitiveObj) (s : Int) (value : PrimitiveObj) : List SliceTerm :=
  [createSlice term [leftCut s],
    createSlice value [valueCut s term.typ.internalSizeOf],
    createSlice term [rightCut s value.typ.internalSizeOf term.typ.internalSizeOf]]

/-- One cut of small bounds. -/
theorem cutsFit_singleton (hstart : Within (2 ^ 30) c.startByte)
    (hend : Within (2 ^ 30) c.endByte) (hposition : Within (2 ^ 30) c.position) :
    o.CutsFit [c] := by
  have hle := o.typ.internalSizeOf_le
  unfold Within at hstart hend hposition
  refine ⟨trivial, fun _ => ⟨?_, ?_, ?_, fun _ => ?_⟩⟩
  · simp only [Within, Bounds.ofCuts, foldr_nil]
    omega
  · simp only [Within, Bounds.ofCuts, foldr_nil]
    omega
  · simp only [Within, Bounds.ofCuts, foldr_nil, Bounds.narrow]
    omega
  · simp only [Within, Bounds.ofCuts, foldr_nil, Bounds.moved]
    split <;> omega

theorem bounds_singleton :
    o.bounds [c] = ⟨max c.startByte 0, min c.endByte o.typ.internalSizeOf, max c.position 0⟩ := by
  simp only [PrimitiveObj.bounds, Bounds.ofCuts, foldr_cons, foldr_nil, Bounds.narrow,
    Bounds.mk.injEq]
  refine ⟨by omega, by omega, ?_⟩
  split <;> omega

/-- The byte at `i` of a slice made by one cut. -/
theorem byteAt?_singleton (hfit : o.CutsFit [c]) :
    (createSlice o [c]).byteAt? i =
      if max c.position 0 ≤ i ∧
          i < max c.position 0 + (min c.endByte o.typ.internalSizeOf - max c.startByte 0) then
        o.bytes[(max c.startByte 0 + (i - max c.position 0)).toNat]?
      else none := by
  rw [byteAt?_createSlice hfit, bounds_singleton]

/-! The operations on the cuts of a write do not overflow. -/

section
variable (h : Overlaps term.typ s value)

include h

theorem leftCut_fits : term.CutsFit [leftCut s] := by
  have ht := term.typ.internalSizeOf_le
  have hv := value.typ.internalSizeOf_le
  simp only [Overlaps] at h
  apply cutsFit_singleton <;> simp only [Within, leftCut] <;> omega

theorem valueCut_fits :
    value.CutsFit [valueCut s term.typ.internalSizeOf] := by
  have ht := term.typ.internalSizeOf_le
  have hv := value.typ.internalSizeOf_le
  simp only [Overlaps] at h
  apply cutsFit_singleton <;> simp only [Within, valueCut] <;> omega

theorem rightCut_fits :
    term.CutsFit [rightCut s value.typ.internalSizeOf term.typ.internalSizeOf] := by
  have ht := term.typ.internalSizeOf_le
  have hv := value.typ.internalSizeOf_le
  simp only [Overlaps] at h
  apply cutsFit_singleton <;> simp only [Within, rightCut] <;> omega

end

/-! The three slices share the cell among them. -/

section
variable {i : Nat}

section
variable (h : Overlaps term.typ s value)

include h

theorem left_byteAt? :
    (createSlice term [leftCut s]).byteAt? i = if i < s then term.bytes[i]? else none := by
  have hov := h.2
  rw [byteAt?_singleton (leftCut_fits h)]
  simp only [leftCut] at *
  refine ite_congr (propext (by omega)) (fun _ => ?_) fun _ => rfl
  congr 1
  omega

theorem value_byteAt? :
    (createSlice value [valueCut s term.typ.internalSizeOf]).byteAt? i =
      if (s ≤ i ∧ i < s + value.typ.internalSizeOf) ∧ i < term.typ.internalSizeOf then
        value.bytes[(i - s).toNat]?
      else none := by
  rw [byteAt?_singleton (valueCut_fits h)]
  simp only [Overlaps] at h
  simp only [valueCut]
  refine ite_congr (propext (by omega)) (fun _ => ?_) fun _ => rfl
  congr 1
  omega

theorem right_byteAt? :
    (createSlice term [rightCut s value.typ.internalSizeOf term.typ.internalSizeOf]).byteAt? i =
      if s + value.typ.internalSizeOf ≤ i ∧ i < term.typ.internalSizeOf then term.bytes[i]?
      else none := by
  rw [byteAt?_singleton (rightCut_fits h)]
  simp only [Overlaps] at h
  simp only [rightCut]
  refine ite_congr (propext (by omega)) (fun _ => ?_) fun _ => rfl
  congr 1
  omega

end

end

section
variable (h : Overlaps term.typ s value)

include h

theorem writeTermUnsafe_eq_combine :
    writeTermUnsafe live term s value =
      if s = 0 ∧ term.typ = value.typ then some value
      else if s = 0 ∧ value.typ.internalSizeOf = term.typ.internalSizeOf then
        (combine [.concrete value] term.typ).map (addTerm live)
      else (combine (writeSlices term s value) term.typ).map (addTerm live) := by
  have ht := term.typ.internalSizeOf_le
  have hv := value.typ.internalSizeOf_le
  simp only [Overlaps] at h
  have hneg : int32 (-s) = -s := int32_eq (by omega)
  have hpos : int32 s = s := int32_eq (by omega)
  have hstop : int32 (term.typ.internalSizeOf - s) = term.typ.internalSizeOf - s :=
    int32_eq (by omega)
  have hright : int32 (s + value.typ.internalSizeOf) = s + value.typ.internalSizeOf :=
    int32_eq (by omega)
  simp only [writeTermUnsafe, readTermPartUnsafe, readTermUnsafe, commonReadTermUnsafe, hneg, hstop,
    hright, Int.neg_neg, hpos, reduceCtorEq, and_false, if_false, Int.natCast_inj]
  rfl

theorem fits_writeSlices {x : SliceTerm}
    (hx : x ∈ writeSlices term s value) : x.Fits term.typ.internalSizeOf := by
  have hov := h
  simp only [Overlaps] at hov
  simp only [writeSlices, mem_cons, not_mem_nil, or_false] at hx
  rcases hx with rfl | rfl | rfl
  · refine fits_createSlice (leftCut_fits h) fun _ => ?_
    simp only [bounds_singleton, leftCut]
    omega
  · refine fits_createSlice (valueCut_fits h) fun _ => ?_
    simp only [bounds_singleton, valueCut]
    omega
  · refine fits_createSlice (rightCut_fits h) fun _ => ?_
    simp only [bounds_singleton, rightCut]
    omega

theorem allAgree_writeSlices :
    AllAgree (writeSlices term s value) := by
  apply allAgree_of_disjoint
  simp only [writeSlices, pairwise_cons, mem_cons, not_mem_nil, or_false,
    forall_eq_or_imp, forall_eq, List.Pairwise.nil, and_true]
  refine ⟨⟨fun i => ?_, fun i => ?_⟩, fun i => ?_, fun _ h => h.elim⟩
  · rw [left_byteAt? h, value_byteAt? h]
    by_cases hi : i < s
    · exact Or.inr (if_neg (by omega))
    · exact Or.inl (if_neg hi)
  · rw [left_byteAt? h, right_byteAt? h]
    by_cases hi : i < s
    · exact Or.inr (if_neg (by omega))
    · exact Or.inl (if_neg hi)
  · rw [value_byteAt? h, right_byteAt? h]
    by_cases hi : s + value.typ.internalSizeOf ≤ i
    · exact Or.inl (if_neg (by omega))
    · exact Or.inr (if_neg (by omega))

/-- The slices of a write, copied into the cell. -/
theorem layAll_writeSlices :
    layAll (writeSlices term s value) (List.replicate term.typ.internalSizeOf 0) =
      writeBytes term.bytes s value.bytes := by
  have ht := term.length_bytes
  have hv := value.length_bytes
  apply ext_getElem?
  intro i
  rcases Nat.lt_or_ge i term.typ.internalSizeOf with hi | hi
  · rw [getElem?_layAll (fun x => fits_writeSlices h) (allAgree_writeSlices h) (by simpa),
      writeSlices]
    have hterm : i < term.bytes.length := by omega
    simp only [findSome?_cons, left_byteAt? h, value_byteAt? h, right_byteAt? h]
    by_cases hbefore : i < s
    · rw [if_pos hbefore, getElem?_writeBytes_of_notMem (by omega), getElem?_eq_getElem hterm]
      rfl
    · rw [if_neg hbefore]
      by_cases hafter : s + value.typ.internalSizeOf ≤ i
      · rw [if_neg (by omega), if_pos ⟨hafter, hi⟩, getElem?_writeBytes_of_notMem (by omega),
          getElem?_eq_getElem hterm]
        rfl
      · have hvalue : (i - s).toNat < value.bytes.length := by omega
        rw [if_pos (by omega), getElem?_writeBytes_of_mem (by omega) (by omega),
          getElem?_eq_getElem hvalue]
        rfl
  · rw [getElem?_eq_none (by rw [length_layAll, length_replicate]; exact hi),
      getElem?_eq_none (by rw [length_writeBytes, ht]; exact hi)]

end

theorem writeBytes_whole {value : List Byte} (h : value.length = bytes.length) :
    writeBytes bytes 0 value = value := by
  apply ext_getElem?
  intro i
  rcases Nat.lt_or_ge i bytes.length with hi | hi
  · rw [getElem?_writeBytes_of_mem hi (by omega)]
    congr 1
  · rw [getElem?_eq_none (by rwa [length_writeBytes]), getElem?_eq_none (by omega)]

/-- One value as large as the type. -/
theorem combine_concrete {t : PrimitiveType} (h : o.typ.internalSizeOf = t.internalSizeOf) :
    combine [.concrete o] t = bytesToObj o.bytes t := by
  have hlen := o.length_bytes
  rw [combine_eq (by simpa using .whole (by omega)) (allAgree_of_disjoint (pairwise_singleton _ _))]
  congr 1
  apply ext_getElem?
  intro i
  simp only [layAll, foldl_cons, foldl_nil, lay]
  rcases Nat.lt_or_ge i t.internalSizeOf with hi | hi
  · rw [getElem?_blit_of_mem (by simpa using hi) (by omega) (by omega)]
    congr 1
    omega
  · rw [getElem?_eq_none (by simpa using hi), getElem?_eq_none (by omega)]

/-- A write to a cell writes its bytes. -/
theorem writeTermUnsafe_spec (h : Overlaps term.typ s value) :
    ∃ o, writeTermUnsafe live term s value = some o ∧ o.typ = term.typ ∧
      o.bytes = keptBytes term.typ ⟨s, value, live⟩ (writeBytes term.bytes s value.bytes) := by
  have hlen : value.typ.internalSizeOf = term.typ.internalSizeOf →
      value.bytes.length = term.bytes.length := fun hsize => by
    rw [value.length_bytes, term.length_bytes, hsize]
  rw [writeTermUnsafe_eq_combine h]
  split
  case isTrue hsame =>
    obtain ⟨rfl, htyp⟩ := hsame
    refine ⟨value, rfl, htyp.symm, ?_⟩
    rw [keptBytes, if_neg fun hmade => hmade.2 ⟨rfl, htyp⟩, writeBytes_whole (hlen (by rw [htyp]))]
  case isFalse hother =>
    have hkept : keptBytes term.typ ⟨s, value, live⟩ (writeBytes term.bytes s value.bytes) =
        termBytes live term.typ (writeBytes term.bytes s value.bytes) := if_pos ⟨h, hother⟩
    rw [hkept]
    split
    case isTrue hsize =>
      obtain ⟨rfl, hsize⟩ := hsize
      rw [combine_concrete hsize, writeBytes_whole (hlen hsize)]
      exact map_bytesToObj (by rw [value.length_bytes, hsize])
    case isFalse =>
      rw [combine_eq (fun x => fits_writeSlices h) (allAgree_writeSlices h), layAll_writeSlices h]
      exact map_bytesToObj (by rw [length_writeBytes, term.length_bytes])

/-- A run of writes does the same to the array of the cell's bytes. -/
theorem writeAll_spec {writes : List Write}
    (h : ∀ w ∈ writes, Overlaps term.typ w.startByte w.value) :
    ∃ o, writeAll term writes = some o ∧ o.typ = term.typ ∧
      o.bytes = writeAllKept term.typ term.bytes writes := by
  induction writes generalizing term with
  | nil => exact ⟨term, rfl, rfl, rfl⟩
  | cons w writes ih =>
    obtain ⟨o, ho, htyp, hbytes⟩ := writeTermUnsafe_spec (h w mem_cons_self)
    have hrest : ∀ x ∈ writes, Overlaps o.typ x.startByte x.value := by
      rw [htyp]
      exact fun x hx => h x (mem_cons_of_mem _ hx)
    obtain ⟨o', ho', htyp', hbytes'⟩ := ih hrest
    refine ⟨o', ?_, htyp'.trans htyp, ?_⟩
    · rw [writeAll, foldlM_cons, ho]
      exact ho'
    · rw [hbytes', writeAllKept, writeAllKept, foldl_cons, htyp, hbytes]

/-! ### One read -/

/-- The cut of a read at `a`. -/
def readCut (a : Nat) (t : PrimitiveType) : Cut := ⟨a, a + t.internalSizeOf, -a, false⟩

variable {t : PrimitiveType} {a n : Nat}

theorem readCut_fits (ha : a + t.internalSizeOf ≤ term.typ.internalSizeOf) :
    term.CutsFit [readCut a t] := by
  have ht := term.typ.internalSizeOf_le
  apply cutsFit_singleton <;> simp only [Within, readCut] <;> omega

theorem readAs_eq_combine (ha : a + t.internalSizeOf ≤ term.typ.internalSizeOf) :
    readAs live term a t =
      if (a : Int) = 0 ∧ (a + t.internalSizeOf : Int) = term.typ.internalSizeOf ∧ t = term.typ then
        (combine [.concrete term] t).map (addTerm live)
      else (combine [createSlice term [readCut a t]] t).map (addTerm live) := by
  have ht := term.typ.internalSizeOf_le
  have hend : int32 (a + t.internalSizeOf) = a + t.internalSizeOf := int32_eq (by omega)
  have hneg : int32 (-(a : Int)) = -a := int32_eq (by omega)
  simp only [readAs, readTermUnsafe, commonReadTermUnsafe, hend, hneg, Option.some.injEq]
  rw [apply_ite (fun slices => (combine slices t).map (addTerm live))]
  rfl

theorem length_window (h : a + n ≤ bytes.length) : (window bytes a n).length = n := by
  simp only [window, length_take, length_drop]
  omega

theorem getElem?_window (hi : i < n) : (window bytes a n)[i]? = bytes[a + i]? := by
  simp [window, hi]

section
variable (ha : a + t.internalSizeOf ≤ term.typ.internalSizeOf)

include ha

theorem fits_readCut :
    (createSlice term [readCut a t]).Fits t.internalSizeOf := by
  refine fits_createSlice (readCut_fits ha) fun _ => ?_
  simp only [bounds_singleton, readCut]
  omega

theorem read_byteAt? :
    (createSlice term [readCut a t]).byteAt? i =
      if i < t.internalSizeOf then term.bytes[a + i]? else none := by
  rw [byteAt?_singleton (readCut_fits ha)]
  simp only [readCut]
  refine ite_congr (propext (by omega)) (fun _ => ?_) fun _ => rfl
  congr 1
  omega

theorem lay_readCut :
    (createSlice term [readCut a t]).lay (List.replicate t.internalSizeOf 0) =
      window term.bytes a t.internalSizeOf := by
  have ht := term.length_bytes
  apply ext_getElem?
  intro i
  rcases Nat.lt_or_ge i t.internalSizeOf with hi | hi
  · have hterm : a + i < term.bytes.length := by omega
    rw [getElem?_lay (fits_readCut ha) (by simpa), read_byteAt? ha, if_pos hi, getElem?_window hi,
      getElem?_eq_getElem hterm]
    rfl
  · rw [getElem?_eq_none (by simpa using hi),
      getElem?_eq_none (by rw [length_window (by omega)]; exact hi)]

/-- A read of a cell reads its bytes. -/
theorem readAs_spec :
    ∃ o, readAs live term a t = some o ∧ o.typ = t ∧
      o.bytes = termBytes live t (window term.bytes a t.internalSizeOf) := by
  have ht := term.length_bytes
  have hlen : (window term.bytes a t.internalSizeOf).length = t.internalSizeOf :=
    length_window (by omega)
  rw [readAs_eq_combine ha]
  split
  case isTrue hwhole =>
    obtain ⟨hzero, -, rfl⟩ := hwhole
    obtain rfl : a = 0 := by omega
    rw [combine_concrete rfl]
    have : window term.bytes 0 term.typ.internalSizeOf = term.bytes := by
      rw [window, drop_zero, ← ht, take_length]
    rw [this]
    exact map_bytesToObj ht
  case isFalse =>
    rw [combine_eq (by simpa using fits_readCut ha) (allAgree_of_disjoint (pairwise_singleton _ _)), layAll,
      foldl_cons, foldl_nil, lay_readCut ha]
    exact map_bytesToObj hlen

end

/-! ### Runs -/

/-- After any writes that overlap the cell, a read in range gives the value whose bytes are those of
the array on which the same writes were performed; a `bool`, written or read, keeps only whether its
byte is zero, and a zero or a NaN of a floating-point type is the one that a term is alive for. -/
theorem readTermUnsafe_run (term : PrimitiveObj) (writes : List Write) (live : List PrimitiveObj)
    (sightType : PrimitiveType) (startByte : Nat)
    (hwrites : ∀ w ∈ writes, Overlaps term.typ w.startByte w.value)
    (hread : startByte + sightType.internalSizeOf ≤ term.typ.internalSizeOf) :
    ∃ cell o, writeAll term writes = some cell ∧
      readAs live cell startByte sightType = some o ∧ o.typ = sightType ∧
      o.bytes = termBytes live sightType (window (writeAllKept term.typ term.bytes writes) startByte
        sightType.internalSizeOf) := by
  obtain ⟨cell, hcell, htyp, hbytes⟩ := writeAll_spec hwrites
  obtain ⟨o, ho, hsight, hread⟩ := readAs_spec (htyp ▸ hread)
  exact ⟨cell, o, hcell, ho, hsight, hbytes ▸ hread⟩

/-- A byte. -/
def byteObj (b : Byte) : PrimitiveObj := ⟨.integral .byte, [b], rfl, rfl⟩

/-- An `int`. -/
def intObj (b₀ b₁ b₂ b₃ : Byte) : PrimitiveObj := ⟨.integral .int32, [b₀, b₁, b₂, b₃], rfl, rfl⟩

/-- Two writes to an `int`, and one to a `float` that has a NaN written over one that is alive. -/
theorem readTermUnsafe_run_int :
    (∃ cell o, writeAll (intObj 1 2 3 4)
        [⟨-3, intObj 5 6 7 8, []⟩, ⟨2, intObj 9 10 11 12, []⟩] = some cell ∧
      readAs [] cell 1 (.integral .int16) = some o ∧ o.typ = .integral .int16 ∧
      o.bytes = [2, 9]) ∧
    ∃ cell o, writeAll ⟨.single, [1, 0, 0, 0], rfl, rfl⟩
        [⟨2, intObj 0x80 0x7F 0 0, [⟨.single, [2, 0, 0x80, 0xFF], rfl, rfl⟩]⟩,
          ⟨1, byteObj 7, []⟩] = some cell ∧
      readAs [] cell 0 (.integral .int16) = some o ∧ o.typ = .integral .int16 ∧
      o.bytes = [2, 7] := by
  constructor
  · obtain ⟨cell, o, hcell, ho, htyp, hbytes⟩ := readTermUnsafe_run (intObj 1 2 3 4)
      [⟨-3, intObj 5 6 7 8, []⟩, ⟨2, intObj 9 10 11 12, []⟩] [] (.integral .int16) 1 (by decide)
      (by decide)
    exact ⟨cell, o, hcell, ho, htyp, hbytes.trans (by decide)⟩
  · obtain ⟨cell, o, hcell, ho, htyp, hbytes⟩ := readTermUnsafe_run
      ⟨.single, [1, 0, 0, 0], rfl, rfl⟩
      [⟨2, intObj 0x80 0x7F 0 0, [⟨.single, [2, 0, 0x80, 0xFF], rfl, rfl⟩]⟩, ⟨1, byteObj 7, []⟩] []
      (.integral .int16) 0 (by decide) (by decide)
    exact ⟨cell, o, hcell, ho, htyp, hbytes.trans (by decide)⟩

/-- The byte `2` written to a `bool` is read back as `1`, and the sign written to a `double` that is
zero is lost. -/
theorem cell_loses_byte :
    ((writeAll (makeDefaultValue .bool) [⟨0, byteObj 2, []⟩]).bind
        (fun cell => readAs [] cell 0 (.integral .byte)) = some (byteObj 1) ∧
      window (writeAllBytes (makeDefaultValue .bool).bytes [⟨0, byteObj 2, []⟩]) 0 1 = [2]) ∧
    (writeAll (makeDefaultValue .double) [⟨7, byteObj 0x80, [makeDefaultValue .double]⟩]).bind
        (fun cell => readAs [] cell 7 (.integral .byte)) = some (byteObj 0) ∧
      window (writeAllBytes (makeDefaultValue .double).bytes [⟨7, byteObj 0x80, []⟩]) 7 1 =
        [0x80] := by
  decide

end VSharp
