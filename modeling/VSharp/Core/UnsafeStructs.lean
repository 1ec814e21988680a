import VSharp.Core.Terms
import VSharp.Core.UnsafeMemory
import VSharp.Library.Results
import VSharp.Library.Tilings
import Mathlib.Data.List.Pairwise

/-!
# Core — UnsafeStructs

Reads and writes at byte offsets of a struct whose fields hold concrete primitive values:
`GetAffectedFields`, `CommonReadFieldsUnsafe`, `WriteFieldsUnsafe` and `WriteStructUnsafe` of
`VSharp.SILI.Core/Memory.fs`.

- `allFields` fills the bytes between the fields with one-byte fields of the empty name
  (`allFields_tiles`), which read as zero;
- `structBytes` is the array of bytes over the layout, zero in the padding;
- `writeStructUnsafe_spec`: after a write each field has its bytes of the array;
- `readStructAs_spec`: a read gives the bytes of its window.
-/

namespace VSharp
open Library PersistentDict List

/-! ### Layouts -/

/-- A field of a struct, with its offset. -/
structure StructField where
  id : FieldId
  offset : ℕ
  typ : PrimitiveType

namespace StructField

/-- The bytes of the field begin after those of `g` or end before them. -/
def Apart (f g : StructField) : Prop :=
  f.offset + f.typ.internalSizeOf ≤ g.offset ∨ g.offset + g.typ.internalSizeOf ≤ f.offset

/-- The byte `b` of the struct is one of the field. -/
def Covers (f : StructField) (b : ℕ) : Prop :=
  f.offset ≤ b ∧ b < f.offset + f.typ.internalSizeOf

instance {f : StructField} {b : ℕ} : Decidable (f.Covers b) :=
  inferInstanceAs (Decidable (_ ∧ _))

end StructField

/-- A struct type: its fields, as `Reflection.fieldsOf` lists them, and its size.  No field has the
empty name. -/
structure StructLayout where
  blockType : Ty
  fields : List StructField
  blockSize : ℕ
  nodup : (fields.map (·.id)).Nodup
  named : ∀ f ∈ fields, f.id.name ≠ ""
  inside : ∀ f ∈ fields, f.offset + f.typ.internalSizeOf ≤ blockSize
  apart : fields.Pairwise StructField.Apart
  blockSize_lt : blockSize < 2 ^ 31

/-- The fields of a struct term. -/
abbrev FieldValues := Pdict FieldId PrimitiveObj

namespace UnsafeStructs

/-! ### The code -/

/-- A field with its offset and size, of `fieldIntervals` or between two of these. -/
structure FieldInterval where
  fieldId : FieldId
  offset : ℤ
  size : ℤ
deriving DecidableEq

/-- What `getField` gives for a field: its value, and the window relative to its first byte. -/
structure AffectedField where
  fieldId : FieldId
  fieldOffset : ℤ
  fieldValue : PrimitiveObj
  startByte : ℤ
  endByte : ℤ

section
variable (L : StructLayout)

def getOffsetAndSize (f : StructField) : FieldInterval := ⟨f.id, f.offset, f.typ.internalSizeOf⟩

/-- `fieldIntervals`, sorted by their offsets. -/
def fieldIntervals : List FieldInterval :=
  (L.fields.map getOffsetAndSize).mergeSort fun f g => f.offset ≤ g.offset

def betweenField : FieldId := ⟨L.blockType, "", .byte⟩

/-- One-byte fields from `start` on. -/
def zeros (start count : ℤ) : List FieldInterval :=
  (List.range count.toNat).map fun i : ℕ => ⟨betweenField L, start + i, 1⟩

def addZerosBetween (field : FieldInterval) (acc : List FieldInterval × ℤ) :
    List FieldInterval × ℤ :=
  let (allFields, nextOffset) := acc
  let curEnd := field.offset + field.size
  let between := nextOffset - curEnd
  let zerosBetween := if between > 0 then zeros L curEnd between else []
  (field :: (zerosBetween ++ allFields), field.offset)

/-- `allFields`, with the padding before the first field. -/
def allFields : List FieldInterval :=
  let (fieldsWithZeros, fstOffset) := (fieldIntervals L).foldr (addZerosBetween L) ([], L.blockSize)
  (if fstOffset > 0 then zeros L 0 fstOffset else []) ++ fieldsWithZeros

/-- `readFieldOrZero`; a field of the empty name is a `betweenField`, whose type is `byte`. -/
def readFieldOrZero (readField : FieldId → Option PrimitiveObj) (fieldId : FieldId) :
    Option PrimitiveObj :=
  if fieldId.name = "" then some (makeDefaultValue (.integral .byte)) else readField fieldId

def getField (readField : FieldId → Option PrimitiveObj) (startByte endByte : ℤ)
    (field : FieldInterval) : Option AffectedField := do
  let fieldValue ← readFieldOrZero readField field.fieldId
  some ⟨field.fieldId, field.offset, fieldValue, int32 (startByte - field.offset),
    int32 (endByte - field.offset)⟩

/-- `GetAffectedFields`, of a value type and a concrete window. -/
def getAffectedFields (readField : FieldId → Option PrimitiveObj) (startByte endByte : ℤ) :
    Option (List AffectedField) :=
  ((allFields L).filter fun field =>
    endByte > field.offset && startByte < field.offset + field.size).mapM
    (getField readField startByte endByte)

def commonReadFieldsUnsafe (readField : FieldId → Option PrimitiveObj)
    (startByte endByte pos : ℤ) (isWrite : Bool) (sightType : Option PrimitiveType) :
    Option (List SliceTerm) := do
  let affectedFields ← getAffectedFields L readField startByte endByte
  some (affectedFields.flatMap fun f =>
    commonReadTermUnsafe f.fieldValue f.startByte f.endByte (int32 (pos + f.fieldOffset)) isWrite
      sightType)

def readStructUnsafe (fields : FieldValues) (startByte endByte : ℤ)
    (sightType : Option PrimitiveType) : Option (List SliceTerm) :=
  commonReadFieldsUnsafe L (tryFind fields) startByte endByte (int32 (-startByte)) false sightType

/-- The value of type `sightType` that is read at `startByte`; `live` are the values of the terms
that are alive then. -/
def readStructAs (live : List PrimitiveObj) (fields : FieldValues) (startByte : ℤ)
    (sightType : PrimitiveType) : Option PrimitiveObj := do
  let endByte := int32 (startByte + sightType.internalSizeOf)
  let slices ← readStructUnsafe L fields startByte endByte (some sightType)
  (combine slices sightType).map (addTerm live)

/-- `WriteFieldsUnsafe`: the fields that are written, with their values; `live` are the values of the
terms that are alive when the field is written. -/
def writeFieldsUnsafe (live : FieldId → List PrimitiveObj)
    (readField : FieldId → Option PrimitiveObj) (startByte : ℤ) (value : PrimitiveObj) :
    Option (List (FieldId × PrimitiveObj)) := do
  let endByte := int32 (startByte + value.typ.internalSizeOf)
  let affectedFields ← getAffectedFields L readField startByte endByte
  affectedFields.mapM fun f => do
    some (f.fieldId, ← writeTermUnsafe (live f.fieldId) f.fieldValue f.startByte value)

def writeStructUnsafe [HashOrder FieldId] (live : FieldId → List PrimitiveObj)
    (fields : FieldValues) (startByte : ℤ) (value : PrimitiveObj) : Option FieldValues := do
  let updatedFields ← writeFieldsUnsafe L live (tryFind fields) startByte value
  some (updatedFields.foldl (fun acc e => add e.1 e.2 acc) fields)

end

/-! ### The array of bytes -/

/-- Every field of the layout has a value of its type. -/
def Holds (L : StructLayout) (fields : FieldValues) : Prop :=
  ∀ f ∈ L.fields, ∃ o, tryFind fields f.id = some o ∧ o.typ = f.typ

/-- The byte `b` of a struct: that of the field that covers it, or zero in the padding. -/
def byteAt (L : StructLayout) (fields : FieldValues) (b : ℕ) : Byte :=
  match L.fields.find? (·.Covers b) with
  | some f => (((tryFind fields f.id).bind fun o => o.bytes[b - f.offset]?)).getD 0
  | none => 0

/-- The bytes of a struct. -/
def structBytes (L : StructLayout) (fields : FieldValues) : List Byte :=
  (List.range L.blockSize).map (byteAt L fields)

/-! ### The tiling of a layout -/

section
variable {L : StructLayout} {e : FieldInterval} {count : ℤ}

/-- Intervals one after another. -/
abbrev FieldTiles : ℤ → ℤ → List FieldInterval → Prop :=
  Tiles FieldInterval.offset FieldInterval.size

theorem zeros_tiles (start : ℤ) (h : 0 ≤ count) :
    FieldTiles start (start + count) (zeros L start count) := by
  have hunits := @Tiles.units FieldInterval FieldInterval.offset FieldInterval.size
    (fun i : ℕ => ⟨betweenField L, start + i, 1⟩) (fun _ => rfl) start count.toNat (fun _ => rfl) 0
  rw [Nat.cast_zero, Int.add_zero, Int.toNat_of_nonneg h, ← range_eq_range'] at hunits
  exact hunits

theorem mem_zeros {start : ℤ} (h : e ∈ zeros L start count) :
    e.fieldId = betweenField L ∧ e.size = 1 := by
  obtain ⟨i, -, rfl⟩ := mem_map.mp h
  exact ⟨rfl, rfl⟩

theorem mem_fieldIntervals : e ∈ fieldIntervals L ↔ ∃ f ∈ L.fields, getOffsetAndSize f = e := by
  rw [fieldIntervals, mem_mergeSort, mem_map]

/-- Sorted by their offsets, the fields follow one another. -/
theorem fieldIntervals_pairwise :
    (fieldIntervals L).Pairwise fun f g => f.offset + f.size ≤ g.offset := by
  have hsorted : (fieldIntervals L).Pairwise fun f g => f.offset ≤ g.offset := by
    have := @List.pairwise_mergeSort FieldInterval (fun f g => decide (f.offset ≤ g.offset))
      (by simp only [decide_eq_true_eq]; exact fun _ _ _ => Int.le_trans)
      (by simp only [Bool.or_eq_true, decide_eq_true_eq]; exact fun f g => Int.le_total _ _)
      (L.fields.map getOffsetAndSize)
    simpa [fieldIntervals] using this
  have hapart : (fieldIntervals L).Pairwise fun f g =>
      f.offset + f.size ≤ g.offset ∨ g.offset + g.size ≤ f.offset := by
    refine (mergeSort_perm _ _).symm.pairwise ?_ fun {f g} h => h.symm
    refine pairwise_map.mpr (L.apart.imp fun {f g} h => ?_)
    simp only [StructField.Apart] at h
    simp only [getOffsetAndSize]
    omega
  refine (hsorted.and hapart).imp_of_mem fun {f g} hf hg h => ?_
  obtain ⟨f, -, rfl⟩ := mem_fieldIntervals.mp hf
  obtain ⟨g, -, rfl⟩ := mem_fieldIntervals.mp hg
  have hpos := f.typ.internalSizeOf_pos
  have hpos' := g.typ.internalSizeOf_pos
  simp only [getOffsetAndSize] at h ⊢
  omega

/-- What the fold over the sorted fields keeps. -/
structure Filled (L : StructLayout) (l : List FieldInterval) (acc : List FieldInterval × ℤ) :
    Prop where
  tiles : FieldTiles acc.2 L.blockSize acc.1
  le : ∀ n : ℤ, (∀ f ∈ l, n ≤ f.offset) → n ≤ L.blockSize → n ≤ acc.2
  mem : ∀ f ∈ l, f ∈ acc.1
  of_mem : ∀ e ∈ acc.1, e ∈ l ∨ e.fieldId = betweenField L ∧ e.size = 1

theorem filled_foldr (l : List FieldInterval)
    (hl : l.Pairwise fun f g => f.offset + f.size ≤ g.offset)
    (hsize : ∀ f ∈ l, 0 < f.size ∧ f.offset + f.size ≤ L.blockSize) :
    Filled L l (l.foldr (addZerosBetween L) ([], L.blockSize)) := by
  induction l with
  | nil => exact ⟨.nil _, fun _ _ h => h, nofun, nofun⟩
  | cons f l ih =>
    obtain ⟨hf, hl⟩ := pairwise_cons.mp hl
    obtain ⟨⟨hpos, hend⟩, hsize⟩ := forall_mem_cons.mp hsize
    have hacc := ih hl hsize
    rw [foldr_cons]
    generalize l.foldr (addZerosBetween L) ([], L.blockSize) = acc at hacc ⊢
    have hnext := hacc.le _ hf hend
    have hzeros : FieldTiles (f.offset + f.size) L.blockSize
        ((if acc.2 - (f.offset + f.size) > 0 then
          zeros L (f.offset + f.size) (acc.2 - (f.offset + f.size)) else []) ++ acc.1) := by
      split
      · next h =>
          have hbetween := zeros_tiles (L := L) (f.offset + f.size) h.le
          have hsum : f.offset + f.size + (acc.2 - (f.offset + f.size)) = acc.2 := by omega
          rw [hsum] at hbetween
          exact hbetween.append hacc.tiles
      · next h =>
          have hnone : f.offset + f.size = acc.2 := by omega
          rw [hnone, nil_append]
          exact hacc.tiles
    refine ⟨.cons rfl hpos hzeros, fun n hn _ => hn f mem_cons_self, ?_, ?_⟩
    · refine forall_mem_cons.mpr ⟨mem_cons_self, fun g hg => ?_⟩
      exact mem_cons_of_mem _ (mem_append_right _ (hacc.mem g hg))
    · refine forall_mem_cons.mpr ⟨.inl mem_cons_self, fun e he => ?_⟩
      rcases mem_append.mp he with he | he
      · split at he
        · exact .inr (mem_zeros he)
        · cases he
      · exact (hacc.of_mem e he).imp_left (mem_cons_of_mem _)

/-- The fields and the padding fill the struct. -/
theorem allFields_tiles : FieldTiles 0 L.blockSize (allFields L) ∧
    (∀ f ∈ L.fields, getOffsetAndSize f ∈ allFields L) ∧
    ∀ e ∈ allFields L, (∃ f ∈ L.fields, getOffsetAndSize f = e) ∨
      e.fieldId = betweenField L ∧ e.size = 1 := by
  have hfilled : Filled L (fieldIntervals L)
      ((fieldIntervals L).foldr (addZerosBetween L) ([], L.blockSize)) := by
    refine filled_foldr _ fieldIntervals_pairwise fun e he => ?_
    obtain ⟨f, hf, rfl⟩ := mem_fieldIntervals.mp he
    have hpos := f.typ.internalSizeOf_pos
    have hin := L.inside f hf
    simp only [getOffsetAndSize]
    omega
  rw [allFields]
  generalize (fieldIntervals L).foldr (addZerosBetween L) ([], L.blockSize) = acc at hfilled ⊢
  have hnonneg := hfilled.le 0 (fun e he => by
    obtain ⟨f, -, rfl⟩ := mem_fieldIntervals.mp he
    exact Int.natCast_nonneg _) (by omega)
  refine ⟨?_, fun f hf => ?_, fun e he => ?_⟩
  · dsimp only
    split
    · next h =>
        have hzeros := zeros_tiles (L := L) 0 h.le
        rw [Int.zero_add] at hzeros
        exact hzeros.append hfilled.tiles
    · next h =>
        have hzero : acc.2 = 0 := by omega
        rw [nil_append, ← hzero]
        exact hfilled.tiles
  · exact mem_append_right _ (hfilled.mem _ (mem_fieldIntervals.mpr ⟨f, hf, rfl⟩))
  · rcases mem_append.mp he with he | he
    · split at he
      · exact .inr (mem_zeros he)
      · cases he
    · exact (hfilled.of_mem e he).imp_left mem_fieldIntervals.mp

/-- A byte of the struct is in one of the intervals only. -/
theorem eq_of_covers {e' : FieldInterval} (he : e ∈ allFields L) (he' : e' ∈ allFields L) {n : ℤ}
    (hn : e.offset ≤ n ∧ n < e.offset + e.size) (hn' : e'.offset ≤ n ∧ n < e'.offset + e'.size) :
    e = e' :=
  allFields_tiles.1.eq_of_mem he he' hn hn'

end

/-! ### The bytes of the fields -/

section
variable {L : StructLayout} {fields : FieldValues} {f : StructField} {b : ℕ}
variable {e : FieldInterval} {s t : ℤ}

theorem eq_of_covers_field {g : StructField} (hf : f ∈ L.fields) (hg : g ∈ L.fields)
    (hfb : f.Covers b) (hgb : g.Covers b) : f = g := by
  by_contra hne
  have : Std.Symm StructField.Apart := ⟨fun _ _ h => h.symm⟩
  have hapart : f.Apart g := L.apart.forall hf hg hne
  simp only [StructField.Apart, StructField.Covers] at hapart hfb hgb
  omega

theorem length_structBytes : (structBytes L fields).length = L.blockSize := by
  rw [structBytes, length_map, length_range]

theorem getElem?_structBytes (hb : b < L.blockSize) :
    (structBytes L fields)[b]? = some (byteAt L fields b) := by
  rw [structBytes, getElem?_map, getElem?_range hb, Option.map_some]

/-- A byte of a field. -/
theorem structBytes_field (hf : f ∈ L.fields) {o : PrimitiveObj}
    (ho : tryFind fields f.id = some o) (htyp : o.typ = f.typ) (hb : f.Covers b) :
    (structBytes L fields)[b]? = o.bytes[b - f.offset]? := by
  have hin := L.inside f hf
  have hlen := o.length_bytes
  have hcovers := hb
  simp only [StructField.Covers] at hcovers
  have hfind : L.fields.find? (·.Covers b) = some f := by
    cases hg : L.fields.find? (·.Covers b) with
    | none => exact absurd hb (by simpa using find?_eq_none.mp hg f hf)
    | some g =>
      have hgb := find?_some hg
      rw [eq_of_covers_field (mem_of_find?_eq_some hg) hf (by simpa using hgb) hb]
  have hbyte : b - f.offset < o.bytes.length := by
    rw [hlen, htyp]
    omega
  rw [getElem?_structBytes (by omega), byteAt, hfind]
  simp only [ho, Option.bind_some, getElem?_eq_getElem hbyte, Option.getD_some]

/-- A byte of the padding. -/
theorem structBytes_padding (h : ∀ f ∈ L.fields, ¬f.Covers b) (hb : b < L.blockSize) :
    (structBytes L fields)[b]? = some 0 := by
  have hfind : L.fields.find? (·.Covers b) = none := by
    rw [find?_eq_none]
    simpa using h
  rw [getElem?_structBytes hb, byteAt, hfind]

/-- The value that is read for a field, or for padding, has its bytes of the struct. -/
theorem readFieldOrZero_spec (hfields : Holds L fields) (he : e ∈ allFields L) :
    ∃ v, readFieldOrZero (tryFind fields) e.fieldId = some v ∧ (v.typ.internalSizeOf : ℤ) = e.size ∧
      ∀ b : ℕ, e.offset ≤ b → b < e.offset + e.size →
        (structBytes L fields)[b]? = v.bytes[(b - e.offset).toNat]? := by
  obtain ⟨htiles, hmem, hcases⟩ := allFields_tiles (L := L)
  rcases hcases e he with ⟨f, hf, rfl⟩ | ⟨hid, hsize⟩
  · obtain ⟨o, ho, htyp⟩ := hfields f hf
    refine ⟨o, ?_, by rw [htyp]; rfl, fun b hb hb' => ?_⟩
    · exact (if_neg (L.named f hf)).trans ho
    · simp only [getOffsetAndSize] at hb hb' ⊢
      rw [structBytes_field hf ho htyp ⟨by omega, by omega⟩]
      congr 1
      omega
  · refine ⟨makeDefaultValue (.integral .byte), ?_, by rw [hsize]; rfl, fun b hb hb' => ?_⟩
    · rw [readFieldOrZero, hid, betweenField, if_pos rfl]
    · have hbounds := htiles.bounds e he
      have hpadding : ∀ f ∈ L.fields, ¬f.Covers b := fun f hf hfb => by
        have heq := eq_of_covers he (hmem f hf) ⟨hb, hb'⟩ (by
          simp only [StructField.Covers] at hfb
          simp only [getOffsetAndSize]
          omega)
        rw [heq] at hid
        exact L.named f hf (congrArg FieldId.name hid)
      rw [structBytes_padding hpadding (by omega)]
      have hzero : (b - e.offset).toNat = 0 := by omega
      rw [hzero]
      rfl

/-- The fields and the padding that share a byte with the window. -/
def overlapping (L : StructLayout) (startByte endByte : ℤ) : List FieldInterval :=
  (allFields L).filter fun e => endByte > e.offset && startByte < e.offset + e.size

theorem mem_overlapping :
    e ∈ overlapping L s t ↔ e ∈ allFields L ∧ e.offset < t ∧ s < e.offset + e.size := by
  simp [overlapping]

/-- What is returned for a field: its value, with its bytes of the struct, and the window. -/
structure Affects (L : StructLayout) (fields : FieldValues) (s t : ℤ) (e : FieldInterval)
    (a : AffectedField) : Prop where
  fieldId : a.fieldId = e.fieldId
  fieldOffset : a.fieldOffset = e.offset
  read : readFieldOrZero (tryFind fields) e.fieldId = some a.fieldValue
  size : (a.fieldValue.typ.internalSizeOf : ℤ) = e.size
  bytes : ∀ b : ℕ, e.offset ≤ b → b < e.offset + e.size →
    (structBytes L fields)[b]? = a.fieldValue.bytes[(b - e.offset).toNat]?
  startByte : a.startByte = s - e.offset
  endByte : a.endByte = t - e.offset

theorem getAffectedFields_spec (hfields : Holds L fields) (hs : 0 ≤ s) (ht : t ≤ L.blockSize)
    (hst : s < t) :
    ∃ affected, getAffectedFields L (tryFind fields) s t = some affected ∧
      List.Forall₂ (Affects L fields s t) (overlapping L s t) affected := by
  have hlt := L.blockSize_lt
  refine mapM_some fun e he => ?_
  obtain ⟨he, hend, hstart⟩ := mem_overlapping.mp he
  obtain ⟨v, hv, hsize, hbytes⟩ := readFieldOrZero_spec hfields he
  have hbounds := allFields_tiles.1.bounds e he
  have hs' : int32 (s - e.offset) = s - e.offset := int32_eq (by omega)
  have ht' : int32 (t - e.offset) = t - e.offset := int32_eq (by omega)
  exact ⟨⟨e.fieldId, e.offset, v, int32 (s - e.offset), int32 (t - e.offset)⟩,
    by rw [getField, hv]; rfl, rfl, rfl, hv, hsize, hbytes, hs', ht'⟩

end

/-! ### Reading -/

section
variable {L : StructLayout} {fields : FieldValues} {t : PrimitiveType} {a : ℕ}
variable {l : List FieldInterval} {slices : List SliceTerm} {live : List PrimitiveObj}

/-- The slice of a field: the bytes that it shares with the window. -/
theorem field_slice {v : PrimitiveObj} {o : ℕ} (hstart : a < o + v.typ.internalSizeOf)
    (hend : o < a + t.internalSizeOf) :
    ∃ x, commonReadTermUnsafe v (a - o) (a + t.internalSizeOf - o) (o - a) false (some t) =
        [x] ∧ x.Fits t.internalSizeOf ∧
      ∀ i : ℕ, x.byteAt? i =
        if i < t.internalSizeOf ∧ o ≤ a + i ∧ a + i < o + v.typ.internalSizeOf then
          v.bytes[a + i - o]?
        else none := by
  have hle := t.internalSizeOf_le
  have hle' := v.typ.internalSizeOf_le
  have hlen := v.length_bytes
  rw [commonReadTermUnsafe]
  split
  · next h =>
      obtain ⟨hzero, hwhole, htyp⟩ := h
      obtain rfl := Option.some.inj htyp
      refine ⟨_, rfl, .whole (by omega), fun i => ?_⟩
      rw [SliceTerm.byteAt?]
      split
      · congr 1
        omega
      · exact getElem?_eq_none (by omega)
  · have hfit : v.CutsFit [⟨a - o, a + t.internalSizeOf - o, o - a, false⟩] := by
      apply cutsFit_singleton <;> simp only [Within] <;> omega
    refine ⟨_, rfl, fits_createSlice hfit fun _ => ?_, fun i => ?_⟩
    · simp only [bounds_singleton]
      omega
    · rw [byteAt?_singleton hfit]
      dsimp only
      refine ite_congr (propext (by omega)) (fun _ => ?_) fun _ => rfl
      congr 1
      omega

/-- A slice of a struct: the bytes of a field that are in the window. -/
structure SliceOf (L : StructLayout) (fields : FieldValues) (a n : ℕ) (e : FieldInterval)
    (x : SliceTerm) : Prop where
  fits : x.Fits n
  byteAt? : ∀ i : ℕ, x.byteAt? i =
    if i < n ∧ e.offset ≤ a + i ∧ a + i < e.offset + e.size then (structBytes L fields)[a + i]?
    else none

theorem slices_of_affects {affected : List AffectedField}
    (hall : List.Forall₂ (Affects L fields a (a + t.internalSizeOf : ℕ)) l affected)
    (hl : ∀ e ∈ l, e ∈ overlapping L a (a + t.internalSizeOf : ℕ))
    (ha : a + t.internalSizeOf ≤ L.blockSize) :
    ∃ slices, List.Forall₂ (SliceOf L fields a t.internalSizeOf) l slices ∧
      (affected.flatMap fun f => commonReadTermUnsafe f.fieldValue f.startByte f.endByte
        (int32 (int32 (-(a : ℤ)) + f.fieldOffset)) false (some t)) = slices := by
  have hlt := L.blockSize_lt
  have hneg : int32 (-(a : ℤ)) = -a := int32_eq (by omega)
  induction hall with
  | nil => exact ⟨[], .nil, rfl⟩
  | @cons e f l affected hf _ ih =>
    obtain ⟨he, hl⟩ := forall_mem_cons.mp hl
    obtain ⟨he, hend, hstart⟩ := mem_overlapping.mp he
    obtain ⟨slices, hslices, heq⟩ := ih hl
    have hbounds := allFields_tiles.1.bounds e he
    obtain ⟨off, hoff⟩ := Int.eq_ofNat_of_zero_le hbounds.1
    have hpos : int32 (-(a : ℤ) + off) = off - a := by
      rw [int32_eq (by omega)]
      omega
    have hsize := hf.size
    obtain ⟨x, hx, hfits, hbyte⟩ := field_slice (v := f.fieldValue) (o := off) (t := t)
      (a := a) (by omega) (by omega)
    refine ⟨x :: slices, .cons ⟨hfits, fun i => ?_⟩ hslices, ?_⟩
    · rw [hbyte]
      refine ite_congr (propext (by omega)) (fun hi => ?_) fun _ => rfl
      rw [hf.bytes (a + i) (by push_cast; omega) (by push_cast; omega)]
      congr 1
      omega
    · rw [flatMap_cons, heq, hf.startByte, hf.endByte, hf.fieldOffset, hneg, hoff, hpos]
      push_cast
      rw [hx]
      rfl

theorem readStructUnsafe_spec (hfields : Holds L fields)
    (ha : a + t.internalSizeOf ≤ L.blockSize) :
    ∃ slices, readStructUnsafe L fields a (a + t.internalSizeOf : ℕ) (some t) = some slices ∧
      List.Forall₂ (SliceOf L fields a t.internalSizeOf)
        (overlapping L a (a + t.internalSizeOf : ℕ)) slices := by
  have hpos := t.internalSizeOf_pos
  obtain ⟨affected, haffected, hall⟩ := getAffectedFields_spec hfields (Int.natCast_nonneg a)
    (Int.ofNat_le.mpr ha) (Int.ofNat_lt.mpr (by omega))
  obtain ⟨slices, hslices, heq⟩ := slices_of_affects hall (fun _ he => he) ha
  refine ⟨slices, ?_, hslices⟩
  rw [readStructUnsafe, commonReadFieldsUnsafe, haffected]
  exact congrArg some heq

theorem sliceOf_disjoint {n : ℕ} (h : List.Forall₂ (SliceOf L fields a n) l slices)
    (hl : l.Pairwise fun e e' => e.offset + e.size ≤ e'.offset) :
    slices.Pairwise SliceTerm.Disjoint := by
  induction h with
  | nil => exact .nil
  | @cons e x l slices hx h ih =>
    obtain ⟨he, hl⟩ := pairwise_cons.mp hl
    refine .cons (fun y hy i => ?_) (ih hl)
    obtain ⟨e', he', hy⟩ := forall₂_mem_right h hy
    have hafter := he e' he'
    rw [hx.byteAt?, hy.byteAt?]
    by_cases hi : (a + i : ℤ) < e.offset + e.size
    · exact .inr (if_neg (by omega))
    · exact .inl (if_neg (by omega))

/-- The slice that has a byte of the window. -/
theorem findSome?_byteAt? (h : List.Forall₂ (SliceOf L fields a t.internalSizeOf)
      (overlapping L a (a + t.internalSizeOf : ℕ)) slices)
    (ha : a + t.internalSizeOf ≤ L.blockSize) {i : ℕ} (hi : i < t.internalSizeOf) :
    slices.findSome? (SliceTerm.byteAt? i) = (structBytes L fields)[a + i]? := by
  have hbyte : (structBytes L fields)[a + i]? = some (byteAt L fields (a + i)) :=
    getElem?_structBytes (by omega)
  obtain ⟨e, he, hei⟩ := allFields_tiles.1.exists_mem
    (show (0 : ℤ) ≤ (a + i : ℕ) ∧ ((a + i : ℕ) : ℤ) < L.blockSize by omega)
  push_cast at hei
  have hoverlaps : e ∈ overlapping L a (a + t.internalSizeOf : ℕ) :=
    mem_overlapping.mpr ⟨he, by push_cast; omega, by omega⟩
  obtain ⟨x, hx, hex⟩ := forall₂_mem_left h hoverlaps
  have hxi : x.byteAt? i = (structBytes L fields)[a + i]? := by
    rw [hex.byteAt?, if_pos ⟨hi, hei⟩]
  cases hfind : slices.findSome? (SliceTerm.byteAt? i) with
  | none =>
    rw [findSome?_eq_none_iff.mp hfind x hx, hbyte] at hxi
    cases hxi
  | some b =>
    obtain ⟨y, hy, hyi⟩ := exists_of_findSome?_eq_some hfind
    obtain ⟨e', -, hey⟩ := forall₂_mem_right h hy
    rw [← hyi, hey.byteAt?]
    rw [hey.byteAt?] at hyi
    split at hyi
    · next hin => rw [if_pos hin]
    · cases hyi

/-- A read gives the bytes of its window. -/
theorem readStructAs_spec (hfields : Holds L fields) (ha : a + t.internalSizeOf ≤ L.blockSize) :
    ∃ o, readStructAs L live fields a t = some o ∧ o.typ = t ∧
      o.bytes = termBytes live t (window (structBytes L fields) a t.internalSizeOf) := by
  have hlt := L.blockSize_lt
  obtain ⟨slices, hread, hslices⟩ := readStructUnsafe_spec hfields ha
  have hpairwise : (overlapping L a (a + t.internalSizeOf : ℕ)).Pairwise fun e e' =>
      e.offset + e.size ≤ e'.offset := allFields_tiles.1.pairwise.filter _
  have hfits : ∀ x ∈ slices, x.Fits t.internalSizeOf := fun x hx => by
    obtain ⟨e, -, hx⟩ := forall₂_mem_right hslices hx
    exact hx.fits
  have hagree := SliceTerm.allAgree_of_disjoint (sliceOf_disjoint hslices hpairwise)
  have hend : int32 ((a : ℤ) + t.internalSizeOf) = (a + t.internalSizeOf : ℕ) := by
    rw [int32_eq (by omega)]
    push_cast
    rfl
  have hlay : layAll slices (List.replicate t.internalSizeOf 0) =
      window (structBytes L fields) a t.internalSizeOf := by
    apply ext_getElem?
    intro i
    rcases Nat.lt_or_ge i t.internalSizeOf with hi | hi
    · rw [getElem?_layAll hfits hagree (by simpa), findSome?_byteAt? hslices ha hi,
        getElem?_window hi, getElem?_structBytes (by omega)]
      rfl
    · rw [getElem?_eq_none (by rw [length_layAll, length_replicate]; exact hi),
        getElem?_eq_none (by
          rw [length_window (by rw [length_structBytes]; exact ha)]
          exact hi)]
  rw [readStructAs, hend, hread]
  show ∃ o, (combine slices t).map (addTerm live) = some o ∧ _
  rw [combine_eq hfits hagree, hlay]
  exact map_bytesToObj (length_window (by rw [length_structBytes]; exact ha))

end

/-! ### Writing -/

/-- The array after the value is written at `startByte`. -/
def writtenBytes (L : StructLayout) (fields : FieldValues) (startByte : ℕ) (value : PrimitiveObj) :
    List Byte :=
  writeBytes (structBytes L fields) startByte value.bytes

/-- What a field keeps of its bytes of the array after the value is written. -/
def fieldBytes (L : StructLayout) (fields : FieldValues) (live : FieldId → List PrimitiveObj)
    (startByte : ℕ) (value : PrimitiveObj) (f : StructField) : List Byte :=
  keptBytes f.typ ⟨startByte - f.offset, value, live f.id⟩
    (window (writtenBytes L fields startByte value) f.offset f.typ.internalSizeOf)

/-- The value of a field after the write. -/
def FieldOf (L : StructLayout) (fields : FieldValues) (live : FieldId → List PrimitiveObj)
    (startByte : ℕ) (value : PrimitiveObj) (f : StructField) (o : PrimitiveObj) : Prop :=
  o.typ = f.typ ∧ o.bytes = fieldBytes L fields live startByte value f

/-- The array that a struct keeps after the write: every field holds a value of its type, and the
padding is zero. -/
def storedBytes (L : StructLayout) (fields : FieldValues) (live : FieldId → List PrimitiveObj)
    (startByte : ℕ) (value : PrimitiveObj) : List Byte :=
  (List.range L.blockSize).map fun b =>
    match L.fields.find? (·.Covers b) with
    | some f => ((fieldBytes L fields live startByte value f)[b - f.offset]?).getD 0
    | none => 0

theorem window_writeBytes {bytes value : List Byte} {s : ℤ} {o n : ℕ} (h : o + n ≤ bytes.length) :
    window (writeBytes bytes s value) o n = writeBytes (window bytes o n) (s - o) value := by
  apply ext_getElem?
  intro i
  have hlen := length_window h
  rcases Nat.lt_or_ge i n with hi | hi
  · rw [getElem?_window hi]
    by_cases hin : s ≤ (o + i : ℕ) ∧ ((o + i : ℕ) : ℤ) < s + value.length
    · rw [getElem?_writeBytes_of_mem (by omega) hin,
        getElem?_writeBytes_of_mem (by omega) (by omega)]
      congr 1
      omega
    · rw [getElem?_writeBytes_of_notMem hin, getElem?_writeBytes_of_notMem (by omega),
        getElem?_window hi]
  · rw [getElem?_eq_none (by rw [length_window (by simpa using h)]; exact hi),
      getElem?_eq_none (by rw [length_writeBytes, hlen]; exact hi)]

section
variable {L : StructLayout} {fields : FieldValues} {value : PrimitiveObj} {s : ℕ}
variable {live : FieldId → List PrimitiveObj}
variable {f : StructField} {o : PrimitiveObj} {e : FieldInterval}

/-- The bytes of a field are those of its value. -/
theorem window_structBytes (hf : f ∈ L.fields) (ho : tryFind fields f.id = some o)
    (htyp : o.typ = f.typ) :
    window (structBytes L fields) f.offset f.typ.internalSizeOf = o.bytes := by
  have hin := L.inside f hf
  have hlen := o.length_bytes
  apply ext_getElem?
  intro i
  rcases Nat.lt_or_ge i f.typ.internalSizeOf with hi | hi
  · rw [getElem?_window hi, structBytes_field hf ho htyp ⟨by omega, by omega⟩,
      Nat.add_sub_cancel_left]
  · have hwindow : (window (structBytes L fields) f.offset f.typ.internalSizeOf).length =
        f.typ.internalSizeOf := length_window (by rw [length_structBytes]; exact hin)
    rw [getElem?_eq_none (by rw [hwindow]; exact hi),
      getElem?_eq_none (by rw [hlen, htyp]; exact hi)]

/-- What is written for a field, or for padding. -/
structure Updates (L : StructLayout) (fields : FieldValues) (live : FieldId → List PrimitiveObj)
    (s : ℕ) (value : PrimitiveObj) (e : FieldInterval) (u : FieldId × PrimitiveObj) : Prop where
  fieldId : u.1 = e.fieldId
  fieldOf : ∀ f ∈ L.fields, getOffsetAndSize f = e → FieldOf L fields live s value f u.2

theorem writeFieldsUnsafe_spec (hfields : Holds L fields)
    (hs : s + value.typ.internalSizeOf ≤ L.blockSize) :
    ∃ updates, writeFieldsUnsafe L live (tryFind fields) s value = some updates ∧
      List.Forall₂ (Updates L fields live s value)
        (overlapping L s (s + value.typ.internalSizeOf : ℕ)) updates := by
  have hlt := L.blockSize_lt
  have hpos := value.typ.internalSizeOf_pos
  obtain ⟨affected, haffected, hall⟩ := getAffectedFields_spec hfields (Int.natCast_nonneg s)
    (Int.ofNat_le.mpr hs) (Int.ofNat_lt.mpr (show s < s + value.typ.internalSizeOf by omega))
  have hend : int32 ((s : ℤ) + value.typ.internalSizeOf) = (s + value.typ.internalSizeOf : ℕ) := by
    rw [int32_eq (by omega)]
    push_cast
    rfl
  obtain ⟨updates, hupdates, hwritten⟩ := forall₂_mapM_some
    (S := Updates L fields live s value)
    (f := fun a => do
      some (a.fieldId, ← writeTermUnsafe (live a.fieldId) a.fieldValue a.startByte value)) hall
    fun e he a ha => by
      obtain ⟨-, hstop, hstart⟩ := mem_overlapping.mp he
      have hsize := ha.size
      have hoverlaps : Overlaps a.fieldValue.typ a.startByte value := by
        simp only [Overlaps, ha.startByte]
        push_cast at hstop
        omega
      obtain ⟨o, ho, htyp, hbytes⟩ :=
        (writeTermUnsafe_spec hoverlaps : ∃ o, writeTermUnsafe (live a.fieldId) _ _ _ = some o ∧ _)
      refine ⟨(a.fieldId, o), by rw [ho]; rfl, ha.fieldId, ?_⟩
      rintro f hf rfl
      obtain ⟨v, hv, hvtyp⟩ := hfields f hf
      obtain rfl : v = a.fieldValue := by
        have hread := ha.read
        rw [readFieldOrZero, getOffsetAndSize, if_neg (L.named f hf), hv] at hread
        exact Option.some.inj hread
      refine ⟨htyp.trans hvtyp, ?_⟩
      rw [hbytes, hvtyp, ha.startByte, ha.fieldId, fieldBytes, writtenBytes,
        window_writeBytes (by rw [length_structBytes]; exact L.inside f hf),
        window_structBytes hf hv hvtyp]
      rfl
  refine ⟨updates, ?_, hwritten⟩
  rw [writeFieldsUnsafe, hend, haffected]
  exact hupdates

/-- A field that the write does not meet. -/
theorem fieldOf_of_not_overlapping (hf : f ∈ L.fields) (ho : tryFind fields f.id = some o)
    (htyp : o.typ = f.typ)
    (h : getOffsetAndSize f ∉ overlapping L s (s + value.typ.internalSizeOf : ℕ)) :
    FieldOf L fields live s value f o := by
  have hin := L.inside f hf
  have hlen := value.length_bytes
  refine ⟨htyp, ?_⟩
  rw [mem_overlapping] at h
  have hapart := not_and.mp h (allFields_tiles.2.1 f hf)
  simp only [getOffsetAndSize] at hapart
  push_cast at hapart
  have hmisses : ¬(Overlaps f.typ (s - f.offset) value ∧
      ¬((s : ℤ) - f.offset = 0 ∧ f.typ = value.typ)) := by
    rintro ⟨hoverlaps, -⟩
    simp only [Overlaps] at hoverlaps
    omega
  rw [fieldBytes, keptBytes, if_neg hmisses, writtenBytes,
    window_writeBytes (by rw [length_structBytes]; exact hin), window_structBytes hf ho htyp]
  have hsame : writeBytes o.bytes ((s : ℤ) - f.offset) value.bytes = o.bytes := by
    apply ext_getElem?
    intro i
    by_cases hi : i < o.bytes.length
    · have hbound := o.length_bytes
      rw [htyp] at hbound
      exact getElem?_writeBytes_of_notMem (by omega)
    · rw [getElem?_eq_none (by rw [length_writeBytes]; omega), getElem?_eq_none (by omega)]
  rw [hsame]

/-- The identifiers of the fields are their own. -/
theorem eq_of_fieldId {g : StructField} (hf : f ∈ L.fields) (hg : g ∈ L.fields) (h : f.id = g.id) :
    f = g :=
  inj_on_of_nodup_map L.nodup hf hg h

theorem getOffsetAndSize_of_fieldId (hf : f ∈ L.fields) (he : e ∈ allFields L)
    (h : e.fieldId = f.id) : getOffsetAndSize f = e := by
  rcases allFields_tiles.2.2 e he with ⟨g, hg, rfl⟩ | ⟨hid, -⟩
  · rw [eq_of_fieldId hf hg h.symm]
  · rw [hid] at h
    exact absurd (congrArg FieldId.name h).symm (L.named f hf)

/-- The array of bytes of the struct after the write. -/
theorem structBytes_eq_storedBytes {fields' : FieldValues}
    (h : ∀ f ∈ L.fields, ∃ o, tryFind fields' f.id = some o ∧ FieldOf L fields live s value f o) :
    structBytes L fields' = storedBytes L fields live s value := by
  refine map_congr_left fun b _ => ?_
  rw [byteAt]
  cases hfind : L.fields.find? (·.Covers b) with
  | none => rfl
  | some f =>
    obtain ⟨o, ho, -, hbytes⟩ := h f (mem_of_find?_eq_some hfind)
    simp only [ho, Option.bind_some, hbytes]

/-- No byte of the window is padding. -/
def NoPadding (L : StructLayout) (s n : ℕ) : Prop :=
  ∀ b, s ≤ b → b < s + n → ∃ f ∈ L.fields, f.Covers b

/-- The fields that a write without padding meets are fields of the struct. -/
theorem mem_keys_of_noPadding (hfields : Holds L fields)
    (h : NoPadding L s value.typ.internalSizeOf)
    (he : e ∈ overlapping L s (s + value.typ.internalSizeOf : ℕ)) : e.fieldId ∈ keys fields := by
  obtain ⟨hall, hstop, hstart⟩ := mem_overlapping.mp he
  push_cast at hstop
  have hpos := value.typ.internalSizeOf_pos
  have hbounds := allFields_tiles.1.bounds e hall
  -- a byte of the interval in the window
  obtain ⟨b, hb⟩ := Int.eq_ofNat_of_zero_le (show 0 ≤ max (s : ℤ) e.offset by omega)
  obtain ⟨f, hf, hfb⟩ := h b (by omega) (by omega)
  have hfe : e = getOffsetAndSize f := by
    refine eq_of_covers hall (allFields_tiles.2.1 f hf) (show _ ≤ (b : ℤ) ∧ _ by omega) ?_
    simp only [StructField.Covers] at hfb
    simp only [getOffsetAndSize]
    omega
  obtain ⟨o, ho, -⟩ := hfields f hf
  rw [hfe]
  by_contra hnone
  rw [getOffsetAndSize, ← tryFind_eq_none_iff, ho] at hnone
  cases hnone

variable [HashOrder FieldId]

/-- After a write every field holds its bytes of the array. -/
theorem writeStructUnsafe_fieldOf (hfields : Holds L fields)
    (hs : s + value.typ.internalSizeOf ≤ L.blockSize) :
    ∃ fields', writeStructUnsafe L live fields s value = some fields' ∧
      (∀ f ∈ L.fields, ∃ o, tryFind fields' f.id = some o ∧ FieldOf L fields live s value f o) ∧
      ∀ id, id ∈ keys fields' ↔
        (∃ e ∈ overlapping L s (s + value.typ.internalSizeOf : ℕ), e.fieldId = id) ∨
          id ∈ keys fields := by
  obtain ⟨updates, hupdates, hall⟩ := writeFieldsUnsafe_spec hfields hs
  refine ⟨_, by rw [writeStructUnsafe, hupdates]; rfl, fun f hf => ?_, fun id => ?_⟩
  · rcases tryFind_foldl_add_cases updates fields f.id with ⟨v, hv, hfind⟩ | ⟨hnone, hfind⟩
    · obtain ⟨e, he, hu⟩ := forall₂_mem_right hall hv
      have hfe := getOffsetAndSize_of_fieldId hf (mem_overlapping.mp he).1 hu.fieldId.symm
      exact ⟨v, hfind, hu.fieldOf f hf hfe⟩
    · obtain ⟨o, ho, htyp⟩ := hfields f hf
      refine ⟨o, hfind.trans ho, fieldOf_of_not_overlapping hf ho htyp fun he => ?_⟩
      obtain ⟨u, hu, hue⟩ := forall₂_mem_left hall he
      exact hnone (mem_map.mpr ⟨u, hu, hue.fieldId⟩)
  · rw [mem_keys_foldl_add]
    refine or_congr_left ⟨fun h => ?_, fun ⟨e, he, hid⟩ => ?_⟩
    · obtain ⟨u, hu, rfl⟩ := mem_map.mp h
      obtain ⟨e, he, hue⟩ := forall₂_mem_right hall hu
      exact ⟨e, he, hue.fieldId.symm⟩
    · obtain ⟨u, hu, hue⟩ := forall₂_mem_left hall he
      exact mem_map.mpr ⟨u, hu, hue.fieldId.trans hid⟩

/-- **A write and a read of a struct are those of its array of bytes.** -/
theorem writeStructUnsafe_spec (L : StructLayout) (live : FieldId → List PrimitiveObj)
    (fields : FieldValues) (s : ℕ) (value : PrimitiveObj) (hfields : Holds L fields)
    (hs : s + value.typ.internalSizeOf ≤ L.blockSize) :
    ∃ fields', writeStructUnsafe L live fields s value = some fields' ∧ Holds L fields' ∧
      (NoPadding L s value.typ.internalSizeOf → ∀ id, id ∈ keys fields' ↔ id ∈ keys fields) ∧
      (∀ f ∈ L.fields, ∃ o, tryFind fields' f.id = some o ∧ FieldOf L fields live s value f o) ∧
      ∀ (live' : List PrimitiveObj) (a : ℕ) (t : PrimitiveType),
        a + t.internalSizeOf ≤ L.blockSize →
        ∃ o, readStructAs L live' fields' a t = some o ∧ o.typ = t ∧
          o.bytes = termBytes live' t
            (window (storedBytes L fields live s value) a t.internalSizeOf) := by
  obtain ⟨fields', hwrite, hof, hkeys⟩ := writeStructUnsafe_fieldOf hfields hs
  have hfields' : Holds L fields' := fun f hf => by
    obtain ⟨o, ho, htyp, -⟩ := hof f hf
    exact ⟨o, ho, htyp⟩
  refine ⟨fields', hwrite, hfields', fun h id => ?_, hof, fun live' a t ha => ?_⟩
  · rw [hkeys]
    refine or_iff_right_of_imp ?_
    rintro ⟨e, he, rfl⟩
    exact mem_keys_of_noPadding hfields h he
  · rw [← structBytes_eq_storedBytes hof]
    exact readStructAs_spec hfields' ha

end

/-- A `byte` and a `short` at the bytes `1` and `2, 3` of six. -/
def byteAndShort : StructLayout where
  blockType := .named 0
  fields := [⟨⟨.named 0, "count", .byte⟩, 1, .integral .byte⟩,
    ⟨⟨.named 0, "length", .int16⟩, 2, .integral .int16⟩]
  blockSize := 6
  nodup := by decide
  named := by decide
  inside := by decide
  apart := by
    simp [StructField.Apart, PrimitiveType.internalSizeOf, IntegralType.numericSizeOf]
  blockSize_lt := by decide

def byteAndShortFields : FieldValues :=
  [(⟨.named 0, "count", .byte⟩, byteObj 1),
    (⟨.named 0, "length", .int16⟩, ⟨.integral .int16, [2, 3], rfl, rfl⟩)]

theorem writeStructUnsafe_int : letI : HashOrder FieldId := ⟨fun _ => 0⟩
    (∃ fields', writeStructUnsafe byteAndShort (fun _ => []) byteAndShortFields 1
        (intObj 5 6 7 8) = some fields' ∧
      ∃ o, readStructAs byteAndShort [] fields' 0 (.integral .int32) = some o ∧
        o.bytes = [0, 5, 6, 7]) ∧
    ∃ fields', writeStructUnsafe byteAndShort (fun _ => []) byteAndShortFields 2 (byteObj 9) =
        some fields' ∧
      ∀ id, id ∈ keys fields' ↔ id ∈ keys byteAndShortFields := by
  let _ : HashOrder FieldId := ⟨fun _ => 0⟩
  have hfields : Holds byteAndShort byteAndShortFields :=
    forall_mem_cons.mpr ⟨⟨_, rfl, rfl⟩, forall_mem_cons.mpr ⟨⟨_, rfl, rfl⟩, nofun⟩⟩
  constructor
  · obtain ⟨fields', hwrite, -, -, -, hread⟩ := writeStructUnsafe_spec byteAndShort (fun _ => []) _ 1
      (intObj 5 6 7 8) hfields (by decide)
    obtain ⟨o, ho, -, hbytes⟩ := hread [] 0 (.integral .int32) (by decide)
    exact ⟨fields', hwrite, o, ho, hbytes.trans (by decide)⟩
  · obtain ⟨fields', hwrite, -, hkeys, -⟩ := writeStructUnsafe_spec byteAndShort (fun _ => []) _ 2
      (byteObj 9) hfields (by decide)
    refine ⟨fields', hwrite, hkeys fun b hb hb' => ?_⟩
    obtain rfl : b = 2 := Nat.le_antisymm (Nat.le_of_lt_succ hb') hb
    decide

/-- One field, and a byte of padding after it. -/
def oneField (t : PrimitiveType) : StructLayout where
  blockType := .named 0
  fields := [⟨⟨.named 0, "value", .named 1⟩, 0, t⟩]
  blockSize := t.internalSizeOf + 1
  nodup := by simp
  named := by simp
  inside := by simp
  apart := pairwise_singleton _ _
  blockSize_lt := by
    have := t.internalSizeOf_le
    omega

def oneFieldValues (t : PrimitiveType) : FieldValues :=
  [(⟨.named 0, "value", .named 1⟩, makeDefaultValue t)]

/-- The byte `2` written to a `bool` field is kept as `1`, the sign written to a `float` field that
is zero is lost, and a write over padding adds a field of the empty name. -/
theorem writeStructUnsafe_bool : letI : HashOrder FieldId := ⟨fun _ => 0⟩
    (Holds (oneField .bool) (oneFieldValues .bool) ∧
      (writeStructUnsafe (oneField .bool) (fun _ => []) (oneFieldValues .bool) 0 (byteObj 2)).bind
          (fun f => tryFind f ⟨.named 0, "value", .named 1⟩) = some ⟨.bool, [1], rfl, rfl⟩ ∧
        window (writtenBytes (oneField .bool) (oneFieldValues .bool) 0 (byteObj 2)) 0 1 = [2]) ∧
    (Holds (oneField .single) (oneFieldValues .single) ∧
      (writeStructUnsafe (oneField .single) (fun _ => [makeDefaultValue .single])
          (oneFieldValues .single) 3 (byteObj 0x80)).bind
          (fun f => tryFind f ⟨.named 0, "value", .named 1⟩) = some (makeDefaultValue .single) ∧
        window (writtenBytes (oneField .single) (oneFieldValues .single) 3 (byteObj 0x80)) 0 4 =
          [0, 0, 0, 0x80]) ∧
    (writeStructUnsafe (oneField .bool) (fun _ => []) (oneFieldValues .bool) 1 (byteObj 2)).map
        PersistentDict.keys ≠ some (keys (oneFieldValues .bool)) := by
  let _ : HashOrder FieldId := ⟨fun _ => 0⟩
  have hholds : ∀ t, Holds (oneField t) (oneFieldValues t) := fun t =>
    forall_mem_cons.mpr ⟨⟨_, rfl, rfl⟩, nofun⟩
  exact ⟨⟨hholds _, by decide +kernel, by decide +kernel⟩,
    ⟨hholds _, by decide +kernel, by decide +kernel⟩, by decide +kernel⟩

end UnsafeStructs

end VSharp
