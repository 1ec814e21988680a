import Mathlib.Algebra.GroupWithZero.Nat
import Mathlib.Algebra.Order.BigOperators.Group.List
import VSharp.CoverageInstrumenter.CoverageTracker

/-!
# Coverage instrumenter — Wire format

What `getRawReports` reads from the bytes of `serializeCoverageReport`.
-/

namespace VSharp.CoverageInstrumenter
variable {k n : Nat} {count : BitVec 32} {bytes rest : List (BitVec 8)} {α : Type}

open Library Library.Reader CoverageDeserializer List CoverageTracker

/-! ### What is to be read -/

def MethodInfo.raw (info : MethodInfo) : RawMethodInfo where
  methodToken := info.token
  assemblyName := info.assemblyName.chars
  moduleName := info.moduleName.chars

def CoverageRecord.raw (r : CoverageRecord) : RawCoverageLocation where
  offset := r.offset
  event := r.event.toWord
  methodId := r.methodId
  threadId := r.thread

/-- The entry of a thread; that of an aborted history is empty. -/
def rawReport (threadId : BitVec 32) (coverage : Option CoverageHistory) : RawCoverageReport where
  threadId := threadId
  rawCoverageLocations := (coverage.elim [] CoverageHistory.records).map CoverageRecord.raw

/-! ### How long it is -/

def Name.size (name : Name) : Nat := 4 + 2 * (name.chars.length + 1)

def MethodInfo.size (info : MethodInfo) : Nat := 4 + info.assemblyName.size + info.moduleName.size

def historySize (coverage : Option CoverageHistory) : Nat :=
  coverage.elim 8 fun history => 12 + 20 * history.records.length

@[simp] theorem length_serializePrimitive (obj : BitVec (k * 8)) :
    (serializePrimitive k obj).length = k :=
  length_leBytes obj

@[simp] theorem length_serializeInt (n : Int) : (serializeInt n).length = 4 :=
  length_leBytes (k := 4) _

theorem Name.serialize_eq (name : Name) :
    name.serialize =
      serializePrimitive 4 (BitVec.ofNat 32 (name.chars.length + 1)) ++
        (utf16Bytes name.chars ++ utf16Bytes [0]) := by
  simp only [Name.serialize, Name.units, length_append, serializePrimitiveArray, utf16Bytes,
    flatMap_append]
  rfl

@[simp] theorem Name.length_serialize (name : Name) : name.serialize.length = name.size := by
  simp only [Name.serialize_eq, length_append, length_serializePrimitive, length_utf16Bytes,
    Name.size, length_cons, length_nil]
  omega

@[simp] theorem MethodInfo.length_serialize (info : MethodInfo) :
    info.serialize.length = info.size := by
  simp [MethodInfo.serialize, MethodInfo.size, Nat.add_assoc]

@[simp] theorem CoverageRecord.length_serialize (r : CoverageRecord) : r.serialize.length = 20 := by
  simp [CoverageRecord.serialize]

theorem length_flatMap_records (records : List CoverageRecord) :
    (records.flatMap CoverageRecord.serialize).length = 20 * records.length := by
  induction records with
  | nil => rfl
  | cons r records ih =>
    rw [flatMap_cons, length_append, ih, CoverageRecord.length_serialize, length_cons]
    omega

@[simp] theorem length_historyBuffer (threadId : BitVec 32) (coverage : Option CoverageHistory) :
    (historyBuffer threadId coverage).length = historySize coverage := by
  cases coverage with
  | none => simp [historyBuffer, abortedBuffer, historySize]
  | some history =>
    simp only [historyBuffer, CoverageHistory.serialize, length_append, length_serializePrimitive,
      length_serializeInt, length_flatMap_records, historySize, Option.elim_some]
    omega

/-! ### Words -/

theorem toInt_ofNat_of_lt (h : n < 2 ^ 31) : (BitVec.ofNat 32 n).toInt = n := by
  rw [BitVec.toInt_ofNat']
  exact Int.bmod_eq_of_le (by omega) (by omega)

theorem toInt_ofNat (h : n ≤ maxLength) : (BitVec.ofNat 32 n).toInt = n :=
  toInt_ofNat_of_lt (lt_of_le_of_lt h (by decide))

theorem toInt_mul (h : k * n ≤ maxLength) :
    (BitVec.ofNat 32 k * BitVec.ofNat 32 n).toInt = (k * n : Nat) := by
  rw [BitVec.ofNat_mul_ofNat, toInt_ofNat h]

theorem double_sub_ofNat (n : Nat) :
    2 * BitVec.ofNat 32 (n + 1) - 2 = BitVec.ofNat 32 (2 * n) := by
  have hdouble : 2 * BitVec.ofNat 32 (n + 1) = BitVec.ofNat 32 (2 * n) + 2 := by
    rw [← BitVec.ofNat_add_ofNat, BitVec.ofNat_mul, BitVec.mul_add]
    rfl
  rw [hdouble, BitVec.add_sub_cancel]

/-! ### Reading each part -/

/-- A part of the array that is taken, and the place moved behind it and behind some bytes more. -/
theorem reads_subarray (limit : Nat) {amount : Int} (hcount : count.toInt = bytes.length)
    (hamount : amount = (bytes ++ rest).length) (g : List (BitVec 8) → α) :
    Reads limit (do
      let result ← subarray count
      advance amount
      pure (g result)) (bytes ++ rest) (g bytes) := by
  intro before after _
  have hnonneg : ¬ count.toInt < 0 := by omega
  have hfits : before.length + bytes.length ≤ (before ++ (bytes ++ rest) ++ after).length := by
    simp only [length_append]
    omega
  have hpeek : peek bytes.length (before ++ (bytes ++ rest) ++ after) before.length =
      some (bytes, before.length) := by
    rw [peek, if_pos hfits]
    simp
  rw [subarray, if_neg hnonneg, hcount, Int.toNat_natCast, bind_of_eq_some hpeek, hamount]
  rfl

theorem reads_name (name : Name) : Reads maxLength readString name.serialize name.chars := by
  apply Reads.of_length_le
  intro hlimit
  rw [Name.length_serialize, Name.size] at hlimit
  have hcount : (2 * BitVec.ofNat 32 (name.chars.length + 1) - 2).toInt =
      (utf16Bytes name.chars).length := by
    rw [double_sub_ofNat, toInt_ofNat (by omega), length_utf16Bytes]
  have hamount : (2 * BitVec.ofNat 32 (name.chars.length + 1)).toInt =
      (utf16Bytes name.chars ++ utf16Bytes [0]).length := by
    rw [length_append, length_utf16Bytes, length_utf16Bytes]
    exact toInt_mul (k := 2) (by omega)
  rw [Name.serialize_eq]
  refine (reads_word (k := 4) _).bind ?_
  have hread := reads_subarray maxLength hcount hamount getString
  rwa [getString_utf16Bytes name.wellFormed] at hread

theorem reads_methodInfo (info : MethodInfo) :
    Reads maxLength deserializeMethodData info.serialize info.raw := by
  rw [MethodInfo.serialize, append_assoc]
  exact (reads_word (k := 4) _).bind ((reads_name _).bind ((reads_name _).map _))

theorem drop_leBytes (x : BitVec (k * 8)) (rest : List (BitVec 8)) :
    (leBytes x ++ rest).drop k = rest :=
  drop_left' (length_leBytes x)

theorem castLocation_serialize (r : CoverageRecord) (rest : List (BitVec 8)) :
    castLocation (r.serialize ++ rest) = r.raw := by
  have hevent : (r.serialize ++ rest).drop 4 =
      serializePrimitive 4 r.event.toWord ++ (serializePrimitive 4 r.methodId ++
        (serializePrimitive 8 r.thread ++ rest)) := by
    simp only [CoverageRecord.serialize, append_assoc]
    exact drop_leBytes (k := 4) _ _
  have hmethod : (r.serialize ++ rest).drop 8 =
      serializePrimitive 4 r.methodId ++ (serializePrimitive 8 r.thread ++ rest) := by
    rw [← drop_drop (i := 4) (j := 4), hevent]
    exact drop_leBytes (k := 4) _ _
  have hthread : (r.serialize ++ rest).drop 12 = serializePrimitive 8 r.thread ++ rest := by
    rw [← drop_drop (i := 4) (j := 8), hmethod]
    exact drop_leBytes (k := 4) _ _
  rw [castLocation, hevent, hmethod, hthread]
  simp only [CoverageRecord.serialize, append_assoc, CoverageRecord.raw]
  congr 1
  · exact ofLeBytes_leBytes (k := 4) _ _
  · exact ofLeBytes_leBytes (k := 4) _ _
  · exact ofLeBytes_leBytes (k := 4) _ _
  · exact ofLeBytes_leBytes (k := 8) _ _

theorem castLocations_cons {chunk : List (BitVec 8)} (h : chunk.length = 20) :
    castLocations (chunk ++ rest) = castLocation (chunk ++ rest) :: castLocations rest := by
  have hlength : (chunk ++ rest).length / 20 = rest.length / 20 + 1 := by
    rw [length_append, h]
    omega
  rw [castLocations, hlength, range_succ_eq_map, map_cons, map_map]
  congr 1
  apply map_congr_left
  intro i _
  have hdrop : (chunk ++ rest).drop (20 * (i + 1)) = rest.drop (20 * i) := by
    rw [Nat.mul_succ, Nat.add_comm, ← drop_drop, drop_left' h]
  simp only [Function.comp_apply, hdrop]

theorem castLocations_serialize (records : List CoverageRecord) :
    castLocations (records.flatMap CoverageRecord.serialize) = records.map CoverageRecord.raw := by
  induction records with
  | nil => rfl
  | cons r records ih =>
    rw [flatMap_cons, castLocations_cons r.length_serialize, castLocation_serialize, ih, map_cons]

theorem reads_history (history : CoverageHistory) :
    Reads maxLength deserializeCoverageInfoFast history.serialize
      (history.records.map CoverageRecord.raw) := by
  apply Reads.of_length_le
  intro hlimit
  have hlength := length_flatMap_records history.records
  rw [CoverageHistory.serialize, length_append, hlength, length_serializeInt] at hlimit
  have hcount : (20 * BitVec.ofInt 32 history.records.length).toInt =
      (history.records.flatMap CoverageRecord.serialize).length := by
    rw [hlength]
    exact toInt_mul (k := 20) (by omega)
  refine (reads_word (k := 4) _).bind ?_
  have hamount : (20 * BitVec.ofInt 32 history.records.length).toInt =
      (history.records.flatMap CoverageRecord.serialize ++ []).length := by
    rw [append_nil, hcount]
  have hread := reads_subarray maxLength hcount hamount castLocations
  rwa [append_nil, castLocations_serialize] at hread

theorem reads_historyBuffer (threadId : BitVec 32) (coverage : Option CoverageHistory) :
    Reads maxLength deserializeRawReport (historyBuffer threadId coverage)
      (rawReport threadId coverage) := by
  cases coverage with
  | none =>
    rw [historyBuffer, abortedBuffer, ← append_nil (serializeInt 1)]
    exact (reads_word (k := 4) _).bind ((reads_word (k := 4) (1 : BitVec 32)).bind reads_pure)
  | some history =>
    rw [historyBuffer, append_assoc]
    refine (reads_word (k := 4) _).bind ((reads_word (k := 4) (0 : BitVec 32)).bind ?_)
    exact (reads_history history).map _

/-! ### Reading a report -/

theorem length_le_flatMap {α β : Type} {f : α → List β} {l : List α}
    (h : ∀ a ∈ l, 0 < (f a).length) : l.length ≤ (l.flatMap f).length := by
  induction l with
  | nil => exact Nat.zero_le _
  | cons a l ih =>
    have hhead := h a mem_cons_self
    have htail := ih fun b hb => h b (mem_cons_of_mem _ hb)
    rw [flatMap_cons, length_append, length_cons]
    omega

/-- The key and the method that an entry of the list is read as. -/
def rawEntry (el : Nat × MethodInfo) : BitVec 32 × RawMethodInfo := (BitVec.ofInt 32 el.1, el.2.raw)

theorem reads_methods {methods : List (Nat × MethodInfo)}
    (hnodup : (methods.map fun el => (rawEntry el).1).Nodup) :
    Reads maxLength (deserializeDictionary readInt32 deserializeMethodData)
      (serializeMethods methods) (methods.map rawEntry) := by
  apply Reads.of_length_le
  intro hlimit
  have hcount : methods.length ≤ maxLength := by
    have := length_le_flatMap (l := methods) (f := fun el => serializeInt el.1 ++ el.2.serialize)
      fun el _ => by simp only [length_append, length_serializeInt]; omega
    rw [serializeMethods, length_append] at hlimit
    omega
  have hentries : List.Forall₂ (Reads maxLength (do
      let index ← readInt32
      let element ← deserializeMethodData
      pure (index, element)))
      (methods.map fun el => serializeInt el.1 ++ el.2.serialize) (methods.map rawEntry) := by
    rw [forall₂_map_left_iff, forall₂_map_right_iff]
    exact forall₂_same.mpr fun el _ => (reads_word (k := 4) _).bind ((reads_methodInfo _).map _)
  have hkeys : ((methods.map rawEntry).map Prod.fst).Nodup := by rwa [map_map]
  have htimes := Reads.times hentries
  rw [length_map] at htimes
  rw [serializeMethods, ← append_nil (methods.flatMap _)]
  refine (reads_word (k := 4) (BitVec.ofInt 32 methods.length)).bind ?_
  rw [BitVec.ofInt_natCast, toInt_ofNat hcount, Int.toNat_natCast]
  refine htimes.bind ?_
  rw [if_pos hkeys]
  exact reads_pure

/-- The number of buffers that a report announces. -/
def coverageCount (n : Nat) : Int := (BitVec.ofNat 32 n).toInt

theorem coverageCount_le (n : Nat) : coverageCount n ≤ n := by
  rw [coverageCount, BitVec.toInt_eq_toNat_cond, BitVec.toNat_ofNat]
  split <;> omega

theorem reads_buffers {c : CoverageTracker} {entries : List (BitVec 32 × Option CoverageHistory)}
    (h : c.serializedCoverage = entries.map fun el => historyBuffer el.1 el.2)
    (hcount : 0 ≤ coverageCount entries.length) :
    Reads maxLength (deserializeArray deserializeRawReport) c.serializeBuffers
      ((entries.take (coverageCount entries.length).toNat).map fun el => rawReport el.1 el.2) := by
  have hle := coverageCount_le entries.length
  rw [serializeBuffers, h, ← map_take, length_map]
  refine (reads_word (k := 4) (BitVec.ofNat 32 entries.length)).bind ?_
  have hnonneg : ¬ (BitVec.ofNat 32 entries.length).toInt < 0 := not_lt.mpr hcount
  rw [if_neg hnonneg]
  have hbuffers : List.Forall₂ (Reads maxLength deserializeRawReport)
      ((entries.take (coverageCount entries.length).toNat).map fun el =>
        historyBuffer el.1 el.2)
      ((entries.take (coverageCount entries.length).toNat).map fun el => rawReport el.1 el.2) := by
    rw [forall₂_map_left_iff, forall₂_map_right_iff]
    exact forall₂_same.mpr fun el _ => reads_historyBuffer el.1 el.2
  have htimes := Reads.times hbuffers
  rwa [length_map, length_take_of_le (by omega)] at htimes

theorem deserializeArray_negative {r : Reader α} (h : count.toInt < 0)
    (before after : List (BitVec 8)) :
    deserializeArray r (before ++ serializePrimitive 4 count ++ after) before.length = none := by
  have hword := reads_word (k := 4) count before after (Nat.le_refl _)
  rw [deserializeArray]
  refine (bind_of_eq_some hword).trans ?_
  rw [if_pos h]
  rfl

namespace CoverageTracker
variable {c : CoverageTracker}
variable {histories : List (BitVec 32 × Option CoverageHistory)}

/-- The methods of a report are listed by their ids. -/
theorem mem_methodsToSerialize {i : Nat} {info : MethodInfo} :
    (i, info) ∈ c.methodsToSerialize ↔
      c.collectedMethods[i]? = some info ∧ isVisited c.visitedMethods i := by
  simp only [methodsToSerialize, mem_map, mem_filter, Prod.mk.injEq, Prod.exists]
  constructor
  · rintro ⟨info', i', ⟨hmem, hvisited⟩, rfl, rfl⟩
    exact ⟨mem_zipIdx_iff_getElem?.mp hmem, hvisited⟩
  · rintro ⟨hget, hvisited⟩
    exact ⟨info, i, ⟨mem_zipIdx_iff_getElem?.mpr hget, hvisited⟩, rfl, rfl⟩

theorem nodup_methodsToSerialize (c : CoverageTracker) :
    (c.methodsToSerialize.map fun el => (rawEntry el).1).Nodup := by
  have hids : (c.methodsToSerialize.map Prod.fst).Nodup := by
    have hsub : (c.methodsToSerialize.map Prod.fst).Sublist
        (c.collectedMethods.zipIdx.map Prod.snd) := by
      rw [methodsToSerialize, map_map]
      exact filter_sublist.map _
    rw [zipIdx_map_snd] at hsub
    exact hsub.nodup nodup_range'
  have hinj : ∀ i ∈ c.methodsToSerialize.map Prod.fst, ∀ j ∈ c.methodsToSerialize.map Prod.fst,
      BitVec.ofInt 32 (i : Int) = BitVec.ofInt 32 (j : Int) → i = j := by
    intro i hi j hj heq
    obtain ⟨⟨i, info⟩, himem, rfl⟩ := mem_map.mp hi
    obtain ⟨⟨j, info'⟩, hjmem, rfl⟩ := mem_map.mp hj
    have hivisited := (mem_methodsToSerialize.mp himem).2
    have hjvisited := (mem_methodsToSerialize.mp hjmem).2
    simp only [isVisited, decide_eq_true_eq] at hivisited hjvisited
    have hnat := congrArg BitVec.toNat heq
    simp only [BitVec.ofInt_natCast, BitVec.toNat_ofNat] at hnat
    omega
  have hmap := List.Nodup.map_on hinj hids
  rwa [map_map] at hmap

/-! ### The report of a round -/

/-- The ids of the mapped threads that have no entry. -/
def notEntered (ids : List (BitVec 32)) : List (ThreadID × BitVec 32) → List (BitVec 32)
  | [] => []
  | el :: mapping =>
    if el.2 ∈ ids then notEntered ids mapping else el.2 :: notEntered (ids ++ [el.2]) mapping

theorem addNotEntered_eq (c : CoverageTracker) (mapping : List (ThreadID × BitVec 32)) :
    c.addNotEntered mapping =
      { c with
        serializedCoverageThreadIds := c.serializedCoverageThreadIds ++
          notEntered c.serializedCoverageThreadIds mapping
        serializedCoverage := c.serializedCoverage ++
          (notEntered c.serializedCoverageThreadIds mapping).map abortedBuffer } := by
  induction mapping generalizing c with
  | nil => simp [addNotEntered, notEntered]
  | cons el mapping ih =>
    rw [addNotEntered, foldl_cons, notEntered]
    split
    case isTrue h =>
      have habsent : el.2 ∉ c.serializedCoverageThreadIds := count_eq_zero.mp h
      rw [if_neg habsent]
      refine (ih _).trans ?_
      simp [pushSerialized]
    case isFalse h =>
      have hpresent : el.2 ∈ c.serializedCoverageThreadIds := by
        rwa [count_eq_zero, not_not] at h
      rw [if_pos hpresent]
      exact ih c

/-- The invocations that finish before a report, one after the other. -/
def finishAll (c : CoverageTracker) (histories : List (BitVec 32 × Option CoverageHistory)) :
    Option CoverageTracker :=
  histories.foldlM (fun c el => c.finish el.1 el.2) c

/-- The methods that the histories have visited. -/
def visitedBy (visited : Finset (BitVec 32)) :
    List (BitVec 32 × Option CoverageHistory) → Finset (BitVec 32)
  | [] => visited
  | el :: histories => visitedBy (visited ∪ el.2.elim ∅ CoverageHistory.visitedMethods) histories

theorem finish_none (c : CoverageTracker) (threadId : BitVec 32) : c.finish threadId none = none :=
  rfl

theorem finish_some (c : CoverageTracker) (threadId : BitVec 32) (history : CoverageHistory) :
    c.finish threadId (some history) =
      some { c with
        visitedMethods := c.visitedMethods ∪ history.visitedMethods
        serializedCoverageThreadIds := c.serializedCoverageThreadIds ++ [threadId]
        serializedCoverage := c.serializedCoverage ++ [historyBuffer threadId (some history)] } :=
  rfl

theorem finishAll_eq (h : ∀ el ∈ histories, el.2 ≠ none) (c : CoverageTracker) :
    c.finishAll histories =
      some { c with
        visitedMethods := visitedBy c.visitedMethods histories
        serializedCoverageThreadIds := c.serializedCoverageThreadIds ++ histories.map Prod.fst
        serializedCoverage := c.serializedCoverage ++
          histories.map fun el => historyBuffer el.1 el.2 } := by
  induction histories generalizing c with
  | nil => simp [finishAll, visitedBy]
  | cons el histories ih =>
    obtain ⟨threadId, _ | history⟩ := el
    · exact absurd rfl (h _ mem_cons_self)
    · rw [finishAll, foldlM_cons, finish_some]
      refine (ih (fun el hel => h el (mem_cons_of_mem _ hel)) _).trans ?_
      simp [visitedBy]

theorem completed_of_finishAll {c c' : CoverageTracker} (h : c.finishAll histories = some c') :
    ∀ el ∈ histories, el.2 ≠ none := by
  induction histories generalizing c with
  | nil => simp
  | cons el histories ih =>
    rw [finishAll, foldlM_cons] at h
    obtain ⟨c₁, hfirst, hothers⟩ := Option.bind_eq_some_iff.mp h
    intro el' hel'
    rcases mem_cons.mp hel' with rfl | hel'
    · intro hnone
      rw [hnone, finish_none] at hfirst
      cases hfirst
    · exact ih hothers el' hel'

/-- What the deserializer makes of a report. -/
theorem getRawReports_eq {methods : List (Nat × MethodInfo)}
    {entries : List (BitVec 32 × Option CoverageHistory)}
    (hnodup : (methods.map fun el => (rawEntry el).1).Nodup)
    (h : c.serializedCoverage = entries.map fun el => historyBuffer el.1 el.2)
    (hfits : (serializeMethods methods ++ c.serializeBuffers).length ≤ maxLength) :
    getRawReports (serializeMethods methods ++ c.serializeBuffers) =
      if 0 ≤ coverageCount entries.length then
        some (⟨methods.map rawEntry,
          (entries.take (coverageCount entries.length).toNat).map fun el => rawReport el.1 el.2⟩,
          (serializeMethods methods ++ c.serializeBuffers).length)
      else none := by
  have hmethods := reads_methods hnodup
  split
  case isTrue hcount =>
    have hread : Reads maxLength deserializeRawReports _ _ :=
      hmethods.bind ((reads_buffers h hcount).map _)
    rw [getRawReports]
    simpa using hread [] [] (by simpa using hfits)
  case isFalse hcount =>
    have hread := hmethods [] c.serializeBuffers (by simpa using hfits)
    rw [nil_append, length_nil, Nat.zero_add] at hread
    rw [getRawReports, deserializeRawReports, bind_of_eq_some hread]
    apply bind_of_eq_none
    rw [serializeBuffers, h, length_map, ← append_assoc]
    exact deserializeArray_negative (not_le.mp hcount) _ _

end CoverageTracker

/-- `GetRawHistory`: the report as an array.  Its length goes through an `int`. -/
def getRawHistory (bytes : List (BitVec 8)) : Option (List (BitVec 8)) :=
  let size := (BitVec.ofNat 32 bytes.length).toInt
  if 0 ≤ size ∧ size ≤ maxLength then some (bytes.take size.toNat) else none

theorem getRawHistory_eq_self :
    getRawHistory bytes = some bytes ↔ bytes.length ≤ maxLength := by
  rw [getRawHistory]
  constructor
  · intro h
    split at h
    case isTrue hsize =>
      have hlength := congrArg List.length (Option.some.inj h)
      rw [length_take] at hlength
      omega
    case isFalse => cases h
  · intro h
    rw [toInt_ofNat h, if_pos ⟨by omega, by omega⟩, Int.toNat_natCast, take_length]

/-- What there is to report: the methods that were collected, those visited so far, the histories
that finish, and the threads that are mapped when the report is made. -/
structure Collected where
  collectedMethods : List MethodInfo
  visitedMethods : Finset (BitVec 32)
  histories : List (BitVec 32 × Option CoverageHistory)
  mapping : List (ThreadID × BitVec 32)

namespace Collected
open CoverageTracker

variable (r : Collected)

/-- The bytes of the report. -/
def report : Option (List (BitVec 8)) := do
  let c ← CoverageTracker.finishAll
    { empty with
      collectedMethods := r.collectedMethods, visitedMethods := r.visitedMethods } r.histories
  pure (c.serializeCoverageReport r.mapping).1

/-- The histories, and the aborted ones of the threads that did not enter main. -/
def entries : List (BitVec 32 × Option CoverageHistory) :=
  r.histories ++ (notEntered (r.histories.map Prod.fst) r.mapping).map fun id => (id, none)

/-- The visited methods with their ids. -/
def methods : List (Nat × MethodInfo) :=
  (r.collectedMethods.zipIdx.filter fun el =>
    isVisited (visitedBy r.visitedMethods r.histories) el.2).map fun el => (el.2, el.1)

/-- What is to be read. -/
def rawReports : RawCoverageReports where
  methods := r.methods.map rawEntry
  reports := r.entries.map fun el => rawReport el.1 el.2

/-- The number of bytes. -/
def size : Nat :=
  4 + (r.methods.map fun el => 4 + el.2.size).sum +
    (4 + (r.entries.map fun el => historySize el.2).sum)

/-- The report is made, passed on and read in full, and gives what there was to report. -/
def RoundTrips : Prop :=
  ∃ bytes, r.report = some bytes ∧ getRawHistory bytes = some bytes ∧
    getRawReports bytes = some (r.rawReports, bytes.length)

variable {r}

/-- The tracker when the report is made. -/
def tracker (r : Collected) : CoverageTracker where
  collectedMethods := r.collectedMethods
  visitedMethods := visitedBy r.visitedMethods r.histories
  trackedCoverage := .empty
  serializedCoverage := r.histories.map fun el => historyBuffer el.1 el.2
  serializedCoverageThreadIds := r.histories.map Prod.fst

theorem report_eq (h : ∀ el ∈ r.histories, el.2 ≠ none) :
    r.report = some (r.tracker.serializeCoverageReport r.mapping).1 := by
  rw [report, finishAll_eq h]
  rfl

theorem completed_of_report (h : r.report = some bytes) : ∀ el ∈ r.histories, el.2 ≠ none := by
  obtain ⟨c, hfinish, -⟩ := Option.bind_eq_some_iff.mp h
  exact completed_of_finishAll hfinish

theorem serializedCoverage_tracker (r : Collected) :
    (r.tracker.addNotEntered r.mapping).serializedCoverage =
      r.entries.map fun el => historyBuffer el.1 el.2 := by
  rw [addNotEntered_eq, entries, map_append, map_map]
  rfl

theorem getRawReports_report
    (hfits : (r.tracker.serializeCoverageReport r.mapping).1.length ≤ maxLength) :
    getRawReports (r.tracker.serializeCoverageReport r.mapping).1 =
      if 0 ≤ coverageCount r.entries.length then
        some (⟨r.methods.map rawEntry,
          (r.entries.take (coverageCount r.entries.length).toNat).map fun el =>
            rawReport el.1 el.2⟩,
          (r.tracker.serializeCoverageReport r.mapping).1.length)
      else none :=
  getRawReports_eq r.tracker.nodup_methodsToSerialize r.serializedCoverage_tracker hfits

theorem length_serializeMethods (methods : List (Nat × MethodInfo)) :
    (serializeMethods methods).length = 4 + (methods.map fun el => 4 + el.2.size).sum := by
  simp [serializeMethods, length_flatMap]

/-- Unless there are too many entries to count, the bytes are as many as they should be. -/
theorem length_report (r : Collected) (h : r.entries.length < 2 ^ 31) :
    (r.tracker.serializeCoverageReport r.mapping).1.length = r.size := by
  have hreport : (r.tracker.serializeCoverageReport r.mapping).1 =
      serializeMethods r.methods ++ (r.tracker.addNotEntered r.mapping).serializeBuffers := rfl
  rw [hreport, length_append, length_serializeMethods, size, serializeBuffers,
    serializedCoverage_tracker, length_map, toInt_ofNat_of_lt h, Int.toNat_natCast,
    take_of_length_le (by simp), length_append, length_serializePrimitive]
  simp [length_flatten, Function.comp_def]

theorem length_entries_le (r : Collected) : r.entries.length ≤ r.size := by
  have hsum := length_le_sum_of_one_le (r.entries.map fun el => historySize el.2) (by
    intro n hn
    obtain ⟨⟨_, _ | history⟩, -, rfl⟩ := mem_map.mp hn
    · exact Nat.le_add_left 1 7
    · exact Nat.le_add_right_of_le (Nat.le_add_left 1 11))
  rw [length_map] at hsum
  rw [size]
  omega

/-- A report that is read in full has no more entries than it can count. -/
theorem length_entries_lt (hreport : r.report = some bytes)
    (hraw : getRawHistory bytes = some bytes)
    (hread : getRawReports bytes = some (r.rawReports, bytes.length)) :
    r.entries.length < 2 ^ 31 := by
  rw [report_eq (completed_of_report hreport)] at hreport
  cases hreport
  rw [getRawReports_report (getRawHistory_eq_self.mp hraw)] at hread
  split at hread
  case isTrue hcount =>
    have hreports := congrArg (fun o => o.elim 0 fun p => p.1.reports.length) hread
    simp only [Option.elim_some, rawReports, length_map, length_take] at hreports
    have hlt : coverageCount r.entries.length < 2 ^ 31 := BitVec.toInt_lt
    omega
  case isFalse => cases hread

/-- A report is read back exactly when no invocation was aborted and it fits into an array. -/
theorem roundTrips_iff (r : Collected) :
    r.RoundTrips ↔ (∀ el ∈ r.histories, el.2 ≠ none) ∧ r.size ≤ maxLength := by
  constructor
  · rintro ⟨bytes, hreport, hraw, hread⟩
    have hcompleted := completed_of_report hreport
    have hlength := r.length_report (length_entries_lt hreport hraw hread)
    rw [report_eq hcompleted] at hreport
    cases hreport
    exact ⟨hcompleted, hlength ▸ getRawHistory_eq_self.mp hraw⟩
  · rintro ⟨hcompleted, hsize⟩
    have hcount : r.entries.length ≤ maxLength := r.length_entries_le.trans hsize
    have hlength := r.length_report (lt_of_le_of_lt hcount (by decide))
    have hfits : (r.tracker.serializeCoverageReport r.mapping).1.length ≤ maxLength := by omega
    have hcoverage : coverageCount r.entries.length = r.entries.length := toInt_ofNat hcount
    refine ⟨_, report_eq hcompleted, getRawHistory_eq_self.mpr hfits, ?_⟩
    rw [getRawReports_report hfits, hcoverage, if_pos (by omega), Int.toNat_natCast, take_length]
    rfl

/-- One thread whose invocation is aborted. -/
def abortedInvocation : Collected where
  collectedMethods := []
  visitedMethods := ∅
  histories := [(1, none)]
  mapping := []

theorem abortedInvocation_not_roundTrips :
    abortedInvocation.size ≤ maxLength ∧ ¬ abortedInvocation.RoundTrips := by
  refine ⟨by decide, ?_⟩
  rintro ⟨bytes, hreport, -, -⟩
  exact completed_of_report hreport _ mem_cons_self rfl

end Collected

end VSharp.CoverageInstrumenter
