import VSharp.Library.Wire

/-!
# Utils — Coverage deserializer

`VSharp.Utils/CoverageDeserializer.fs`.  The module's `data` and `dataOffset` are the array and the
place of a `Reader`; an exception is a failed read.  A string is its list of UTF-16 code units, an
`int` the word that holds it.
-/

namespace VSharp.CoverageDeserializer
open Library Library.Reader

/-- A `char`. -/
abbrev CodeUnit := BitVec 16

structure CoverageLocation where
  assemblyName : List CodeUnit
  moduleName : List CodeUnit
  methodToken : BitVec 32
  offset : BitVec 32
deriving DecidableEq, Repr

structure CoverageReport where
  threadId : BitVec 32
  coverageLocations : List CoverageLocation
deriving DecidableEq, Repr

structure RawCoverageLocation where
  offset : BitVec 32
  event : BitVec 32
  methodId : BitVec 32
  threadId : BitVec 64
deriving DecidableEq, Repr

structure RawMethodInfo where
  methodToken : BitVec 32
  moduleName : List CodeUnit
  assemblyName : List CodeUnit
deriving DecidableEq, Repr

structure RawCoverageReport where
  threadId : BitVec 32
  rawCoverageLocations : List RawCoverageLocation
deriving DecidableEq, Repr

structure RawCoverageReports where
  methods : List (BitVec 32 × RawMethodInfo)
  reports : List RawCoverageReport
deriving DecidableEq, Repr

/-! ### `Encoding.Unicode` -/

def isHighSurrogate (c : CodeUnit) : Bool := 0xD800 ≤ c.toNat && c.toNat ≤ 0xDBFF

def isLowSurrogate (c : CodeUnit) : Bool := 0xDC00 ≤ c.toNat && c.toNat ≤ 0xDFFF

/-- U+FFFD, which stands for what cannot be decoded. -/
def replacementChar : CodeUnit := 0xFFFD

def codeUnits : List (BitVec 8) → List CodeUnit
  | low :: high :: bytes => ofLeBytes 2 [low, high] :: codeUnits bytes
  | [_] => [replacementChar]
  | [] => []

/-- A surrogate without its partner is replaced. -/
def replaceUnpaired : List CodeUnit → List CodeUnit
  | [] => []
  | [c] => [if isHighSurrogate c || isLowSurrogate c then replacementChar else c]
  | c :: d :: rest =>
    if isHighSurrogate c then
      if isLowSurrogate d then c :: d :: replaceUnpaired rest
      else replacementChar :: replaceUnpaired (d :: rest)
    else (if isLowSurrogate c then replacementChar else c) :: replaceUnpaired (d :: rest)

def getString (bytes : List (BitVec 8)) : List CodeUnit := replaceUnpaired (codeUnits bytes)

/-- Well-formed UTF-16: every surrogate has its partner. -/
def WellFormed : List CodeUnit → Prop
  | [] => True
  | [c] => isHighSurrogate c = false ∧ isLowSurrogate c = false
  | c :: d :: rest =>
    if isHighSurrogate c then isLowSurrogate d ∧ WellFormed rest
    else isLowSurrogate c = false ∧ WellFormed (d :: rest)

/-- The bytes of a string. -/
def utf16Bytes (units : List CodeUnit) : List (BitVec 8) :=
  units.flatMap fun c => leBytes (k := 2) c

theorem leBytes_codeUnit (c : CodeUnit) : leBytes (k := 2) c = [byteOf c 0, byteOf c 1] := by
  simp [leBytes, List.range_succ]

theorem utf16Bytes_cons (c : CodeUnit) (units : List CodeUnit) :
    utf16Bytes (c :: units) = byteOf c 0 :: byteOf c 1 :: utf16Bytes units := by
  rw [utf16Bytes, List.flatMap_cons, leBytes_codeUnit]
  rfl

theorem length_utf16Bytes (units : List CodeUnit) :
    (utf16Bytes units).length = 2 * units.length := by
  induction units with
  | nil => rfl
  | cons c units ih =>
    simp only [utf16Bytes_cons, List.length_cons, ih]
    omega

theorem codeUnits_utf16Bytes (units : List CodeUnit) : codeUnits (utf16Bytes units) = units := by
  induction units with
  | nil => rfl
  | cons c units ih =>
    have hword := ofLeBytes_leBytes (k := 2) c []
    rw [List.append_nil, leBytes_codeUnit] at hword
    rw [utf16Bytes_cons, codeUnits, hword, ih]

variable {units : List CodeUnit}

theorem replaceUnpaired_eq (h : WellFormed units) : replaceUnpaired units = units := by
  fun_induction replaceUnpaired units with
  | case1 => rfl
  | case2 c => simp_all [WellFormed]
  | case3 c d rest hc hd ih =>
    rw [WellFormed, if_pos hc] at h
    rw [ih h.2]
  | case4 c d rest hc hd ih =>
    rw [WellFormed, if_pos hc] at h
    exact absurd h.1 hd
  | case5 c d rest hc ih =>
    rw [WellFormed, if_neg hc] at h
    rw [ih h.2, h.1]
    rfl

theorem getString_utf16Bytes (h : WellFormed units) : getString (utf16Bytes units) = units := by
  rw [getString, codeUnits_utf16Bytes, replaceUnpaired_eq h]

/-! ### Readers -/

/-- The longest array of bytes. -/
def maxLength : Nat := 0x7FFFFFC7

def readInt32 : Reader (BitVec 32) := word 4

def readUInt32 : Reader (BitVec 32) := word 4

/-- The bytes of a part of the array, whose length may come out negative. -/
def subarray (count : BitVec 32) : Reader (List (BitVec 8)) :=
  if count.toInt < 0 then failure else peek count.toInt.toNat

def readString : Reader (List CodeUnit) := do
  let size ← readUInt32
  let result ← subarray (2 * size - 2)
  advance (2 * size).toInt
  pure (getString result)

def deserializeMethodData : Reader RawMethodInfo := do
  let methodToken ← readUInt32
  let assemblyName ← readString
  let moduleName ← readString
  pure { methodToken, assemblyName, moduleName }

/-- `Array.init` takes no negative length. -/
def deserializeArray {α : Type} (elementDeserializer : Reader α) : Reader (List α) := do
  let arraySize ← readInt32
  if arraySize.toInt < 0 then failure else elementDeserializer.times arraySize.toInt.toNat

/-- `Dictionary.Add` takes no key twice. -/
def deserializeDictionary {κ α : Type} [DecidableEq κ] (keyDeserializer : Reader κ)
    (elementDeserializer : Reader α) : Reader (List (κ × α)) := do
  let dictionarySize ← readInt32
  let entries ← Reader.times (do
    let index ← keyDeserializer
    let element ← elementDeserializer
    pure (index, element)) dictionarySize.toInt.toNat
  if (entries.map Prod.fst).Nodup then pure entries else failure

/-- The fields of a `RawCoverageLocation` at their offsets. -/
def castLocation (bytes : List (BitVec 8)) : RawCoverageLocation where
  offset := ofLeBytes 4 bytes
  event := ofLeBytes 4 (bytes.drop 4)
  methodId := ofLeBytes 4 (bytes.drop 8)
  threadId := ofLeBytes 8 (bytes.drop 12)

/-- `MemoryMarshal.Cast<byte, RawCoverageLocation>`. -/
def castLocations (bytes : List (BitVec 8)) : List RawCoverageLocation :=
  (List.range (bytes.length / 20)).map fun i => castLocation (bytes.drop (20 * i))

def deserializeCoverageInfoFast : Reader (List RawCoverageLocation) := do
  let count ← readInt32
  let bytesCount := 20 * count
  let targetBytes ← subarray bytesCount
  advance bytesCount.toInt
  pure (castLocations targetBytes)

def deserializeRawReport : Reader RawCoverageReport := do
  let threadId ← readInt32
  let threadAborted ← readInt32
  if threadAborted = 1 then pure { threadId, rawCoverageLocations := [] }
  else
    let rawCoverageLocations ← deserializeCoverageInfoFast
    pure { threadId, rawCoverageLocations }

def deserializeRawReports : Reader RawCoverageReports := do
  let methods ← deserializeDictionary readInt32 deserializeMethodData
  let reports ← deserializeArray deserializeRawReport
  pure { methods, reports }

/-- The reports, with the place in the array where the reading stopped. -/
def getRawReports (bytes : List (BitVec 8)) : Option (RawCoverageReports × Nat) :=
  deserializeRawReports bytes 0

/-- The lookup of a method throws when it is not there. -/
def toLocation (methods : List (BitVec 32 × RawMethodInfo)) (x : RawCoverageLocation) :
    Option CoverageLocation := do
  let method ← methods.lookup x.methodId
  pure {
    assemblyName := method.assemblyName
    moduleName := method.moduleName
    methodToken := method.methodToken
    offset := x.offset }

def toReport (methods : List (BitVec 32 × RawMethodInfo)) (x : RawCoverageReport) :
    Option CoverageReport := do
  let coverageLocations ← x.rawCoverageLocations.mapM (toLocation methods)
  pure { threadId := x.threadId, coverageLocations }

def reportsFromRawReports (rawReports : RawCoverageReports) : Option (List CoverageReport) :=
  rawReports.reports.mapM (toReport rawReports.methods)

end VSharp.CoverageDeserializer
