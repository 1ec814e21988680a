import VSharp.Library.Base64
import VSharp.Library.Utf8
import VSharp.Utils.CoverageDeserializer

/-!
# Utils — String representations

`stringRepr` of `VSharp.Utils/MemoryGraph.fs`.  A string is its list of UTF-16 code units; memory
does not run out.

* `decode_encode`: what comes back is the string with U+FFFD for each surrogate without its partner.
* `decode_encode_iff`: it is the string itself if and only if there is no such surrogate.
-/

namespace VSharp.StringRepr
open Library CoverageDeserializer List

/-! ### `Encoding.UTF8` -/

/-- The scalar value of a surrogate pair. -/
def pairScalar (c d : CodeUnit) : ℕ :=
  0x10000 + (c.toNat - 0xD800) * 0x400 + (d.toNat - 0xDC00)

/-- A code unit by itself. -/
def unitScalar (c : CodeUnit) : ℕ :=
  if isHighSurrogate c || isLowSurrogate c then Utf8.replacement else c.toNat

/-- The scalar values of a string; a surrogate without its partner is replaced. -/
def scalars : List CodeUnit → List ℕ
  | [] => []
  | [c] => [unitScalar c]
  | c :: d :: rest =>
    if isHighSurrogate c && isLowSurrogate d then pairScalar c d :: scalars rest
    else unitScalar c :: scalars (d :: rest)

/-- The code units of a scalar value. -/
def units (n : ℕ) : List CodeUnit :=
  if n < 0x10000 then [BitVec.ofNat 16 n]
  else
    [BitVec.ofNat 16 (0xD800 + (n - 0x10000) / 0x400),
      BitVec.ofNat 16 (0xDC00 + (n - 0x10000) % 0x400)]

/-- `Encoding.UTF8.GetBytes`. -/
def utf8GetBytes (str : List CodeUnit) : List (BitVec 8) := Utf8.encode (scalars str)

/-- `Encoding.UTF8.GetString`. -/
def utf8GetString (bytes : List (BitVec 8)) : List CodeUnit := (Utf8.decode bytes).flatMap units

/-! ### `Convert` -/

def toBase64String (bytes : List (BitVec 8)) : List CodeUnit :=
  (Base64.encode bytes).map (BitVec.ofNat 16)

/-- The characters that `FromBase64String` leaves out. -/
def isBlank (c : CodeUnit) : Bool := c == 9 || c == 10 || c == 13 || c == 32

/-- `none` where it throws a `FormatException`. -/
def fromBase64String (str : List CodeUnit) : Option (List (BitVec 8)) :=
  Base64.decode ((str.filter fun c => !isBlank c).map BitVec.toNat)

/-! ### `stringRepr` -/

structure stringRepr where
  content : List CodeUnit
deriving DecidableEq, Repr

def stringRepr.Encode (str : List CodeUnit) : stringRepr where
  content := toBase64String (utf8GetBytes str)

def stringRepr.Decode (x : stringRepr) : Option (List CodeUnit) :=
  (fromBase64String x.content).map utf8GetString

/-! ### The bytes come back -/

/-- No character that `ToBase64String` writes is left out, and none is cut. -/
theorem base64_char {n : ℕ} (h : 43 ≤ n ∧ n ≤ 122) :
    isBlank (BitVec.ofNat 16 n) = false ∧ (BitVec.ofNat 16 n).toNat = n := by
  have hall : ∀ k : Fin 80, isBlank (BitVec.ofNat 16 (43 + k)) = false ∧
      (BitVec.ofNat 16 (43 + k)).toNat = 43 + k := by decide
  have hn := hall ⟨n - 43, by omega⟩
  rwa [show 43 + (n - 43) = n by omega] at hn

theorem fromBase64String_toBase64String (bytes : List (BitVec 8)) :
    fromBase64String (toBase64String bytes) = some bytes := by
  have hkept : (toBase64String bytes).filter (fun c => !isBlank c) = toBase64String bytes := by
    refine filter_eq_self.mpr fun c hc => ?_
    obtain ⟨n, hn, rfl⟩ := mem_map.mp hc
    rw [(base64_char (Base64.encode_range n hn)).1]
    rfl
  have hcodes : (toBase64String bytes).map BitVec.toNat = Base64.encode bytes := by
    rw [toBase64String, map_map]
    refine (map_congr_left fun n hn => ?_).trans (map_id _)
    exact (base64_char (Base64.encode_range n hn)).2
  rw [fromBase64String, hkept, hcodes, Base64.decode_encode]

/-! ### The code units come back -/

variable {c d : CodeUnit}

theorem isHighSurrogate_iff : isHighSurrogate c = true ↔ 0xD800 ≤ c.toNat ∧ c.toNat ≤ 0xDBFF := by
  simp [isHighSurrogate]

theorem isLowSurrogate_iff : isLowSurrogate c = true ↔ 0xDC00 ≤ c.toNat ∧ c.toNat ≤ 0xDFFF := by
  simp [isLowSurrogate]

theorem isScalar_pairScalar (hc : isHighSurrogate c) (hd : isLowSurrogate d) :
    Utf8.IsScalar (pairScalar c d) := by
  rw [isHighSurrogate_iff] at hc
  rw [isLowSurrogate_iff] at hd
  refine .inr ⟨?_, ?_⟩ <;> unfold pairScalar <;> omega

theorem units_pairScalar (hc : isHighSurrogate c) (hd : isLowSurrogate d) :
    units (pairScalar c d) = [c, d] := by
  rw [isHighSurrogate_iff] at hc
  rw [isLowSurrogate_iff] at hd
  have hhigh : 0xD800 + (pairScalar c d - 0x10000) / 0x400 = c.toNat := by
    unfold pairScalar
    omega
  have hlow : 0xDC00 + (pairScalar c d - 0x10000) % 0x400 = d.toNat := by
    unfold pairScalar
    omega
  have hlarge : ¬ pairScalar c d < 0x10000 := by
    unfold pairScalar
    omega
  rw [units, if_neg hlarge, hhigh, hlow, BitVec.ofNat_toNat, BitVec.ofNat_toNat,
    BitVec.setWidth_eq, BitVec.setWidth_eq]

theorem isScalar_unitScalar (c : CodeUnit) : Utf8.IsScalar (unitScalar c) := by
  have hc := c.isLt
  unfold unitScalar
  split
  case isTrue => exact .inr ⟨by decide, by decide⟩
  case isFalse h =>
    rw [Bool.or_eq_true, isHighSurrogate_iff, isLowSurrogate_iff] at h
    unfold Utf8.IsScalar
    omega

theorem units_unitScalar (c : CodeUnit) :
    units (unitScalar c) =
      [if isHighSurrogate c || isLowSurrogate c then replacementChar else c] := by
  have hc := c.isLt
  unfold unitScalar
  split
  case isTrue => rfl
  case isFalse => rw [units, if_pos hc, BitVec.ofNat_toNat, BitVec.setWidth_eq]

theorem isScalar_scalars (str : List CodeUnit) : ∀ n ∈ scalars str, Utf8.IsScalar n := by
  fun_induction scalars str with
  | case1 => exact nofun
  | case2 c => exact forall_mem_singleton.mpr (isScalar_unitScalar c)
  | case3 c d rest h ih =>
    obtain ⟨hc, hd⟩ := Bool.and_eq_true_iff.mp h
    exact forall_mem_cons.mpr ⟨isScalar_pairScalar hc hd, ih⟩
  | case4 c d rest h ih => exact forall_mem_cons.mpr ⟨isScalar_unitScalar c, ih⟩

theorem units_scalars (str : List CodeUnit) :
    (scalars str).flatMap units = replaceUnpaired str := by
  fun_induction scalars str with
  | case1 => rfl
  | case2 c => rw [flatMap_singleton, units_unitScalar, replaceUnpaired]
  | case3 c d rest h ih =>
    obtain ⟨hc, hd⟩ := Bool.and_eq_true_iff.mp h
    rw [flatMap_cons, units_pairScalar hc hd, ih, replaceUnpaired, if_pos hc, if_pos hd]
    rfl
  | case4 c d rest h ih =>
    rw [flatMap_cons, units_unitScalar, ih, replaceUnpaired, singleton_append]
    cases hc : isHighSurrogate c
    case false => rfl
    case true =>
      have hd : ¬ isLowSurrogate d = true := fun hd => h (by rw [hc, hd]; rfl)
      rw [if_pos rfl, if_neg hd]
      rfl

theorem utf8GetString_utf8GetBytes (str : List CodeUnit) :
    utf8GetString (utf8GetBytes str) = replaceUnpaired str := by
  rw [utf8GetString, utf8GetBytes, Utf8.decode_encode (isScalar_scalars str), units_scalars]

/-! ### Round trip -/

theorem decode_encode (str : List CodeUnit) :
    (stringRepr.Encode str).Decode = some (replaceUnpaired str) := by
  rw [stringRepr.Decode, stringRepr.Encode, fromBase64String_toBase64String, Option.map_some,
    utf8GetString_utf8GetBytes]

/-- A string that is as it was has no surrogate without its partner: U+FFFD is none. -/
theorem wellFormed_of_replaceUnpaired {str : List CodeUnit} (h : replaceUnpaired str = str) :
    WellFormed str := by
  have hreplaced : isHighSurrogate replacementChar = false ∧
      isLowSurrogate replacementChar = false := by decide
  fun_induction replaceUnpaired str with
  | case1 => trivial
  | case2 c =>
    obtain ⟨hc⟩ := cons_eq_cons.mp h
    split at hc
    case isTrue => rwa [← hc]
    case isFalse hunit => exact Bool.or_eq_false_iff.mp (eq_false_of_ne_true hunit)
  | case3 c d rest hc hd ih =>
    rw [WellFormed, if_pos hc]
    exact ⟨hd, ih (cons_eq_cons.mp (cons_eq_cons.mp h).2).2⟩
  | case4 c d rest hc hd ih =>
    rw [← (cons_eq_cons.mp h).1, hreplaced.1] at hc
    cases hc
  | case5 c d rest hc ih =>
    obtain ⟨hunit, hrest⟩ := cons_eq_cons.mp h
    rw [WellFormed, if_neg hc]
    refine ⟨?_, ih hrest⟩
    split at hunit
    case isTrue => rw [← hunit, hreplaced.2]
    case isFalse hlow => exact eq_false_of_ne_true hlow

theorem decode_encode_iff (str : List CodeUnit) :
    (stringRepr.Encode str).Decode = some str ↔ WellFormed str := by
  rw [decode_encode, Option.some_inj]
  exact ⟨wellFormed_of_replaceUnpaired, replaceUnpaired_eq⟩

/-- A single high surrogate comes back as U+FFFD. -/
theorem not_decode_encode_surrogate :
    (stringRepr.Encode [0xD800]).Decode = some [0xFFFD] ∧
      ¬ ∀ str : List CodeUnit, (stringRepr.Encode str).Decode = some str := by
  have hlone : (stringRepr.Encode [0xD800]).Decode = some [0xFFFD] := decode_encode [0xD800]
  refine ⟨hlone, fun h => ?_⟩
  have hsame := (h [0xD800]).symm.trans hlone
  exact absurd hsame (by decide)

end VSharp.StringRepr
