import VSharp.Core.Slices

/-!
# Solver — Combine

The bit-vector expression that the encoder builds for a combination of slices, and the bytes that
`combine` computes once the terms and bounds of the slices have values.

- `SliceValue` is a slice of an integral term under a valuation; `substituted` is the slice that
  `createSlice` makes of it, `addOneSlice` the step of `encodeCombine` for it;
- the encoder computes the bounds in the width of the sliced term and multiplies them by eight
  there, `createSlice` in `int`; `NoOverflow` says that what is compared is in range of the width it
  is computed at;
- `encodeCombine_eq_combine`: without overflow, slices that give no place of the result different
  bytes are combined to the same bytes.
-/

namespace VSharp
open Library IntegralType List

/-! ### The encoder -/

def extractOrExtend (size : Nat) {n : Nat} (expr : BitVec n) : BitVec size :=
  if h : n = size then expr.cast h
  else if n > size then expr.extractLsb' 0 size
  else expr.signExtend size

/-- `ReverseBytes`: the first byte extracted is the highest of the result. -/
def reverseBytes {k : Nat} (expr : BitVec (k * 8)) : BitVec (k * 8) :=
  let bytes := (List.range k).map fun byte => expr.extractLsb' (byte * 8) 8
  (concatBytes (0 : BitVec 0) bytes).cast (by simp [bytes])

/-- `Max`, by the signed comparison. -/
def bvMax {n : Nat} (left right : BitVec n) : BitVec n := if right.slt left then left else right

/-- `Min`, by the signed comparison. -/
def bvMin {n : Nat} (left right : BitVec n) : BitVec n := if right.slt left then right else left

/-- The values of a cut's bounds. -/
structure CutValue where
  startByte : BitVec 32
  endByte : BitVec 32
  position : BitVec 32
  isWrite : Bool
deriving DecidableEq, Repr

/-- The values of a slice's term and cuts; a term that is not sliced has no cuts. -/
structure SliceValue where
  typ : IntegralType
  value : BitVec typ.numericBitSizeOf
  cuts : List CutValue

/-- `addBounds` on the start, end and position computed so far. -/
def addBounds (termSortSize : Nat) (c : CutValue)
    (acc : BitVec termSortSize × BitVec termSortSize × BitVec termSortSize) :
    BitVec termSortSize × BitVec termSortSize × BitVec termSortSize :=
  let (startExpr, sizeExpr, position) := acc
  let startByte := extractOrExtend termSortSize c.startByte
  let endByte := extractOrExtend termSortSize c.endByte
  let pos := extractOrExtend termSortSize c.position
  let startByte := startByte - position
  let endByte := endByte - position
  let left := bvMax startByte 0
  let right := bvMin endByte sizeExpr
  let sliceSize := right - left
  let newLeft := startExpr + left
  let newRight := bvMin (newLeft + sliceSize) sizeExpr
  let newPos := if c.isWrite then bvMax pos position else bvMax (position + pos) 0
  (newLeft, newRight, newPos)

def computeSliceBounds (cuts : List CutValue) (termSortSize : Nat) :
    BitVec termSortSize × BitVec termSortSize × BitVec termSortSize :=
  cuts.foldr (addBounds termSortSize) (0, BitVec.ofNat termSortSize (termSortSize / 8), 0)

/-- `addOneSlice` on the bits collected so far. -/
def addOneSlice (window : Nat) (res : BitVec window) (slice : SliceValue) : BitVec window :=
  let termSize := slice.typ.numericBitSizeOf
  let sizeExpr := BitVec.ofNat termSize termSize
  let (lByte, rByte, posByte) := computeSliceBounds slice.cuts termSize
  let lBit := lByte * BitVec.ofNat termSize 8
  let rBit := rByte * BitVec.ofNat termSize 8
  let posBit := posByte * BitVec.ofNat termSize 8
  let sliceSize := rBit - lBit
  let intersects := (0 : BitVec termSize).slt sliceSize
  let term := reverseBytes slice.value
  let term := term <<< lBit
  let cutRight := sizeExpr - rBit
  let term := term >>> (lBit + cutRight)
  let term : BitVec window :=
    if termSize > window then term.extractLsb' 0 window else term.setWidth window
  let w := extractOrExtend window (BitVec.ofNat 32 window)
  let pos := extractOrExtend window posBit
  let sliceSize := extractOrExtend window sliceSize
  let shift := w - (pos + sliceSize)
  let part := term <<< shift
  if intersects then res ||| part else res

/-- `EncodeCombine` for an integral type. -/
def encodeCombine (typ : IntegralType) (slices : List SliceValue) : BitVec typ.numericBitSizeOf :=
  reverseBytes (slices.foldl (addOneSlice typ.numericBitSizeOf) 0)

/-! ### Substitution -/

/-- The boxed value with given bits. -/
def ofBits (t : IntegralType) (v : BitVec t.numericBitSizeOf) : PrimitiveObj where
  typ := .integral t
  bytes := (List.range t.numericSizeOf).map (byteOf v)
  length_bytes := by simp [PrimitiveType.internalSizeOf]
  reread_bytes := rfl

def CutValue.toCut (c : CutValue) : Cut :=
  ⟨c.startByte.toInt, c.endByte.toInt, c.position.toInt, c.isWrite⟩

namespace Bounds

/-- What `addBounds` compares at a cut stays within `lim`. -/
def EncoderStepFits (lim : Int) (b : Bounds) (c : Cut) : Prop :=
  Within lim (c.startByte - b.position) ∧ Within lim (c.endByte - b.position) ∧
    Within lim (b.left + min (c.endByte - b.position) b.right) ∧ Within lim (b.moved c)

instance {lim : Int} {b : Bounds} {c : Cut} : Decidable (EncoderStepFits lim b c) :=
  inferInstanceAs (Decidable (_ ∧ _ ∧ _ ∧ _))

/-- What `computeSliceBounds` compares stays within `lim`. -/
def EncoderFits (lim n : Int) : List Cut → Prop
  | [] => True
  | c :: cuts => EncoderFits lim n cuts ∧ EncoderStepFits lim (ofCuts n cuts) c

instance EncoderFits.decidable {lim n : Int} :
    (cuts : List Cut) → Decidable (EncoderFits lim n cuts)
  | [] => inferInstanceAs (Decidable True)
  | c :: cuts =>
    have := @EncoderFits.decidable lim n cuts
    inferInstanceAs (Decidable (_ ∧ EncoderStepFits lim (ofCuts n cuts) c))

end Bounds

namespace SliceValue

def obj (s : SliceValue) : PrimitiveObj := ofBits s.typ s.value

/-- The slice with its values put in. -/
def substituted (s : SliceValue) : SliceTerm := createSlice s.obj (s.cuts.map CutValue.toCut)

/-- The bounds of the slice, in integers without limit. -/
def bounds (s : SliceValue) : Bounds := s.obj.bounds (s.cuts.map CutValue.toCut)

/-- What the encoder compares fits the width of the term, and what `createSlice` compares fits
`int`. -/
def NoOverflow (s : SliceValue) : Prop :=
  (Bounds.EncoderFits (2 ^ (s.typ.numericBitSizeOf - 1)) s.typ.numericSizeOf
      (s.cuts.map CutValue.toCut) ∧
    (s.bounds.left - s.bounds.right) * 8 ≤ 2 ^ (s.typ.numericBitSizeOf - 1)) ∧
  s.obj.CutsFit (s.cuts.map CutValue.toCut)

instance {s : SliceValue} : Decidable s.NoOverflow :=
  inferInstanceAs (Decidable ((_ ∧ _) ∧ Bounds.CutsFit _ _))

/-- The slice is empty, or its bytes land in `n` bytes. -/
def InRange (n : Nat) (s : SliceValue) : Prop :=
  s.bounds.right ≤ s.bounds.left ∨ s.bounds.position + (s.bounds.right - s.bounds.left) ≤ n

instance {n : Nat} {s : SliceValue} : Decidable (s.InRange n) :=
  inferInstanceAs (Decidable (_ ∨ _))

/-- A byte of the slice lands at `i`. -/
def Covers (s : SliceValue) (i : Nat) : Prop :=
  s.bounds.position ≤ i ∧ i < s.bounds.position + (s.bounds.right - s.bounds.left)

instance {s : SliceValue} {i : Nat} : Decidable (s.Covers i) := inferInstanceAs (Decidable (_ ∧ _))

/-- The byte that lands at `i`. -/
def byteFor (s : SliceValue) (i : Nat) : Byte :=
  byteOf s.value (s.bounds.left + (i - s.bounds.position)).toNat

/-- No place of the result gets different bytes. -/
def Agree (slices : List SliceValue) : Prop :=
  ∀ s ∈ slices, ∀ s' ∈ slices, ∀ i, s.Covers i → s'.Covers i → s.byteFor i = s'.byteFor i

end SliceValue

/-! ### Bit vectors as integers -/

section
variable {n w : Nat} {a b : Int}

theorem extractOrExtend_eq {x : BitVec n} : extractOrExtend w x = BitVec.ofInt w x.toInt := by
  change _ = x.signExtend w
  unfold extractOrExtend
  split
  case isTrue h =>
    subst h
    simp
  case isFalse =>
    split
    case isTrue h =>
      rw [BitVec.signExtend_eq_setWidth_of_le x (by omega),
        BitVec.setWidth_eq_extractLsb' (by omega)]
    case isFalse => rfl

theorem ofInt_sub : BitVec.ofInt w (a - b) = BitVec.ofInt w a - BitVec.ofInt w b := by
  apply BitVec.eq_of_toInt_eq
  simp

theorem within_zero : Within (2 ^ w) 0 := by
  have hpos : (0 : Int) < 2 ^ w := Int.pow_pos (by decide)
  exact ⟨by omega, hpos⟩

theorem toInt_ofInt_of_within (hw : 0 < w) (h : Within (2 ^ (w - 1)) a) :
    (BitVec.ofInt w a).toInt = a :=
  BitVec.toInt_ofInt_eq_self hw h.1 h.2

theorem toNat_ofInt_of_lt {k : Nat} (h : k < 2 ^ w) : (BitVec.ofInt w k).toNat = k := by
  rw [BitVec.toNat_ofInt, Int.emod_eq_of_lt (by omega) (by omega)]
  rfl

section
variable (hw : 0 < w) (ha : Within (2 ^ (w - 1)) a)

include hw ha

theorem bvMax_ofInt (hb : Within (2 ^ (w - 1)) b) :
    bvMax (BitVec.ofInt w a) (BitVec.ofInt w b) = BitVec.ofInt w (max a b) := by
  rw [bvMax, BitVec.slt_eq_decide, toInt_ofInt_of_within hw ha, toInt_ofInt_of_within hw hb]
  by_cases h : b < a
  · rw [if_pos (by simpa using h), Int.max_eq_left (by omega)]
  · rw [if_neg (by simpa using h), Int.max_eq_right (by omega)]

theorem bvMax_zero : bvMax (BitVec.ofInt w a) 0 = BitVec.ofInt w (max a 0) := by
  have hzero : (0 : BitVec w) = BitVec.ofInt w 0 := by simp
  rw [hzero, bvMax_ofInt hw ha within_zero]

theorem bvMin_ofInt (hb : Within (2 ^ (w - 1)) b) :
    bvMin (BitVec.ofInt w a) (BitVec.ofInt w b) = BitVec.ofInt w (min a b) := by
  rw [bvMin, BitVec.slt_eq_decide, toInt_ofInt_of_within hw ha, toInt_ofInt_of_within hw hb]
  by_cases h : b < a
  · rw [if_pos (by simpa using h), Int.min_eq_right (by omega)]
  · rw [if_neg (by simpa using h), Int.min_eq_left (by omega)]

end

end

theorem byteOf_reverseBytes {k i : Nat} {x : BitVec (k * 8)} (hi : i < k) :
    byteOf (reverseBytes x) i = byteOf x (k - 1 - i) := by
  rw [reverseBytes, byteOf_cast]
  have hlast : k - 1 - i < k := by omega
  have hlength : i < ((List.range k).map fun byte => x.extractLsb' (byte * 8) 8).length := by
    simpa
  have hbyte := byteOf_concatBytes (x := (0 : BitVec 0)) hlength
  apply Option.some.inj
  rw [← hbyte]
  simp [hlast, byteOf]

/-! ### The bounds -/

/-- The bounds as bit vectors. -/
def Bounds.toBits (w : Nat) (b : Bounds) : BitVec w × BitVec w × BitVec w :=
  (BitVec.ofInt w b.left, BitVec.ofInt w b.right, BitVec.ofInt w b.position)

section
variable {w : Nat} {n lim : Int} {b : Bounds} {c : CutValue} {cuts : List Cut}

theorem right_within (hn : Within lim n) (h : Bounds.EncoderFits lim n cuts) :
    Within lim (Bounds.ofCuts n cuts).right := by
  induction cuts with
  | nil => exact hn
  | cons c cuts ih =>
    have hr := ih h.1
    have hx := h.2.2.2.1
    simp only [Bounds.ofCuts, foldr_cons, Bounds.narrow, Within] at *
    omega

theorem position_within (hlim : 0 < lim) (h : Bounds.EncoderFits lim n cuts) :
    Within lim (Bounds.ofCuts n cuts).position := by
  induction cuts with
  | nil => exact ⟨by simp only [Bounds.ofCuts, foldr_nil]; omega, hlim⟩
  | cons c cuts ih =>
    obtain ⟨hlow, hhigh⟩ := ih h.1
    have hx := h.2.2.2.2
    change Within lim (Bounds.narrow c (Bounds.ofCuts n cuts)).position
    unfold Within Bounds.moved at hx
    unfold Within
    simp only [Bounds.narrow]
    split
    case isTrue hw =>
      rw [if_pos hw] at hx
      omega
    case isFalse hw =>
      rw [if_neg hw] at hx
      omega

theorem addBounds_eq (hw : 0 < w) (hright : Within (2 ^ (w - 1)) b.right)
    (hposition : Within (2 ^ (w - 1)) b.position)
    (hfit : b.EncoderStepFits (2 ^ (w - 1)) c.toCut) :
    addBounds w c (b.toBits w) = (b.narrow c.toCut).toBits w := by
  obtain ⟨hstart, hend, hstop, hmoved⟩ := hfit
  have hleft : bvMax (BitVec.ofInt w (c.startByte.toInt - b.position)) 0 =
      BitVec.ofInt w (max (c.startByte.toInt - b.position) 0) :=
    bvMax_zero hw hstart
  have hsliceRight : bvMin (BitVec.ofInt w (c.endByte.toInt - b.position))
      (BitVec.ofInt w b.right) = BitVec.ofInt w (min (c.endByte.toInt - b.position) b.right) :=
    bvMin_ofInt hw hend hright
  have hnewRight : bvMin (BitVec.ofInt w (b.left + max (c.startByte.toInt - b.position) 0 +
      (min (c.endByte.toInt - b.position) b.right - max (c.startByte.toInt - b.position) 0)))
        (BitVec.ofInt w b.right) = BitVec.ofInt w (b.narrow c.toCut).right := by
    have hsum : b.left + max (c.startByte.toInt - b.position) 0 +
        (min (c.endByte.toInt - b.position) b.right - max (c.startByte.toInt - b.position) 0) =
          b.left + min (c.endByte.toInt - b.position) b.right := by omega
    have hx : Within (2 ^ (w - 1)) (b.left + min (c.endByte.toInt - b.position) b.right) := hstop
    rw [hsum, bvMin_ofInt hw hx hright, ← hsum]
    rfl
  have hnewPos : (if c.isWrite then
      bvMax (BitVec.ofInt w c.position.toInt) (BitVec.ofInt w b.position)
      else bvMax (BitVec.ofInt w (b.position + c.position.toInt)) 0) =
        BitVec.ofInt w (b.narrow c.toCut).position := by
    have hpos := hmoved
    unfold Bounds.moved at hpos
    simp only [Bounds.narrow]
    by_cases hwrite : c.isWrite = true
    · have hcut : c.toCut.isWrite = true := hwrite
      rw [if_pos hcut] at hpos
      rw [if_pos hwrite, if_pos hcut]
      exact bvMax_ofInt hw hpos hposition
    · have hcut : ¬ c.toCut.isWrite = true := hwrite
      rw [if_neg hcut] at hpos
      rw [if_neg hwrite, if_neg hcut]
      exact bvMax_zero hw hpos
  simp only [addBounds, Bounds.toBits, extractOrExtend_eq, ← ofInt_sub, ← BitVec.ofInt_add, hleft,
    hsliceRight, hnewRight, hnewPos]
  rfl

theorem computeSliceBounds_eq {cuts : List CutValue} (hw : 0 < w)
    (hn : Within (2 ^ (w - 1)) (w / 8 : Nat))
    (hfit : Bounds.EncoderFits (2 ^ (w - 1)) (w / 8 : Nat) (cuts.map CutValue.toCut)) :
    computeSliceBounds cuts w =
      (Bounds.ofCuts (w / 8 : Nat) (cuts.map CutValue.toCut)).toBits w := by
  induction cuts with
  | nil =>
    simp only [computeSliceBounds, foldr_nil, Bounds.ofCuts, map_nil, Bounds.toBits]
    rw [BitVec.ofInt_natCast]
    rfl
  | cons c cuts ih =>
    have hright := right_within hn hfit.1
    have hposition := position_within (Int.pow_pos (by decide)) hfit.1
    exact (congrArg (addBounds w c) (ih hfit.1)).trans (addBounds_eq hw hright hposition hfit.2)

end

/-! ### One slice -/

namespace SliceValue
variable {s : SliceValue} {t : IntegralType} {i : Nat}

theorem bounds_eq : s.bounds = Bounds.ofCuts s.typ.numericSizeOf (s.cuts.map CutValue.toCut) := rfl

theorem inside_bounds : s.bounds.Inside s.typ.numericSizeOf := Bounds.inside_ofCuts

end SliceValue

section
variable {s : SliceValue} {t : IntegralType} {window w W i l r p : Nat} {res : BitVec window}

theorem pow_width_ge (t : IntegralType) : (128 : Int) ≤ 2 ^ (t.numericBitSizeOf - 1) := by
  cases t <;> decide

theorem computeSliceBounds_slice (h : s.NoOverflow) :
    computeSliceBounds s.cuts s.typ.numericBitSizeOf = s.bounds.toBits s.typ.numericBitSizeOf := by
  have hdiv : s.typ.numericBitSizeOf / 8 = s.typ.numericSizeOf :=
    Nat.mul_div_cancel _ (by decide)
  have hpow := pow_width_ge s.typ
  have hle : s.typ.numericSizeOf ≤ 8 := by
    have := numericBitSizeOf_le s.typ
    unfold numericBitSizeOf at this
    omega
  rw [SliceValue.bounds_eq, ← hdiv]
  refine computeSliceBounds_eq (numericBitSizeOf_pos _) ⟨by omega, by omega⟩ ?_
  rw [hdiv]
  exact h.1.1

/-- The bits of a slice's bounds. -/
theorem ofInt_mul_eight (z : Int) :
    BitVec.ofInt w z * BitVec.ofNat w 8 = BitVec.ofInt w (z * 8) := by
  rw [BitVec.ofInt_mul]
  congr 1

/-- An empty slice adds nothing. -/
theorem addOneSlice_of_empty (h : s.NoOverflow) (hempty : s.bounds.right ≤ s.bounds.left) :
    addOneSlice window res s = res := by
  have hpow := pow_width_ge s.typ
  have hsize : Within (2 ^ (s.typ.numericBitSizeOf - 1))
      (s.bounds.right * 8 - s.bounds.left * 8) := by
    have := h.1.2
    constructor <;> omega
  have hslt : (0 : BitVec s.typ.numericBitSizeOf).slt (BitVec.ofInt s.typ.numericBitSizeOf
      (s.bounds.right * 8 - s.bounds.left * 8)) = false := by
    rw [BitVec.slt_eq_decide, toInt_ofInt_of_within (numericBitSizeOf_pos _) hsize]
    simp only [BitVec.ofNat_eq_ofNat, BitVec.toInt_zero, decide_eq_false_iff_not]
    omega
  simp only [addOneSlice, computeSliceBounds_slice h, Bounds.toBits, ofInt_mul_eight, ← ofInt_sub,
    hslt]
  rfl

theorem two_pow_width_gt (t : IntegralType) : 64 < 2 ^ t.numericBitSizeOf := by
  cases t <;> decide

/-- Small bounds are not changed by the widths they are computed in. -/
theorem toNat_bits {z : Nat} (hz : z < 2 ^ w) {x : Int} (hx : x = z) :
    (BitVec.ofInt w x).toNat = z := by
  rw [hx, toNat_ofInt_of_lt hz]

theorem extractOrExtend_ofInt (t : IntegralType) {z : Int} (hz : 0 ≤ z ∧ z ≤ 64) :
    extractOrExtend window (BitVec.ofInt t.numericBitSizeOf z) = BitVec.ofInt window z := by
  have hpow := pow_width_ge t
  rw [extractOrExtend_eq, toInt_ofInt_of_within (numericBitSizeOf_pos t) ⟨by omega, by omega⟩]

theorem extractOrExtend_window (h : window ≤ 64) :
    extractOrExtend window (BitVec.ofNat 32 window) = BitVec.ofInt window window := by
  rw [extractOrExtend_eq, ← BitVec.ofInt_natCast,
    toInt_ofInt_of_within (by decide) ⟨by omega, by omega⟩]

theorem resize_eq {n : Nat} {x : BitVec n} :
    (if n > window then x.extractLsb' 0 window else x.setWidth window) = x.setWidth window := by
  split
  case isTrue h => rw [BitVec.setWidth_eq_extractLsb' (by omega)]
  case isFalse => rfl

/-- A slice of the bytes `l .. r - 1` that lands at `p`. -/
theorem addOneSlice_of_bounds {res : BitVec (W * 8)} (h : s.NoOverflow) (hb : s.bounds = ⟨l, r, p⟩)
    (hlr : l < r) (hr : r ≤ s.typ.numericSizeOf) (hp : p + (r - l) ≤ W) (hW : W ≤ 8)
    (hpowW : 64 < 2 ^ (W * 8)) :
    addOneSlice (W * 8) res s =
      res ||| ((((reverseBytes s.value <<< (l * 8)) >>>
        ((l + (s.typ.numericSizeOf - r)) * 8)).setWidth (W * 8)) <<<
          ((W - (p + (r - l))) * 8)) := by
  have hpow := two_pow_width_gt s.typ
  have hpow' := pow_width_ge s.typ
  have hk : s.typ.numericBitSizeOf = s.typ.numericSizeOf * 8 := rfl
  have hle := numericBitSizeOf_le s.typ
  have hslt : (0 : BitVec s.typ.numericBitSizeOf).slt (BitVec.ofInt s.typ.numericBitSizeOf
      (r * 8 - l * 8)) = true := by
    rw [BitVec.slt_eq_decide, toInt_ofInt_of_within (numericBitSizeOf_pos _) ⟨by omega, by omega⟩]
    simp only [BitVec.ofNat_eq_ofNat, BitVec.toInt_zero, decide_eq_true_eq]
    omega
  have hleft : (BitVec.ofInt s.typ.numericBitSizeOf (l * 8)).toNat = l * 8 :=
    toNat_bits (by omega) (by omega)
  have hcut : (BitVec.ofInt s.typ.numericBitSizeOf (l * 8) +
      (BitVec.ofNat s.typ.numericBitSizeOf s.typ.numericBitSizeOf -
        BitVec.ofInt s.typ.numericBitSizeOf (r * 8))).toNat =
          (l + (s.typ.numericSizeOf - r)) * 8 := by
    rw [← BitVec.ofInt_natCast, ← ofInt_sub, ← BitVec.ofInt_add]
    exact toNat_bits (by omega) (by omega)
  have hshift : (BitVec.ofInt (W * 8)
      ((W * 8 : Nat) - (p * 8 + (r * 8 - l * 8)))).toNat = (W - (p + (r - l))) * 8 :=
    toNat_bits (by omega) (by omega)
  have hpos : (0 : Int) ≤ p * 8 ∧ (p * 8 : Int) ≤ 64 := by omega
  have hsize : (0 : Int) ≤ r * 8 - l * 8 ∧ (r * 8 - l * 8 : Int) ≤ 64 := by omega
  have hwindow : W * 8 ≤ 64 := by omega
  simp only [addOneSlice, computeSliceBounds_slice h, Bounds.toBits, hb, ofInt_mul_eight,
    ← ofInt_sub, hslt, if_true, extractOrExtend_window hwindow, extractOrExtend_ofInt s.typ hpos,
    extractOrExtend_ofInt s.typ hsize, ← BitVec.ofInt_add, BitVec.shiftLeft_eq',
    BitVec.ushiftRight_eq', hleft, hcut, hshift]
  exact congrArg (fun y => res ||| y <<< _) resize_eq

theorem numericSizeOf_le (t : IntegralType) : t.numericSizeOf ≤ 8 := by
  cases t <;> decide

theorem getElem?_ofBits {v : BitVec t.numericBitSizeOf} {j : Nat} (hj : j < t.numericSizeOf) :
    (ofBits t v).bytes[j]? = some (byteOf v j) := by
  simp [ofBits, hj]

theorem byteAt?_substituted (h : s.NoOverflow) :
    s.substituted.byteAt? i =
      if s.bounds.position ≤ i ∧ i < s.bounds.position + (s.bounds.right - s.bounds.left) then
        some (s.byteFor i)
      else none := by
  obtain ⟨hleft, hright, hposition⟩ := s.inside_bounds
  refine (byteAt?_createSlice h.2).trans ?_
  refine ite_congr rfl (fun hi => ?_) fun _ => rfl
  have hindex : (s.bounds.left + (i - s.bounds.position)).toNat < s.typ.numericSizeOf := by omega
  exact getElem?_ofBits hindex

/-- Where the shifts take a byte of the slice: the reversed bytes `l .. r - 1` end at the place
`W - p` from the low end. -/
theorem byteOf_shifted {k : Nat} {v : BitVec (k * 8)} (hlr : l < r) (hr : r ≤ k)
    (hp : p + (r - l) ≤ W) (hi : i < W) :
    byteOf ((((reverseBytes v <<< (l * 8)) >>> ((l + (k - r)) * 8)).setWidth (W * 8)) <<<
        ((W - (p + (r - l))) * 8)) (W - 1 - i) =
      if p ≤ i ∧ i < p + (r - l) then byteOf v (l + (i - p)) else 0 := by
  rw [byteOf_shiftLeft (by omega)]
  by_cases hhigh : i < p + (r - l)
  · rw [if_pos (by omega), byteOf_setWidth (by omega), byteOf_ushiftRight]
    by_cases hlow : p ≤ i
    · rw [if_pos ⟨hlow, hhigh⟩, byteOf_shiftLeft (by omega), if_pos (by omega),
        byteOf_reverseBytes (by omega)]
      congr 1
      omega
    · rw [if_neg (by omega), byteOf_of_ge (by omega)]
  · rw [if_neg (by omega), if_neg (by omega)]

/-- The byte that a slice puts at `i`, which the encoder keeps in reverse order. -/
theorem byteOf_addOneSlice {res : BitVec (W * 8)} (h : s.NoOverflow) (hrange : s.InRange W)
    (hi : i < W) (hW : W ≤ 8) (hpowW : 64 < 2 ^ (W * 8)) :
    byteOf (addOneSlice (W * 8) res s) (W - 1 - i) =
      byteOf res (W - 1 - i) ||| (s.substituted.byteAt? i).getD 0 := by
  rw [byteAt?_substituted h]
  rcases Int.lt_or_le s.bounds.left s.bounds.right with hlt | hempty
  · obtain ⟨hleft, hright, hposition⟩ := s.inside_bounds
    obtain ⟨l, hl⟩ := Int.eq_ofNat_of_zero_le hleft
    obtain ⟨p, hp⟩ := Int.eq_ofNat_of_zero_le hposition
    obtain ⟨r, hr⟩ := Int.eq_ofNat_of_zero_le (show 0 ≤ s.bounds.right by omega)
    have hfit := hrange.resolve_left (by omega)
    have hb : s.bounds = ⟨l, r, p⟩ := by
      rw [← hl, ← hr, ← hp]
    rw [addOneSlice_of_bounds h hb (by omega) (by omega) (by omega) hW hpowW, byteOf_or, hl, hr, hp]
    refine congrArg (byteOf res (W - 1 - i) ||| ·) ?_
    refine (byteOf_shifted (k := s.typ.numericSizeOf) (by omega) (by omega) (by omega) hi).trans ?_
    split
    case isTrue hc =>
      rw [if_pos (by omega), Option.getD_some]
      congr 1
      omega
    case isFalse hc => rw [if_neg (by omega), Option.getD_none]
  · rw [addOneSlice_of_empty h hempty, if_neg (by omega), Option.getD_none]
    exact (BitVec.or_zero).symm

end

/-! ### All slices -/

section
variable {slices : List SliceValue} {W i : Nat}

/-- Slices that agree: a place holds the byte of the slices that land there. -/
theorem byteOf_foldl {res : BitVec (W * 8)} (h : ∀ s ∈ slices, s.NoOverflow)
    (hrange : ∀ s ∈ slices, s.InRange W) (hi : i < W) (hW : W ≤ 8) (hpowW : 64 < 2 ^ (W * 8))
    (hagree : SliceTerm.AllAgree (slices.map SliceValue.substituted)) :
    byteOf (slices.foldl (addOneSlice (W * 8)) res) (W - 1 - i) =
      byteOf res (W - 1 - i) |||
        ((slices.map SliceValue.substituted).findSome? (SliceTerm.byteAt? i)).getD 0 := by
  induction slices generalizing res with
  | nil => exact (BitVec.or_zero).symm
  | cons s slices ih =>
    rw [forall_mem_cons] at h hrange
    have hrest : SliceTerm.AllAgree (slices.map SliceValue.substituted) := fun x hx y hy =>
      hagree x (mem_cons_of_mem _ hx) y (mem_cons_of_mem _ hy)
    rw [foldl_cons, ih h.2 hrange.2 hrest, byteOf_addOneSlice h.1 hrange.1 hi hW hpowW,
      map_cons, findSome?_cons]
    cases hs : s.substituted.byteAt? i with
    | none => simp
    | some b =>
      cases hfind : (slices.map SliceValue.substituted).findSome? (SliceTerm.byteAt? i) with
      | none => simp
      | some b' =>
        obtain ⟨x, hx, hb'⟩ := exists_of_findSome?_eq_some hfind
        rw [hagree _ mem_cons_self x (mem_cons_of_mem _ hx) i b b' hs hb']
        simp only [Option.getD_some, BitVec.or_assoc, BitVec.or_self]

/-- Slices with bounds that agree do so once substituted. -/
theorem allAgree_substituted (h : ∀ s ∈ slices, s.NoOverflow) (hagree : SliceValue.Agree slices) :
    SliceTerm.AllAgree (slices.map SliceValue.substituted) := by
  intro x hx y hy i b b' hb hb'
  obtain ⟨s, hs, rfl⟩ := mem_map.mp hx
  obtain ⟨s', hs', rfl⟩ := mem_map.mp hy
  rw [byteAt?_substituted (h s hs)] at hb
  rw [byteAt?_substituted (h s' hs')] at hb'
  split at hb
  case isTrue hc =>
    split at hb'
    case isTrue hc' =>
      rw [← Option.some.inj hb, ← Option.some.inj hb']
      exact hagree s hs s' hs' i hc hc'
    case isFalse => cases hb'
  case isFalse => cases hb

theorem fits_substituted {s : SliceValue} (h : s.NoOverflow) (hrange : s.InRange W) :
    s.substituted.Fits W :=
  fits_createSlice h.2 fun hlt => hrange.resolve_left (Int.not_le.mpr hlt)

/-- Without overflow of the bounds, the expression built for slices that give no place different
bytes has the bytes that `combine` computes. -/
theorem encodeCombine_eq_combine (typ : IntegralType) (slices : List SliceValue)
    (hoverflow : ∀ s ∈ slices, s.NoOverflow)
    (hrange : ∀ s ∈ slices, s.InRange typ.numericSizeOf)
    (hagree : SliceValue.Agree slices) :
    combine (slices.map SliceValue.substituted) (.integral typ) =
      some (ofBits typ (encodeCombine typ slices)) := by
  have hagree' := allAgree_substituted hoverflow hagree
  have hfits : ∀ x ∈ slices.map SliceValue.substituted, x.Fits typ.numericSizeOf := by
    intro x hx
    obtain ⟨s, hs, rfl⟩ := mem_map.mp hx
    exact fits_substituted (hoverflow s hs) (hrange s hs)
  rw [combine_eq hfits hagree', bytesToObj, dif_pos (by simp)]
  refine congrArg some (PrimitiveObj.ext rfl ?_)
  apply ext_getElem?
  intro i
  change (layAll _ _)[i]? = _
  rcases Nat.lt_or_ge i typ.numericSizeOf with hi | hi
  · have hbyte : byteOf (slices.foldl (addOneSlice (typ.numericSizeOf * 8)) 0) _ = _ :=
      byteOf_foldl hoverflow hrange hi (numericSizeOf_le typ) (two_pow_width_gt typ) hagree'
    have hzeros : (List.replicate typ.numericSizeOf (0 : Byte))[i]? = some 0 := by simp [hi]
    rw [getElem?_layAll hfits hagree' (by simpa [PrimitiveType.internalSizeOf] using hi),
      getElem?_ofBits hi]
    refine Eq.trans ?_ (congrArg some ((byteOf_reverseBytes hi).trans hbyte)).symm
    rw [byteOf_zero]
    cases (slices.map SliceValue.substituted).findSome? (SliceTerm.byteAt? i) with
    | none => exact hzeros
    | some b => exact congrArg some BitVec.zero_or.symm
  · rw [getElem?_eq_none (by simpa [PrimitiveType.internalSizeOf] using hi),
      getElem?_eq_none (by simpa [ofBits] using hi)]

end

/-- Two halves of an `int`, one of them twice, and an empty slice of a `long`: its first cut, from
`-2 ^ 31` on, is not looked at by `createSlice` and does not overflow in 64 bits. -/
def halves : List SliceValue :=
  [⟨.int16, 0x1122, []⟩, ⟨.uint16, 0x3344, [⟨0, 2, 2, true⟩]⟩, ⟨.int16, 0x3344, [⟨0, 2, 2, true⟩]⟩,
    ⟨.int64, 0x55, [⟨-2147483648, 0, 0, false⟩, ⟨0, 0, 1, true⟩]⟩]

theorem encodeCombine_eq_combine_halves :
    combine (halves.map SliceValue.substituted) (.integral .int32) =
      some (ofBits .int32 0x33441122) := by
  refine (encodeCombine_eq_combine .int32 halves (by decide) (by decide) ?_).trans (by decide)
  have hends : ∀ s ∈ halves, s.bounds.position + (s.bounds.right - s.bounds.left) ≤ 4 := by decide
  have hplaces : ∀ i < 4, ∀ s ∈ halves, ∀ s' ∈ halves, s.Covers i → s'.Covers i →
      s.byteFor i = s'.byteFor i := by decide
  intro s hs s' hs' i hi hi'
  have hlt : (i : Int) < 4 := Int.lt_of_lt_of_le hi.2 (hends s hs)
  exact hplaces i (by omega) s hs s' hs' hi hi'

/-- The slices of a byte written at `startByte` to a cell of one byte. -/
def byteWrite (cell value : BitVec 8) (startByte : BitVec 32) : List SliceValue :=
  [⟨.byte, cell, [⟨0, startByte, 0, true⟩]⟩,
    ⟨.byte, value, [⟨-startByte, 1 - startByte, startByte, false⟩]⟩,
    ⟨.byte, cell, [⟨startByte + 1, 1, startByte + 1, true⟩]⟩]

/-- A byte written 32 bytes after the start of the cell.  Its slice is empty, but its end, `-31`,
times eight is `8` in eight bits, and the encoder adds the whole byte to the cell. -/
theorem encodeCombine_byteWrite_overflows :
    (∀ s ∈ byteWrite 0x10 0x01 32, s.InRange 1) ∧
      encodeCombine .byte (byteWrite 0x10 0x01 32) = 0x11 ∧
      combine ((byteWrite 0x10 0x01 32).map SliceValue.substituted) (.integral .byte) =
        some (ofBits .byte 0x10) := by
  decide

end VSharp
