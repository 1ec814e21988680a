import VSharp.Utils.TypeUtils

/-!
# Solver — Casts

The two ways of converting an integral value: `encodeCast`, the bit-vector expression the encoder
builds for a `Cast`, and `castConcrete`, the conversion of a boxed value by a dynamic method of
three instructions (`unbox.any`, a `conv` opcode, `box`).

- the encoder extends a value by the signedness of the target;
- the dynamic method extends it twice: to the evaluation stack by the signedness of the source, and
  from there by the signedness of the target;
- `encodeCast_eq_castConcrete_iff` says when the two agree.
-/

namespace VSharp
open IntegralType BitVec

/-! ### The concrete conversion -/

/-- An integer of the evaluation stack; a native one has 64 bits. -/
inductive StackValue where
  | int32 (v : BitVec 32)
  | int64 (v : BitVec 64)
  | nativeInt (v : BitVec 64)
deriving DecidableEq, Repr

/-- The `conv` opcodes with an integral target. -/
inductive ConvOpCode where
  | convI1 | convI2 | convI4 | convI8 | convU1 | convU2 | convU4 | convU8 | convI | convU
deriving DecidableEq, Repr

def emitConv : IntegralType → ConvOpCode
  | .sbyte => .convI1
  | .int16 => .convI2
  | .int32 => .convI4
  | .int64 => .convI8
  | .byte => .convU1
  | .char => .convU2
  | .uint16 => .convU2
  | .uint32 => .convU4
  | .uint64 => .convU8
  | .intPtr => .convI
  | .uintPtr => .convU

namespace StackValue

/-- The bits of the slot. -/
def slot : StackValue → (n : Nat) × BitVec n
  | .int32 v => ⟨32, v⟩
  | .int64 v | .nativeInt v => ⟨64, v⟩

/-- Truncation to the low `n` bits. -/
def truncate (n : Nat) (s : StackValue) : BitVec n := s.slot.2.setWidth n

/-- Extension to 64 bits, which leaves a 64-bit slot as it is. -/
def extend (unsigned : Bool) (s : StackValue) : BitVec 64 :=
  if unsigned then s.slot.2.setWidth 64 else s.slot.2.signExtend 64

end StackValue

/-- What a `conv` opcode leaves on the stack.  A result of less than 32 bits is extended to `int32`
by the signedness of the opcode. -/
def ConvOpCode.execute (s : StackValue) : ConvOpCode → StackValue
  | .convI1 => .int32 ((s.truncate 8).signExtend 32)
  | .convI2 => .int32 ((s.truncate 16).signExtend 32)
  | .convI4 => .int32 (s.truncate 32)
  | .convI8 => .int64 (s.extend false)
  | .convU1 => .int32 ((s.truncate 8).setWidth 32)
  | .convU2 => .int32 ((s.truncate 16).setWidth 32)
  | .convU4 => .int32 (s.truncate 32)
  | .convU8 => .int64 (s.extend true)
  | .convI => .nativeInt (s.extend false)
  | .convU => .nativeInt (s.extend true)

/-- `unbox.any`: a value of less than 32 bits is loaded by the signedness of its type. -/
def unboxAny (t : IntegralType) (v : BitVec t.numericBitSizeOf) : StackValue :=
  if t.isNative then .nativeInt (v.setWidth 64)
  else if t.numericBitSizeOf = 64 then .int64 (v.setWidth 64)
  else if t.isUnsigned then .int32 (v.setWidth 32)
  else .int32 (v.signExtend 32)

/-- `box` keeps the low bits of the slot. -/
def box (t : IntegralType) (s : StackValue) : BitVec t.numericBitSizeOf :=
  s.truncate t.numericBitSizeOf

/-- `createNumericConv` and its call. -/
def convNumeric (t₁ t₂ : IntegralType) (v : BitVec t₁.numericBitSizeOf) :
    BitVec t₂.numericBitSizeOf :=
  box t₂ ((emitConv t₂).execute (unboxAny t₁ v))

/-- `castConcrete` between integral types. -/
def castConcrete (t₁ t₂ : IntegralType) (v : BitVec t₁.numericBitSizeOf) :
    BitVec t₂.numericBitSizeOf :=
  if h : t₁ = t₂ then v.cast (by rw [h])
  -- the constructor `IntPtr(int)` keeps the sign, `UIntPtr(uint)` has none
  else if t₁ = .int32 ∧ t₂ = .intPtr then v.signExtend _
  else if t₁ = .uint32 ∧ t₂ = .uintPtr then v.setWidth _
  else convNumeric t₁ t₂ v

/-! ### The encoded conversion -/

/-- `EncodeExpression` of `Cast(t₁, t₂)` on an argument of value `v`; `none` where it fails. -/
def encodeCast (t₁ t₂ : IntegralType) (v : BitVec t₁.numericBitSizeOf) :
    Option (BitVec t₂.numericBitSizeOf) :=
  if isLessForNumericTypes t₁ t₂ then
    let extend := if t₂.isUnsigned then v.setWidth _ else v.signExtend _
    some extend
  else if isLessForNumericTypes t₂ t₁ then some (v.extractLsb' 0 _)
  else if h : t₁.numericBitSizeOf = t₂.numericBitSizeOf then some (v.cast h)
  else none

/-! ### Extension by a signedness -/

/-- Zero or sign extension of `v` to `n` bits. -/
def extendTo (unsigned : Bool) (n : Nat) {m : Nat} (v : BitVec m) : BitVec n :=
  if unsigned then v.setWidth n else v.signExtend n

section
variable {m n k : Nat} {u : Bool} {v : BitVec m}

@[simp] theorem extendTo_true : extendTo true n v = v.setWidth n := rfl

@[simp] theorem extendTo_false : extendTo false n v = v.signExtend n := rfl

theorem extendTo_self : extendTo u m v = v := by
  cases u <;> simp

theorem extendTo_extendTo_of_eq {u' : Bool} (h : k = m) :
    extendTo u n (extendTo u' k v) = extendTo u n v := by
  subst h
  rw [extendTo_self]

theorem extendTo_eq_setWidth_of_le (h : n ≤ m) : extendTo u n v = v.setWidth n := by
  cases u with
  | true => rfl
  | false => exact signExtend_eq_setWidth_of_le v h

theorem extendTo_eq_setWidth (h : v.msb = false) : extendTo u n v = v.setWidth n := by
  cases u with
  | true => rfl
  | false => exact signExtend_eq_setWidth_of_msb_false h

theorem getLsbD_extendTo (i : Nat) :
    (extendTo u n v).getLsbD i =
      (decide (i < n) && if i < m then v.getLsbD i else !u && v.msb) := by
  cases u with
  | true =>
    rw [extendTo_true, getLsbD_setWidth]
    split
    case isTrue => rfl
    case isFalse h => rw [getLsbD_of_ge v i (by omega)]; rfl
  | false => rw [extendTo_false, getLsbD_signExtend]; rfl

theorem msb_extendTo (h : m < n) : (extendTo u n v).msb = (!u && v.msb) := by
  rw [msb_eq_getLsbD_last, getLsbD_extendTo, if_neg (by omega)]
  simp [show n - 1 < n by omega]

theorem setWidth_extendTo (h : n ≤ k) : (extendTo u k v).setWidth n = extendTo u n v := by
  apply eq_of_getLsbD_eq
  intro i hi
  have hk : i < k := by omega
  simp only [getLsbD_setWidth, getLsbD_extendTo, hi, hk, decide_true, Bool.true_and]

theorem extendTo_extendTo (h : m < k) : extendTo u n (extendTo u k v) = extendTo u n v := by
  apply eq_of_getLsbD_eq
  intro i hi
  rw [getLsbD_extendTo, getLsbD_extendTo, getLsbD_extendTo, msb_extendTo h]
  by_cases hk : i < k
  · simp [hk]
  · have hm : ¬ i < m := by omega
    simp [hk, hm]

/-- Extending by one signedness and then by the other is extending by the second only where the
sign bit is clear. -/
theorem extendTo_not_eq_iff (hk : m < k) (hn : m < n) (h : n ≤ 64) :
    (extendTo u 64 (extendTo (!u) k v)).setWidth n = extendTo u n v ↔ v.msb = false := by
  constructor
  · intro he
    -- the first bit above the value is a copy of the sign on one side and clear on the other
    have hbit := congrArg (·.getLsbD m) he
    have h64 : m < 64 := by omega
    simp only [getLsbD_setWidth, getLsbD_extendTo, hn, hk, h64, decide_true, Bool.true_and,
      if_true, Nat.lt_irrefl, if_false] at hbit
    cases u <;> simpa using hbit
  · intro hv
    have hmsb : (v.setWidth k).msb = false := by
      rw [← extendTo_true, msb_extendTo hk]; rfl
    rw [extendTo_eq_setWidth hv, extendTo_eq_setWidth hmsb, extendTo_eq_setWidth hv,
      setWidth_setWidth_of_le _ h, setWidth_setWidth (by omega)]

end

/-! ### The concrete conversion as an extension -/

namespace StackValue

variable {s : StackValue} {n : Nat}

theorem setWidth_extend {u : Bool} (h : n ≤ 32) : (s.extend u).setWidth n = s.truncate n := by
  have hslot : n ≤ s.slot.1 := by
    cases s with
    | int32 => exact h
    | int64 => exact Nat.le_trans h (show 32 ≤ 64 by decide)
    | nativeInt => exact Nat.le_trans h (show 32 ≤ 64 by decide)
  exact (setWidth_extendTo (by omega)).trans (extendTo_eq_setWidth_of_le hslot)

/-- A truncation put back on the stack and boxed, whatever the slot is extended by. -/
theorem truncate_int32_extendTo {u u' : Bool} (h : n ≤ 32) :
    (int32 (extendTo u 32 (s.truncate n))).truncate n = (s.extend u').setWidth n := by
  rw [setWidth_extend h]
  exact (setWidth_extendTo h).trans extendTo_self

end StackValue

open StackValue in
/-- What is boxed are the low bits of the slot, extended by the signedness of the target. -/
theorem box_execute (t : IntegralType) (s : StackValue) :
    box t ((emitConv t).execute s) = (s.extend t.isUnsigned).setWidth t.numericBitSizeOf := by
  cases t with
  | byte => exact truncate_int32_extendTo (u := true) (by decide)
  | sbyte => exact truncate_int32_extendTo (u := false) (by decide)
  | uint16 => exact truncate_int32_extendTo (u := true) (by decide)
  | char => exact truncate_int32_extendTo (u := true) (by decide)
  | int16 => exact truncate_int32_extendTo (u := false) (by decide)
  | int32 => exact (setWidth_eq _).trans (setWidth_extend (by decide)).symm
  | uint32 => exact (setWidth_eq _).trans (setWidth_extend (by decide)).symm
  | int64 => rfl
  | uint64 => rfl
  | intPtr => rfl
  | uintPtr => rfl

variable {t₁ t₂ : IntegralType} {v : BitVec t₁.numericBitSizeOf} {u : Bool}

theorem extend_unboxAny_of_eq (h : t₁.numericBitSizeOf = 64) :
    (unboxAny t₁ v).extend u = v.setWidth 64 := by
  unfold unboxAny
  rw [if_pos h]
  split <;> exact extendTo_self

theorem extend_unboxAny_of_lt (h : t₁.numericBitSizeOf < 64) :
    (unboxAny t₁ v).extend u = extendTo u 64 (extendTo t₁.isUnsigned 32 v) := by
  have hn := not_native_of_lt h
  unfold unboxAny
  rw [hn, if_neg (by decide), if_neg (by omega)]
  cases t₁.isUnsigned <;> rfl

theorem setWidth_extend_unboxAny (h : t₂.numericBitSizeOf ≤ t₁.numericBitSizeOf) :
    ((unboxAny t₁ v).extend u).setWidth t₂.numericBitSizeOf = v.setWidth _ := by
  rcases eq_or_lt_32 t₁ with h64 | h32
  · rw [extend_unboxAny_of_eq h64, setWidth_setWidth_of_le _ (h64 ▸ h)]
  · rw [extend_unboxAny_of_lt (by omega), setWidth_extendTo (by omega),
      extendTo_eq_setWidth_of_le (by omega), setWidth_extendTo (by omega),
      extendTo_eq_setWidth_of_le h]

/-- The special cases of `castConcrete` do what the dynamic method does. -/
theorem castConcrete_eq (v : BitVec t₁.numericBitSizeOf) :
    castConcrete t₁ t₂ v = ((unboxAny t₁ v).extend t₂.isUnsigned).setWidth t₂.numericBitSizeOf := by
  unfold castConcrete
  split
  case isTrue h =>
    subst h
    rw [setWidth_extend_unboxAny (Nat.le_refl _), setWidth_eq, BitVec.cast_eq]
  case isFalse =>
    split
    case isTrue h =>
      obtain ⟨rfl, rfl⟩ := h
      rw [extend_unboxAny_of_lt (by decide), extendTo_extendTo_of_eq (by decide),
        setWidth_extendTo (by decide)]
      rfl
    case isFalse =>
      split
      case isTrue h =>
        obtain ⟨rfl, rfl⟩ := h
        rw [extend_unboxAny_of_lt (by decide), extendTo_extendTo_of_eq (by decide),
          setWidth_extendTo (by decide)]
        rfl
      case isFalse => exact box_execute t₂ _

/-! ### Agreement -/

theorem encodeCast_of_lt (h : t₁.numericBitSizeOf < t₂.numericBitSizeOf) :
    encodeCast t₁ t₂ v = some (extendTo t₂.isUnsigned _ v) := by
  unfold encodeCast
  rw [if_pos (isLess_iff.mpr h)]
  rfl

theorem encodeCast_of_le (h : t₂.numericBitSizeOf ≤ t₁.numericBitSizeOf) :
    encodeCast t₁ t₂ v = some (v.setWidth _) := by
  unfold encodeCast
  rw [if_neg (by rw [isLess_iff]; omega)]
  split
  case isTrue => rw [setWidth_eq_extractLsb' h]
  case isFalse h' =>
    rw [isLess_iff] at h'
    have he : t₁.numericBitSizeOf = t₂.numericBitSizeOf := by omega
    rw [dif_pos he, ← cast_setWidth he, setWidth_eq]

/-- The encoder's cast has the bits of the concrete conversion except for a negative, or large,
value of less than 32 bits widened to a type of the other signedness. -/
theorem encodeCast_eq_castConcrete_iff (t₁ t₂ : IntegralType) (v : BitVec t₁.numericBitSizeOf) :
    encodeCast t₁ t₂ v = some (castConcrete t₁ t₂ v) ↔
      ¬(t₁.numericBitSizeOf < 32 ∧ t₁.numericBitSizeOf < t₂.numericBitSizeOf ∧
        t₁.isUnsigned ≠ t₂.isUnsigned ∧ v.msb = true) := by
  rw [castConcrete_eq]
  rcases Nat.lt_or_ge t₁.numericBitSizeOf t₂.numericBitSizeOf with hlt | hle
  · have h64 := numericBitSizeOf_le t₂
    rw [encodeCast_of_lt hlt, extend_unboxAny_of_lt (by omega), Option.some_inj, eq_comm]
    rcases Nat.lt_or_ge t₁.numericBitSizeOf 32 with h32 | h32
    · by_cases hu : t₁.isUnsigned = t₂.isUnsigned
      · rw [hu, extendTo_extendTo h32, setWidth_extendTo h64]
        simp
      · rw [Bool.eq_not.mpr hu, extendTo_not_eq_iff h32 hlt h64]
        simp [h32, hlt]
    · have h32' : t₁.numericBitSizeOf = 32 := by
        rcases eq_or_lt_32 t₁ with h | h <;> omega
      rw [extendTo_extendTo_of_eq h32'.symm, setWidth_extendTo h64]
      simp only [true_iff]
      rintro ⟨h, -⟩
      omega
  · rw [encodeCast_of_le hle, setWidth_extend_unboxAny hle]
    simp only [true_iff]
    rintro ⟨-, hlt, -, -⟩
    omega

/-- The byte `0x80` as an `int16`: the encoder makes it `0xFF80`, the conversion `0x0080`. -/
theorem encodeCast_copies_top_bit :
    encodeCast .byte .int16 0x80#8 ≠ some (castConcrete .byte .int16 0x80#8) := by
  decide

end VSharp
