import Mathlib.Data.List.Basic

/-!
# Utils — TypeUtils

The primitive types of the source, their sizes in a 64-bit process and the order
`isLessForNumericTypes` puts on the integral ones.

- `IntegralType` is `integralTypes`, `PrimitiveType` is `primitiveTypes`;
- `internalSizeOf` counts bytes, `numericBitSizeOf` bits;
- `isLess_iff` reads the table of wider types back as a comparison of sizes.
-/

namespace VSharp

/-- `nativeSize`, the `IntPtr.Size` of a 64-bit process. -/
def nativeSize : Nat := 8

/-- `integralTypes`. -/
inductive IntegralType where
  | byte | sbyte | int16 | uint16 | int32 | uint32 | int64 | uint64 | char | intPtr | uintPtr
deriving DecidableEq, Repr

/-- `primitiveTypes`: the integral types, the reals and `bool`. -/
inductive PrimitiveType where
  | integral (t : IntegralType)
  | single
  | double
  | bool
deriving DecidableEq, Repr

namespace IntegralType

/-- `unsignedTypes`. -/
def isUnsigned : IntegralType → Bool
  | .byte | .uint16 | .char | .uint32 | .uint64 | .uintPtr => true
  | .sbyte | .int16 | .int32 | .int64 | .intPtr => false

def isNative : IntegralType → Bool
  | .intPtr | .uintPtr => true
  | _ => false

def numericSizeOf : IntegralType → Nat
  | .byte | .sbyte => 1
  | .int16 | .uint16 | .char => 2
  | .int32 | .uint32 => 4
  | .int64 | .uint64 => 8
  | .intPtr | .uintPtr => nativeSize

def numericBitSizeOf (t : IntegralType) : Nat := t.numericSizeOf * 8

/-! ### The table of wider types -/

def widerThan8 : List IntegralType :=
  [.int32, .uint32, .int64, .uint64, .int16, .uint16, .char, .intPtr, .uintPtr]

def widerThan16 : List IntegralType :=
  [.int32, .uint32, .int64, .uint64, .intPtr, .uintPtr]

def widerThan32 : List IntegralType :=
  if nativeSize > 4 then [.int64, .uint64, .intPtr, .uintPtr] else [.int64, .uint64]

def widerThan64 : List IntegralType := []

def widerThanNative : List IntegralType :=
  if nativeSize > 4 then widerThan64 else widerThan32

/-- The entries of `isWiderForNumericTypesMap` for the integral types. -/
def isWiderForNumericTypesMap : IntegralType → List IntegralType
  | .sbyte | .byte => widerThan8
  | .int16 | .uint16 | .char => widerThan16
  | .int32 | .uint32 => widerThan32
  | .int64 | .uint64 => widerThan64
  | .intPtr | .uintPtr => widerThanNative

def isLessForNumericTypes (t₁ t₂ : IntegralType) : Bool :=
  (isWiderForNumericTypesMap t₁).contains t₂

variable {t t₁ t₂ : IntegralType}

theorem isLess_iff :
    isLessForNumericTypes t₁ t₂ = true ↔ numericBitSizeOf t₁ < numericBitSizeOf t₂ := by
  cases t₁ <;> cases t₂ <;> decide

theorem numericBitSizeOf_le (t : IntegralType) : t.numericBitSizeOf ≤ 64 := by
  cases t <;> decide

theorem numericBitSizeOf_pos (t : IntegralType) : 0 < t.numericBitSizeOf := by
  cases t <;> decide

theorem eq_or_lt_32 (t : IntegralType) : t.numericBitSizeOf = 64 ∨ t.numericBitSizeOf ≤ 32 := by
  cases t <;> decide

theorem not_native_of_lt (h : t.numericBitSizeOf < 64) : t.isNative = false := by
  cases t <;> first | rfl | exact absurd h (by decide)

end IntegralType

/-- `internalSizeOf` on the primitive types. -/
def PrimitiveType.internalSizeOf : PrimitiveType → Nat
  | .integral t => t.numericSizeOf
  | .single => 4
  | .double => 8
  | .bool => 1

theorem PrimitiveType.internalSizeOf_pos (t : PrimitiveType) : 0 < t.internalSizeOf := by
  cases t with
  | integral t => cases t <;> decide
  | _ => decide

theorem PrimitiveType.internalSizeOf_le (t : PrimitiveType) : t.internalSizeOf ≤ 8 := by
  cases t with
  | integral t => cases t <;> decide
  | _ => decide

end VSharp
