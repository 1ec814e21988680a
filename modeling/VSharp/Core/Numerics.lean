import VSharp.Core.Conditions
import VSharp.Library.MachineIntegers

/-!
# Core — Numerics

Integral terms as machine integers: the valuations in which a term of an integral type has the bits
of its width, and every operator on such terms computes as its IL instruction does.

- `MachineValue` has the truth values, the bit vectors and anything else;
- `Valuation.machine` is the interpretation a valuation of the constants gives; what the machine has
  no operation for is left to the valuation;
- `Term.value` is the bit vector of a term.
-/

namespace VSharp

namespace Ty

/-- The bits of an integral type; `0` for any other type. -/
def width : Ty → ℕ
  | .sbyte | .byte => 8
  | .int16 | .uint16 | .char => 16
  | .int32 | .uint32 => 32
  | .int64 | .uint64 | .intPtr | .uintPtr => 64
  | _ => 0

def isUnsigned : Ty → Bool
  | .byte | .uint16 | .char | .uint32 | .uint64 | .uintPtr => true
  | _ => false

/-- The types of the integers on the evaluation stack. -/
inductive IsStackInt : Ty → Prop where
  | int32 : IsStackInt .int32
  | uint32 : IsStackInt .uint32
  | int64 : IsStackInt .int64
  | uint64 : IsStackInt .uint64

variable {t : Ty}

theorem IsStackInt.width (h : IsStackInt t) : t.width = 32 ∨ t.width = 64 := by
  cases h with
  | int32 | uint32 => exact .inl rfl
  | int64 | uint64 => exact .inr rfl

theorem IsStackInt.width_pos (h : IsStackInt t) : 0 < t.width := by
  rcases h.width with h | h <;> omega

theorem IsStackInt.ne_bool (h : IsStackInt t) : t ≠ .bool := by
  cases h <;> decide

end Ty

/-- The values of terms. -/
inductive MachineValue where
  | bool (b : Bool)
  | bits (w : ℕ) (b : BitVec w)
  | other (id : ℕ)

namespace MachineValue

/-- The low `w` bits of a value. -/
def num (w : ℕ) : MachineValue → BitVec w
  | .bits _ b => b.setWidth w
  | _ => 0

@[simp] theorem num_bits {w : ℕ} (b : BitVec w) : (bits w b).num w = b := BitVec.setWidth_eq b

/-- The truth value of a value: a number is true unless it is zero. -/
def toBool : MachineValue → Bool
  | .bool b => b
  | .bits _ b => b != 0
  | .other _ => false

/-- The conversion to a type: an integral target takes the bits, extended by its signedness. -/
def cast (t : Ty) (v : MachineValue) : MachineValue :=
  if t = .bool then .bool v.toBool
  else if t.width = 0 then v
  else match v with
    | .bool b => .bits t.width (if b then 1 else 0)
    | .bits _ b => .bits t.width (if t.isUnsigned then b.setWidth _ else b.signExtend _)
    | .other id => .other id

theorem cast_bits {t : Ty} (h : t.IsStackInt) (b : BitVec t.width) :
    (bits t.width b).cast t = .bits t.width b := by
  unfold cast
  rw [if_neg h.ne_bool, if_neg h.width_pos.ne']
  cases t.isUnsigned <;> simp

end MachineValue

/-- Values of the constants, and of everything the machine integers leave open. -/
structure Valuation where
  bits : Source → (t : Ty) → BitVec t.width
  truth : Source → Bool
  constant : Source → Ty → MachineValue
  concrete : Obj → Ty → MachineValue
  operator : OperationType → List MachineValue → MachineValue
  application : StandardFunction → List MachineValue → MachineValue
  combine : List MachineValue → Ty → MachineValue
  struct : Ty → (FieldId → Option MachineValue) → MachineValue
  heapRef : MachineValue → Ty → MachineValue
  ref : Address MachineValue → MachineValue
  ptr : PointerBase MachineValue → Ty → MachineValue → MachineValue
  slice : MachineValue → List (MachineValue × MachineValue × MachineValue × Bool) → MachineValue

namespace Valuation
variable (ρ : Valuation)

/-- The operators on machine integers; the second operand of an operator that is no shift has the
width of the first. -/
def machineOperator : OperationType → List MachineValue → MachineValue
  | .unaryMinus, [.bits w a] => .bits w (-a)
  | .bitwiseNot, [.bits w a] => .bits w (~~~a)
  | .add, [.bits w a, b] => .bits w (a + b.num w)
  | .subtract, [.bits w a, b] => .bits w (a - b.num w)
  | .multiply, [.bits w a, b] => .bits w (a * b.num w)
  | .divide, [.bits w a, b] => .bits w (a.sdiv (b.num w))
  | .divide_Un, [.bits w a, b] => .bits w (a.udiv (b.num w))
  | .remainder, [.bits w a, b] => .bits w (a.srem (b.num w))
  | .remainder_Un, [.bits w a, b] => .bits w (a.umod (b.num w))
  | .bitwiseAnd, [.bits w a, b] => .bits w (a &&& b.num w)
  | .bitwiseOr, [.bits w a, b] => .bits w (a ||| b.num w)
  | .bitwiseXor, [.bits w a, b] => .bits w (a ^^^ b.num w)
  | .shiftLeft, [.bits w a, .bits _ b] => .bits w (a <<< b.toNat)
  | .shiftRight, [.bits w a, .bits _ b] => .bits w (a.sshiftRight b.toNat)
  | .shiftRight_Un, [.bits w a, .bits _ b] => .bits w (a >>> b.toNat)
  | .equal, [.bits w a, b] => .bool (a == b.num w)
  | .notEqual, [.bits w a, b] => .bool (a != b.num w)
  | .less, [.bits w a, b] => .bool (a.slt (b.num w))
  | .less_Un, [.bits w a, b] => .bool (a.ult (b.num w))
  | .lessOrEqual, [.bits w a, b] => .bool (a.sle (b.num w))
  | .lessOrEqual_Un, [.bits w a, b] => .bool (a.ule (b.num w))
  | .greater, [.bits w a, b] => .bool ((b.num w).slt a)
  | .greater_Un, [.bits w a, b] => .bool ((b.num w).ult a)
  | .greaterOrEqual, [.bits w a, b] => .bool ((b.num w).sle a)
  | .greaterOrEqual_Un, [.bits w a, b] => .bool ((b.num w).ule a)
  | .addNoOvf, [.bits w a, b] => .bool !(a.saddOverflow (b.num w))
  | .addNoOvf_Un, [.bits w a, b] => .bool !(a.uaddOverflow (b.num w))
  | .subNoOvf, [.bits w a, b] => .bool !(a.ssubOverflow (b.num w))
  | .subNoOvf_Un, [.bits w a, b] => .bool !(a.usubOverflow (b.num w))
  | .multiplyNoOvf, [.bits w a, b] => .bool !(a.smulOverflow (b.num w))
  | .multiplyNoOvf_Un, [.bits w a, b] => .bool !(a.umulOverflow (b.num w))
  | op, vs => ρ.operator op vs

/-- A valuation that gives each constant a number; whatever else there is has one value. -/
def constants (f : Source → ℤ) : Valuation where
  bits c _ := BitVec.ofInt _ (f c)
  truth c := f c != 0
  constant _ _ := .other 0
  concrete _ _ := .other 0
  operator _ _ := .other 0
  application _ _ := .other 0
  combine _ _ := .other 0
  struct _ _ := .other 0
  heapRef _ _ := .other 0
  ref _ := .other 0
  ptr _ _ _ := .other 0
  slice _ _ := .other 0

/-- The interpretation of terms under a valuation. -/
def machine : Interp MachineValue where
  ofBool := .bool
  truth
    | .bool b => b
    | _ => false
  truth_ofBool _ := rfl
  nop := .other 0
  concrete
    | .bool b, _ => .bool b
    | .int n, t => .bits t.width (BitVec.ofInt _ n)
    | o, t => ρ.concrete o t
  concrete_bool _ := rfl
  constant c t :=
    if t = .bool then .bool (ρ.truth c)
    else if t.width = 0 then ρ.constant c t
    else .bits t.width (ρ.bits c t)
  constant_bool _ := rfl
  operator := ρ.machineOperator
  application := ρ.application
  cast := MachineValue.cast
  cast_ofBool _ := rfl
  cast_bool _ := rfl
  combine vs t := if t = .bool then .bool (ρ.combine vs t).toBool else ρ.combine vs t
  combine_bool _ := rfl
  struct := ρ.struct
  heapRef := ρ.heapRef
  ref := ρ.ref
  ptr := ρ.ptr
  slice := ρ.slice

end Valuation

/-- The bits of an integral term of width `w`. -/
def Term.value (ρ : Valuation) (w : ℕ) (x : Term) : BitVec w := (x.eval ρ.machine).num w

namespace Term
variable {t : Ty} {x y : Term} {op : OperationType} {xs : List Term}

theorem value_eq {ρ : Valuation} {w : ℕ} {b : BitVec w} (h : x.eval ρ.machine = .bits w b) :
    x.value ρ w = b := by
  rw [value, h, MachineValue.num_bits]

/-! ### The terms of an integral type -/

theorem eval_literal (ρ : Valuation) (n : ℤ) (t : Ty) :
    (Term.concrete (.int n) t).eval ρ.machine = .bits t.width (BitVec.ofInt _ n) := rfl

theorem eval_constant (ρ : Valuation) (ht : t.IsStackInt) (c : Source) :
    (Term.constant c t).eval ρ.machine = .bits t.width (ρ.bits c t) := by
  show (if t = .bool then _ else _ : MachineValue) = _
  rw [if_neg ht.ne_bool, if_neg ht.width_pos.ne']

theorem operatorValue_eq (ρ : Valuation) (vs : List MachineValue)
    (hop : op ≠ .logicalAnd ∧ op ≠ .logicalOr ∧ op ≠ .logicalNot) :
    ρ.machine.operatorValue op vs = ρ.machineOperator op vs := by
  obtain ⟨h₁, h₂, h₃⟩ := hop
  unfold Interp.operatorValue
  split <;> first | contradiction | rfl

/-- An expression of an operator the machine has, on operands of the type. -/
theorem eval_operator (ρ : Valuation) {b : BitVec t.width} (ht : t.IsStackInt)
    (hop : op ≠ .logicalAnd ∧ op ≠ .logicalOr ∧ op ≠ .logicalNot)
    (h : ρ.machineOperator op (xs.map (eval ρ.machine)) = .bits t.width b) :
    (Term.expression (.operator op) xs t).eval ρ.machine = .bits t.width b := by
  rw [eval, evalList_eq]
  show ρ.machine.cast t _ = _
  rw [operatorValue_eq ρ _ hop, h]
  exact MachineValue.cast_bits ht b

/-- A comparison, or a check, of operands. -/
theorem holds_operator (ρ : Valuation) {b : Bool}
    (hop : op ≠ .logicalAnd ∧ op ≠ .logicalOr ∧ op ≠ .logicalNot)
    (h : ρ.machineOperator op (xs.map (eval ρ.machine)) = .bool b) :
    (Term.expression (.operator op) xs .bool).holds ρ.machine = b := by
  rw [holds, eval, evalList_eq]
  show ρ.machine.truth (ρ.machine.cast .bool _) = _
  rw [operatorValue_eq ρ _ hop, h]
  rfl

end Term

end VSharp
