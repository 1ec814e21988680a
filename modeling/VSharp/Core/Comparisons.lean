import VSharp.Core.Numerals

/-!
# Core — Comparisons

The comparisons of `VSharp.SILI.Core/Arithmetics.fs`: `=`, `!=`, `<`, `<=`, `>` and `>=`, signed and
unsigned, on integral terms.

`Comparison.simplify` are the ten functions, `Comparison.compares` is what they decide.
-/

namespace VSharp
open Term Propositional Library Merging

/-! ### The code -/

namespace ILCalculator

/-- The operand of a compare instruction; a boolean is loaded as 0 or 1. -/
def operand? : Obj → Option ℤ
  | .int n => some n
  | .bool b => some (if b then 1 else 0)
  | _ => none

/-- A compare instruction on operands of types `t₁` and `t₂`, on a stack slot that both types fit. -/
def compared (instruction : {w : ℕ} → BitVec w → BitVec w → Bool) (x y : ℤ) (t₁ t₂ : Ty) : Bool :=
  let w := max 32 (max t₁.width t₂.width)
  instruction (BitVec.ofInt w x) (BitVec.ofInt w y)

def equality : ℤ → ℤ → Ty → Ty → Bool := compared fun a b => a == b

def less : ℤ → ℤ → Ty → Ty → Bool := compared fun a b => a.slt b

def lessUn : ℤ → ℤ → Ty → Ty → Bool := compared fun a b => a.ult b

def lessOrEq : ℤ → ℤ → Ty → Ty → Bool := compared fun a b => a.sle b

def lessOrEqUn : ℤ → ℤ → Ty → Ty → Bool := compared fun a b => a.ule b

def greater : ℤ → ℤ → Ty → Ty → Bool := compared fun a b => b.slt a

def greaterUn : ℤ → ℤ → Ty → Ty → Bool := compared fun a b => b.ult a

def greaterOrEq : ℤ → ℤ → Ty → Ty → Bool := compared fun a b => b.sle a

def greaterOrEqUn : ℤ → ℤ → Ty → Ty → Bool := compared fun a b => b.ule a

end ILCalculator

def concreteAddressComparison (op : OperationType) (x y : VectorTime) : Except Failure Term :=
  match op with
  | .equal => .ok (makeBool (decide (x = y)))
  | .less => .ok (makeBool (VectorTime.less x y))
  | .greater => .ok (makeBool (VectorTime.less y x))
  | .greaterOrEqual => .ok (makeBool (VectorTime.lessOrEqual y x))
  | .lessOrEqual => .ok (makeBool (VectorTime.lessOrEqual x y))
  | _ => .error (.internal "concreteAddressComparison: unexpected operation")

def concreteNumericComparison (op : OperationType) (x y : ℤ) (t₁ t₂ : Ty) : Except Failure Term :=
  match op with
  | .equal => .ok (makeBool (ILCalculator.equality x y t₁ t₂))
  | .less => .ok (makeBool (ILCalculator.less x y t₁ t₂))
  | .less_Un => .ok (makeBool (ILCalculator.lessUn x y t₁ t₂))
  | .lessOrEqual => .ok (makeBool (ILCalculator.lessOrEq x y t₁ t₂))
  | .lessOrEqual_Un => .ok (makeBool (ILCalculator.lessOrEqUn x y t₁ t₂))
  | .greater => .ok (makeBool (ILCalculator.greater x y t₁ t₂))
  | .greater_Un => .ok (makeBool (ILCalculator.greaterUn x y t₁ t₂))
  | .greaterOrEqual => .ok (makeBool (ILCalculator.greaterOrEq x y t₁ t₂))
  | .greaterOrEqual_Un => .ok (makeBool (ILCalculator.greaterOrEqUn x y t₁ t₂))
  | _ => .error (.internal "concreteNumericComparison: unexpected operation")

def simplifyConcreteComparison (op : OperationType) (x y : Obj) (t₁ t₂ : Ty) : Run Term :=
  match x, y with
  | .address a₁, .address a₂ => .lift (concreteAddressComparison op a₁ a₂)
  | x, y =>
    match ILCalculator.operand? x, ILCalculator.operand? y with
    | some m, some n => .lift (concreteNumericComparison op m n t₁ t₂)
    | _, _ => .fail (.internal "valid operands expected")

/-- The literal of a sum `Add(ConcreteT(_, t) as c, x, _)` with the other summand `y`. -/
def summand? (sum y : Term) : Option (Term × Ty) := do
  let (c, x) ← add? sum
  let (_, t) ← concrete? c
  if x = y then some (c, t) else none

/-- `simplifyComparisonExt`: a literal summand is compared with zero, for `=` and `!=` only. -/
def simplifyComparisonExt (simplifyComparison : Term → Term → Run Term) (op : OperationType)
    (resultIfSame : Bool) (x y : Term) : Run Term :=
  if x = y then pure (makeBool resultIfSame)
  else if op = .equal ∨ op = .notEqual then
    match summand? x y, summand? y x with
    | some (c, t), _ => simplifyComparison c (literal 0 t)
    | none, some (c, t) => simplifyComparison (literal 0 t) c
    | none, none => pure (makeBinary op x y .bool)
  else pure (makeBinary op x y .bool)

section
variable [HashOrder FieldId]

/-- `simplifyComparison`, with the depth of nested calls as fuel. -/
def simplifyComparison (op : OperationType) (resultIfSame : Bool) : ℕ → Term → Term → Run Term
  | 0 => fun _ _ => .fail (.internal "out of fuel")
  | n + 1 =>
    simplifyGenericBinary (simplifyConcreteComparison op)
      (simplifyComparisonExt (simplifyComparison op resultIfSame n) op resultIfSame)
      (simplifyComparison op resultIfSame n)

def simplifyEqual : ℕ → Term → Term → Run Term := simplifyComparison .equal true

def simplifyNotEqual (n : ℕ) (x y : Term) : Run Term := do
  .lift (simplifyNegation (← simplifyEqual n x y))

def simplifyLess : ℕ → Term → Term → Run Term := simplifyComparison .less false

def simplifyLessUn : ℕ → Term → Term → Run Term := simplifyComparison .less_Un false

def simplifyLessOrEqual : ℕ → Term → Term → Run Term := simplifyComparison .lessOrEqual true

def simplifyLessOrEqualUn : ℕ → Term → Term → Run Term := simplifyComparison .lessOrEqual_Un true

def simplifyGreater : ℕ → Term → Term → Run Term := simplifyComparison .greater false

def simplifyGreaterUn : ℕ → Term → Term → Run Term := simplifyComparison .greater_Un false

def simplifyGreaterOrEqual : ℕ → Term → Term → Run Term := simplifyComparison .greaterOrEqual true

def simplifyGreaterOrEqualUn : ℕ → Term → Term → Run Term :=
  simplifyComparison .greaterOrEqual_Un true

/-- The comparisons. -/
inductive Comparison where
  | equal | notEqual | less | lessUn | lessOrEqual | lessOrEqualUn
  | greater | greaterUn | greaterOrEqual | greaterOrEqualUn
deriving DecidableEq, Repr

/-- The function that simplifies a comparison. -/
def Comparison.simplify : Comparison → ℕ → Term → Term → Run Term
  | .equal => simplifyEqual
  | .notEqual => simplifyNotEqual
  | .less => simplifyLess
  | .lessUn => simplifyLessUn
  | .lessOrEqual => simplifyLessOrEqual
  | .lessOrEqualUn => simplifyLessOrEqualUn
  | .greater => simplifyGreater
  | .greaterUn => simplifyGreaterUn
  | .greaterOrEqual => simplifyGreaterOrEqual
  | .greaterOrEqualUn => simplifyGreaterOrEqualUn

end

/-- A comparison of machine integers, read as signed or as unsigned numbers. -/
def Comparison.compares {w : ℕ} (a b : BitVec w) : Comparison → Bool
  | .equal => decide (a = b)
  | .notEqual => decide (a ≠ b)
  | .less => decide (a.toInt < b.toInt)
  | .lessUn => decide (a.toNat < b.toNat)
  | .lessOrEqual => decide (a.toInt ≤ b.toInt)
  | .lessOrEqualUn => decide (a.toNat ≤ b.toNat)
  | .greater => decide (b.toInt < a.toInt)
  | .greaterUn => decide (b.toNat < a.toNat)
  | .greaterOrEqual => decide (b.toInt ≤ a.toInt)
  | .greaterOrEqualUn => decide (b.toNat ≤ a.toNat)

/-! ### What is decided -/

/-- The operation a comparison is built with; `!=` is built by negating `=`. -/
def Comparison.operator : Comparison → OperationType
  | .equal => .equal
  | .notEqual => .notEqual
  | .less => .less
  | .lessUn => .less_Un
  | .lessOrEqual => .lessOrEqual
  | .lessOrEqualUn => .lessOrEqual_Un
  | .greater => .greater
  | .greaterUn => .greater_Un
  | .greaterOrEqual => .greaterOrEqual
  | .greaterOrEqualUn => .greaterOrEqual_Un

/-- What a comparison says of two equal numbers. -/
def Comparison.resultIfSame (c : Comparison) : Bool := c.compares (0 : BitVec 32) 0

namespace Comparison
variable {w : ℕ} (a b : BitVec w)

theorem compares_self (c : Comparison) : c.compares a a = c.resultIfSame := by
  cases c <;> simp [resultIfSame, compares]

theorem compares_notEqual : Comparison.notEqual.compares a b = !Comparison.equal.compares a b := by
  simp [compares]

theorem operator_ne (c : Comparison) :
    c.operator ≠ .logicalAnd ∧ c.operator ≠ .logicalOr ∧ c.operator ≠ .logicalNot := by
  cases c <;> decide

end Comparison

theorem Comparison.simplify_eq [HashOrder FieldId] {c : Comparison} (hc : c ≠ .notEqual) :
    c.simplify = simplifyComparison c.operator c.resultIfSame := by
  cases c <;> first | rfl | exact absurd rfl hc

end VSharp
