import VSharp.Core.Merging
import VSharp.Core.Numerics

/-!
# Core — Arithmetics

The arithmetic simplifiers of `VSharp.SILI.Core/Arithmetics.fs` on integral terms: `+`, unary `-`,
`*`, `/`, `%` and the shifts.

- the simplifiers call each other without an order the code gives; here the functions a simplifier
  calls are a record (`Simplifiers`), and the simplifiers themselves are its iterates
  (`simplifiers`), with the number of nested calls as fuel;
- `matched` and `unmatched` are the two cases of an `Option`: a rule that applies gives its result,
  a rule that does not gives `none`;
- some rules hold of the integers and not of machine integers.  A run notes where it applies one
  (`doubt`), with the operands it depends on.  The note changes nothing else;
- casts are left out: `ShiftRightThroughCast`, the pattern of a right shift under a cast, is not
  among the patterns of `simplifyDivision`.
-/

namespace VSharp
open Term

/-! ### Runs -/

/-- The application of a rule that need not hold, with the operands it depends on. -/
inductive Doubt where
  /-- `(a / y) * b * y` becomes `a * b`. -/
  | cancelFactor (isSigned : Bool) (a y b : Term)
  /-- `(a / b) * y` becomes `(a * y) / b`. -/
  | multiplyDividend (isSigned : Bool) (a b y : Term)
  /-- `(a / (y * d)) * y` becomes `a / d`. -/
  | cancelDivisor (isSigned : Bool) (a y d : Term)
  /-- A shifted `a` times the smallest number becomes the shifted `a`. -/
  | minValueFactor (shifted : Term)
  /-- Under an unsigned operation `x / -1` becomes `-x`, and `x % -1` zero. -/
  | minusOneDivisor (x : Term)
  /-- `x / x` becomes 1. -/
  | selfDivisor (x : Term)
  /-- `x / -x` becomes −1. -/
  | oppositeDivisor (isSigned : Bool) (x : Term)
  /-- Under an unsigned operation `x % -x` becomes zero. -/
  | oppositeModulus (x : Term)
  /-- Under an unsigned operation `x` by the smallest number becomes `x`. -/
  | minValueDivisor (x : Term)
  /-- A shift to the right or a quotient of `a` is taken for one of the other signedness. -/
  | signedOnUnsigned (a : Term)
  /-- `(a * b) % y` becomes zero, where `y` divides `a`. -/
  | multiple (isSigned : Bool) (a b y : Term)

/-- A call of a simplifier, with the doubtful rules it applied. -/
def Run (α : Type) : Type := Except Failure (α × List Doubt)

namespace Run
variable {α β : Type}

protected def pure (a : α) : Run α := .ok (a, [])

protected def bind (x : Run α) (f : α → Run β) : Run β :=
  match x with
  | .error e => .error e
  | .ok (a, d) =>
    match f a with
    | .error e => .error e
    | .ok (b, d') => .ok (b, d ++ d')

instance : Monad Run where
  pure := Run.pure
  bind := Run.bind

/-- A computation that applies no rule. -/
def lift (x : Except Failure α) : Run α :=
  match x with
  | .error e => .error e
  | .ok a => .ok (a, [])

def fail (e : Failure) : Run α := .error e

/-- A run that begins with the application of a doubtful rule. -/
def doubt (rule : Doubt) (x : Run α) : Run α :=
  match x with
  | .error e => .error e
  | .ok (a, d) => .ok (a, rule :: d)

end Run

open Run (doubt)

/-! ### Concrete numbers -/

namespace ILCalculator

/-- The stack slot of a number of type `t`. -/
def slot (t : Ty) (n : ℤ) : BitVec t.width := BitVec.ofInt _ n

/-- A number boxed from the bits of type `t`. -/
def boxed (t : Ty) (b : BitVec t.width) : ℤ := MachineInteger.read t.isUnsigned b

def add (x y : ℤ) (t : Ty) : ℤ := boxed t (slot t x + slot t y)

def sub (x y : ℤ) (t : Ty) : ℤ := boxed t (slot t x - slot t y)

def mul (x y : ℤ) (t : Ty) : ℤ := boxed t (slot t x * slot t y)

/-- `div` and `rem` raise for a zero divisor, and for the smallest number by −1. -/
def signedDivision (x y : ℤ) (t : Ty) (f : BitVec t.width → BitVec t.width → BitVec t.width) :
    Except Failure ℤ :=
  if slot t y = 0 then .error (.internal "DivideByZeroException")
  else if slot t x = BitVec.intMin _ ∧ slot t y = BitVec.allOnes _ then
    .error (.internal "OverflowException")
  else .ok (boxed t (f (slot t x) (slot t y)))

def div (x y : ℤ) (t : Ty) : Except Failure ℤ := signedDivision x y t BitVec.sdiv

def rem (x y : ℤ) (t : Ty) : Except Failure ℤ := signedDivision x y t BitVec.srem

/-- `divUn` and `remUn` raise for a zero divisor. -/
def unsignedDivision (x y : ℤ) (t : Ty) (f : BitVec t.width → BitVec t.width → BitVec t.width) :
    Except Failure ℤ :=
  if slot t y = 0 then .error (.internal "DivideByZeroException")
  else .ok (boxed t (f (slot t x) (slot t y)))

def divUn (x y : ℤ) (t : Ty) : Except Failure ℤ := unsignedDivision x y t BitVec.udiv

def remUn (x y : ℤ) (t : Ty) : Except Failure ℤ := unsignedDivision x y t BitVec.umod

/-- The amount of a shift is an `int32`. -/
def amount (y : ℤ) : ℕ := (slot .int32 y).toNat

def shiftLeft (x y : ℤ) (t : Ty) : ℤ := boxed t (slot t x <<< amount y)

def shiftRight (x y : ℤ) (t : Ty) : ℤ := boxed t ((slot t x).sshiftRight (amount y))

def shiftRightUn (x y : ℤ) (t : Ty) : ℤ := boxed t (slot t x >>> amount y)

def compare (x y : ℤ) : ℤ := if x = y then 0 else if y < x then 1 else -1

def isZero (x : ℤ) : Bool := x == 0

def equal (x y : ℤ) : Bool := x == y

/-- A number of type `t` that is not zero and has no bit in common with its predecessor. -/
def isPowOfTwo (t : Ty) (x : ℤ) : Bool :=
  slot t x != 0 && (slot t x &&& (slot t x - 1)) == 0

end ILCalculator

/-- `Calculator.WhatPowerOf2`: `(uint) Math.Log2(x)`, which is `0` for a negative number. -/
def whatPowerOf2 (x : ℤ) : ℤ := (Nat.log2 x.toNat : ℕ)

/-! ### The shapes of terms -/

/-- `ConcreteT`, of a number. -/
def concrete? : Term → Option (ℤ × Ty)
  | .concrete (.int n) t => some (n, t)
  | _ => none

def isConcrete : Term → Bool
  | .concrete _ _ => true
  | _ => false

def isExpression : Term → Bool
  | .expression _ _ _ => true
  | _ => false

/-- `UnaryMinus`. -/
def unaryMinus? : Term → Option Term
  | .expression (.operator .unaryMinus) [x] _ => some x
  | _ => none

/-- `Add`. -/
def add? : Term → Option (Term × Term)
  | .expression (.operator .add) [x, y] _ => some (x, y)
  | _ => none

/-- `Mul`. -/
def mul? : Term → Option (Term × Term)
  | .expression (.operator .multiply) [x, y] _ => some (x, y)
  | _ => none

/-- `Div`, with its signedness. -/
def div? : Term → Option (Term × Term × Bool)
  | .expression (.operator .divide) [x, y] _ => some (x, y, true)
  | .expression (.operator .divide_Un) [x, y] _ => some (x, y, false)
  | _ => none

/-- `ShiftLeft`. -/
def shiftLeft? : Term → Option (Term × Term)
  | .expression (.operator .shiftLeft) [x, y] _ => some (x, y)
  | _ => none

/-- `ShiftRight`, with its signedness. -/
def shiftRight? : Term → Option (Term × Term × Bool)
  | .expression (.operator .shiftRight) [x, y] _ => some (x, y, true)
  | .expression (.operator .shiftRight_Un) [x, y] _ => some (x, y, false)
  | _ => none

/-- `castConcrete` of a number of the type. -/
def literal (n : ℤ) (t : Ty) : Term := .concrete (.int n) t

def makeBinary (op : OperationType) (x y : Term) (t : Ty) : Term :=
  .expression (.operator op) [x, y] t

/-- `bitSizeOf`, and `sizeOf` in bits, of a term that is no union. -/
def bitSizeOf (x : Term) : ℤ :=
  match typeOf x with
  | .ok t => t.width
  | .error _ => 0

/-- `typeOf x |> isUnsigned`. -/
def hasUnsignedType (x : Term) : Bool :=
  match typeOf x with
  | .ok t => t.isUnsigned
  | .error _ => false

/-- The operation of a division. -/
def divisionOp (isSigned : Bool) : OperationType := if isSigned then .divide else .divide_Un

/-- The operation of a right shift. -/
def shiftRightOp (isSigned : Bool) : OperationType :=
  if isSigned then .shiftRight else .shiftRight_Un

/-! ### Distribution over unions -/

section
variable [HashOrder FieldId]

/-- `Merging.merge`, in a run. -/
def mergeRun (ite : List (Term × Term) × Term) : Run Term :=
  .lift (Merging.merge ⟨ite.1, ite.2⟩)

/-- A function of a boxed number. -/
def onNumber (f : ℤ → Run Term) (x : Obj) (_ : Ty) : Run Term :=
  match x with
  | .int n => f n
  | _ => .fail (.internal "numeric operand expected")

/-- `simplifyConcreteBinary`, of boxed numbers. -/
def onNumbers (f : ℤ → ℤ → Run Term) (x y : Obj) (_ _ : Ty) : Run Term :=
  match x, y with
  | .int m, .int n => f m n
  | _, _ => .fail (.internal "numeric operands expected")

def simplifyGenericUnary (concrete : Obj → Ty → Run Term) (unmatched again : Term → Run Term) :
    Term → Run Term
  | .concrete x t => concrete x t
  | .ite branches e => do
      let values' ← (iteAsGvs branches e).mapM fun gv => do
        let v ← again gv.2
        return (gv.1, v)
      mergeRun (← .lift (fromGvs values'))
  | x => unmatched x

def simplifyGenericBinary (concrete : Obj → Obj → Ty → Ty → Run Term)
    (unmatched again : Term → Term → Run Term) : Term → Term → Run Term
  | .concrete x t, .concrete y t' => concrete x y t t'
  | .ite bs e, .ite bs' e' => do
      let rows ← (iteAsGvs bs e).mapM fun gvx => (iteAsGvs bs' e').mapM fun gvy => do
        let xy ← again gvx.2 gvy.2
        let g ← .lift (Propositional.simplifyAnd gvx.1 gvy.1)
        return (g, xy)
      mergeRun (← .lift (fromGvs rows.flatten))
  | .ite bs e, y => do
      let branches' ← bs.mapM fun gx => do
        let x' ← again gx.2 y
        return (gx.1, x')
      let ey ← again e y
      mergeRun (branches', ey)
  | x, .ite bs e => do
      let branches' ← bs.mapM fun gy => do
        let x' ← again x gy.2
        return (gy.1, x')
      let xe ← again x e
      mergeRun (branches', xe)
  | x, y => unmatched x y

end

/-! ### The simplifiers -/

/-- The simplifiers that call each other. -/
structure Simplifiers where
  addition : Ty → Term → Term → Run Term
  unaryMinus : Ty → Term → Run Term
  multiplication : Ty → Term → Term → Run Term
  division : Bool → Ty → Term → Term → Run Term
  shift : OperationType → Ty → Term → Term → Run Term

/-- A rule under a condition. -/
def rule (c : Prop) [Decidable c] (run : Run Term) : Option (Run Term) :=
  if c then some run else none

namespace Simplifiers
variable (S : Simplifiers)

/-! #### Addition -/

/-- `simplifyAdditionToSum`: `(a + b) + y`. -/
def simplifyAdditionToSum (t : Ty) (a b y : Term) : Option (Run Term) :=
  (do
    let (aval, _) ← concrete? a
    let (yval, _) ← concrete? y
    some (S.addition t (literal (ILCalculator.add aval yval t) t) b))
  <|> rule (unaryMinus? a = some y) (.pure b)
  <|> rule (unaryMinus? b = some y) (.pure a)
  <|> rule (unaryMinus? y = some a) (.pure b)
  <|> rule (unaryMinus? y = some b) (.pure a)

/-- `simplifyAdditionToUnaryMinus`: `(-x) + y`. -/
def simplifyAdditionToUnaryMinus (t : Ty) (x y : Term) : Option (Run Term) :=
  rule (x = y) (.pure (literal 0 t))
  <|> (do
    let (a, b) ← add? x
    rule (a = y) (.pure b) <|> rule (b = y) (.pure a))

/-- `simplifyAdditionToProduct`: `(a * b) + y`. -/
def simplifyAdditionToProduct (t : Ty) (a b y : Term) : Option (Run Term) := do
  let (aval, atyp) ← concrete? a
  rule (b = y) (S.multiplication t (literal (ILCalculator.add aval 1 atyp) atyp) y)
  <|> (do
    let (c, d) ← mul? y
    let (cval, _) ← concrete? c
    rule (d = b) (S.multiplication t (literal (ILCalculator.add aval cval t) t) b))

/-- `simplifyAdditionToShift`: `(a << b) + y`. -/
def simplifyAdditionToShift (t : Ty) (a b y : Term) : Option (Run Term) := do
  let (bval, bt) ← concrete? b
  let (c, d) ← shiftLeft? y
  let (dval, _) ← concrete? d
  rule (a = c ∧ bval = dval)
    (if ILCalculator.compare bval (bitSizeOf a - 1) = 0 then .pure (literal 0 t)
    else S.shift .shiftLeft t a (literal (ILCalculator.add bval 1 bt) bt))

def simplifyAdditionToExpression (x y : Term) (t : Ty) : Option (Run Term) :=
  match add? x, unaryMinus? x, mul? x, shiftLeft? x with
  | some (a, b), _, _, _ => S.simplifyAdditionToSum t a b y
  | _, some x, _, _ => simplifyAdditionToUnaryMinus t x y
  | _, _, some (a, b), _ => S.simplifyAdditionToProduct t a b y
  | _, _, _, some (a, b) => S.simplifyAdditionToShift t a b y
  | _, _, _, _ => none

/-- A rule for one operand that is tried for both, the left one first. -/
def eitherOperand (f : Term → Term → Option (Run Term)) (x y : Term) : Option (Run Term) :=
  if isExpression x && isExpression y then f x y <|> f y x
  else if isExpression x then f x y
  else if isExpression y then f y x
  else none

/-- `simplifyAdditionExt`, on operands that are not both concrete. -/
def simplifyAdditionExt (t : Ty) (x y : Term) : Option (Run Term) :=
  rule ((concrete? x).any (ILCalculator.isZero ·.1)) (.pure y)
  <|> rule ((concrete? y).any (ILCalculator.isZero ·.1)) (.pure x)
  <|> eitherOperand (fun x y => S.simplifyAdditionToExpression x y t) x y

/-- The operands of a commutative operation, a concrete one first. -/
def sorted (op : OperationType) (t : Ty) (x y : Term) : Term :=
  if isConcrete y then makeBinary op y x t else makeBinary op x y t

def simplifyAddition [HashOrder FieldId] (t : Ty) : Term → Term → Run Term :=
  simplifyGenericBinary
    (onNumbers fun m n => .pure (literal (ILCalculator.add m n t) t))
    (fun x y => (S.simplifyAdditionExt t x y).getD (.pure (sorted .add t x y)))
    (S.addition t)

def simplifySubtraction (t : Ty) (x y : Term) : Run Term := do
  let minusY ← S.unaryMinus t y
  S.addition t x minusY

/-! #### Negation -/

/-- The rules of `simplifyUnaryMinus` for a term that is neither concrete nor a union. -/
def simplifyUnaryMinusExt (t : Ty) (x : Term) : Option (Run Term) :=
  (do
    let x ← unaryMinus? x
    some (.pure x))
  <|> (do
    let (a, b) ← add? x
    some do
      let minusA ← S.unaryMinus t a
      let minusB ← S.unaryMinus t b
      S.addition t minusA minusB)
  <|> (do
    let (a, y) ← mul? x
    let (_, aType) ← concrete? a
    some do
      let minusA ← S.unaryMinus aType a
      S.multiplication t minusA y)

def simplifyUnaryMinus [HashOrder FieldId] (t : Ty) : Term → Run Term :=
  simplifyGenericUnary
    (onNumber fun n => .pure (literal (ILCalculator.sub 0 n t) t))
    (fun x => (S.simplifyUnaryMinusExt t x).getD
      (.pure (.expression (.operator .unaryMinus) [x] t)))
    (S.unaryMinus t)

/-! #### Multiplication -/

/-- `simplifyMultiplicationOfProduct`: `(a * b) * y`.  The rules that cancel a division by a factor
hold of exact quotients. -/
def simplifyMultiplicationOfProduct (t : Ty) (a b y : Term) : Option (Run Term) :=
  (do
    let (aval, _) ← concrete? a
    let (yval, _) ← concrete? y
    some (S.multiplication t (literal (ILCalculator.mul aval yval t) t) b))
  <|> (do
    let (a, c, s) ← div? a
    rule (c = y) (doubt (.cancelFactor s a y b) (S.multiplication t a b)))
  <|> (do
    let (b, c, s) ← div? b
    rule (c = y) (doubt (.cancelFactor s b y a) (S.multiplication t a b)))
  <|> (do
    let (c, d, s) ← div? y
    rule (d = a) (doubt (.cancelFactor s c a b) (S.multiplication t b c)))
  <|> (do
    let (c, d, s) ← div? y
    rule (d = b) (doubt (.cancelFactor s c b a) (S.multiplication t a c)))

/-- `simplifyMultiplicationOfDivision`: `(a / b) * y`.  All its rules hold of exact quotients. -/
def simplifyMultiplicationOfDivision (isSigned : Bool) (t : Ty) (a b y : Term) :
    Option (Run Term) :=
  (do
    let (aval, _) ← concrete? a
    let (yval, _) ← concrete? y
    let aMulY := literal (ILCalculator.mul aval yval t) t
    some (doubt (.multiplyDividend isSigned a b y) (S.division isSigned t aMulY b)))
  <|> (do
    let (c, d) ← mul? b
    rule (c = y) (doubt (.cancelDivisor isSigned a y d) (S.division isSigned t a d)))
  <|> (do
    let (c, d) ← mul? b
    rule (d = y) (doubt (.cancelDivisor isSigned a y c) (S.division isSigned t a c)))

/-- `simplifyMultiplicationOfShifts`: `(a << b) * y`.  The smallest number of a signed type passes
for a power of two, of exponent 0. -/
def simplifyMultiplicationOfShifts (t : Ty) (a b y : Term) : Option (Run Term) :=
  (do
    let (bval, bt) ← concrete? b
    let (c, d) ← shiftLeft? y
    let (dval, _) ← concrete? d
    let smallShift := ILCalculator.compare (ILCalculator.add bval dval t) (bitSizeOf a) = -1
    some (if smallShift then do
        let mul ← S.multiplication t a c
        S.shift .shiftLeft t mul (literal (ILCalculator.add bval dval bt) bt)
      else .pure (literal 0 t)))
  <|> (do
    let (bval, bt) ← concrete? b
    let (powOf2, _) ← concrete? y
    let n := whatPowerOf2 powOf2
    let sum := literal (ILCalculator.add bval n bt) bt
    let tooBigShift := ILCalculator.compare (ILCalculator.add bval n t) (bitSizeOf a) ≥ 0
    let run := if tooBigShift then .pure (literal 0 t) else S.shift .shiftLeft t a sum
    rule (ILCalculator.isPowOfTwo t powOf2)
      (if powOf2 < 0 then doubt (.minValueFactor (makeBinary .shiftLeft a b t)) run else run))

def simplifyMultiplicationOfExpression (t : Ty) (x y : Term) : Option (Run Term) :=
  match mul? x, div? x, shiftLeft? x with
  | some (a, b), _, _ => S.simplifyMultiplicationOfProduct t a b y
  | _, some (a, b, isSigned), _ => S.simplifyMultiplicationOfDivision isSigned t a b y
  | _, _, some (a, b) => S.simplifyMultiplicationOfShifts t a b y
  | _, _, _ => none

/-- `simplifyMultiplicationExt`, on operands that are not both concrete. -/
def simplifyMultiplicationExt (t : Ty) (x y : Term) : Option (Run Term) :=
  rule ((concrete? x).any (ILCalculator.isZero ·.1)) (.pure (literal 0 t))
  <|> rule ((concrete? y).any (ILCalculator.isZero ·.1)) (.pure (literal 0 t))
  <|> rule ((concrete? x).any (ILCalculator.equal ·.1 1)) (.pure y)
  <|> rule ((concrete? y).any (ILCalculator.equal ·.1 1)) (.pure x)
  <|> rule (!t.isUnsigned ∧ (concrete? x).any (ILCalculator.equal ·.1 (-1))) (S.unaryMinus t y)
  <|> rule (!t.isUnsigned ∧ (concrete? y).any (ILCalculator.equal ·.1 (-1))) (S.unaryMinus t x)
  <|> eitherOperand (S.simplifyMultiplicationOfExpression t) x y

def simplifyMultiplication [HashOrder FieldId] (t : Ty) : Term → Term → Run Term :=
  simplifyGenericBinary
    (onNumbers fun m n => .pure (literal (ILCalculator.mul m n t) t))
    (fun x y => (S.simplifyMultiplicationExt t x y).getD (.pure (sorted .multiply t x y)))
    (S.multiplication t)

/-! #### Division and remainder -/

/-- A division of numbers, boxed. -/
def concreteQuotient (t : Ty) (result : Except Failure ℤ) : Run Term :=
  .lift (result.map (literal · t))

def simplifyConcreteDivision (isSigned : Bool) (t : Ty) (x y : ℤ) : Run Term :=
  concreteQuotient t (if isSigned then ILCalculator.div x y t else ILCalculator.divUn x y t)

/-- The rules of `simplifyDivision`.  Of a literal −1 it looks at the type, not at the operation;
`x / x` needs `x` not to be zero, `x / -x` also that the operation is signed and `x` is not the
smallest number; a shifted operand is an operand of an unsigned type under a signed division. -/
def simplifyDivisionExt (isSigned : Bool) (t : Ty) (x y : Term) : Option (Run Term) :=
  rule ((concrete? x).any (ILCalculator.isZero ·.1)) (.pure x)
  <|> rule ((concrete? y).any (ILCalculator.equal ·.1 1)) (.pure x)
  <|> rule (!t.isUnsigned ∧ (concrete? y).any (ILCalculator.equal ·.1 (-1)))
    (if isSigned then S.unaryMinus t x else doubt (.minusOneDivisor x) (S.unaryMinus t x))
  <|> rule (x = y) (doubt (.selfDivisor x) (.pure (literal 1 t)))
  <|> (do
    let y ← unaryMinus? y
    rule (!t.isUnsigned ∧ x = y) (doubt (.oppositeDivisor isSigned x) (.pure (literal (-1) t))))
  <|> (do
    let (powOf2, _) ← concrete? y
    let n := literal (whatPowerOf2 powOf2) .int32
    let run := S.shift .shiftRight_Un t x n
    rule (ILCalculator.isPowOfTwo t powOf2 ∧ !isSigned)
      (if powOf2 < 0 then doubt (.minValueDivisor x) run else run))
  <|> (do
    let (a, b, s) ← shiftRight? x
    let (b, bt) ← concrete? b
    let (powOf2, _) ← concrete? y
    let n := whatPowerOf2 powOf2
    let sum := literal (ILCalculator.add b n bt) bt
    let op := shiftRightOp isSigned
    let run := if ILCalculator.compare (ILCalculator.add b n t) (bitSizeOf a) ≥ 0 then
        .pure (literal 0 t)
      else S.shift op t a sum
    rule (ILCalculator.isPowOfTwo t powOf2 ∧ hasUnsignedType a)
      (if isSigned || s then doubt (.signedOnUnsigned a) run else run))

def simplifyDivision [HashOrder FieldId] (isSigned : Bool) (t : Ty) : Term → Term → Run Term :=
  simplifyGenericBinary (onNumbers (simplifyConcreteDivision isSigned t))
    (fun x y => (S.simplifyDivisionExt isSigned t x y).getD
      (.pure (makeBinary (divisionOp isSigned) x y t)))
    (S.division isSigned t)

/-! #### Shifts -/

def simplifyConcreteShift (operation : OperationType) (t : Ty) (x y : ℤ) : Run Term :=
  match operation with
  | .shiftLeft => .pure (literal (ILCalculator.shiftLeft x y t) t)
  | .shiftRight => .pure (literal (ILCalculator.shiftRight x y t) t)
  | .shiftRight_Un => .pure (literal (ILCalculator.shiftRightUn x y t) t)
  | _ => .fail (.internal "__unreachable__")

/-- `simplifyShiftLeftMul`: `(a * b) << y`.  The smallest number of a signed type passes for a power
of two, of exponent 0. -/
def simplifyShiftLeftMul (t : Ty) (a b y : Term) : Option (Run Term) := do
  let (powOf2, _) ← concrete? a
  let (yval, yt) ← concrete? y
  let n := whatPowerOf2 powOf2
  let sum := literal (ILCalculator.add yval n yt) yt
  let tooBigShift := ILCalculator.compare (ILCalculator.add yval n t) (bitSizeOf a) ≥ 0
  let run := if tooBigShift then .pure (literal 0 t) else S.shift .shiftLeft t b sum
  rule (ILCalculator.isPowOfTwo t powOf2)
    (if powOf2 < 0 then doubt (.minValueFactor (makeBinary .shiftLeft b y t)) run else run)

/-- `simplifyShiftRightDiv`: `(a / b) >> y`.  It holds of an unsigned division. -/
def simplifyShiftRightDiv (op : OperationType) (t : Ty) (a b y : Term) : Option (Run Term) := do
  let (powOf2, _) ← concrete? b
  let (yval, yt) ← concrete? y
  let n := whatPowerOf2 powOf2
  let sum := literal (ILCalculator.add yval n yt) yt
  let tooBigShift := ILCalculator.compare (ILCalculator.add yval n t) (bitSizeOf a) ≥ 0
  let run := if tooBigShift then .pure (literal 0 t) else S.shift op t a sum
  rule (ILCalculator.isPowOfTwo t powOf2 ∧ hasUnsignedType a)
    (if op = .shiftRight then doubt (.signedOnUnsigned a) run else run)

/-- `simplifyShiftLeftOfAddition`: `(a + a) << y`. -/
def simplifyShiftLeftOfAddition (t : Ty) (a y : Term) : Option (Run Term) := do
  let (yval, yt) ← concrete? y
  let tooBigShift := ILCalculator.compare yval (bitSizeOf a - 1) = 0
  some (if tooBigShift then .pure (literal 0 t)
    else S.shift .shiftLeft t a (literal (ILCalculator.add yval 1 yt) yt))

/-- `simplifyShiftOfShifted`: `(a op b) op y`.  Shifted out by more than its width, a number of an
unsigned type is taken to be zero by an arithmetic shift too. -/
def simplifyShiftOfShifted (op : OperationType) (t : Ty) (a b y : Term) : Option (Run Term) :=
  (do
    let (bval, bt) ← concrete? b
    let (yval, _) ← concrete? y
    rule (ILCalculator.compare (ILCalculator.add bval yval t) (bitSizeOf a) = -1)
      (S.shift op t a (literal (ILCalculator.add bval yval bt) bt)))
  <|> (do
    let _ ← concrete? b
    let _ ← concrete? y
    rule (op = .shiftLeft) (.pure (literal 0 t)))
  <|> (do
    let _ ← concrete? b
    let _ ← concrete? y
    let run := .pure (literal 0 t)
    rule ((op = .shiftRight ∨ op = .shiftRight_Un) ∧ hasUnsignedType a)
      (if op = .shiftRight then doubt (.signedOnUnsigned a) run else run))

def simplifyShiftOfExpression (op : OperationType) (t : Ty) (x y : Term) : Option (Run Term) :=
  match mul? x, div? x, add? x, shiftLeft? x, shiftRight? x with
  | some (a, b), _, _, _, _ => if op = .shiftLeft then S.simplifyShiftLeftMul t a b y else none
  | _, some (a, b, isSigned), _, _, _ =>
    if op = shiftRightOp isSigned then S.simplifyShiftRightDiv op t a b y else none
  | _, _, some (a, b), _, _ =>
    if op = .shiftLeft ∧ a = b then S.simplifyShiftLeftOfAddition t a y else none
  | _, _, _, some (a, b), _ =>
    if op = .shiftLeft then S.simplifyShiftOfShifted op t a b y else none
  | _, _, _, _, some (a, b, isSigned) =>
    if op = shiftRightOp isSigned then S.simplifyShiftOfShifted op t a b y else none
  | _, _, _, _, _ => none

/-- `simplifyShiftExt`, on operands that are not both concrete. -/
def simplifyShiftExt (op : OperationType) (t : Ty) (x y : Term) : Option (Run Term) :=
  rule ((concrete? x).any (ILCalculator.isZero ·.1)) (.pure (literal 0 t))
  <|> rule ((concrete? y).any (ILCalculator.isZero ·.1)) (.pure x)
  <|> (if isExpression x then S.simplifyShiftOfExpression op t x y else none)

def simplifyShift [HashOrder FieldId] (operation : OperationType) (t : Ty) :
    Term → Term → Run Term :=
  simplifyGenericBinary (onNumbers (simplifyConcreteShift operation t))
    (fun x y => (S.simplifyShiftExt operation t x y).getD (.pure (makeBinary operation x y t)))
    (S.shift operation t)

end Simplifiers

/-! ### The calls -/

section
variable [HashOrder FieldId]

/-- The simplifiers, with the depth of nested calls as fuel. -/
def simplifiers : ℕ → Simplifiers
  | 0 =>
    let outOfFuel : Run Term := .fail (.internal "out of fuel")
    ⟨fun _ _ _ => outOfFuel, fun _ _ => outOfFuel, fun _ _ _ => outOfFuel,
      fun _ _ _ _ => outOfFuel, fun _ _ _ _ => outOfFuel⟩
  | n + 1 =>
    let S := simplifiers n
    ⟨S.simplifyAddition, S.simplifyUnaryMinus, S.simplifyMultiplication, S.simplifyDivision,
      S.simplifyShift⟩

/-- `divides`: a remainder of numbers that is zero. -/
def divides (isSigned : Bool) (t : Ty) (x y : ℤ) : Except Failure Bool := do
  let res ← if isSigned then ILCalculator.rem x y t else ILCalculator.remUn x y t
  return ILCalculator.isZero res

def simplifyConcreteRemainder (isSigned : Bool) (t : Ty) (x y : ℤ) : Run Term :=
  Simplifiers.concreteQuotient t
    (if isSigned then ILCalculator.rem x y t else ILCalculator.remUn x y t)

/-- The operation of a remainder. -/
def remainderOp (isSigned : Bool) : OperationType :=
  if isSigned then .remainder else .remainder_Un

/-- The rules of `simplifyRemainder` before the one that divides.  Of a literal −1 it looks at the
type, not at the operation; `x % -x` is zero under a signed operation. -/
def simplifyRemainderExt (isSigned : Bool) (t : Ty) (x y : Term) : Option (Run Term) :=
  let zero : Run Term := .pure (literal 0 t)
  let unlessSigned (rule : Doubt) := if isSigned then zero else doubt rule zero
  rule ((concrete? x).any (ILCalculator.isZero ·.1)) (.pure x)
  <|> rule ((concrete? y).any (ILCalculator.equal ·.1 1)) zero
  <|> rule (!t.isUnsigned ∧ (concrete? y).any (ILCalculator.equal ·.1 (-1)))
    (unlessSigned (.minusOneDivisor x))
  <|> rule (x = y) zero
  <|> (do
    let y ← unaryMinus? y
    rule (x = y) (unlessSigned (.oppositeModulus x)))

/-- The end of `simplifyRemainder`: `(a * b) % y` is taken to be zero where `y` divides `a`. -/
def simplifyRemainderOfProduct (isSigned : Bool) (t : Ty) (x y : Term) : Run Term := do
  let redex := makeBinary (remainderOp isSigned) x y t
  match mul? x, (mul? x).bind fun ab => concrete? ab.1, concrete? y with
  | some (a, b), some (aval, _), some (yval, _) =>
    if ← .lift (divides isSigned t aval yval) then
      doubt (.multiple isSigned a b y) (.pure (literal 0 t))
    else .pure redex
  | _, _, _ => .pure redex

def simplifyRemainder (isSigned : Bool) (t : Ty) : ℕ → Term → Term → Run Term
  | 0, _, _ => .fail (.internal "out of fuel")
  | n + 1, x, y =>
    simplifyGenericBinary (onNumbers (simplifyConcreteRemainder isSigned t))
      (fun x y => (simplifyRemainderExt isSigned t x y).getD
        (simplifyRemainderOfProduct isSigned t x y))
      (simplifyRemainder isSigned t n) x y

end

end VSharp
