import VSharp.Utils.PersistentDictionary
import VSharp.Utils.VectorTime

/-!
# Core — Terms

`VSharp.SILI.Core/Terms.fs`: the terms of the symbolic machine.  Terms are hash-consed, so that
equality of terms is equality of their trees (`Term.instDecidableEq`).  The name of a constant is
`transparent` to that equality and is left out; of the source of a constant we keep its identity
and its time.
-/

namespace VSharp

/-- `System.Type`, as far as terms tell types apart; `named` stands for all other types. -/
inductive Ty where
  | void | bool | char
  | sbyte | byte | int16 | uint16 | int32 | uint32 | int64 | uint64
  | single | double | intPtr | uintPtr
  /-- `addressType`. -/
  | address
  | pointer (t : Ty)
  | byRef (t : Ty)
  | named (id : ℕ)
deriving DecidableEq, Repr

inductive OperationType where
  | unaryMinus | bitwiseNot | bitwiseAnd | bitwiseOr | bitwiseXor
  | logicalNot | logicalAnd | logicalOr | logicalXor
  | equal | notEqual | greater | greater_Un | less | less_Un
  | greaterOrEqual | greaterOrEqual_Un | lessOrEqual | lessOrEqual_Un
  | add | addNoOvf | addNoOvf_Un | subtract | subNoOvf | subNoOvf_Un
  | divide | divide_Un | multiply | multiplyNoOvf | multiplyNoOvf_Un
  | remainder | remainder_Un | shiftLeft | shiftRight | shiftRight_Un
deriving DecidableEq, Repr

inductive StandardFunction where
  | arccosine | arcsine | arctangent | arctangent2 | ceiling | cosine | hyperbolicCosine | floor
  | sine | tangent | hyperbolicSine | hyperbolicTangent | round | squareRoot | logarithm
  | logarithm10 | exponent | power | absolute | absoluteS
deriving DecidableEq, Repr

inductive Operation where
  | operator (op : OperationType)
  | application (f : StandardFunction)
  | cast (src dst : Ty)
  | combine
deriving DecidableEq, Repr

/-- The object of a `Concrete` term. -/
inductive Obj where
  | bool (b : Bool)
  /-- `concreteHeapAddress`. -/
  | address (a : VectorTime)
  | int (n : ℤ)
  | other (id : ℕ)
deriving DecidableEq, Repr

structure FieldId where
  declaringType : Ty
  name : String
  typ : Ty
deriving DecidableEq, Repr

structure StackKey where
  id : ℕ
  typeOfLocation : Ty
deriving DecidableEq, Repr

structure ArrayType where
  elemType : Ty
  dimension : ℕ
  isVector : Bool
deriving DecidableEq, Repr

/-- `ISymbolicConstantSource`. -/
structure Source where
  id : ℕ
  time : VectorTime
deriving DecidableEq, Repr

/-- `address`, over the terms `τ` it holds. -/
inductive Address (τ : Type) where
  | primitiveStackLocation (key : StackKey)
  | structField (addr : Address τ) (field : FieldId)
  | stackBufferIndex (key : StackKey) (index : τ)
  | boxedLocation (addr : τ) (typ : Ty)
  | classField (addr : τ) (field : FieldId)
  | arrayIndex (addr : τ) (indices : List τ) (typ : ArrayType)
  | arrayLowerBound (addr dim : τ) (typ : ArrayType)
  | arrayLength (addr dim : τ) (typ : ArrayType)
  | staticField (typ : Ty) (field : FieldId)
deriving DecidableEq, Repr

/-- `pointerBase`, over the terms `τ` it holds. -/
inductive PointerBase (τ : Type) where
  | stackLocation (key : StackKey)
  | heapLocation (addr : τ) (typ : Ty)
  | staticLocation (typ : Ty)
deriving DecidableEq, Repr

inductive Term where
  | nop
  | concrete (obj : Obj) (t : Ty)
  | constant (source : Source) (t : Ty)
  | expression (op : Operation) (args : List Term) (t : Ty)
  | struct (fields : List (FieldId × Term)) (t : Ty)
  | heapRef (address : Term) (t : Ty)
  | ref (address : Address Term)
  | ptr (base : PointerBase Term) (t : Ty) (offset : Term)
  | slice (part : Term) (cuts : List (Term × Term × Term × Bool))
  | ite (branches : List (Term × Term)) (elseValue : Term)

/-- What the code raises where it does not return. -/
inductive Failure where
  /-- `ArgumentException "List of args should be not empty"`, raised by `makeNAry`. -/
  | emptyArgs
  /-- `InvalidCastException`. -/
  | invalidCast
  /-- `internalfail "Empty and one-element unions are forbidden!"`. -/
  | emptyUnion
  /-- Any other `internalfail`, `__unreachable__` or exception of the base library. -/
  | internal (msg : String)
deriving DecidableEq, Repr

namespace Term

/-! ### Equality of terms -/

mutual

/-- Equality of hash-consed terms. -/
def beq : Term → Term → Bool
  | .nop, .nop => true
  | .concrete o t, .concrete o' t' => decide (o = o') && decide (t = t')
  | .constant c t, .constant c' t' => decide (c = c') && decide (t = t')
  | .expression op xs t, .expression op' xs' t' =>
    decide (op = op') && beqList xs xs' && decide (t = t')
  | .struct fs t, .struct fs' t' => beqFields fs fs' && decide (t = t')
  | .heapRef a t, .heapRef a' t' => beq a a' && decide (t = t')
  | .ref a, .ref a' => beqAddress a a'
  | .ptr b t s, .ptr b' t' s' => beqBase b b' && decide (t = t') && beq s s'
  | .slice x cs, .slice x' cs' => beq x x' && beqCuts cs cs'
  | .ite bs e, .ite bs' e' => beqBranches bs bs' && beq e e'
  | _, _ => false
termination_by structural x => x

def beqList : List Term → List Term → Bool
  | [], [] => true
  | x :: xs, y :: ys => beq x y && beqList xs ys
  | _, _ => false
termination_by structural xs => xs

def beqFields : List (FieldId × Term) → List (FieldId × Term) → Bool
  | [], [] => true
  | (f, x) :: xs, (g, y) :: ys => decide (f = g) && beq x y && beqFields xs ys
  | _, _ => false
termination_by structural xs => xs

def beqBranches : List (Term × Term) → List (Term × Term) → Bool
  | [], [] => true
  | (g, x) :: xs, (h, y) :: ys => beq g h && beq x y && beqBranches xs ys
  | _, _ => false
termination_by structural xs => xs

def beqCuts : List (Term × Term × Term × Bool) → List (Term × Term × Term × Bool) → Bool
  | [], [] => true
  | (s, e, p, w) :: xs, (s', e', p', w') :: ys =>
    beq s s' && beq e e' && beq p p' && decide (w = w') && beqCuts xs ys
  | _, _ => false
termination_by structural xs => xs

def beqAddress : Address Term → Address Term → Bool
  | .primitiveStackLocation k, .primitiveStackLocation k' => decide (k = k')
  | .structField a f, .structField a' f' => beqAddress a a' && decide (f = f')
  | .stackBufferIndex k i, .stackBufferIndex k' i' => decide (k = k') && beq i i'
  | .boxedLocation a t, .boxedLocation a' t' => beq a a' && decide (t = t')
  | .classField a f, .classField a' f' => beq a a' && decide (f = f')
  | .arrayIndex a is t, .arrayIndex a' is' t' => beq a a' && beqList is is' && decide (t = t')
  | .arrayLowerBound a d t, .arrayLowerBound a' d' t' => beq a a' && beq d d' && decide (t = t')
  | .arrayLength a d t, .arrayLength a' d' t' => beq a a' && beq d d' && decide (t = t')
  | .staticField t f, .staticField t' f' => decide (t = t') && decide (f = f')
  | _, _ => false
termination_by structural a => a

def beqBase : PointerBase Term → PointerBase Term → Bool
  | .stackLocation k, .stackLocation k' => decide (k = k')
  | .heapLocation a t, .heapLocation a' t' => beq a a' && decide (t = t')
  | .staticLocation t, .staticLocation t' => decide (t = t')
  | _, _ => false
termination_by structural b => b

end

mutual

theorem beq_iff : ∀ a b : Term, beq a b = true ↔ a = b
  | .nop, b => by cases b <;> simp [beq]
  | .concrete o t, b => by cases b <;> simp [beq]
  | .constant c t, b => by cases b <;> simp [beq]
  | .expression op xs t, b => by
      cases b <;> simp [beq, beqList_iff xs, and_assoc]
  | .struct fs t, b => by cases b <;> simp [beq, beqFields_iff fs]
  | .heapRef a t, b => by cases b <;> simp [beq, beq_iff a]
  | .ref a, b => by cases b <;> simp [beq, beqAddress_iff a]
  | .ptr p t s, b => by cases b <;> simp [beq, beqBase_iff p, beq_iff s, and_assoc]
  | .slice x cs, b => by cases b <;> simp [beq, beq_iff x, beqCuts_iff cs]
  | .ite bs e, b => by cases b <;> simp [beq, beq_iff e, beqBranches_iff bs]
termination_by structural a => a

theorem beqList_iff : ∀ a b : List Term, beqList a b = true ↔ a = b
  | [], b => by cases b <;> simp [beqList]
  | x :: xs, b => by cases b <;> simp [beqList, beq_iff x, beqList_iff xs]
termination_by structural a => a

theorem beqFields_iff : ∀ a b : List (FieldId × Term), beqFields a b = true ↔ a = b
  | [], b => by cases b <;> simp [beqFields]
  | (f, x) :: xs, b => by
      rcases b with _ | ⟨⟨g, y⟩, ys⟩ <;> simp [beqFields, beq_iff x, beqFields_iff xs]
termination_by structural a => a

theorem beqBranches_iff : ∀ a b : List (Term × Term), beqBranches a b = true ↔ a = b
  | [], b => by cases b <;> simp [beqBranches]
  | (f, x) :: xs, b => by
      rcases b with _ | ⟨⟨g, y⟩, ys⟩ <;> simp [beqBranches, beq_iff f, beq_iff x, beqBranches_iff xs]
termination_by structural a => a

theorem beqCuts_iff : ∀ a b : List (Term × Term × Term × Bool), beqCuts a b = true ↔ a = b
  | [], b => by cases b <;> simp [beqCuts]
  | (s, e, p, w) :: xs, b => by
      rcases b with _ | ⟨⟨s', e', p', w'⟩, ys⟩ <;>
        simp [beqCuts, beq_iff s, beq_iff e, beq_iff p, beqCuts_iff xs, and_assoc]
termination_by structural a => a

theorem beqAddress_iff : ∀ a b : Address Term, beqAddress a b = true ↔ a = b
  | .primitiveStackLocation k, b => by cases b <;> simp [beqAddress]
  | .structField a f, b => by cases b <;> simp [beqAddress, beqAddress_iff a]
  | .stackBufferIndex k i, b => by cases b <;> simp [beqAddress, beq_iff i]
  | .boxedLocation a t, b => by cases b <;> simp [beqAddress, beq_iff a]
  | .classField a f, b => by cases b <;> simp [beqAddress, beq_iff a]
  | .arrayIndex a is t, b => by
      cases b <;> simp [beqAddress, beq_iff a, beqList_iff is, and_assoc]
  | .arrayLowerBound a d t, b => by
      cases b <;> simp [beqAddress, beq_iff a, beq_iff d, and_assoc]
  | .arrayLength a d t, b => by
      cases b <;> simp [beqAddress, beq_iff a, beq_iff d, and_assoc]
  | .staticField t f, b => by cases b <;> simp [beqAddress]
termination_by structural a => a

theorem beqBase_iff : ∀ a b : PointerBase Term, beqBase a b = true ↔ a = b
  | .stackLocation k, b => by cases b <;> simp [beqBase]
  | .heapLocation a t, b => by cases b <;> simp [beqBase, beq_iff a]
  | .staticLocation t, b => by cases b <;> simp [beqBase]
termination_by structural a => a

end

instance instDecidableEq : DecidableEq Term := fun a b => decidable_of_iff _ (beq_iff a b)

/-! ### Primitives -/

def makeBool (b : Bool) : Term := .concrete (.bool b) .bool

/-- `True()`. -/
def trueTerm : Term := makeBool true

/-- `False()`. -/
def falseTerm : Term := makeBool false

def concreteHeapAddress (addr : VectorTime) : Term := .concrete (.address addr) .address

/-- `zeroAddress()`. -/
def zeroAddress : Term := concreteHeapAddress VectorTime.zero

def isTrue : Term → Bool
  | .concrete (.bool b) .bool => b
  | _ => false

def isFalse : Term → Bool
  | .concrete (.bool b) .bool => !b
  | _ => false

def makeNAry (operation : OperationType) (x : List Term) (t : Ty) : Except Failure Term :=
  match x with
  | [] => .error .emptyArgs
  | [x] => .ok x
  | x => .ok (.expression (.operator operation) x t)

def makeUnary (operation : OperationType) (x : Term) (t : Ty) : Term :=
  .expression (.operator operation) [x] t

def negate (x : Term) : Term := makeUnary .logicalNot x .bool

/-- `Ite`, the checked constructor. -/
def mkIte (branches : List (Term × Term)) (elseValue : Term) : Except Failure Term :=
  if branches.isEmpty then .error .emptyUnion else .ok (.ite branches elseValue)

def fromGvs {α : Type} (gvs : List (Term × α)) : Except Failure (List (Term × α) × α) :=
  if gvs.length < 2 then .error .emptyUnion else
  match gvs.getLast? with
  | some e => .ok (gvs.dropLast, e.2)
  | none => .error .emptyUnion

def iteAsGvs {α : Type} (branches : List (Term × α)) (elseValue : α) : List (Term × α) :=
  branches ++ [(trueTerm, elseValue)]

def fieldsOf : Term → Except Failure (Pdict FieldId Term)
  | .struct fields _ => .ok fields
  | _ => .error (.internal "struct or class expected")

/-- `address.TypeOfLocation`. -/
def addressTypeOfLocation : Address Term → Ty
  | .classField _ field | .structField _ field | .staticField _ field => field.typ
  | .arrayIndex _ _ t => t.elemType
  | .boxedLocation _ typ => typ
  | .arrayLength .. | .arrayLowerBound .. => .int32
  | .stackBufferIndex .. => .sbyte
  | .primitiveStackLocation key => key.typeOfLocation

/-- `typeOf`, of a term that is no union. -/
def typeOf : Term → Except Failure Ty
  | .nop => .ok .void
  | .concrete _ t | .constant _ t | .expression _ _ t | .heapRef _ t | .struct _ t => .ok t
  | .ref a => .ok (.byRef (addressTypeOfLocation a))
  | .ptr _ t _ => .ok (.pointer t)
  | .slice .. | .ite .. => .error (.internal "getting type of unexpected term")

end Term

/-! ### Values -/

/-- A valuation: the constants' values, and what the operations that no simplifier looks into do to
values of a domain `V`.  The truth values are among the values; a term of boolean type has one. -/
structure Interp (V : Type) where
  ofBool : Bool → V
  truth : V → Bool
  truth_ofBool : ∀ b, truth (ofBool b) = b
  nop : V
  concrete : Obj → Ty → V
  concrete_bool : ∀ b, concrete (.bool b) .bool = ofBool b
  constant : Source → Ty → V
  constant_bool : ∀ c, ofBool (truth (constant c .bool)) = constant c .bool
  /-- An operator other than conjunction, disjunction and negation. -/
  operator : OperationType → List V → V
  application : StandardFunction → List V → V
  cast : Ty → V → V
  cast_ofBool : ∀ b, cast .bool (ofBool b) = ofBool b
  cast_bool : ∀ v, ofBool (truth (cast .bool v)) = cast .bool v
  combine : List V → Ty → V
  combine_bool : ∀ vs, ofBool (truth (combine vs .bool)) = combine vs .bool
  struct : Ty → (FieldId → Option V) → V
  heapRef : V → Ty → V
  ref : Address V → V
  ptr : PointerBase V → Ty → V → V
  slice : V → List (V × V × V × Bool) → V

namespace Interp
variable {V : Type} (I : Interp V)

/-- The value of an operator. -/
def operatorValue : OperationType → List V → V
  | .logicalAnd, vs => I.ofBool (vs.all I.truth)
  | .logicalOr, vs => I.ofBool (vs.any I.truth)
  | .logicalNot, [v] => I.ofBool (!I.truth v)
  | op, vs => I.operator op vs

/-- The value of an operation of type `t`. -/
def operation : Operation → List V → Ty → V
  | .operator op, vs, t => I.cast t (I.operatorValue op vs)
  | .application f, vs, _ => I.application f vs
  | .cast _ dst, vs, _ => I.cast dst (vs.headD I.nop)
  | .combine, vs, t => I.combine vs t

/-- The value of guarded values: the first true guard wins. -/
def select (branches : List (V × V)) (elseValue : V) : V :=
  match branches.find? fun b => I.truth b.1 with
  | some b => b.2
  | none => elseValue

end Interp

namespace Term
variable {V : Type} (I : Interp V)

mutual

/-- The value of a term under a valuation.  Of two fields of one name the later counts, as in the
dictionary that is made of them. -/
def eval : Term → V
  | .nop => I.nop
  | .concrete o t => I.concrete o t
  | .constant c t => I.constant c t
  | .expression op xs t => I.operation op (evalList xs) t
  | .struct fs t => I.struct t (PersistentDict.tryFind (evalFields fs).reverse)
  | .heapRef a t => I.heapRef (eval a) t
  | .ref a => I.ref (evalAddress a)
  | .ptr b t s => I.ptr (evalBase b) t (eval s)
  | .slice x cs => I.slice (eval x) (evalCuts cs)
  | .ite bs e => I.select (evalBranches bs) (eval e)
termination_by structural x => x

def evalList : List Term → List V
  | [] => []
  | x :: xs => eval x :: evalList xs
termination_by structural xs => xs

def evalFields : List (FieldId × Term) → List (FieldId × V)
  | [] => []
  | (f, x) :: xs => (f, eval x) :: evalFields xs
termination_by structural xs => xs

def evalBranches : List (Term × Term) → List (V × V)
  | [] => []
  | (g, x) :: xs => (eval g, eval x) :: evalBranches xs
termination_by structural xs => xs

def evalCuts : List (Term × Term × Term × Bool) → List (V × V × V × Bool)
  | [] => []
  | (s, e, p, w) :: xs => (eval s, eval e, eval p, w) :: evalCuts xs
termination_by structural xs => xs

def evalAddress : Address Term → Address V
  | .primitiveStackLocation k => .primitiveStackLocation k
  | .structField a fld => .structField (evalAddress a) fld
  | .stackBufferIndex k i => .stackBufferIndex k (eval i)
  | .boxedLocation a t => .boxedLocation (eval a) t
  | .classField a fld => .classField (eval a) fld
  | .arrayIndex a is t => .arrayIndex (eval a) (evalList is) t
  | .arrayLowerBound a d t => .arrayLowerBound (eval a) (eval d) t
  | .arrayLength a d t => .arrayLength (eval a) (eval d) t
  | .staticField t fld => .staticField t fld
termination_by structural a => a

def evalBase : PointerBase Term → PointerBase V
  | .stackLocation k => .stackLocation k
  | .heapLocation a t => .heapLocation (eval a) t
  | .staticLocation t => .staticLocation t
termination_by structural b => b

end

/-- A boolean term is true under a valuation. -/
def holds (x : Term) : Bool := I.truth (x.eval I)

theorem evalList_eq (xs : List Term) : evalList I xs = xs.map (eval I) := by
  induction xs with
  | nil => rfl
  | cons x xs ih => rw [evalList, ih, List.map_cons]

theorem evalFields_eq (fs : List (FieldId × Term)) :
    evalFields I fs = fs.map fun e => (e.1, e.2.eval I) := by
  induction fs with
  | nil => rfl
  | cons e fs ih => rw [evalFields, ih, List.map_cons]

theorem tryFind_evalFields (fs : List (FieldId × Term)) (f : FieldId) :
    PersistentDict.tryFind (evalFields I fs).reverse f =
      (PersistentDict.tryFind fs.reverse f).map (eval I) := by
  rw [evalFields_eq, ← List.map_reverse, PersistentDict.tryFind_map]

end Term

/-- A valuation into the truth values, for terms over boolean constants. -/
def Interp.bools (ρ : ℕ → Bool) : Interp Bool where
  ofBool := id
  truth := id
  truth_ofBool _ := rfl
  nop := false
  concrete o _ := decide (o = .bool true)
  concrete_bool b := by cases b <;> rfl
  constant c _ := ρ c.id
  constant_bool _ := rfl
  operator _ _ := false
  application _ _ := false
  cast _ v := v
  cast_ofBool _ := rfl
  cast_bool _ := rfl
  combine _ _ := false
  combine_bool _ := rfl
  struct _ _ := false
  heapRef _ _ := false
  ref _ := false
  ptr _ _ _ := false
  slice _ _ := false

/-- The `n`-th boolean constant. -/
def boolConstant (n : ℕ) : Term := .constant ⟨n, []⟩ .bool

end VSharp
