import VSharp.Core.Numerics

/-!
# Core — NoOverflow

`makeExpressionNoOvf` of `VSharp.SILI.Core/Arithmetics.fs`: the condition that an arithmetic
expression does not overflow, collected by a fold over it.

- at an addition, a subtraction or a multiplication the folder adds the condition of that operation
  and goes on with `next`, which does not visit the operands;
- so the condition of a tree is that of its outermost operation (`holds_makeExpressionNoOvf`), and
  it is exact where that one overflows or no inner operation does
  (`makeExpressionNoOvf_exact_iff`).
-/

namespace VSharp
open Term Propositional Library MachineInteger

/-! ### The code -/

/-- The checks of one operation: on literals the checked instruction is run, on a stack slot that
both types fit; otherwise the operation of the check is built. -/
def simplifyNoOvf (op : OperationType) (overflows : {w : ℕ} → BitVec w → BitVec w → Bool)
    (x y : Term) : Except Failure Term :=
  match x, y with
  | .concrete (.int m) t₁, .concrete (.int n) t₂ =>
    let w := max 32 (max t₁.width t₂.width)
    .ok (makeBool !(overflows (BitVec.ofInt w m) (BitVec.ofInt w n)))
  | .concrete _ _, .concrete _ _ => .error (.internal "numeric operands expected")
  | x, y => .ok (.expression (.operator op) [x, y] .bool)

def simplifyAddNoOvf : Term → Term → Except Failure Term :=
  simplifyNoOvf .addNoOvf BitVec.saddOverflow

def simplifyAddNoOvfUn : Term → Term → Except Failure Term :=
  simplifyNoOvf .addNoOvf_Un BitVec.uaddOverflow

def simplifyMultiplyNoOvf : Term → Term → Except Failure Term :=
  simplifyNoOvf .multiplyNoOvf BitVec.smulOverflow

def simplifyMultiplyNoOvfUn : Term → Term → Except Failure Term :=
  simplifyNoOvf .multiplyNoOvf_Un BitVec.umulOverflow

def simplifySubNoOvf : Term → Term → Except Failure Term :=
  simplifyNoOvf .subNoOvf BitVec.ssubOverflow

def simplifySubNoOvfUn : Term → Term → Except Failure Term :=
  simplifyNoOvf .subNoOvf_Un BitVec.usubOverflow

/-- The check the folder makes at a term, if it makes one. -/
def operationNoOvf? : Term → Option (Except Failure Term)
  | .expression (.operator .add) [x, y] t =>
    some (if t.isUnsigned then simplifyAddNoOvfUn x y else simplifyAddNoOvf x y)
  | .expression (.operator .subtract) [x, y] t =>
    some (if t.isUnsigned then simplifySubNoOvfUn x y else simplifySubNoOvf x y)
  | .expression (.operator .multiply) [x, y] t =>
    some (if t.isUnsigned then simplifyMultiplyNoOvfUn x y else simplifyMultiplyNoOvf x y)
  | _ => none

mutual

/-- `doFold collectConditions`: `next` leaves the children out, `into` folds them.  The folder goes
into expressions only. -/
def collectConditions (acc : Term) : Term → Except Failure Term
  | .expression op args t =>
    match operationNoOvf? (.expression op args t) with
    | some condition => do simplifyAnd acc (← condition)
    | none => collectConditionsList acc args
  | _ => .ok acc
termination_by structural x => x

/-- `foldList collectConditions`. -/
def collectConditionsList (acc : Term) : List Term → Except Failure Term
  | [] => .ok acc
  | x :: xs => do collectConditionsList (← collectConditions acc x) xs
termination_by structural xs => xs

end

def makeExpressionNoOvf (expr : Term) : Except Failure Term :=
  collectConditionsList trueTerm [expr]

/-! ### Arithmetic trees -/

/-- The operations that are checked. -/
inductive CheckedOp where
  | add | sub | mul
deriving DecidableEq, Repr

def CheckedOp.operator : CheckedOp → OperationType
  | .add => .add
  | .sub => .subtract
  | .mul => .multiply

/-- The operation overflows, read as signed or unsigned. -/
def CheckedOp.overflows (unsigned : Bool) {w : ℕ} (a b : BitVec w) : CheckedOp → Bool
  | .add => if unsigned then a.uaddOverflow b else a.saddOverflow b
  | .sub => if unsigned then a.usubOverflow b else a.ssubOverflow b
  | .mul => if unsigned then a.umulOverflow b else a.smulOverflow b

/-- The check of an operation, signed or unsigned. -/
def CheckedOp.check (unsigned : Bool) (x y : Term) : CheckedOp → Except Failure Term
  | .add => bif unsigned then simplifyAddNoOvfUn x y else simplifyAddNoOvf x y
  | .sub => bif unsigned then simplifySubNoOvfUn x y else simplifySubNoOvf x y
  | .mul => bif unsigned then simplifyMultiplyNoOvfUn x y else simplifyMultiplyNoOvf x y

/-- A tree of checked operations over literals and constants of one type. -/
inductive CheckedTree (t : Ty) where
  | literal (n : ℤ) (h : InRange t.isUnsigned t.width n)
  | constant (c : Source)
  | node (op : CheckedOp) (x y : CheckedTree t)

namespace CheckedTree
variable {t : Ty}

/-- The term of a tree. -/
def toTerm : CheckedTree t → Term
  | .literal n _ => .concrete (.int n) t
  | .constant c => .constant c t
  | .node op x y => .expression (.operator op.operator) [x.toTerm, y.toTerm] t

variable (ρ : Valuation)

/-- The bits of a tree. -/
def value (e : CheckedTree t) : BitVec t.width := e.toTerm.value ρ t.width

/-- The outermost operation does not overflow. -/
def RootFits : CheckedTree t → Prop
  | .node op x y => op.overflows t.isUnsigned (x.value ρ) (y.value ρ) = false
  | _ => True

/-- No operation anywhere in the tree overflows. -/
def Fits : CheckedTree t → Prop
  | .node op x y =>
    op.overflows t.isUnsigned (x.value ρ) (y.value ρ) = false ∧ x.Fits ∧ y.Fits
  | _ => True

/-- No operation below the outermost one overflows. -/
def InnerFits : CheckedTree t → Prop
  | .node _ x y => x.Fits ρ ∧ y.Fits ρ
  | _ => True

theorem fits_iff (e : CheckedTree t) : e.Fits ρ ↔ e.RootFits ρ ∧ e.InnerFits ρ := by
  cases e with
  | node => exact Iff.rfl
  | _ => exact (and_true _).to_iff.symm

theorem eval_eq (ht : t.IsStackInt) (e : CheckedTree t) :
    e.toTerm.eval ρ.machine = .bits t.width (e.value ρ) := by
  have of_eval {b : BitVec t.width} {e : CheckedTree t}
      (h : e.toTerm.eval ρ.machine = .bits t.width b) :
      e.toTerm.eval ρ.machine = .bits t.width (e.value ρ) := by
    rw [value, value_eq h, h]
  induction e with
  | literal n h => exact of_eval (eval_literal ρ n t)
  | constant c => exact of_eval (eval_constant ρ ht c)
  | node op x y ihx ihy =>
    cases op with
    | add =>
      refine of_eval (b := x.value ρ + y.value ρ) (eval_operator ρ ht (by decide) ?_)
      simp [CheckedOp.operator, ihx, ihy, Valuation.machineOperator]
    | sub =>
      refine of_eval (b := x.value ρ - y.value ρ) (eval_operator ρ ht (by decide) ?_)
      simp [CheckedOp.operator, ihx, ihy, Valuation.machineOperator]
    | mul =>
      refine of_eval (b := x.value ρ * y.value ρ) (eval_operator ρ ht (by decide) ?_)
      simp [CheckedOp.operator, ihx, ihy, Valuation.machineOperator]

theorem value_literal (n : ℤ) (h : InRange t.isUnsigned t.width n) :
    (literal n h).value ρ = BitVec.ofInt _ n :=
  value_eq (eval_literal ρ n t)

/-! ### The check of one operation -/

/-- A check is a condition, true where the operation on the values does not overflow. -/
theorem simplifyNoOvf_spec (ht : t.IsStackInt) {op : OperationType}
    {overflows : {w : ℕ} → BitVec w → BitVec w → Bool}
    (hatom : op ≠ .logicalAnd ∧ op ≠ .logicalOr ∧ op ≠ .logicalNot)
    (hop : ∀ (ρ : Valuation) {w : ℕ} (a b : BitVec w),
      ρ.machineOperator op [.bits w a, .bits w b] = .bool !(overflows a b))
    (x y : CheckedTree t) :
    ∃ r, simplifyNoOvf op overflows x.toTerm y.toTerm = .ok r ∧ Condition r ∧
      ∀ ρ : Valuation, r.holds ρ.machine = !(overflows (x.value ρ) (y.value ρ)) := by
  have hmade : ∃ r, Except.ok (ε := Failure) (Term.expression (.operator op)
        [x.toTerm, y.toTerm] .bool) = .ok r ∧ Condition r ∧
      ∀ ρ : Valuation, r.holds ρ.machine = !(overflows (x.value ρ) (y.value ρ)) := by
    refine ⟨_, rfl, (Reduced.atom (by simpa [isAtom] using hatom)).condition, fun ρ => ?_⟩
    refine holds_operator ρ hatom ?_
    rw [← hop ρ]
    simp only [List.map_cons, List.map_nil, eval_eq ρ ht]
  cases x with
  | constant | node => exact hmade
  | literal m hm =>
    cases y with
    | constant | node => exact hmade
    | literal n hn =>
      have hw : max 32 (max t.width t.width) = t.width := by
        rcases ht.width with h | h <;> omega
      refine ⟨_, rfl, .makeBool _, fun ρ => ?_⟩
      rw [holds_makeBool, hw, value_literal, value_literal]

theorem operationNoOvf_node (op : CheckedOp) (x y : CheckedTree t) :
    operationNoOvf? (node op x y).toTerm = some (op.check t.isUnsigned x.toTerm y.toTerm) := by
  cases op <;> exact congrArg some (Bool.cond_eq_ite ..).symm

theorem check_spec (ht : t.IsStackInt) (op : CheckedOp) (x y : CheckedTree t) :
    ∃ r, op.check t.isUnsigned x.toTerm y.toTerm = .ok r ∧ Condition r ∧
      ∀ ρ : Valuation, r.holds ρ.machine = true ↔ (node op x y).RootFits ρ := by
  have hspec : ∃ r, op.check t.isUnsigned x.toTerm y.toTerm = .ok r ∧ Condition r ∧
      ∀ ρ : Valuation, r.holds ρ.machine =
        !(op.overflows t.isUnsigned (x.value ρ) (y.value ρ)) := by
    cases op <;> cases t.isUnsigned <;>
      exact simplifyNoOvf_spec ht (by decide) (fun ρ w a b => by simp [Valuation.machineOperator]) x y
  obtain ⟨r, h₁, h₂, h₃⟩ := hspec
  refine ⟨r, h₁, h₂, fun ρ => ?_⟩
  rw [h₃, Bool.not_eq_true']
  rfl

/-! ### The collected condition -/

/-- The condition of a tree is that of its outermost operation. -/
theorem makeExpressionNoOvf_spec (ht : t.IsStackInt) (e : CheckedTree t) :
    ∃ r, makeExpressionNoOvf e.toTerm = .ok r ∧
      ∀ ρ : Valuation, r.holds ρ.machine = true ↔ e.RootFits ρ := by
  cases e with
  | literal | constant =>
    refine ⟨trueTerm, rfl, fun ρ => ?_⟩
    rw [holds_trueTerm]
    exact iff_of_true rfl trivial
  | node op x y =>
    obtain ⟨check, h₁, h₂, h₃⟩ := check_spec ht op x y
    obtain ⟨r, h₄, -, h₅⟩ := simplifyAnd_spec (.makeBool true) h₂
    refine ⟨r, ?_, fun ρ => ?_⟩
    · have hnode : collectConditions trueTerm (node op x y).toTerm = .ok r := by
        have hcheck := operationNoOvf_node op x y
        rw [toTerm] at hcheck ⊢
        rw [collectConditions]
        rw [hcheck]
        dsimp only
        rw [bind_ok h₁]
        exact h₄
      unfold makeExpressionNoOvf
      rw [collectConditionsList, bind_ok hnode]
      rfl
    · rw [h₅, holds_makeBool, Bool.true_and]
      exact h₃ ρ

/-- The condition says that no operation of the tree overflows exactly where the outermost one does,
or no inner one does. -/
theorem makeExpressionNoOvf_exact_iff (ht : t.IsStackInt) (e : CheckedTree t) (ρ : Valuation) :
    (∃ r, makeExpressionNoOvf e.toTerm = .ok r ∧ (r.holds ρ.machine = true ↔ e.Fits ρ)) ↔
      (¬e.RootFits ρ ∨ e.InnerFits ρ) := by
  obtain ⟨r, h₁, h₂⟩ := makeExpressionNoOvf_spec ht e
  have hiff : (∃ r, makeExpressionNoOvf e.toTerm = .ok r ∧ (r.holds ρ.machine = true ↔ e.Fits ρ)) ↔
      (e.RootFits ρ ↔ e.Fits ρ) := by
    rw [h₁, ← h₂ ρ]
    constructor
    · rintro ⟨r', h, hr⟩
      exact Except.ok.inj h ▸ hr
    · exact fun h => ⟨r, rfl, h⟩
  rw [hiff, fits_iff]
  tauto

/-- The sum of two constants, under a valuation that makes both of them 1. -/
theorem makeExpressionNoOvf_sum :
    let e : CheckedTree .int32 := node .add (constant ⟨0, []⟩) (constant ⟨1, []⟩)
    (∃ r, makeExpressionNoOvf e.toTerm = .ok r ∧
      (r.holds (Valuation.constants 1).machine = true ↔ e.Fits (.constants 1))) ↔
      (¬e.RootFits (.constants 1) ∨ e.InnerFits (.constants 1)) :=
  makeExpressionNoOvf_exact_iff .int32 _ _

/-- The sum `(a + b) + c` for 2147483647, 1 and 0: the inner sum overflows and the outer one does
not. -/
theorem makeExpressionNoOvf_misses_inner :
    ¬ ∀ (t : Ty), t.IsStackInt → ∀ (e : CheckedTree t) (ρ : Valuation),
      ∃ r, makeExpressionNoOvf e.toTerm = .ok r ∧ (r.holds ρ.machine = true ↔ e.Fits ρ) := by
  intro h
  let ρ : Valuation := .constants fun c => [2147483647, 1, 0].getD c.id 0
  let e : CheckedTree .int32 := node .add (node .add (constant ⟨0, []⟩) (constant ⟨1, []⟩))
    (constant ⟨2, []⟩)
  obtain ⟨r, h₁, h₂⟩ := h .int32 .int32 e ρ
  obtain ⟨r', h₃, h₄⟩ := makeExpressionNoOvf_spec .int32 e
  obtain rfl := Except.ok.inj (h₁.symm.trans h₃)
  have hroot : e.RootFits ρ := by
    show CheckedOp.overflows _ _ _ _ = false
    decide
  obtain ⟨-, ⟨hinner, -⟩, -⟩ := h₂.mp ((h₄ ρ).mpr hroot)
  exact absurd hinner (by decide)

end CheckedTree

end VSharp
