import Mathlib.Data.BitVec
import VSharp.Core.Distribution

/-!
# Core — Numerals

The terms of an integral type, and their bits.

- `Numeral t`: literals and constants of type `t`, the machine's operators on them, and unions;
- `value_…`: the bits of a term are what the operator makes of the bits of its operands;
- `Guarded G`: the guards of the unions a term consists of are `G`.
-/

namespace VSharp
open Term Propositional Library Merging MachineInteger List

/-- The operators of two operands of one type. -/
inductive IsArithmetic : OperationType → Prop where
  | add : IsArithmetic .add
  | subtract : IsArithmetic .subtract
  | multiply : IsArithmetic .multiply
  | divide : IsArithmetic .divide
  | divide_Un : IsArithmetic .divide_Un
  | remainder : IsArithmetic .remainder
  | remainder_Un : IsArithmetic .remainder_Un
  | bitwiseAnd : IsArithmetic .bitwiseAnd
  | bitwiseOr : IsArithmetic .bitwiseOr
  | bitwiseXor : IsArithmetic .bitwiseXor

/-- The shifts. -/
inductive IsShift : OperationType → Prop where
  | shiftLeft : IsShift .shiftLeft
  | shiftRight : IsShift .shiftRight
  | shiftRight_Un : IsShift .shiftRight_Un

/-- A shift of bits. -/
def shifted (op : OperationType) {w : ℕ} (a : BitVec w) (n : ℕ) : BitVec w :=
  match op with
  | .shiftLeft => a <<< n
  | .shiftRight => a.sshiftRight n
  | .shiftRight_Un => a >>> n
  | _ => a

/-- A truncating quotient, of signed or unsigned numbers. -/
def divided (isSigned : Bool) {w : ℕ} (a b : BitVec w) : BitVec w :=
  if isSigned then a.sdiv b else a.udiv b

/-- A truncating remainder. -/
def reduced (isSigned : Bool) {w : ℕ} (a b : BitVec w) : BitVec w :=
  if isSigned then a.srem b else a.umod b

/-- The terms of an integral type. -/
inductive Numeral : Ty → Term → Prop where
  | literal {t : Ty} {n : ℤ} (hn : InRange t.isUnsigned t.width n) : Numeral t (literal n t)
  | constant {t : Ty} (c : Source) : Numeral t (.constant c t)
  | unary {t : Ty} {op : OperationType} {x : Term} (hop : op = .unaryMinus ∨ op = .bitwiseNot)
      (hx : Numeral t x) : Numeral t (makeUnary op x t)
  | binary {t : Ty} {op : OperationType} {x y : Term} (hop : IsArithmetic op) (hx : Numeral t x)
      (hy : Numeral t y) : Numeral t (makeBinary op x y t)
  | shift {t : Ty} {op : OperationType} {x y : Term} (hop : IsShift op) (hx : Numeral t x)
      (hy : Numeral .int32 y) : Numeral t (makeBinary op x y t)
  | ite {t : Ty} {bs : List (Term × Term)} {e : Term} (hne : bs ≠ [])
      (values : ∀ b ∈ bs, Numeral t b.2) (elseValue : Numeral t e) : Numeral t (.ite bs e)

namespace Numeral
variable {t : Ty}
variable {x y : Term}

/-- A numeral has the bits of its type. -/
theorem eval_eq (ht : t.IsStackInt) (h : Numeral t x) (ρ : Valuation) :
    x.eval ρ.machine = .bits t.width (x.value ρ t.width) := by
  have of_eval {t : Ty} {x : Term} {b : BitVec t.width}
      (h : x.eval ρ.machine = .bits t.width b) :
      x.eval ρ.machine = .bits t.width (x.value ρ t.width) := by
    rw [value_eq h, h]
  induction h with
  | literal => exact of_eval (eval_literal ρ _ _)
  | constant c => exact of_eval (eval_constant ρ ht c)
  | unary hop _ ih =>
    rcases hop with rfl | rfl
    all_goals
      apply of_eval
      apply eval_operator ρ ht (by decide)
      rw [map_singleton, ih ht]
      rfl
  | binary hop _ _ ihx ihy =>
    cases hop
    all_goals
      apply of_eval
      apply eval_operator ρ ht (by decide)
      rw [map_cons, map_singleton, ihx ht, ihy ht]
      rfl
  | shift hop _ _ ihx ihy =>
    cases hop
    all_goals
      apply of_eval
      apply eval_operator ρ ht (by decide)
      rw [map_cons, map_singleton, ihx ht, ihy .int32]
      rfl
  | @ite t bs e _ _ _ ihv ihe =>
    rw [value, ← eval_chosen]
    rcases chosen_cases ρ.machine ⟨bs, e⟩ with h | ⟨b, hb, h⟩ <;> rw [h]
    · exact of_eval (ihe ht)
    · exact of_eval (ihv b hb ht)

theorem of_concrete {n : ℤ} {t' : Ty} (h : Numeral t x) (hx : concrete? x = some (n, t')) :
    x = VSharp.literal n t ∧ t' = t ∧ InRange t.isUnsigned t.width n := by
  cases h with
  | literal hn =>
    cases hx
    exact ⟨rfl, rfl, hn⟩
  | _ => cases hx

section
variable (ht : t.IsStackInt) {op : OperationType}

include ht

/-- The bits of an operation on two terms of the type. -/
theorem value_binary (ρ : Valuation) {f : BitVec t.width → BitVec t.width → BitVec t.width}
    (hx : Numeral t x) (hy : Numeral t y)
    (hop : op ≠ .logicalAnd ∧ op ≠ .logicalOr ∧ op ≠ .logicalNot) (hf : ∀ a b : BitVec t.width,
      ρ.machineOperator op [.bits t.width a, .bits t.width b] = .bits t.width (f a b)) :
    (makeBinary op x y t).value ρ t.width = f (x.value ρ t.width) (y.value ρ t.width) := by
  refine value_eq (eval_operator ρ ht hop ?_)
  rw [map_cons, map_singleton, hx.eval_eq ht, hy.eval_eq ht, hf]

theorem value_add (hx : Numeral t x) (hy : Numeral t y) (ρ : Valuation) :
    (makeBinary .add x y t).value ρ t.width = x.value ρ t.width + y.value ρ t.width :=
  value_binary ht ρ (f := (· + ·)) hx hy (by decide) fun a b => by simp [Valuation.machineOperator]

theorem value_multiply (hx : Numeral t x) (hy : Numeral t y) (ρ : Valuation) :
    (makeBinary .multiply x y t).value ρ t.width = x.value ρ t.width * y.value ρ t.width :=
  value_binary ht ρ (f := (· * ·)) hx hy (by decide) fun a b => by simp [Valuation.machineOperator]

/-- The bits of a shift by the bits of its amount. -/
theorem value_shift (hop : IsShift op) {ρ : Valuation} {b : BitVec 32} (hx : Numeral t x)
    (hy : y.eval ρ.machine = .bits 32 b) :
    (makeBinary op x y t).value ρ t.width = shifted op (x.value ρ t.width) b.toNat := by
  cases hop
  all_goals
    apply value_eq
    apply eval_operator ρ ht (by decide)
    rw [map_cons, map_singleton, hx.eval_eq ht, hy]
    rfl

/-- The bits of a quotient. -/
theorem value_division (hx : Numeral t x) (hy : Numeral t y) (ρ : Valuation)
    (isSigned : Bool) : (makeBinary (divisionOp isSigned) x y t).value ρ t.width =
      divided isSigned (x.value ρ t.width) (y.value ρ t.width) := by
  cases isSigned with
  | true =>
    exact value_binary ht ρ (f := BitVec.sdiv) hx hy (by decide)
      fun a b => by simp [divisionOp, Valuation.machineOperator]
  | false =>
    exact value_binary ht ρ (f := BitVec.udiv) hx hy (by decide)
      fun a b => by simp [divisionOp, Valuation.machineOperator]

/-- The bits of a remainder. -/
theorem value_remainder (hx : Numeral t x) (hy : Numeral t y) (ρ : Valuation)
    (isSigned : Bool) : (makeBinary (remainderOp isSigned) x y t).value ρ t.width =
      reduced isSigned (x.value ρ t.width) (y.value ρ t.width) := by
  cases isSigned with
  | true =>
    exact value_binary ht ρ (f := BitVec.srem) hx hy (by decide)
      fun a b => by simp [remainderOp, Valuation.machineOperator]
  | false =>
    exact value_binary ht ρ (f := BitVec.umod) hx hy (by decide)
      fun a b => by simp [remainderOp, Valuation.machineOperator]

theorem value_neg (hx : Numeral t x) (ρ : Valuation) :
    (makeUnary .unaryMinus x t).value ρ t.width = -x.value ρ t.width := by
  refine value_eq (eval_operator ρ ht (by decide) ?_)
  rw [map_singleton, hx.eval_eq ht]
  rfl

end

theorem concrete_or (h : Numeral t x) :
    (∃ n, x = VSharp.literal n t ∧ InRange t.isUnsigned t.width n) ∨ isConcrete x = false := by
  cases h with
  | literal hn => exact .inl ⟨_, rfl, hn⟩
  | _ => exact .inr rfl

end Numeral

theorem value_literal (n : ℤ) (t : Ty) (ρ : Valuation) :
    (literal n t).value ρ t.width = BitVec.ofInt _ n :=
  value_eq (eval_literal ρ n t)

/-- The guards a distribution meets, those of the unions a term consists of, have the property. -/
inductive Guarded (G : Term → Prop) : Term → Prop where
  | leaf {v : Term} (hv : NotIte v) : Guarded G v
  | ite {bs : List (Term × Term)} {e : Term} (guards : ∀ b ∈ bs, G b.1)
      (values : ∀ b ∈ bs, Guarded G b.2) (elseValue : Guarded G e) : Guarded G (.ite bs e)

variable {G : Term → Prop} {x : Term}

theorem Guarded.of_ite {bs : List (Term × Term)} {e : Term} (h : Guarded G (.ite bs e)) :
    (∀ b ∈ bs, G b.1) ∧ (∀ b ∈ bs, Guarded G b.2) ∧ Guarded G e := by
  cases h with
  | leaf hv => exact absurd rfl (hv bs e)
  | ite guards values elseValue => exact ⟨guards, values, elseValue⟩

/-- A union whose guards are known apart. -/
theorem UnionOf.guarded {G' L : Term → Prop} (h : UnionOf G L x) (hG : Guarded G' x) :
    UnionOf G' L x := by
  induction h with
  | leaf hv h => exact .leaf hv h
  | ite hne _ _ _ ihv ihe =>
    obtain ⟨hg, hv, he⟩ := hG.of_ite
    exact .ite hne hg (fun b hb => ihv b hb (hv b hb)) (ihe he)

theorem Numeral.unionOf {t : Ty} (h : Numeral t x) (hG : Guarded G x) :
    UnionOf G (Numeral t) x := by
  induction h with
  | ite hne _ _ ihv ihe =>
    obtain ⟨hg, hv, he⟩ := hG.of_ite
    exact .ite hne hg (fun b hb => ihv b hb (hv b hb)) (ihe he)
  | literal hn => exact .leaf nofun (.literal hn)
  | constant c => exact .leaf nofun (.constant c)
  | unary hop hx => exact .leaf nofun (.unary hop hx)
  | binary hop hx hy => exact .leaf nofun (.binary hop hx hy)
  | shift hop hx hy => exact .leaf nofun (.shift hop hx hy)

end VSharp
