import VSharp.Core.IntegralTerms

/-!
# SILI — Checked conversions

`ConvOvf` and `ConvOvfUn` of `VSharp.SILI/Interpreter.fs`: the condition under which a conversion
does not overflow, and the value that is pushed.  The bounds of the condition are compared with the
signed `<=`, whatever the type of the operand, and the operand of a `conv.ovf.<t>.un` is first cast
to a type of fixed width.

- `convOvf_spec`: what the condition of a `conv.ovf.<t>` says, and what is pushed;
- `conversions_exact_iff`: when the condition of a `conv.ovf.<t>` says whether the operand is a
  number of the target type, and when that of a `conv.ovf.<t>.un` does and the number is pushed.
-/

namespace VSharp
open Term Propositional Library MachineInteger

/-! ### The code -/

namespace ConvOvf

/-- `supersetsOf`, of the integral types. -/
def supersetsOf : Ty → Except Failure (List Ty)
  | .sbyte => .ok [.sbyte, .int16, .int32, .int64]
  | .int16 => .ok [.int16, .int32, .int64]
  | .int32 => .ok [.int32, .int64]
  | .int64 => .ok [.int64]
  | .byte => .ok [.byte, .uint16, .uint32, .uint64]
  | .uint16 => .ok [.uint16, .uint32, .uint64]
  | .uint32 => .ok [.uint32, .uint64]
  | .uint64 => .ok [.uint64]
  | _ => .error (.internal "key not found")

def isSubset (leftTyp rightTyp : Ty) : Except Failure Bool := do
  .ok ((← supersetsOf leftTyp).contains rightTyp)

/-- `minMaxOf`, of the integral types. -/
def minMaxOf : Ty → Except Failure (ℤ × ℤ)
  | .sbyte => .ok (-2 ^ 7, 2 ^ 7 - 1)
  | .int16 => .ok (-2 ^ 15, 2 ^ 15 - 1)
  | .int32 => .ok (-2 ^ 31, 2 ^ 31 - 1)
  | .int64 => .ok (-2 ^ 63, 2 ^ 63 - 1)
  | .byte => .ok (0, 2 ^ 8 - 1)
  | .uint16 => .ok (0, 2 ^ 16 - 1)
  | .uint32 => .ok (0, 2 ^ 32 - 1)
  | .uint64 => .ok (0, 2 ^ 64 - 1)
  | _ => .error (.internal "key not found")

/-- `ToDouble`: the nearest integer with 53 significant bits, the even one of two. -/
def toDouble (n : ℤ) : ℤ :=
  let k := n.natAbs.log2 - 52
  let q := n.natAbs / 2 ^ k
  let r := n.natAbs % 2 ^ k
  let rounded := if 2 * r < 2 ^ k ∨ 2 * r = 2 ^ k ∧ q % 2 = 0 then q else q + 1
  n.sign * (rounded * 2 ^ k)

def getSegment (leftTyp rightTyp : Ty) : Except Failure (ℤ × ℤ) := do
  let (min1, max1) ← minMaxOf leftTyp
  let (min2, max2) ← minMaxOf rightTyp
  match decide (toDouble min1 < toDouble min2), decide (toDouble max1 < toDouble max2) with
  | true, true => .ok (min2, max1)
  | true, false => .ok (min2, max2)
  | false, true => .ok (min1, max1)
  | false, false => .ok (min1, max2)

end ConvOvf

/-- `nearestBiggerTypeForEvaluationStack`, of the integral types. -/
def nearestBiggerTypeForEvaluationStack : Ty → Except Failure Ty
  | .sbyte | .int16 | .int32 => .ok .int32
  | .int64 => .ok .int64
  | .byte | .char | .uint16 | .uint32 => .ok .uint32
  | .uint64 => .ok .uint64
  | .intPtr => .ok .intPtr
  | .uintPtr => .ok .uintPtr
  | _ => .error (.internal "not implemented")

section
variable [HashOrder FieldId]

/-- `castToEvaluationStackType`, of a number. -/
def castToEvaluationStackType (x : Term) : Except Failure Term := do
  Term.cast x (← nearestBiggerTypeForEvaluationStack (← commonTypeOf x))

open ConvOvf in
/-- `canCastWithoutOverflow`, with the depth of nested simplifications as fuel. -/
def canCastWithoutOverflow (n : ℕ) (term : Term) (targetType : Ty) : Run Term := do
  let t ← .lift (commonTypeOf term)
  if ← .lift (isSubset t targetType) then pure trueTerm
  else if t = .int64 ∧ targetType = .uint64 then
    let int64Zero := literal 0 .int64
    simplifyLessOrEqual n int64Zero term
  else if t = .uint64 ∧ targetType = .int64 then
    let uint64RightBorder := literal (2 ^ 63 - 1) .uint64
    simplifyLessOrEqual n term uint64RightBorder
  else
    let (min, max) ← .lift (getSegment t targetType)
    let leftBorder := literal min t
    let rightBorder := literal max t
    let left ← simplifyLessOrEqual n leftBorder term
    let right ← simplifyLessOrEqual n term rightBorder
    .lift (simplifyAnd left right)

/-- `InvalidProgramException`. -/
def corruptedStack : Failure := .internal "corrupted stack"

/-- `ConvOvf`: the condition under which no `OverflowException` is raised, and the evaluation stack
where it holds. -/
def convOvf (n : ℕ) (targetType : Ty) : List Term → Run (Term × List Term)
  | [] => .fail corruptedStack
  | t :: stack => do
      let condition ← canCastWithoutOverflow n t targetType
      let castedResult ← .lift (Term.cast t targetType)
      let pushed ← .lift (castToEvaluationStackType castedResult)
      pure (condition, pushed :: stack)

def convOvfUn (n : ℕ) (unsignedSightType targetType : Ty) : List Term → Run (Term × List Term)
  | [] => .fail corruptedStack
  | t :: stack => do
      let unsignedT ← .lift (Term.cast t unsignedSightType)
      let pushed ← .lift (castToEvaluationStackType unsignedT)
      convOvf n targetType (pushed :: stack)

/-- The opcodes that `ConvOvf` interprets. -/
inductive ConvOvfOp where
  | i1 | i2 | i4 | i8 | u1 | u2 | u4 | u8
deriving DecidableEq, Repr

namespace ConvOvfOp

/-- The type of the target. -/
def targetType : ConvOvfOp → Ty
  | i1 => .sbyte
  | i2 => .int16
  | i4 => .int32
  | i8 => .int64
  | u1 => .byte
  | u2 => .uint16
  | u4 => .uint32
  | u8 => .uint64

/-- The sight type that the dispatch gives to the opcode with suffix `_Un`. -/
def unsignedSightType : ConvOvfOp → Ty
  | i1 | i2 | i4 | u1 | u2 | u4 => .uint32
  | i8 | u8 => .uint64

end ConvOvfOp

/-- `Conv_Ovf_<t>`. -/
def convOvfInstruction (n : ℕ) (op : ConvOvfOp) : List Term → Run (Term × List Term) :=
  convOvf n op.targetType

/-- `Conv_Ovf_<t>_Un`. -/
def convOvfUnInstruction (n : ℕ) (op : ConvOvfOp) : List Term → Run (Term × List Term) :=
  convOvfUn n op.unsignedSightType op.targetType

end

/-! ### What the condition says -/

/-- The number is one of the type. -/
def Representable (t : Ty) (n : ℤ) : Prop := InRange t.isUnsigned t.width n

/-- The operands that a condition lets through: those of the target type, but no `uint32` as an
`int64`, and every `uint64` as an `int64`. -/
def Accepts (op : ConvOvfOp) (t : Ty) (b : BitVec t.width) : Prop :=
  if t = .uint32 ∧ op = .i8 then False
  else if t = .uint64 ∧ op = .i8 then True
  else Representable op.targetType (read t.isUnsigned b)

/-- Which of its ways the code takes on a pair of types. -/
inductive Ways (op : ConvOvfOp) (t : Ty) : Prop where
  | always (hsub : ConvOvf.isSubset t op.targetType = .ok true) (hall : ∀ b, Accepts op t b)
  | nonnegative (heq : t = .int64 ∧ op = .u8)
      (hall : ∀ b : BitVec t.width, 0 ≤ b.toInt ↔ Accepts op t b)
  | atMost (heq : t = .uint64 ∧ op = .i8)
      (hall : ∀ b : BitVec t.width, b.toInt ≤ 2 ^ 63 - 1 ↔ Accepts op t b)
  | between {min max : ℤ} (hsub : ConvOvf.isSubset t op.targetType = .ok false)
      (hneg : ¬ (t = .int64 ∧ op = .u8)) (hmost : ¬ (t = .uint64 ∧ op = .i8))
      (hseg : ConvOvf.getSegment t op.targetType = .ok (min, max))
      (hmin : InRange t.isUnsigned t.width min) (hmax : InRange t.isUnsigned t.width max)
      (hall : ∀ b : BitVec t.width, ((BitVec.ofInt t.width min).toInt ≤ b.toInt ∧
        b.toInt ≤ (BitVec.ofInt t.width max).toInt) ↔ Accepts op t b)

/-- What the signed and the unsigned reading of a bit vector have to do with each other. -/
theorem readings {w : ℕ} (b : BitVec (w + 1)) : (b.toNat : ℤ) < 2 ^ (w + 1) ∧
    (b.toInt = b.toNat ∧ b.toInt < 2 ^ w ∨
      b.toInt = b.toNat - 2 ^ (w + 1) ∧ (2 : ℤ) ^ w ≤ b.toNat) := by
  have hlt : (b.toNat : ℤ) < 2 ^ (w + 1) := by exact_mod_cast b.isLt
  refine ⟨hlt, ?_⟩
  have hpow : (2 : ℤ) ^ (w + 1) = 2 * 2 ^ w := pow_succ' 2 w
  rw [BitVec.toInt_eq_toNat_cond]
  split
  · next h =>
      have : (2 * b.toNat : ℤ) < 2 ^ (w + 1) := by exact_mod_cast h
      exact .inl ⟨rfl, by omega⟩
  · next h =>
      have : ((2 : ℤ) ^ (w + 1)) ≤ 2 * b.toNat := by exact_mod_cast Nat.le_of_not_lt h
      exact .inr ⟨by push_cast; rfl, by omega⟩

theorem ways {t : Ty} (ht : t.IsStackInt) (op : ConvOvfOp) : Ways op t := by
  have all32 (b : BitVec Ty.int32.width) := readings (w := 31) b
  have all64 (b : BitVec Ty.int64.width) := readings (w := 63) b
  -- the tables choose the way, the rest is arithmetic on the two readings of the operand
  cases ht <;> cases op
  case int32.i4 | int32.i8 | uint32.u4 | uint32.u8 | int64.i8 | uint64.u8 =>
    refine .always rfl fun b => ?_
    first | have := all32 b | have := all64 b
    simp [Accepts, Representable, InRange, ConvOvfOp.targetType, Ty.isUnsigned, Ty.width,
      MachineInteger.read]
    omega
  case int64.u8 =>
    refine .nonnegative ⟨rfl, rfl⟩ fun b => ?_
    have := all64 b
    simp [Accepts, Representable, InRange, ConvOvfOp.targetType, Ty.isUnsigned, Ty.width,
      MachineInteger.read]
    omega
  case uint64.i8 =>
    refine .atMost ⟨rfl, rfl⟩ fun b => ?_
    have := all64 b
    simp [Accepts, Ty.width]
    omega
  all_goals
    refine .between rfl (by decide) (by decide) rfl (by decide) (by decide) fun b => ?_
    first | have := all32 b | have := all64 b
    simp [Accepts, Representable, InRange, ConvOvfOp.targetType, Ty.isUnsigned, Ty.width,
      MachineInteger.read]
    omega

section
variable [HashOrder FieldId] {valid : Valuation → Prop} {t : Ty} {x : Term} {m : ℤ}

/-- A bound below the operand. -/
theorem lessOrEqual_left (ht : 32 ≤ t.width) (hm : InRange t.isUnsigned t.width m)
    (hx : IntegralUnion valid t x) :
    Returns (simplifyLessOrEqual · (literal m t) x) fun r => Simple r ∧ ∀ ρ, valid ρ →
      r.holds ρ.machine = decide ((BitVec.ofInt t.width m).toInt ≤ (x.value ρ t.width).toInt) := by
  refine (comparison_spec ht (c := .lessOrEqual) (by decide) (.term (.literal (by omega) hm)) hx
    (.inl rfl)).mono fun r hr => ⟨hr.1, fun ρ hρ => ?_⟩
  rw [hr.2 ρ hρ, value_literal]
  rfl

/-- A bound above the operand. -/
theorem lessOrEqual_right (ht : 32 ≤ t.width) (hm : InRange t.isUnsigned t.width m)
    (hx : IntegralUnion valid t x) :
    Returns (simplifyLessOrEqual · x (literal m t)) fun r => Simple r ∧ ∀ ρ, valid ρ →
      r.holds ρ.machine = decide ((x.value ρ t.width).toInt ≤ (BitVec.ofInt t.width m).toInt) := by
  refine (comparison_spec ht (c := .lessOrEqual) (by decide) hx (.term (.literal (by omega) hm))
    (.inl rfl)).mono fun r hr => ⟨hr.1, fun ρ hρ => ?_⟩
  rw [hr.2 ρ hρ, value_literal]
  rfl

/-- The condition is true where it accepts the bits of the operand. -/
theorem canCast_spec (ht : t.IsStackInt) (hx : IntegralUnion valid t x) (op : ConvOvfOp) :
    Returns (canCastWithoutOverflow · x op.targetType) fun r => ∀ ρ, valid ρ →
      (r.holds ρ.machine = true ↔ Accepts op t (x.value ρ t.width)) := by
  have h32 : 32 ≤ t.width := by rcases ht.width with h | h <;> omega
  have hu8 : op.targetType = .uint64 ↔ op = .u8 := by cases op <;> decide
  have hi8 : op.targetType = .int64 ↔ op = .i8 := by cases op <;> decide
  have hstart (n : ℕ) {b : Bool} (hsub : ConvOvf.isSubset t op.targetType = .ok b) :
      canCastWithoutOverflow n x op.targetType =
        if b then pure trueTerm
        else if t = .int64 ∧ op = .u8 then simplifyLessOrEqual n (literal 0 .int64) x
        else if t = .uint64 ∧ op = .i8 then
          simplifyLessOrEqual n x (literal (2 ^ 63 - 1) .uint64)
        else (do
          let (min, max) ← .lift (ConvOvf.getSegment t op.targetType)
          let left ← simplifyLessOrEqual n (literal min t) x
          let right ← simplifyLessOrEqual n x (literal max t)
          .lift (simplifyAnd left right)) := by
    rw [canCastWithoutOverflow, hx.commonTypeOf_eq, Run.lift_ok, pure_bind, hsub, Run.lift_ok,
      pure_bind]
    simp only [hu8, hi8]
  cases ways ht op with
  | always hsub hall =>
    refine Filter.Eventually.of_forall fun n => ?_
    show (canCastWithoutOverflow n x op.targetType).Gives _
    rw [hstart n hsub, if_pos rfl]
    exact .pure fun ρ _ => iff_of_true (holds_makeBool _ _) (hall _)
  | nonnegative heq hall =>
    obtain ⟨rfl, rfl⟩ := heq
    filter_upwards [lessOrEqual_left h32 (m := 0) (by decide) hx] with n hl
    rw [hstart n (b := false) rfl, if_neg Bool.false_ne_true, if_pos ⟨rfl, rfl⟩]
    refine hl.mono fun r _ hr ρ hρ => ?_
    rw [hr.2 ρ hρ, ← hall]
    simp
  | atMost heq hall =>
    obtain ⟨rfl, rfl⟩ := heq
    filter_upwards [lessOrEqual_right h32 (m := 2 ^ 63 - 1) (by decide) hx] with n hr
    rw [hstart n (b := false) rfl, if_neg Bool.false_ne_true, if_neg (by decide), if_pos ⟨rfl, rfl⟩]
    refine hr.mono fun r _ hr ρ hρ => ?_
    rw [hr.2 ρ hρ, ← hall]
    exact decide_eq_true_iff
  | between hsub hneg hmost hseg hmin hmax hall =>
    filter_upwards [lessOrEqual_left h32 hmin hx, lessOrEqual_right h32 hmax hx] with n hl hr
    rw [hstart n hsub, if_neg Bool.false_ne_true, if_neg hneg, if_neg hmost, hseg, Run.lift_ok,
      pure_bind]
    refine hl.bind fun l _ hl => hr.bind fun r _ hr => ?_
    obtain ⟨c, h₁, -, h₂⟩ := connected_simple.and hl.1 hr.1
    refine .lift h₁ fun ρ hρ => ?_
    rw [h₂, hl.2 ρ hρ, hr.2 ρ hρ, ← hall]
    simp

/-! ### The pushed value -/

omit [HashOrder FieldId] in
theorem nearestBiggerType_spec (ht : 0 < t.width) : ∃ u,
    nearestBiggerTypeForEvaluationStack t = .ok u ∧ u.isUnsigned = t.isUnsigned ∧
      t.width ≤ u.width := by
  cases t <;> first | exact ⟨_, rfl, rfl, by decide⟩ | exact absurd ht (Nat.lt_irrefl 0)

/-- The number of a term. -/
def number (ρ : Valuation) (t : Ty) (x : Term) : ℤ := read t.isUnsigned (x.value ρ t.width)

/-- A term has the same number on the evaluation stack. -/
theorem castToEvaluationStackType_spec (hx : IntegralUnion valid t x) : ∃ r u,
    castToEvaluationStackType x = .ok r ∧ nearestBiggerTypeForEvaluationStack t = .ok u ∧
      IntegralUnion valid u r ∧ ∀ ρ, valid ρ → number ρ u r = number ρ t x := by
  obtain ⟨u, h₁, h₂, h₃⟩ := nearestBiggerType_spec hx.width_pos
  have hpos := hx.width_pos.trans_le h₃
  obtain ⟨r, h₄, h₅, h₆⟩ := cast_spec hx hpos fun _ _ => h₂.symm
  refine ⟨r, u, ?_, h₁, h₅, fun ρ hρ => ?_⟩
  · rw [castToEvaluationStackType, bind_ok hx.commonTypeOf_eq, bind_ok h₁, h₄]
  · rw [number, h₆ ρ hρ]
    have hrange : InRange u.isUnsigned u.width (number ρ t x) := by
      rw [h₂]
      exact inRange_mono h₃ inRange_read
    exact read_extendTo hpos (.inr ⟨h₂, h₃⟩) hrange

/-! ### The instructions -/

/-- What `ConvOvf` leaves: a condition on the operand, and the converted operand. -/
def Converts (valid : Valuation → Prop) (op : ConvOvfOp) (t : Ty) (x : Term) (stack : List Term)
    (r : Term × List Term) : Prop :=
  ∃ pushed u, r.2 = pushed :: stack ∧ IntegralUnion valid u pushed ∧ ∀ ρ, valid ρ →
    (r.1.holds ρ.machine = true ↔ Accepts op t (x.value ρ t.width)) ∧
      (op.targetType.width ≤ t.width → Representable op.targetType (number ρ t x) →
        number ρ u pushed = number ρ t x)

theorem convOvf_spec (ht : t.IsStackInt) (hx : IntegralUnion valid t x) (op : ConvOvfOp)
    (stack : List Term) : ∀ᶠ n in Filter.atTop,
      (convOvfInstruction n op (x :: stack)).Gives fun r _ => Converts valid op t x stack r := by
  have hpos : 0 < op.targetType.width := by cases op <;> decide
  filter_upwards [canCast_spec ht hx op] with n hcond
  obtain ⟨c, h₁, h₂, h₃⟩ := cast_spec hx hpos fun hlt =>
    absurd hlt (by rcases ht.width with h | h <;> omega)
  obtain ⟨pushed, u, h₄, -, h₅, h₆⟩ := castToEvaluationStackType_spec h₂
  refine hcond.bind fun condition _ hcondition => ?_
  rw [h₁, Run.lift_ok, pure_bind, h₄, Run.lift_ok, pure_bind]
  refine .pure ⟨pushed, u, rfl, h₅, fun ρ hρ => ⟨hcondition ρ hρ, fun hle hrep => ?_⟩⟩
  rw [h₆ ρ hρ, number, h₃ ρ hρ]
  exact read_extendTo hpos (.inl hle) hrep

/-- The operand of an unsigned conversion, at the sight type: its low bits. -/
theorem sight_spec (ht : t.IsStackInt) (hx : IntegralUnion valid t x) (op : ConvOvfOp) : ∃ r y,
    Term.cast x op.unsignedSightType = .ok r ∧ castToEvaluationStackType r = .ok y ∧
      IntegralUnion valid op.unsignedSightType y ∧ ∀ ρ, valid ρ →
        number ρ op.unsignedSightType y =
          (x.value ρ t.width).toNat % 2 ^ op.unsignedSightType.width := by
  have hsight : op.unsignedSightType = .uint32 ∨ op.unsignedSightType = .uint64 := by
    cases op <;> decide
  generalize op.unsignedSightType = s at hsight
  have hs : 0 < s.width := by rcases hsight with rfl | rfl <;> decide
  have hun : s.isUnsigned = true := by rcases hsight with rfl | rfl <;> rfl
  have hnear : nearestBiggerTypeForEvaluationStack s = .ok s := by
    rcases hsight with rfl | rfl <;> rfl
  obtain ⟨r, h₁, h₂, h₃⟩ := cast_spec hx hs fun hlt =>
    absurd hlt (by rcases ht.width with h | h <;> omega)
  obtain ⟨y, u, h₄, h₅, h₆, h₇⟩ := castToEvaluationStackType_spec h₂
  obtain rfl := Except.ok.inj (h₅.symm.trans hnear)
  refine ⟨r, y, h₁, h₄, h₆, fun ρ hρ => ?_⟩
  rw [h₇ ρ hρ, number, h₃ ρ hρ, hun, extendTo_true, read_true, BitVec.toNat_setWidth]
  push_cast
  rfl

/-- Where the sight type keeps what an unsigned conversion asks of the operand. -/
def SightKeeps (op : ConvOvfOp) (n : ℤ) : Prop :=
  match op with
  | .u8 => True
  | .i8 => n < 2 ^ 63
  | op => Representable op.targetType (n % 2 ^ 32) → n < 2 ^ 32

section

omit [HashOrder FieldId]

theorem accepts_iff (ht : t.IsStackInt) (op : ConvOvfOp) (b : BitVec t.width) :
    (Accepts op t b ↔ Representable op.targetType (read t.isUnsigned b)) ↔
      ¬ (t = .uint32 ∧ op = .i8) ∧ (t = .uint64 ∧ op = .i8 → read t.isUnsigned b < 2 ^ 63) := by
  unfold Accepts
  split
  · next h =>
      obtain ⟨rfl, rfl⟩ := h
      have hlt : (b.toNat : ℤ) < 2 ^ 32 := (inRange_read (u := true) (b := b)).2
      have hrep : Representable .int64 (b.toNat : ℤ) :=
        ⟨le_trans (by decide) (Int.natCast_nonneg _), lt_trans hlt (by decide)⟩
      exact ⟨fun h => (h.mpr hrep).elim, fun h => absurd ⟨rfl, rfl⟩ h.1⟩
  split
  · next h =>
      obtain ⟨rfl, rfl⟩ := h
      have hrep : Representable .int64 (b.toNat : ℤ) ↔ (b.toNat : ℤ) < 2 ^ 63 :=
        ⟨And.right, fun h => ⟨le_trans (by decide) (Int.natCast_nonneg _), h⟩⟩
      exact ⟨fun h => ⟨by decide, fun _ => hrep.mp (h.mp trivial)⟩,
        fun h => iff_of_true trivial (hrep.mpr (h.2 ⟨rfl, rfl⟩))⟩
  · next h₁ h₂ => exact ⟨fun _ => ⟨h₁, fun h => absurd h h₂⟩, fun _ => Iff.rfl⟩

/-- The argument about the sight types, on numbers: `n` is the operand, `m` what is left of it at
the sight type, `p` what is pushed. -/
theorem sightKeeps_iff (op : ConvOvfOp) {n m p : ℤ} {c : Prop} (h0 : 0 ≤ n) (hlt : n < 2 ^ 64)
    (hm : m = n % 2 ^ op.unsignedSightType.width)
    (hc : c ↔ op = .i8 ∨ Representable op.targetType m)
    (hp : Representable op.targetType m → p = m) :
    ((c ↔ Representable op.targetType n) ∧ (Representable op.targetType n → p = n)) ↔
      SightKeeps op n := by
  -- where the number is that of the sight type, it is converted as it is
  have same (hle : Representable op.targetType n → m = n)
      (hiff : (op = .i8 ∨ Representable op.targetType m ↔ Representable op.targetType n) ↔
        SightKeeps op n) :
      ((c ↔ Representable op.targetType n) ∧ (Representable op.targetType n → p = n)) ↔
        SightKeeps op n := by
    rw [hc, ← hiff]
    exact and_iff_left fun hrep => by rw [hp (by rwa [hle hrep]), hle hrep]
  cases op
  case i8 =>
    have hmn : m = n := hm.trans (Int.emod_eq_of_lt h0 hlt)
    refine same (fun _ => hmn) ⟨fun h => (h.mp (.inl rfl)).2, fun h => ?_⟩
    exact iff_of_true (.inl rfl) ⟨le_trans (by decide) h0, h⟩
  case u8 =>
    have hmn : m = n := hm.trans (Int.emod_eq_of_lt h0 hlt)
    refine same (fun _ => hmn) (iff_of_true ?_ trivial)
    rw [hmn]
    simp
  all_goals
    have hmn : n < 2 ^ 32 → m = n := fun h => hm.trans (Int.emod_eq_of_lt h0 h)
    refine same (fun hrep => hmn ?_) ?_
    · exact lt_of_lt_of_le hrep.2 (by decide)
    · constructor
      · intro h hrep
        have hrep' := h.mp (.inr (hm ▸ hrep))
        exact lt_of_lt_of_le hrep'.2 (by decide)
      · intro h
        refine ⟨fun hrep => ?_, fun hrep => .inr ?_⟩
        · have hrep' := hrep.resolve_left (by decide)
          rwa [← hmn (h (hm ▸ hrep'))]
        · rwa [hmn (lt_of_lt_of_le hrep.2 (by decide))]

/-- What is accepted at the sight type: there every operand passes for an `int64`. -/
theorem accepts_sight (op : ConvOvfOp) (b : BitVec op.unsignedSightType.width) :
    Accepts op op.unsignedSightType b ↔
      op = .i8 ∨ Representable op.targetType (read op.unsignedSightType.isUnsigned b) := by
  cases op <;> simp [Accepts, ConvOvfOp.unsignedSightType]

end

/-- The conversions are exact: the condition of a `conv.ovf.<t>` says whether the operand is a
number of the target type unless a `uint32`, or a `uint64` from `2 ^ 63` on, is converted to
`int64`; that of a `conv.ovf.<t>.un` says it of the unsigned operand, and the number is pushed,
unless the operand loses bits at the sight type or is a number from `2 ^ 63` on that is converted to
`int64`. -/
theorem conversions_exact_iff (ht : t.IsStackInt) (hx : IntegralUnion valid t x) (op : ConvOvfOp)
    (stack : List Term) :
    (∀ᶠ n in Filter.atTop, (convOvfInstruction n op (x :: stack)).Gives fun r _ =>
      ∀ ρ, valid ρ →
        ((r.1.holds ρ.machine = true ↔ Representable op.targetType (number ρ t x)) ↔
          ¬ (t = .uint32 ∧ op = .i8) ∧ (t = .uint64 ∧ op = .i8 → number ρ t x < 2 ^ 63))) ∧
    ∀ᶠ n in Filter.atTop, (convOvfUnInstruction n op (x :: stack)).Gives fun r _ =>
      ∃ pushed u, r.2 = pushed :: stack ∧ commonTypeOf pushed = .ok u ∧ ∀ ρ, valid ρ →
        (((r.1.holds ρ.machine = true ↔
            Representable op.targetType (x.value ρ t.width).toNat) ∧
          (Representable op.targetType (x.value ρ t.width).toNat →
            number ρ u pushed = (x.value ρ t.width).toNat)) ↔
          SightKeeps op (x.value ρ t.width).toNat) := by
  constructor
  · filter_upwards [convOvf_spec ht hx op stack] with n hn
    refine hn.mono fun r _ hr ρ hρ => ?_
    obtain ⟨pushed, u, -, -, h⟩ := hr
    rw [(h ρ hρ).1]
    exact accepts_iff ht op _
  · have hsight : op.unsignedSightType.IsStackInt := by
      cases op <;> first | exact .uint32 | exact .uint64
    obtain ⟨r, y, h₁, h₂, h₃, h₄⟩ := sight_spec ht hx op
    filter_upwards [convOvf_spec hsight h₃ op stack] with n hn
    have hrun : convOvfUnInstruction n op (x :: stack) = convOvfInstruction n op (y :: stack) := by
      show convOvfUn n _ _ _ = _
      rw [convOvfUn, h₁, Run.lift_ok, pure_bind, h₂, Run.lift_ok, pure_bind]
      rfl
    rw [hrun]
    refine hn.mono fun r _ hr => ?_
    obtain ⟨pushed, u, hstack, hpushed, h⟩ := hr
    refine ⟨pushed, u, hstack, hpushed.commonTypeOf_eq, fun ρ hρ => ?_⟩
    obtain ⟨hcond, hnum⟩ := h ρ hρ
    refine sightKeeps_iff op (Int.natCast_nonneg _) ?_ (h₄ ρ hρ) ?_ ?_
    · have hw : t.width ≤ 64 := by rcases ht.width with h | h <;> omega
      exact_mod_cast (x.value ρ t.width).isLt.trans_le (Nat.pow_le_pow_right Nat.zero_lt_two hw)
    · rw [hcond, accepts_sight, number]
    · exact hnum (by cases op <;> decide)

omit [HashOrder FieldId] in
/-- A 32-bit constant, converted to 8 bits. -/
theorem conversions_int32 : letI : HashOrder FieldId := ⟨fun _ => 0⟩
    let x : Term := .constant ⟨0, []⟩ .int32
    (∀ᶠ n in Filter.atTop, (convOvfInstruction n .i1 [x]).Gives fun r _ => ∀ ρ, True →
      ((r.1.holds ρ.machine = true ↔ Representable .sbyte (number ρ .int32 x)) ↔
        ¬ (Ty.int32 = .uint32 ∧ ConvOvfOp.i1 = .i8) ∧
          (Ty.int32 = .uint64 ∧ ConvOvfOp.i1 = .i8 → number ρ .int32 x < 2 ^ 63))) ∧
    ∀ᶠ n in Filter.atTop, (convOvfUnInstruction n .i1 [x]).Gives fun r _ =>
      ∃ pushed u, r.2 = [pushed] ∧ commonTypeOf pushed = .ok u ∧ ∀ ρ, True →
        (((r.1.holds ρ.machine = true ↔ Representable .sbyte (x.value ρ 32).toNat) ∧
          (Representable .sbyte (x.value ρ 32).toNat → number ρ u pushed = (x.value ρ 32).toNat)) ↔
          SightKeeps .i1 (x.value ρ 32).toNat) :=
  let _ : HashOrder FieldId := ⟨fun _ => 0⟩
  conversions_exact_iff .int32 (.term (.constant (by decide) _)) .i1 []

omit [HashOrder FieldId] in
/-- The `uint32` number 5 does not pass for an `int64`: the bound, `2 ^ 32 - 1`, is read as -1. -/
theorem conversions_invented : letI : HashOrder FieldId := ⟨fun _ => 0⟩
    ¬ ∀ (t : Ty), t.IsStackInt → ∀ x, IntegralUnion (fun _ => True) t x → ∀ (op : ConvOvfOp)
      (stack : List Term), ∀ᶠ n in Filter.atTop,
        (convOvfInstruction n op (x :: stack)).Gives fun r _ => ∀ ρ,
          (r.1.holds ρ.machine = true ↔ Representable op.targetType (number ρ t x)) := by
  let _ : HashOrder FieldId := ⟨fun _ => 0⟩
  intro h
  have hx : IntegralUnion (fun _ => True) .uint32 (literal 5 .uint32) :=
    .term (.literal (by decide) (by decide))
  have hspec := convOvf_spec .uint32 hx .i8 []
  obtain ⟨n, ⟨r, d, hrun, hr⟩, ⟨r', d', hrun', hr'⟩⟩ :=
    ((h .uint32 .uint32 _ hx .i8 []).and hspec).exists
  obtain ⟨rfl, -⟩ := Prod.mk.inj (Except.ok.inj (hrun.symm.trans hrun'))
  obtain ⟨_, _, -, -, hconverts⟩ := hr'
  have hrep : Representable .int64 (number (.constants 0) .uint32 (literal 5 .uint32)) :=
    (by decide : InRange false 64 5)
  exact (hconverts (.constants 0) trivial).1.mp ((hr (.constants 0)).mpr hrep)

end

end VSharp
