import VSharp.Core.CallDepth

/-!
# Core — Shifts

`simplifyShift` on terms without unions.  Its rules add the amounts of nested shifts and the
exponents of powers of two, and give zero where the sum reaches the width.

- `simplifyShift_keeps`: by a literal amount within the width, given the calls below;
- `simplifyShift_other`: by any other amount that is no literal, nothing is simplified.
-/

namespace VSharp
open Term Propositional Library Merging MachineInteger ILCalculator Simplifiers

/-! ### Shifted bits -/

section
variable {op : OperationType} {w : ℕ} (a : BitVec w)

theorem shifted_zero_left (hop : IsShift op) (n : ℕ) : shifted op (0 : BitVec w) n = 0 := by
  cases hop <;> simp [shifted]

theorem shifted_zero_right (hop : IsShift op) : shifted op a 0 = a := by
  cases hop <;> simp [shifted]

theorem shifted_add (hop : IsShift op) (m n : ℕ) :
    shifted op (shifted op a m) n = shifted op a (m + n) := by
  cases hop with
  | shiftLeft => exact (BitVec.shiftLeft_add a m n).symm
  | shiftRight => exact BitVec.sshiftRight_add.symm
  | shiftRight_Un => exact (BitVec.shiftRight_add a m n).symm

/-- A left or a logical shift by the width or more leaves nothing. -/
theorem shifted_of_le (hop : op = .shiftLeft ∨ op = .shiftRight_Un) {n : ℕ} (hn : w ≤ n) :
    shifted op a n = 0 := by
  rcases hop with rfl | rfl
  · exact BitVec.shiftLeft_eq_zero hn
  · exact BitVec.ushiftRight_eq_zero hn

theorem shiftLeft_twoPow (m n : ℕ) :
    shifted .shiftLeft (BitVec.twoPow w m * a) n = shifted .shiftLeft a (n + m) := by
  show (BitVec.twoPow w m * a) <<< n = a <<< (n + m)
  rw [BitVec.shiftLeft_eq_mul_twoPow, BitVec.shiftLeft_eq_mul_twoPow, ← BitVec.twoPow_mul_twoPow_eq]
  ring

theorem shiftLeft_double (n : ℕ) :
    shifted .shiftLeft (a + a) n = shifted .shiftLeft a (n + 1) := by
  have htwo : BitVec.twoPow w 1 = 1 + 1 := by
    refine BitVec.eq_of_toNat_eq ?_
    rw [BitVec.toNat_twoPow, BitVec.toNat_add]
    exact Nat.add_mod 1 1 (2 ^ w)
  show (a + a) <<< n = a <<< (n + 1)
  rw [BitVec.shiftLeft_eq_mul_twoPow, BitVec.shiftLeft_eq_mul_twoPow,
    ← BitVec.twoPow_mul_twoPow_eq, htwo]
  ring

theorem shiftLeft_mul (b : BitVec w) (n : ℕ) :
    shifted .shiftLeft (a * b) n = a * shifted .shiftLeft b n := by
  show (a * b) <<< n = a * b <<< n
  rw [BitVec.shiftLeft_eq_mul_twoPow, BitVec.shiftLeft_eq_mul_twoPow, mul_assoc]

theorem ite_shifted (hop : op = .shiftLeft ∨ op = .shiftRight_Un) (n : ℕ) :
    (if w ≤ n then 0 else shifted op a n) = shifted op a n := by
  split
  · next hn => exact (shifted_of_le a hop hn).symm
  · rfl

theorem ite_shifted_of_msb {isSigned : Bool} (h : a.msb = false) (n : ℕ) :
    (if w ≤ n then 0 else shifted (shiftRightOp isSigned) a n) = shifted .shiftRight_Un a n := by
  rw [shifted_of_msb h, ite_shifted a (.inr rfl)]

end

variable {x y : ℤ}

theorem compare_ge_zero : ILCalculator.compare x y ≥ 0 ↔ y ≤ x := by
  unfold ILCalculator.compare
  split
  · omega
  split <;> omega

theorem compare_eq_neg_one : ILCalculator.compare x y = -1 ↔ x < y := by
  unfold ILCalculator.compare
  split
  · omega
  split <;> omega

theorem compare_eq_zero : ILCalculator.compare x y = 0 ↔ x = y := by
  unfold ILCalculator.compare
  split
  · omega
  split <;> omega

/-! ### The rules -/

/-- The shifts a simplifier calls keep the value. -/
def ShiftsKeep (D : Prop) (t : Ty) (S : Simplifiers) : Prop :=
  ∀ {op : OperationType} {i : ℕ} {a : Term} {n : ℤ}, IsShift op → Simplified D t i a →
    0 ≤ n ∧ n < t.width → Keeps False D t (fun ρ => shifted op (a.value ρ t.width) n.toNat)
      (S.shift op t a (literal n .int32))

section
variable {D : Prop} {t : Ty} (ht : t.IsStackInt) {S : Simplifiers}
variable {op : OperationType} {x a : Term} {n m : ℤ} {i k : ℕ}

include ht

theorem Simplified.zero : Simplified D t 1 (VSharp.literal 0 t) :=
  .literal (zero_inRange ht) le_rfl

omit ht in
theorem value_zero (ρ : Valuation) : (literal 0 t).value ρ t.width = 0 := by
  rw [value_literal]
  exact BitVec.ofInt_natCast t.width 0

/-- The bits of a shift by a literal amount. -/
theorem value_shift_literal (hop : IsShift op) (hx : Numeral t x) (n : ℤ) (ρ : Valuation) :
    (makeBinary op x (literal n .int32) t).value ρ t.width =
      shifted op (x.value ρ t.width) (BitVec.ofInt 32 n).toNat :=
  Numeral.value_shift ht hop hx (eval_literal ρ n .int32)

theorem value_shift_amount (hop : IsShift op) (hx : Numeral t x) (hn : 0 ≤ n ∧ n < t.width)
    (ρ : Valuation) :
    (makeBinary op x (literal n .int32) t).value ρ t.width =
      shifted op (x.value ρ t.width) n.toNat := by
  rw [value_shift_literal ht hop hx, toNat_amount ht hn]

section
variable (hS : ShiftsKeep D t S) {j : ℕ} {b : Term}

include hS

/-- Two amounts, added up: beyond the width nothing is left. -/
theorem shift_sum (hop : IsShift op) (ha : Simplified D t i a) (hm : 0 ≤ m ∧ m < t.width)
    (hn : 0 ≤ n ∧ n < t.width) :
    Keeps False D t
      (fun ρ => if t.width ≤ m.toNat + n.toNat then 0
        else shifted op (a.value ρ t.width) (m.toNat + n.toNat))
      (if ILCalculator.compare (add m n t) (bitSizeOf a) ≥ 0 then
        pure (literal 0 t)
      else S.shift op t a (literal (add m n .int32) .int32)) := by
  have hw := width_le ht
  rw [ha.bitSizeOf_eq, add_of_small ht hm.1 (by omega) hn.1 (by omega)]
  by_cases h : (t.width : ℤ) ≤ m + n
  · rw [if_pos (compare_ge_zero.mpr h)]
    refine .pure (.zero ht) fun ρ => ?_
    rw [value_zero, if_pos (by omega)]
  · rw [if_neg fun hle => h (compare_ge_zero.mp hle),
      add_of_small .int32 hm.1 (by omega) hn.1 (by omega)]
    refine (hS hop ha ⟨by omega, not_le.mp h⟩).mono fun ρ => ?_
    rw [if_neg (by omega), Int.toNat_add hm.1 hn.1]

theorem simplifyShiftLeftMul_rules (ha : Simplified D t i a) (hb : Simplified D t j b)
    (hn : 0 ≤ n ∧ n < t.width) :
    Rules (S.simplifyShiftLeftMul t a b (literal n .int32)) (Keeps False D t
      fun ρ => shifted .shiftLeft (a.value ρ t.width * b.value ρ t.width) n.toNat) := by
  unfold simplifyShiftLeftMul
  refine .bind fun ⟨p, tp⟩ hp => .bind fun ⟨yval, yt⟩ hy => ?_
  cases hy
  obtain ⟨rfl, rfl, hrange⟩ := ha.of_concrete hp
  have hk := whatPowerOf2_lt ht hrange
  have hbits : bitSizeOf (literal p tp) = bitSizeOf b := by rw [ha.bitSizeOf_eq, hb.bitSizeOf_eq]
  have hrun := (shift_sum ht hS .shiftLeft hb hn hk).mono fun ρ => ite_shifted _ (.inl rfl) _
  refine .of_rule fun hpow => ?_
  rw [hbits]
  split
  · refine .doubt hrun fun ρ hzero => ?_
    have hzero' : shifted .shiftLeft (b.value ρ tp.width) n.toNat = 0 := by
      rw [← value_shift_amount ht .shiftLeft (hb.numeral ht) hn]
      exact hzero
    rw [← shifted_add _ .shiftLeft, shiftLeft_mul, hzero', shifted_zero_left .shiftLeft, mul_zero]
  · next hneg =>
      refine hrun.mono fun ρ => ?_
      rw [value_literal, ofInt_of_isPowOfTwo ht hrange (not_lt.mp hneg) hpow, shiftLeft_twoPow]

theorem simplifyShiftRightDiv_rules (ha : Simplified D t i a) (hb : Simplified D t j b)
    (hn : 0 ≤ n ∧ n < t.width) (isSigned : Bool) :
    Rules (S.simplifyShiftRightDiv (shiftRightOp isSigned) t a b (literal n .int32))
      (Keeps False D t fun ρ => shifted (shiftRightOp isSigned)
        (divided isSigned (a.value ρ t.width) (b.value ρ t.width)) n.toNat) := by
  unfold simplifyShiftRightDiv
  refine .bind fun ⟨p, tp⟩ hp => .bind fun ⟨yval, yt⟩ hy => ?_
  cases hy
  obtain ⟨rfl, rfl, hrange⟩ := hb.of_concrete hp
  have hk := whatPowerOf2_lt ht hrange
  have hrun := shift_sum ht hS (isShift_shiftRightOp isSigned) ha hn hk
  refine .of_rule fun ⟨hpow, hunsigned⟩ => ?_
  have h0 : 0 ≤ p := by
    rw [ha.hasUnsignedType_eq] at hunsigned
    rw [hunsigned] at hrange
    exact (inRange_true.mp hrange).1
  have hvalue (ρ : Valuation) := (value_literal p tp ρ).trans (ofInt_of_isPowOfTwo ht hrange h0 hpow)
  cases isSigned with
  | true =>
    refine .doubt hrun fun ρ hmsb => ?_
    rw [ite_shifted_of_msb _ hmsb, hvalue, divided_twoPow_of_msb hmsb (by omega),
      shifted_of_msb (msb_ushiftRight hmsb _), shifted_add _ .shiftRight_Un, Nat.add_comm]
  | false =>
    refine hrun.mono fun ρ => ?_
    rw [hvalue, divided_twoPow _ (by omega), Nat.add_comm]
    exact (ite_shifted _ (.inr rfl) _).trans (shifted_add _ .shiftRight_Un _ _).symm

theorem simplifyShiftLeftOfAddition_rules (ha : Simplified D t i a)
    (hn : 0 ≤ n ∧ n < t.width) :
    Rules (S.simplifyShiftLeftOfAddition t a (literal n .int32)) (Keeps False D t
      fun ρ => shifted .shiftLeft (a.value ρ t.width + a.value ρ t.width) n.toNat) := by
  have hw := width_le ht
  unfold simplifyShiftLeftOfAddition
  refine .bind fun ⟨yval, yt⟩ hy => ?_
  cases hy
  refine .some ?_
  rw [ha.bitSizeOf_eq]
  split
  · next h =>
      have hlast := compare_eq_zero.mp h
      refine .pure (.zero ht) fun ρ => ?_
      rw [value_zero, shiftLeft_double, shifted_of_le _ (.inl rfl) (by omega)]
  · next h =>
      have hlast : n ≠ t.width - 1 := fun heq => h (compare_eq_zero.mpr heq)
      rw [add_of_small .int32 hn.1 (by omega) (by decide) (by decide)]
      refine (hS .shiftLeft ha ⟨by omega, by omega⟩).mono fun ρ => ?_
      rw [shiftLeft_double]
      congr 1
      omega

theorem simplifyShiftOfShifted_rules (hop : IsShift op)
    (ha : Simplified D t i a) (hm : 0 ≤ m ∧ m < t.width) (hn : 0 ≤ n ∧ n < t.width) :
    Rules (S.simplifyShiftOfShifted op t a (literal m .int32) (literal n .int32))
      (Keeps False D t fun ρ => shifted op (shifted op (a.value ρ t.width) m.toNat) n.toNat) := by
  have hw := width_le ht
  have hsum : add m n t = m + n := add_of_small ht hm.1 (by omega) hn.1 (by omega)
  have hzero (hlow : op = .shiftLeft ∨ op = .shiftRight_Un) (hle : t.width ≤ m + n) :
      Keeps False D t (fun ρ => shifted op (shifted op (a.value ρ t.width) m.toNat) n.toNat)
        (pure (literal 0 t)) := by
    refine .pure (.zero ht) fun ρ => ?_
    rw [value_zero, shifted_add _ hop, shifted_of_le _ hlow (by omega)]
  have hwide (h : rule (ILCalculator.compare (add m n t) (bitSizeOf a) = -1)
      (S.shift op t a (literal (add m n .int32) .int32)) = none) :
      t.width ≤ m + n := by
    unfold rule at h
    rw [hsum, ha.bitSizeOf_eq] at h
    split at h
    · cases h
    · next hlt => exact not_lt.mp fun hlt' => hlt (compare_eq_neg_one.mpr hlt')
  unfold simplifyShiftOfShifted
  refine .orElse ?_ fun h => .orElse ?_ fun _ => ?_
  · refine .bind fun ⟨_, _⟩ hb => .bind fun ⟨_, _⟩ hy => ?_
    cases hb
    cases hy
    refine .of_rule fun hlt => ?_
    rw [hsum, ha.bitSizeOf_eq] at hlt
    have hlt' := compare_eq_neg_one.mp hlt
    rw [add_of_small .int32 hm.1 (by omega) hn.1 (by omega)]
    refine (hS hop ha ⟨by omega, hlt'⟩).mono fun ρ => ?_
    rw [shifted_add _ hop]
    congr 1
    omega
  · refine .bind fun _ _ => .bind fun _ _ => .of_rule fun hleft => ?_
    exact hzero (.inl hleft) (hwide h)
  · refine .bind fun _ _ => .bind fun _ _ => .of_rule fun ⟨hright, _⟩ => ?_
    split
    · next harith =>
        subst harith
        refine .doubt (.pure (.zero ht) value_zero) fun ρ hmsb => ?_
        have hle := hwide h
        rw [shifted_add _ .shiftRight]
        exact (shifted_of_le _ (.inr rfl) (by omega)).symm.trans
          (shifted_of_msb hmsb _ : shifted (shiftRightOp true) _ _ = _).symm
    · next harith => exact hzero (.inr (hright.resolve_left harith)) (hwide h)

/-- The rules for an operand that is an expression. -/
theorem simplifyShiftOfExpression_rules (hop : IsShift op)
    (hx : Simplified D t k x) (hn : 0 ≤ n ∧ n < t.width) :
    Rules (S.simplifyShiftOfExpression op t x (literal n .int32)) (Keeps False D t
      fun ρ => shifted op (x.value ρ t.width) n.toNat) := by
  unfold simplifyShiftOfExpression
  split
  · rename_i a b h
    obtain ⟨rfl, i, j, ha, hb⟩ := hx.of_mul h
    split
    · next hleft =>
        subst hleft
        refine Rules.keeps (simplifyShiftLeftMul_rules ht hS ha hb hn) fun ρ => ?_
        rw [Numeral.value_multiply ht (ha.numeral ht) (hb.numeral ht)]
    · exact .none
  · rename_i a b isSigned h _
    obtain ⟨rfl, -, i, j, ha, hb⟩ := hx.of_div h
    split
    · next hright =>
        subst hright
        refine Rules.keeps (simplifyShiftRightDiv_rules ht hS ha hb hn isSigned) fun ρ => ?_
        rw [Numeral.value_division ht (ha.numeral ht) (hb.numeral ht)]
    · exact .none
  · rename_i a b h _ _
    obtain ⟨rfl, i, j, ha, hb⟩ := hx.of_add h
    split
    · next hleft =>
        obtain ⟨rfl, rfl⟩ := hleft
        refine Rules.keeps (simplifyShiftLeftOfAddition_rules ht hS ha hn) fun ρ => ?_
        rw [Numeral.value_add ht (ha.numeral ht) (ha.numeral ht)]
    · exact .none
  · rename_i a b h _ _ _
    obtain ⟨m, i, rfl, hm, rfl, ha⟩ := hx.of_shiftLeft h
    split
    · next hleft =>
        subst hleft
        refine Rules.keeps (simplifyShiftOfShifted_rules ht hS .shiftLeft ha hm hn) fun ρ => ?_
        rw [value_shift_amount ht .shiftLeft (ha.numeral ht) hm]
    · exact .none
  · rename_i a b isSigned h _ _ _ _
    obtain ⟨m, i, rfl, hm, rfl, ha⟩ := hx.of_shiftRight h
    split
    · next hright =>
        subst hright
        refine Rules.keeps (simplifyShiftOfShifted_rules ht hS hop ha hm hn) fun ρ => ?_
        rw [value_shift_amount ht hop (ha.numeral ht) hm]
    · exact .none
  · exact .none

end

omit ht in
/-- A rule for literal operands. -/
theorem Simplified.of_any {p : ℤ → Bool} (hx : Simplified D t k x)
    (h : (concrete? x).any (p ·.1) = true) :
    ∃ n, x = VSharp.literal n t ∧ InRange t.isUnsigned t.width n ∧ p n = true := by
  cases hn : concrete? x with
  | none =>
    rw [hn] at h
    cases h
  | some nt =>
    rw [hn] at h
    obtain ⟨rfl, -, hrange⟩ := hx.of_concrete hn
    exact ⟨nt.1, rfl, hrange, h⟩

theorem simplifyShiftExt_rules (hS : ShiftsKeep D t S) (hop : IsShift op)
    (hx : Simplified D t k x) (hn : 0 ≤ n ∧ n < t.width) :
    Rules (S.simplifyShiftExt op t x (literal n .int32)) (Keeps False D t
      fun ρ => shifted op (x.value ρ t.width) n.toNat) := by
  unfold simplifyShiftExt
  refine .orElse (.of_rule fun h => ?_) fun _ => .orElse (.of_rule fun h => ?_) fun _ => ?_
  · obtain ⟨m, rfl, -, hm⟩ := hx.of_any h
    obtain rfl : m = 0 := by simpa [isZero] using hm
    refine .pure (.zero ht) fun ρ => ?_
    rw [value_zero, shifted_zero_left hop]
  · obtain rfl : n = 0 := by simpa [concrete?, literal, isZero] using h
    refine .pure hx fun ρ => ?_
    rw [Int.toNat_zero, shifted_zero_right _ hop]
  · split
    · exact simplifyShiftOfExpression_rules ht hS hop hx hn
    · exact .none

omit ht in
theorem Simplified.concrete_or (hx : Simplified D t k x) :
    (∃ n, x = VSharp.literal n t) ∨ isConcrete x = false := by
  cases hx with
  | literal => exact .inl ⟨_, rfl⟩
  | _ => exact .inr rfl

variable [HashOrder FieldId]

/-- A shift by a literal amount keeps the value, wherever the doubtful rules do. -/
theorem simplifyShift_keeps (hS : ShiftsKeep D t S) (hop : IsShift op) (hx : Simplified D t k x)
    (hn : 0 ≤ n ∧ n < t.width) :
    Keeps False D t (fun ρ => shifted op (x.value ρ t.width) n.toNat)
      (S.simplifyShift op t x (literal n .int32)) := by
  unfold simplifyShift
  rcases hx.concrete_or with ⟨m, rfl⟩ | hlit
  · have hnum (b : BitVec t.width)
        (hb : b = shifted op (BitVec.ofInt t.width m) (BitVec.ofInt 32 n).toNat) :
        Keeps False D t (fun ρ => shifted op ((literal m t).value ρ t.width) n.toNat)
          (pure (literal (boxed t b) t)) := by
      refine .pure (.boxed b) fun ρ => ?_
      rw [value_boxed, value_literal, hb, toNat_amount ht hn]
    cases hop with
    | shiftLeft => exact hnum _ rfl
    | shiftRight => exact hnum _ rfl
    | shiftRight_Un => exact hnum _ rfl
  · have hamount : NotIte (literal n .int32) := nofun
    rw [simplifyGenericBinary_leaf hx.notIte hamount (.inl hlit)]
    refine (simplifyShiftExt_rules ht hS hop hx hn).getD fun _ => ?_
    refine .pure (.shift hop hx hn le_rfl) fun ρ => ?_
    rw [value_shift_amount ht hop (hx.numeral ht) hn]

theorem simplifiers_shiftsKeep (N : ℕ) : ShiftsKeep D t (simplifiers N) := by
  induction N with
  | zero => exact fun _ _ _ => .inl rfl
  | succ N ih => exact fun hop hx hn => simplifyShift_keeps ht ih hop hx hn

/-! ### Other amounts -/

/-- A result that is no union, nor a struct or a truth value. -/
def IsPlain (r : Term) : Prop := NotIte r ∧ BranchLeaf .plain r

section

omit [HashOrder FieldId]

theorem isPlain_makeBinary (op : OperationType) (x y : Term) : IsPlain (makeBinary op x y t) :=
  ⟨nofun, nofun, t, rfl, ht.ne_bool⟩

omit ht in
theorem Arithmetic.isPlain (h : Arithmetic k x) : IsPlain x := by
  refine ⟨h.notIte, h.plain.1, ?_⟩
  cases h <;> exact ⟨_, rfl, ‹_›⟩

theorem Simplified.arithmetic {v : Term} (h : Simplified D t k v) : Arithmetic k v := by
  induction h with
  | literal _ hk => exact .literal ht.ne_bool hk
  | constant c hk => exact .constant c ht.ne_bool hk
  | neg _ _ ih => exact .neg ht.ne_bool ih
  | ring hop _ _ hk ihx ihy =>
    rcases hop with rfl | rfl
    · exact .binary ht.ne_bool (.inl .add) ihx ihy hk
    · exact .binary ht.ne_bool (.inl .multiply) ihx ihy hk
  | quotient _ hop _ _ hk ihx ihy =>
    refine .binary ht.ne_bool (.inl ?_) ihx ihy hk
    obtain ⟨isSigned, rfl | rfl⟩ := hop <;> cases isSigned <;> constructor
  | shift hop _ _ hk ih =>
    exact .binary ht.ne_bool (.inr hop) ih (.literal (k := 1) nofun le_rfl) hk

theorem Simplified.isPlain (h : Simplified D t k x) : IsPlain x :=
  (h.arithmetic ht).isPlain

omit ht in
/-- No rule applies but that of zero where the amount is no literal. -/
theorem simplifyShiftOfExpression_other {y : Term} (hy : concrete? y = none) :
    S.simplifyShiftOfExpression op t x y = none := by
  have hbind {α β : Type} (o : Option α) : (o >>= fun _ => (none : Option β)) = none := by
    cases o <;> rfl
  unfold simplifyShiftOfExpression
  split
  · split
    · unfold simplifyShiftLeftMul
      rw [hy]
      exact hbind _
    · rfl
  · split
    · unfold simplifyShiftRightDiv
      rw [hy]
      exact hbind _
    · rfl
  · split
    · unfold simplifyShiftLeftOfAddition
      rw [hy]
      rfl
    · rfl
  · split
    · unfold simplifyShiftOfShifted
      rw [hy]
      simp [hbind]
    · rfl
  · split
    · unfold simplifyShiftOfShifted
      rw [hy]
      simp [hbind]
    · rfl
  · rfl

end

/-- A shift by an amount that is no literal. -/
theorem simplifyShift_other (hop : IsShift op) {y : Term} (hx : Simplified D t k x)
    (hy : Numeral .int32 y) (hnot : NotIte y) (hlit : isConcrete y = false) :
    (S.simplifyShift op t x y).Gives fun r _ => IsPlain r ∧ ∀ ρ : Valuation,
      r.value ρ t.width = shifted op (x.value ρ t.width) (y.value ρ 32).toNat := by
  have hnone : concrete? y = none := by
    cases hy' : concrete? y with
    | none => rfl
    | some n =>
      obtain ⟨rfl, -⟩ := hy.of_concrete hy'
      cases hlit
  unfold simplifyShift
  rw [simplifyGenericBinary_leaf hx.notIte hnot (.inr hlit)]
  refine Rules.getD (K := fun run => run.Gives fun r _ => IsPlain r ∧ ∀ ρ : Valuation,
    r.value ρ t.width = shifted op (x.value ρ t.width) (y.value ρ 32).toNat) ?_ fun _ => ?_
  · unfold simplifyShiftExt
    refine .orElse (.of_rule fun h => ?_) fun _ => .orElse (.of_rule fun h => ?_) fun _ => ?_
    · obtain ⟨m, rfl, -, hm⟩ := hx.of_any h
      obtain rfl : m = 0 := by simpa [isZero] using hm
      refine .pure ⟨(Simplified.zero (D := D) ht).isPlain ht, fun ρ => ?_⟩
      rw [value_zero, shifted_zero_left hop]
    · rw [hnone] at h
      cases h
    · rw [simplifyShiftOfExpression_other hnone]
      split <;> exact .none
  · exact .pure ⟨isPlain_makeBinary ht op x y,
      fun ρ => Numeral.value_shift ht hop (hx.numeral ht) (hy.eval_eq .int32 ρ)⟩

/-- A shift by a literal amount of any size raises nothing. -/
theorem simplifyShift_ends (E : Failure → Prop) (hop : IsShift op) (hx : Simplified D t k x)
    (n : ℤ) {N : ℕ} (hN : 2 * (k + 1) < N) :
    ((simplifiers N).shift op t x (literal n .int32)).Ends E IsPlain := by
  obtain ⟨-, h⟩ := ((agree_simplifiers N).shift (E := E) hop ht.ne_bool (hx.arithmetic ht)
    (.literal (k := 1) (n := n) (t := .int32) nofun le_rfl) hN).mono fun _ h => h.isPlain
  exact h

/-! ### Shifts of unions -/

omit [HashOrder FieldId] in
theorem amount_of_lt (hn : InRange false 32 n) (hlt : (BitVec.ofInt 32 n).toNat < t.width) :
    0 ≤ n ∧ n < t.width := by
  have hw := width_le ht
  have hmsb : (BitVec.ofInt 32 n).msb = false := by
    rw [BitVec.msb_eq_false_iff_two_mul_lt]
    omega
  have hread := read_ofInt (by decide) hn
  rw [read_nonneg (.inr hmsb)] at hread
  omega

/-- A shift keeps the value where its amount is within the width, as long as the guards are
conditions and the rules that were applied to the alternatives are right. -/
theorem simplifyShift_value {op : OperationType} (hop : IsShift op) {x y : Term}
    (hx : UnionOf (fun _ => True) (fun v => ∃ k, Simplified True t k v) x) (hy : Numeral .int32 y)
    (hgx : Guarded Condition x) (hgy : Guarded Condition y) :
    Returns (fun n => (simplifiers n).shift op t x y) fun r => ∀ ρ : Valuation,
      AlternativesRight t ρ (fun n => (simplifiers n).shift op t) x y →
      (y.value ρ 32).toNat < t.width →
      r.value ρ t.width = shifted op (x.value ρ t.width) (y.value ρ 32).toNat := by
  have hF (n : ℕ) : (simplifiers (n + 1)).shift op t = simplifyGenericBinary
      (onNumbers (simplifyConcreteShift op t))
      (fun x y => ((simplifiers n).simplifyShiftExt op t x y).getD (pure (makeBinary op x y t)))
      ((simplifiers n).shift op t) := rfl
  have hunion : UnionOf Condition (fun v => ∃ k, Simplified True t k v) x := hx.guarded hgx
  let R (vx vy r : Term) : Prop := ∀ ρ : Valuation,
    RulesRight t ρ (fun n => (simplifiers n).shift op t vx vy) → (vy.value ρ 32).toNat < t.width →
    r.value ρ t.width = shifted op (vx.value ρ t.width) (vy.value ρ 32).toNat
  have hleaf (vx vy : Term) (hvx : NotIte vx) (hvy : NotIte vy)
      (hLx : ∃ k, Simplified True t k vx) (hLy : Numeral .int32 vy) :
      Returns (fun n => (simplifiers n).shift op t vx vy) fun r =>
        InBranch (BranchLeaf .plain) r ∧ R vx vy r := by
    obtain ⟨k, hk⟩ := hLx
    refine Filter.eventually_atTop.mpr ⟨2 * (k + 1) + 1, fun N hN => ?_⟩
    show ((simplifiers N).shift op t vx vy).Gives _
    rcases hLy.concrete_or with ⟨n, rfl, hrange⟩ | hlit
    · by_cases hn : 0 ≤ n ∧ n < t.width
      · obtain ⟨r, d, hrun, ⟨_, hr⟩, hval⟩ := (simplifiers_shiftsKeep ht N hop hk hn).gives
          (simplifyShift_ends ht _ hop hk n (by omega)) False.elim
        refine ⟨r, d, hrun, .leaf hr.notIte (hr.plain ht), fun ρ hkeep _ => ?_⟩
        rw [hval ρ (hkeep N r d hrun), ← toNat_amount ht hn]
        exact congrArg (fun b : BitVec 32 => shifted op _ b.toNat) (value_literal n .int32 ρ).symm
      · obtain ⟨r, d, hrun, hr⟩ :=
          (simplifyShift_ends ht ⊥ hop hk n (N := N) (by omega)).gives
        refine ⟨r, d, hrun, .leaf hr.1 hr.2, fun ρ _ hfits => absurd ?_ hn⟩
        have hval : (literal n .int32).value ρ 32 = BitVec.ofInt 32 n := value_literal n .int32 ρ
        rw [hval] at hfits
        exact amount_of_lt ht hrange hfits
    · obtain ⟨M, rfl⟩ : ∃ M, N = M + 1 := ⟨N - 1, by omega⟩
      obtain ⟨r, d, hrun, hr, hval⟩ :=
        simplifyShift_other ht (S := simplifiers M) hop hk hLy hvy hlit
      exact ⟨r, d, hrun, .leaf hr.1 hr.2, fun ρ _ _ => hval ρ⟩
  refine (simplifyGenericBinary_spec (merges_plain fun _ h => h) hF hleaf hunion
    (hy.unionOf hgy)).mono fun r hr ρ hkeep hfits => ?_
  obtain ⟨vx, vy, r', hvx, hvy, hr', heval⟩ := hr.2 ρ.machine
  have hvalx : vx.value ρ t.width = x.value ρ t.width := by rw [value, value, hvx.eval_eq]
  have hvaly : vy.value ρ 32 = y.value ρ 32 := by rw [value, value, hvy.eval_eq]
  rw [← hvaly] at hfits
  rw [← hvalx, ← hvaly, ← hr' ρ (hkeep vx vy hvx hvy) hfits, value, value, heval]

end

/-- `(a / 2) >> 1`, signed and of an unsigned type, becomes `a >> 2`, which is right where the top bit
of `a` is clear. -/
theorem simplifyShift_quotient : letI : HashOrder FieldId := ⟨fun _ => 0⟩
    let a : Term := .constant ⟨0, []⟩ .uint32
    let x := makeBinary .divide a (literal 2 .uint32) .uint32
    let y := literal 1 .int32
    Returns (fun n => (simplifiers n).shift .shiftRight .uint32 x y) fun r => ∀ ρ : Valuation,
      (a.value ρ 32).msb = false →
        r.value ρ 32 = shifted .shiftRight (x.value ρ 32) (y.value ρ 32).toNat := by
  intro a x y
  let _ : HashOrder FieldId := ⟨fun _ => 0⟩
  have hx : Simplified True .uint32 3 x := .quotient trivial ⟨true, .inl rfl⟩ (.constant _ le_rfl)
    (.literal (by decide) le_rfl) le_rfl
  have hnotes : Notes [.signedOnUnsigned a]
      (fun n => (simplifiers n).shift .shiftRight .uint32 x y) :=
    fun | 0 | 1 => .inl rfl | _ + 2 => .inr ⟨_, rfl⟩
  refine (simplifyShift_value .uint32 .shiftRight (.leaf (v := x) nofun ⟨3, hx⟩)
    (.literal (by decide)) (.leaf nofun) (.leaf (v := y) nofun)).mono fun r hr ρ hmsb =>
      hr ρ (fun vx vy hvx hvy => ?_) ?_
  · obtain rfl := hvx.unique (.leaf (v := x) nofun)
    obtain rfl := hvy.unique (.leaf (v := y) nofun)
    exact hnotes.rulesRight (List.forall_mem_singleton.mpr hmsb)
  · rw [show y.value ρ 32 = 1 from value_literal 1 .int32 ρ]
    decide

/-- `(-2147483648 * b) << 1`: the smallest number is taken for the power of two with the exponent 0,
and the result is `b << 1`. -/
theorem simplifyShift_minValue : letI : HashOrder FieldId := ⟨fun _ => 0⟩
    ¬ ∀ (t : Ty), t.IsStackInt → ∀ (op : OperationType), IsShift op → ∀ x y : Term,
      UnionOf (fun _ => True) (fun v => ∃ k, Simplified True t k v) x → Numeral .int32 y →
      Returns (fun n => (simplifiers n).shift op t x y) fun r => ∀ ρ : Valuation,
        (y.value ρ 32).toNat < t.width →
        r.value ρ t.width = shifted op (x.value ρ t.width) (y.value ρ 32).toNat := by
  let _ : HashOrder FieldId := ⟨fun _ => 0⟩
  intro h
  let b : Term := .constant ⟨0, []⟩ .int32
  let x := makeBinary .multiply (literal (-2147483648) .int32) b .int32
  let y := literal 1 .int32
  have hx : Simplified True .int32 3 x :=
    .ring (.inr rfl) (.literal (by decide) le_rfl) (.constant _ le_rfl) le_rfl
  have hret := h .int32 .int32 .shiftLeft .shiftLeft x y (.leaf nofun ⟨3, hx⟩)
    (.literal (by decide))
  obtain ⟨N, hN⟩ := Filter.eventually_atTop.mp hret
  obtain ⟨r, d, hrun, hval⟩ := hN (N + 2) (by omega)
  have hrun' : (simplifiers (N + 2)).shift .shiftLeft .int32 x y =
      .ok (makeBinary .shiftLeft b y .int32,
        [.minValueFactor (makeBinary .shiftLeft b y .int32)]) := rfl
  obtain ⟨rfl, -⟩ := Prod.mk.inj (Except.ok.inj (hrun.symm.trans hrun'))
  exact absurd (hval (.constants 1) (by decide)) (by decide)

end VSharp
