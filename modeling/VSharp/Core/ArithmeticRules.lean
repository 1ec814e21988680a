import VSharp.Core.Shifts

/-!
# Core — ArithmeticRules

The simplifiers of sums, negations, products and quotients on terms without unions, one lemma for
each function of the source.

- `CallsKeep D t S`: the simplifiers `S` keep the value, unless they stop;
- `simplifyAddition_keeps`, …: a simplifier keeps the value, given the calls below;
- `simplifiers_callsKeep`: all of them, by induction on the number of nested calls.
-/

namespace VSharp
open Term Propositional Library Merging MachineInteger Simplifiers
open Run (doubt)

/-- The simplifiers a simplifier calls keep the value.  Where quotients are allowed, a run may
trap. -/
structure CallsKeep (D : Prop) (t : Ty) (S : Simplifiers) : Prop where
  addition : ∀ {i j : ℕ} {x y : Term}, Simplified D t i x → Simplified D t j y →
    Keeps D D t (fun ρ => x.value ρ t.width + y.value ρ t.width) (S.addition t x y)
  unaryMinus : ∀ {i : ℕ} {x : Term}, Simplified D t i x →
    Keeps D D t (fun ρ => -x.value ρ t.width) (S.unaryMinus t x)
  multiplication : ∀ {i j : ℕ} {x y : Term}, Simplified D t i x → Simplified D t j y →
    Keeps D D t (fun ρ => x.value ρ t.width * y.value ρ t.width) (S.multiplication t x y)
  division : D → ∀ {i j : ℕ} {x y : Term} (isSigned : Bool), Simplified D t i x →
    Simplified D t j y → Keeps D D t
      (fun ρ => divided isSigned (x.value ρ t.width) (y.value ρ t.width))
      (S.division isSigned t x y)
  shift : ShiftsKeep D t S

section
variable {D : Prop} {t : Ty} {S : Simplifiers} {i j l : ℕ} {a b x y : Term} {K : Run Term → Prop}

/-! ### Literals -/

theorem value_literal_add (p q : ℤ) (ρ : Valuation) :
    (literal (ILCalculator.add p q t) t).value ρ t.width =
      BitVec.ofInt t.width p + BitVec.ofInt t.width q :=
  value_boxed t _ ρ

theorem value_literal_sub (p q : ℤ) (ρ : Valuation) :
    (literal (ILCalculator.sub p q t) t).value ρ t.width =
      BitVec.ofInt t.width p - BitVec.ofInt t.width q :=
  value_boxed t _ ρ

theorem value_literal_mul (p q : ℤ) (ρ : Valuation) :
    (literal (ILCalculator.mul p q t) t).value ρ t.width =
      BitVec.ofInt t.width p * BitVec.ofInt t.width q :=
  value_boxed t _ ρ

theorem Simplified.sum (p q : ℤ) : Simplified D t 1 (VSharp.literal (ILCalculator.add p q t) t) :=
  .boxed _

theorem Simplified.difference (p q : ℤ) :
    Simplified D t 1 (VSharp.literal (ILCalculator.sub p q t) t) :=
  .boxed _

theorem Simplified.product (p q : ℤ) :
    Simplified D t 1 (VSharp.literal (ILCalculator.mul p q t) t) :=
  .boxed _

/-- A binary simplifier on terms without unions. -/
theorem simplifyGenericBinary_keeps [HashOrder FieldId] {concrete : ℤ → ℤ → Run Term}
    {unmatched again : Term → Term → Run Term} (hx : Simplified D t i x) (hy : Simplified D t j y)
    (hlit : ∀ p q, x = literal p t → y = literal q t → K (concrete p q)) (h : K (unmatched x y)) :
    K (simplifyGenericBinary (onNumbers concrete) unmatched again x y) := by
  rcases hx.concrete_or with ⟨p, rfl⟩ | hx'
  · rcases hy.concrete_or with ⟨q, rfl⟩ | hy'
    · exact hlit p q rfl rfl
    · rw [simplifyGenericBinary_leaf hx.notIte hy.notIte (.inr hy')]
      exact h
  · rw [simplifyGenericBinary_leaf hx.notIte hy.notIte (.inl hx')]
    exact h

theorem eitherOperand_rules {f : Term → Term → Option (Run Term)} (hxy : Rules (f x y) K)
    (hyx : Rules (f y x) K) : Rules (eitherOperand f x y) K := by
  unfold eitherOperand
  split
  · exact .orElse hxy fun _ => hyx
  split
  · exact hxy
  split
  · exact hyx
  · exact .none

theorem Simplified.sorted {op : OperationType} (hop : op = .add ∨ op = .multiply)
    (hx : Simplified D t i x) (hy : Simplified D t j y) :
    Simplified D t (i + j + 1) (Simplifiers.sorted op t x y) := by
  unfold Simplifiers.sorted
  split
  · exact .ring hop hy hx (by omega)
  · exact .ring hop hx hy le_rfl

variable (ht : t.IsStackInt) (hS : CallsKeep D t S) {p : ℤ} {w : ℕ}

include ht

/-! ### Addition -/

include hS in
theorem simplifyAdditionToSum_rules (ha : Simplified D t i a) (hb : Simplified D t j b)
    (hy : Simplified D t l y) :
    Rules (S.simplifyAdditionToSum t a b y)
      (Keeps D D t fun ρ => a.value ρ t.width + b.value ρ t.width + y.value ρ t.width) := by
  unfold simplifyAdditionToSum
  refine .orElse ?_ fun _ => .orElse (.of_rule fun h => ?_) fun _ => .orElse (.of_rule fun h => ?_)
    fun _ => .orElse (.of_rule fun h => ?_) fun _ => .of_rule fun h => ?_
  · refine .bind fun ⟨p, _⟩ hp => .bind fun ⟨q, _⟩ hq => .some ?_
    obtain ⟨rfl, -⟩ := ha.of_concrete hp
    obtain ⟨rfl, -⟩ := hy.of_concrete hq
    refine (hS.addition (.sum p q) hb).mono fun ρ => ?_
    rw [value_literal_add, value_literal, value_literal]
    ring
  · obtain ⟨rfl, hy', -⟩ := ha.of_unaryMinus h
    refine .pure hb fun ρ => ?_
    rw [Numeral.value_neg ht (hy.numeral ht)]
    ring
  · obtain ⟨rfl, hy', -⟩ := hb.of_unaryMinus h
    refine .pure ha fun ρ => ?_
    rw [Numeral.value_neg ht (hy.numeral ht)]
    ring
  · obtain ⟨rfl, ha', -⟩ := hy.of_unaryMinus h
    refine .pure hb fun ρ => ?_
    rw [Numeral.value_neg ht (ha.numeral ht)]
    ring
  · obtain ⟨rfl, hb', -⟩ := hy.of_unaryMinus h
    refine .pure ha fun ρ => ?_
    rw [Numeral.value_neg ht (hb.numeral ht)]
    ring

/-- The pattern of a negated sum finds nothing: the simplifier negates the summands. -/
theorem simplifyAdditionToUnaryMinus_rules (hadd : add? x = none) :
    Rules (simplifyAdditionToUnaryMinus t x y)
      (Keeps D D t fun ρ => -x.value ρ t.width + y.value ρ t.width) := by
  unfold simplifyAdditionToUnaryMinus
  refine .orElse (.of_rule fun h => ?_) fun _ => ?_
  · subst h
    refine .pure (.zero ht) fun ρ => ?_
    rw [value_zero]
    ring
  · rw [hadd]
    exact .none

include hS in
theorem simplifyAdditionToProduct_rules (ha : Simplified D t i a) (hb : Simplified D t j b)
    (hy : Simplified D t l y) :
    Rules (S.simplifyAdditionToProduct t a b y)
      (Keeps D D t fun ρ => a.value ρ t.width * b.value ρ t.width + y.value ρ t.width) := by
  unfold simplifyAdditionToProduct
  refine .bind fun ⟨p, tp⟩ hp => .orElse (.of_rule fun h => ?_) fun _ => ?_
  · obtain ⟨rfl, rfl, -⟩ := ha.of_concrete hp
    subst h
    refine (hS.multiplication (.sum p 1) hb).mono fun ρ => ?_
    have hone : BitVec.ofInt tp.width 1 = 1 := BitVec.ofInt_natCast tp.width 1
    rw [value_literal_add, hone, value_literal]
    ring
  · refine .bind fun ⟨c, d⟩ hc => .bind fun ⟨q, _⟩ hq => .of_rule fun h => ?_
    obtain ⟨rfl, rfl, -⟩ := ha.of_concrete hp
    obtain ⟨rfl, i', j', hc', hd'⟩ := hy.of_mul hc
    obtain ⟨rfl, rfl, -⟩ := hc'.of_concrete hq
    subst h
    refine (hS.multiplication (.sum p q) hb).mono fun ρ => ?_
    rw [value_literal_add, Numeral.value_multiply ht (hc'.numeral ht) (hd'.numeral ht),
      value_literal, value_literal]
    ring

include hS in
theorem simplifyAdditionToShift_rules (ha : Simplified D t i a) (hp : 0 ≤ p ∧ p < t.width)
    (hy : Simplified D t l y) :
    Rules (S.simplifyAdditionToShift t a (literal p .int32) y)
      (Keeps D D t fun ρ =>
        shifted .shiftLeft (a.value ρ t.width) p.toNat + y.value ρ t.width) := by
  have hw := width_le ht
  unfold simplifyAdditionToShift
  refine .bind fun ⟨_, _⟩ hp' => .bind fun ⟨c, d⟩ hc => .bind fun ⟨q, _⟩ hq => .of_rule fun h => ?_
  cases hp'
  obtain ⟨rfl, rfl⟩ := h
  obtain ⟨q', i', rfl, hq', rfl, -⟩ := hy.of_shiftLeft hc
  cases hq
  have hvalue (ρ : Valuation) : shifted .shiftLeft (a.value ρ t.width) p.toNat +
      (makeBinary .shiftLeft a (literal p .int32) t).value ρ t.width =
      shifted .shiftLeft (a.value ρ t.width) (p.toNat + 1) := by
    rw [value_shift_amount ht .shiftLeft (ha.numeral ht) hp, ← shiftLeft_double]
    exact (BitVec.shiftLeft_add_distrib).symm
  rw [ha.bitSizeOf_eq]
  split
  · next hlast =>
      have hlast' := compare_eq_zero.mp hlast
      refine .pure (.zero ht) fun ρ => ?_
      rw [hvalue, value_zero, shifted_of_le _ (.inl rfl) (by omega)]
  · next hlast =>
      have hlast' : p ≠ t.width - 1 := fun heq => hlast (compare_eq_zero.mpr heq)
      rw [add_of_small .int32 hp.1 (by omega) (by decide) (by decide)]
      refine ((hS.shift .shiftLeft ha ⟨by omega, by omega⟩).mono fun ρ => ?_).of_safe
      rw [hvalue]
      congr 1
      omega

include hS in
theorem simplifyAdditionToExpression_rules (hx : Simplified D t i x) (hy : Simplified D t j y) :
    Rules (S.simplifyAdditionToExpression x y t)
      (Keeps D D t fun ρ => x.value ρ t.width + y.value ρ t.width) := by
  unfold simplifyAdditionToExpression
  split
  · rename_i a b h
    obtain ⟨rfl, i', j', ha, hb⟩ := hx.of_add h
    refine Rules.keeps (simplifyAdditionToSum_rules ht hS ha hb hy) fun ρ => ?_
    rw [Numeral.value_add ht (ha.numeral ht) (hb.numeral ht)]
  · rename_i x' h _
    obtain ⟨rfl, hx', hadd⟩ := hx.of_unaryMinus h
    refine Rules.keeps (simplifyAdditionToUnaryMinus_rules ht hadd) fun ρ => ?_
    rw [Numeral.value_neg ht (hx'.numeral ht)]
  · rename_i a b h _ _
    obtain ⟨rfl, i', j', ha, hb⟩ := hx.of_mul h
    refine Rules.keeps (simplifyAdditionToProduct_rules ht hS ha hb hy) fun ρ => ?_
    rw [Numeral.value_multiply ht (ha.numeral ht) (hb.numeral ht)]
  · rename_i a b h _ _ _
    obtain ⟨p, i', rfl, hp, rfl, ha⟩ := hx.of_shiftLeft h
    refine Rules.keeps (simplifyAdditionToShift_rules ht hS ha hp hy) fun ρ => ?_
    rw [value_shift_amount ht .shiftLeft (ha.numeral ht) hp]
  · exact .none

include hS in
theorem simplifyAdditionExt_rules (hx : Simplified D t i x) (hy : Simplified D t j y) :
    Rules (S.simplifyAdditionExt t x y)
      (Keeps D D t fun ρ => x.value ρ t.width + y.value ρ t.width) := by
  have hzero {z : Term} {m : ℕ} (hz : Simplified D t m z)
      (h : (concrete? z).any (ILCalculator.isZero ·.1) = true) (ρ : Valuation) :
      z.value ρ t.width = 0 := by
    obtain ⟨p, rfl, -, hp⟩ := hz.of_any h
    obtain rfl : p = 0 := by simpa [ILCalculator.isZero] using hp
    exact value_zero ρ
  unfold simplifyAdditionExt
  refine .orElse (.of_rule fun h => ?_) fun _ => .orElse (.of_rule fun h => ?_) fun _ => ?_
  · refine .pure hy fun ρ => ?_
    rw [hzero hx h, zero_add]
  · refine .pure hx fun ρ => ?_
    rw [hzero hy h, add_zero]
  · refine eitherOperand_rules (simplifyAdditionToExpression_rules ht hS hx hy)
      (.keeps (simplifyAdditionToExpression_rules ht hS hy hx) fun ρ => ?_)
    ring

include hS in
theorem simplifyAddition_keeps [HashOrder FieldId] (hx : Simplified D t i x)
    (hy : Simplified D t j y) :
    Keeps D D t (fun ρ => x.value ρ t.width + y.value ρ t.width) (S.simplifyAddition t x y) := by
  unfold simplifyAddition
  refine simplifyGenericBinary_keeps hx hy (fun p q hp hq => ?_) ?_
  · subst hp hq
    refine .pure (Simplified.sum p q) fun ρ => ?_
    rw [value_literal_add, value_literal, value_literal]
  · refine (simplifyAdditionExt_rules ht hS hx hy).getD fun _ => ?_
    refine .pure (.sorted (.inl rfl) hx hy) fun ρ => ?_
    unfold Simplifiers.sorted
    split
    · rw [Numeral.value_add ht (hy.numeral ht) (hx.numeral ht), add_comm]
    · rw [Numeral.value_add ht (hx.numeral ht) (hy.numeral ht)]

/-! ### Negation -/

include hS in
theorem simplifyUnaryMinusExt_rules (hx : Simplified D t i x) :
    Rules (S.simplifyUnaryMinusExt t x) (Keeps D D t fun ρ => -x.value ρ t.width) := by
  unfold simplifyUnaryMinusExt
  refine .orElse (.bind fun y h => .some ?_) fun _ => .orElse (.bind fun ⟨a, b⟩ h => .some ?_)
    fun _ => .bind fun ⟨a, y⟩ h => .bind fun ⟨p, tp⟩ hp => .some ?_
  · obtain ⟨rfl, hy, -⟩ := hx.of_unaryMinus h
    refine .pure hy fun ρ => ?_
    rw [Numeral.value_neg ht (hy.numeral ht), neg_neg]
  · obtain ⟨rfl, i', j', ha, hb⟩ := hx.of_add h
    refine (Keeps.bind (fun ρ v => v + -b.value ρ t.width) (hS.unaryMinus ha)
      fun {_ minusA} hA => .bind (fun ρ v => minusA.value ρ t.width + v) (hS.unaryMinus hb)
        fun hB => hS.addition hA hB).mono fun ρ => ?_
    rw [Numeral.value_add ht (ha.numeral ht) (hb.numeral ht)]
    ring
  · obtain ⟨rfl, i', j', ha, hy⟩ := hx.of_mul h
    obtain ⟨rfl, rfl, -⟩ := ha.of_concrete hp
    refine (Keeps.bind (fun ρ v => v * y.value ρ tp.width) (hS.unaryMinus ha)
      fun hA => hS.multiplication hA hy).mono fun ρ => ?_
    rw [Numeral.value_multiply ht (ha.numeral ht) (hy.numeral ht)]
    ring

omit ht in
/-- What is left to a negation is no sum. -/
theorem add?_of_simplifyUnaryMinusExt (h : S.simplifyUnaryMinusExt t x = none) :
    add? x = none := by
  cases hx : add? x with
  | none => rfl
  | some ab =>
    unfold simplifyUnaryMinusExt at h
    rw [hx] at h
    cases hm : unaryMinus? x <;> rw [hm] at h <;> cases h

include hS in
theorem simplifyUnaryMinus_keeps [HashOrder FieldId] (hx : Simplified D t i x) :
    Keeps D D t (fun ρ => -x.value ρ t.width) (S.simplifyUnaryMinus t x) := by
  unfold simplifyUnaryMinus
  rcases hx.concrete_or with ⟨p, rfl⟩ | hlit
  · refine .pure (Simplified.difference 0 p) fun ρ => ?_
    have hzero : BitVec.ofInt t.width 0 = 0 := BitVec.ofInt_natCast t.width 0
    rw [value_literal_sub, hzero, value_literal]
    ring
  · rw [simplifyGenericUnary_leaf hx.notIte hlit]
    refine (simplifyUnaryMinusExt_rules ht hS hx).getD fun h => ?_
    exact .pure (.neg hx (add?_of_simplifyUnaryMinusExt h))
      fun ρ => Numeral.value_neg ht (hx.numeral ht) ρ

/-! ### Multiplication -/

include hS in
theorem simplifyMultiplicationOfProduct_rules (ha : Simplified D t i a) (hb : Simplified D t j b)
    (hy : Simplified D t l y) :
    Rules (S.simplifyMultiplicationOfProduct t a b y)
      (Keeps D D t fun ρ => a.value ρ t.width * b.value ρ t.width * y.value ρ t.width) := by
  -- A factor and a divisor cancel: what is left is the product of the dividend and the other factor.
  have hcancel {m m' l' : ℕ} {u v c : Term} {isSigned : Bool} (hu : Simplified D t m u)
      (hv : Simplified D t m' v) (hc : Simplified D t l' c) {P : Valuation → BitVec t.width}
      (hP : ∀ ρ, P ρ = (makeBinary (divisionOp isSigned) u c t).value ρ t.width *
        v.value ρ t.width * c.value ρ t.width) {x : Run Term}
      (hx : Keeps D D t (fun ρ => u.value ρ t.width * v.value ρ t.width) x) :
      Keeps D D t P (doubt (.cancelFactor isSigned u c v) x) := by
    refine .doubt hx fun ρ hzero => ?_
    rw [hP, Numeral.value_division ht (hu.numeral ht) (hc.numeral ht), divided_mul_cancel hzero]
  unfold simplifyMultiplicationOfProduct
  refine .orElse ?_ fun _ => .orElse ?_ fun _ => .orElse ?_ fun _ => .orElse ?_ fun _ => ?_
  · refine .bind fun ⟨p, _⟩ hp => .bind fun ⟨q, _⟩ hq => .some ?_
    obtain ⟨rfl, -⟩ := ha.of_concrete hp
    obtain ⟨rfl, -⟩ := hy.of_concrete hq
    refine (hS.multiplication (.product p q) hb).mono fun ρ => ?_
    rw [value_literal_mul, value_literal, value_literal]
    ring
  · refine .bind fun ⟨c, d, s⟩ h => .of_rule fun heq => ?_
    obtain ⟨rfl, -, i', j', hc, -⟩ := ha.of_div h
    subst heq
    exact hcancel hc hb hy (fun _ => rfl) (hS.multiplication hc hb)
  · refine .bind fun ⟨c, d, s⟩ h => .of_rule fun heq => ?_
    obtain ⟨rfl, -, i', j', hc, -⟩ := hb.of_div h
    subst heq
    refine hcancel hc ha hy (fun _ => by ring) ((hS.multiplication ha hc).mono fun _ => ?_)
    exact mul_comm _ _
  · refine .bind fun ⟨c, d, s⟩ h => .of_rule fun heq => ?_
    obtain ⟨rfl, -, i', j', hc, -⟩ := hy.of_div h
    subst heq
    refine hcancel hc hb ha (fun _ => by ring) ((hS.multiplication hb hc).mono fun _ => ?_)
    exact mul_comm _ _
  · refine .bind fun ⟨c, d, s⟩ h => .of_rule fun heq => ?_
    obtain ⟨rfl, -, i', j', hc, -⟩ := hy.of_div h
    subst heq
    refine hcancel hc ha hb (fun _ => by ring) ((hS.multiplication ha hc).mono fun _ => ?_)
    exact mul_comm _ _

include hS in
theorem simplifyMultiplicationOfDivision_rules (hD : D) (isSigned : Bool)
    (ha : Simplified D t i a) (hb : Simplified D t j b) (hy : Simplified D t l y) :
    Rules (S.simplifyMultiplicationOfDivision isSigned t a b y)
      (Keeps D D t fun ρ =>
        divided isSigned (a.value ρ t.width) (b.value ρ t.width) * y.value ρ t.width) := by
  unfold simplifyMultiplicationOfDivision
  refine .orElse ?_ fun _ => .orElse ?_ fun _ => ?_
  · refine .bind fun ⟨p, _⟩ hp => .bind fun ⟨q, _⟩ hq => .some ?_
    obtain ⟨rfl, -⟩ := ha.of_concrete hp
    obtain ⟨rfl, -⟩ := hy.of_concrete hq
    refine .doubt (hS.division hD isSigned (.product p q) hb) fun ρ ⟨hrange, hsmall⟩ => ?_
    rw [← divided_mul_of_small ht.width_pos hrange hsmall, value_literal_mul, value_literal,
      value_literal]
  · refine .bind fun ⟨c, d⟩ h => .of_rule fun heq => ?_
    obtain ⟨rfl, i', j', hc, hd⟩ := hb.of_mul h
    subst heq
    refine .doubt (hS.division hD isSigned ha hd) fun ρ ⟨hrange, hexact⟩ => ?_
    rw [Numeral.value_multiply ht (hc.numeral ht) (hd.numeral ht), mul_comm (c.value ρ t.width),
      divided_of_factor ht.width_pos hrange hexact]
  · refine .bind fun ⟨c, d⟩ h => .of_rule fun heq => ?_
    obtain ⟨rfl, i', j', hc, hd⟩ := hb.of_mul h
    subst heq
    refine .doubt (hS.division hD isSigned ha hc) fun ρ ⟨hrange, hexact⟩ => ?_
    rw [Numeral.value_multiply ht (hc.numeral ht) (hd.numeral ht),
      divided_of_factor ht.width_pos hrange hexact]

omit ht in
theorem shiftLeft_mul_shiftLeft (u v : BitVec w) (p q : ℕ) :
    shifted .shiftLeft (u * v) (p + q) = shifted .shiftLeft u p * shifted .shiftLeft v q := by
  show (u * v) <<< (p + q) = (u <<< p) * (v <<< q)
  rw [BitVec.shiftLeft_eq_mul_twoPow, BitVec.shiftLeft_eq_mul_twoPow,
    BitVec.shiftLeft_eq_mul_twoPow, ← BitVec.twoPow_mul_twoPow_eq]
  ring

omit ht in
theorem shiftLeft_mul_twoPow (u : BitVec w) (p q : ℕ) :
    shifted .shiftLeft u p * BitVec.twoPow w q = shifted .shiftLeft u (p + q) := by
  rw [← shifted_add u .shiftLeft]
  exact (BitVec.shiftLeft_eq_mul_twoPow _ q).symm

include hS in
theorem simplifyMultiplicationOfShifts_rules (ha : Simplified D t i a) (hp : 0 ≤ p ∧ p < t.width)
    (hy : Simplified D t l y) :
    Rules (S.simplifyMultiplicationOfShifts t a (literal p .int32) y)
      (Keeps D D t fun ρ =>
        shifted .shiftLeft (a.value ρ t.width) p.toNat * y.value ρ t.width) := by
  have hw := width_le ht
  unfold simplifyMultiplicationOfShifts
  refine .orElse ?_ fun _ => ?_
  · refine .bind fun ⟨_, _⟩ hp' => .bind fun ⟨c, d⟩ hc => .bind fun ⟨q, _⟩ hq' => .some ?_
    cases hp'
    obtain ⟨q', i', rfl, hq, rfl, hc'⟩ := hy.of_shiftLeft hc
    cases hq'
    have hproduct (ρ : Valuation) : shifted .shiftLeft (a.value ρ t.width) p.toNat *
        (makeBinary .shiftLeft c (literal q .int32) t).value ρ t.width =
        shifted .shiftLeft (a.value ρ t.width * c.value ρ t.width) (p.toNat + q.toNat) := by
      rw [value_shift_amount ht .shiftLeft (hc'.numeral ht) hq, shiftLeft_mul_shiftLeft]
    rw [ha.bitSizeOf_eq, add_of_small ht hp.1 (by omega) hq.1 (by omega),
      add_of_small .int32 hp.1 (by omega) hq.1 (by omega)]
    split
    · next hsmall =>
        have hlt := compare_eq_neg_one.mp hsmall
        refine (Keeps.bind (fun ρ v => shifted .shiftLeft v (p + q).toNat)
          (hS.multiplication ha hc') fun hmul =>
            (hS.shift .shiftLeft hmul ⟨by omega, hlt⟩).of_safe).mono fun ρ => ?_
        rw [hproduct, Int.toNat_add hp.1 hq.1]
    · next hsmall =>
        have hle : t.width ≤ p + q := not_lt.mp fun hlt => hsmall (compare_eq_neg_one.mpr hlt)
        refine .pure (.zero ht) fun ρ => ?_
        rw [hproduct, value_zero, shifted_of_le _ (.inl rfl) (by omega)]
  · refine .bind fun ⟨_, _⟩ hp' => .bind fun ⟨r, tr⟩ hr => .of_rule fun hpow => ?_
    cases hp'
    obtain ⟨rfl, rfl, hrange⟩ := hy.of_concrete hr
    have hq := whatPowerOf2_lt ht hrange
    have hrun := ((shift_sum ht hS.shift .shiftLeft ha hp hq).mono
      fun ρ => ite_shifted _ (.inl rfl) _).of_safe (T := D)
    split
    · refine .doubt hrun fun ρ hzero => ?_
      have hzero' : shifted .shiftLeft (a.value ρ tr.width) p.toNat = 0 := by
        rw [← value_shift_amount ht .shiftLeft (ha.numeral ht) hp]
        exact hzero
      rw [← shifted_add _ .shiftLeft, hzero', shifted_zero_left .shiftLeft, zero_mul]
    · next hneg =>
        refine hrun.mono fun ρ => ?_
        rw [value_literal, ofInt_of_isPowOfTwo ht hrange (not_lt.mp hneg) hpow,
          shiftLeft_mul_twoPow]

include hS in
theorem simplifyMultiplicationOfExpression_rules (hx : Simplified D t i x)
    (hy : Simplified D t j y) :
    Rules (S.simplifyMultiplicationOfExpression t x y)
      (Keeps D D t fun ρ => x.value ρ t.width * y.value ρ t.width) := by
  unfold simplifyMultiplicationOfExpression
  split
  · rename_i a b h
    obtain ⟨rfl, i', j', ha, hb⟩ := hx.of_mul h
    refine Rules.keeps (simplifyMultiplicationOfProduct_rules ht hS ha hb hy) fun ρ => ?_
    rw [Numeral.value_multiply ht (ha.numeral ht) (hb.numeral ht)]
  · rename_i a b isSigned h _
    obtain ⟨rfl, hD, i', j', ha, hb⟩ := hx.of_div h
    refine Rules.keeps (simplifyMultiplicationOfDivision_rules ht hS hD isSigned ha hb hy)
      fun ρ => ?_
    rw [Numeral.value_division ht (ha.numeral ht) (hb.numeral ht)]
  · rename_i a b h _ _
    obtain ⟨p, i', rfl, hp, rfl, ha⟩ := hx.of_shiftLeft h
    refine Rules.keeps (simplifyMultiplicationOfShifts_rules ht hS ha hp hy) fun ρ => ?_
    rw [value_shift_amount ht .shiftLeft (ha.numeral ht) hp]
  · exact .none

section

omit ht

variable {q m : ℤ}

/-- The value of a literal that a rule looks for. -/
theorem Simplified.value_of_any {p : ℤ → Bool} (hp : ∀ m, p m = true → m = q)
    (hx : Simplified D t i x) (h : (concrete? x).any (p ·.1) = true) (ρ : Valuation) :
    x.value ρ t.width = BitVec.ofInt t.width q := by
  obtain ⟨m, rfl, -, hm⟩ := hx.of_any h
  rw [hp m hm, value_literal]

theorem eq_of_isZero (h : ILCalculator.isZero m = true) : m = 0 := by
  simpa [ILCalculator.isZero] using h

theorem eq_of_equal (h : ILCalculator.equal m q = true) : m = q := by
  simpa [ILCalculator.equal] using h

theorem ofInt_zero (w : ℕ) : BitVec.ofInt w 0 = 0 := BitVec.ofInt_natCast w 0

theorem ofInt_one (w : ℕ) : BitVec.ofInt w 1 = 1 := BitVec.ofInt_natCast w 1

theorem ofInt_neg_one (w : ℕ) : BitVec.ofInt w (-1) = -1 := by
  rw [BitVec.ofInt_neg, ofInt_one]

end

include hS in
theorem simplifyMultiplicationExt_rules (hx : Simplified D t i x) (hy : Simplified D t j y) :
    Rules (S.simplifyMultiplicationExt t x y)
      (Keeps D D t fun ρ => x.value ρ t.width * y.value ρ t.width) := by
  unfold simplifyMultiplicationExt
  refine .orElse (.of_rule fun h => ?_) fun _ => .orElse (.of_rule fun h => ?_) fun _ =>
    .orElse (.of_rule fun h => ?_) fun _ => .orElse (.of_rule fun h => ?_) fun _ =>
    .orElse (.of_rule fun h => ?_) fun _ => .orElse (.of_rule fun h => ?_) fun _ => ?_
  · refine .pure (.zero ht) fun ρ => ?_
    rw [hx.value_of_any (fun _ => eq_of_isZero) h, ofInt_zero, value_zero, zero_mul]
  · refine .pure (.zero ht) fun ρ => ?_
    rw [hy.value_of_any (fun _ => eq_of_isZero) h, ofInt_zero, value_zero, mul_zero]
  · refine .pure hy fun ρ => ?_
    rw [hx.value_of_any (fun _ => eq_of_equal) h, ofInt_one, one_mul]
  · refine .pure hx fun ρ => ?_
    rw [hy.value_of_any (fun _ => eq_of_equal) h, ofInt_one, mul_one]
  · refine (hS.unaryMinus hy).mono fun ρ => ?_
    rw [hx.value_of_any (fun _ => eq_of_equal) h.2, ofInt_neg_one]
    ring
  · refine (hS.unaryMinus hx).mono fun ρ => ?_
    rw [hy.value_of_any (fun _ => eq_of_equal) h.2, ofInt_neg_one]
    ring
  · refine eitherOperand_rules (simplifyMultiplicationOfExpression_rules ht hS hx hy)
      (.keeps (simplifyMultiplicationOfExpression_rules ht hS hy hx) fun ρ => ?_)
    ring

include hS in
theorem simplifyMultiplication_keeps [HashOrder FieldId] (hx : Simplified D t i x)
    (hy : Simplified D t j y) :
    Keeps D D t (fun ρ => x.value ρ t.width * y.value ρ t.width)
      (S.simplifyMultiplication t x y) := by
  unfold simplifyMultiplication
  refine simplifyGenericBinary_keeps hx hy (fun p q hp hq => ?_) ?_
  · subst hp hq
    refine .pure (Simplified.product p q) fun ρ => ?_
    rw [value_literal_mul, value_literal, value_literal]
  · refine (simplifyMultiplicationExt_rules ht hS hx hy).getD fun _ => ?_
    refine .pure (.sorted (.inr rfl) hx hy) fun ρ => ?_
    unfold Simplifiers.sorted
    split
    · rw [Numeral.value_multiply ht (hy.numeral ht) (hx.numeral ht), mul_comm]
    · rw [Numeral.value_multiply ht (hx.numeral ht) (hy.numeral ht)]

/-! ### Division -/

include hS in
theorem simplifyDivisionExt_rules (isSigned : Bool) (hx : Simplified D t i x)
    (hy : Simplified D t j y) :
    Rules (S.simplifyDivisionExt isSigned t x y)
      (Keeps D D t fun ρ => divided isSigned (x.value ρ t.width) (y.value ρ t.width)) := by
  have hw := width_le ht
  unfold simplifyDivisionExt
  refine .orElse (.of_rule fun h => ?_) fun _ => .orElse (.of_rule fun h => ?_) fun _ =>
    .orElse (.of_rule fun h => ?_) fun _ => .orElse (.of_rule fun h => ?_) fun _ =>
    .orElse ?_ fun _ => .orElse ?_ fun _ => ?_
  · refine .pure hx fun ρ => ?_
    rw [hx.value_of_any (fun _ => eq_of_isZero) h, ofInt_zero, zero_divided]
  · refine .pure hx fun ρ => ?_
    rw [hy.value_of_any (fun _ => eq_of_equal) h, ofInt_one, divided_one]
  · have hneg := hS.unaryMinus hx
    have hvalue (ρ : Valuation) : y.value ρ t.width = -1 := by
      rw [hy.value_of_any (fun _ => eq_of_equal) h.2, ofInt_neg_one]
    cases isSigned with
    | true =>
      refine hneg.mono fun ρ => ?_
      rw [hvalue, divided_neg_one _ ht.width_pos]
    | false =>
      refine .doubt hneg fun ρ hright => ?_
      rw [hvalue, divided_neg_one_of ht.width_pos hright]
  · subst h
    refine .doubt (.pure (.literal (one_inRange ht) le_rfl) fun _ => rfl) fun ρ hne => ?_
    rw [divided_self hne, value_literal, ofInt_one]
  · refine .bind fun z hz => .of_rule fun h =>
      .doubt (.pure (.literal ?_ le_rfl) fun _ => rfl) fun ρ hright => ?_
    · have hsigned : t.isUnsigned = false := by simpa using h.1
      have hpos : (0 : ℤ) < 2 ^ (t.width - 1) := Int.pow_pos (by decide)
      rw [hsigned]
      exact inRange_false.mpr ⟨by omega, by omega⟩
    · obtain ⟨rfl, -⟩ := hy.of_unaryMinus hz
      obtain ⟨-, rfl⟩ := h
      rw [Numeral.value_neg ht (hx.numeral ht), divided_opposite hright, value_literal,
        ofInt_neg_one]
  · refine .bind fun ⟨p, tp⟩ hp => .of_rule fun ⟨hpow, hunsigned⟩ => ?_
    obtain ⟨rfl, rfl, hrange⟩ := hy.of_concrete hp
    have hk := whatPowerOf2_lt ht hrange
    have hrun : Keeps D D tp
        (fun ρ => shifted .shiftRight_Un (x.value ρ tp.width) (whatPowerOf2 p).toNat)
        (S.shift .shiftRight_Un tp x (literal (whatPowerOf2 p) .int32)) :=
      (hS.shift .shiftRight_Un hx hk).of_safe
    obtain rfl : isSigned = false := by simpa using hunsigned
    split
    · refine .doubt hrun fun ρ hzero => ?_
      have hzero' : x.value ρ tp.width = 0 := hzero
      rw [hzero', shifted_zero_left .shiftRight_Un, zero_divided]
    · next hneg =>
        refine hrun.mono fun ρ => ?_
        rw [value_literal, ofInt_of_isPowOfTwo ht hrange (not_lt.mp hneg) hpow,
          divided_twoPow _ (by omega)]
  · refine .bind fun ⟨a, b, s⟩ ha => .bind fun ⟨p, tp⟩ hp => .bind fun ⟨q, tq⟩ hq =>
      .of_rule fun ⟨hpow, hunsigned⟩ => ?_
    obtain ⟨m, i', rfl, hm, rfl, ha'⟩ := hx.of_shiftRight ha
    cases hp
    obtain ⟨rfl, rfl, hrange⟩ := hy.of_concrete hq
    have hk := whatPowerOf2_lt ht hrange
    have hrun := (shift_sum ht hS.shift (isShift_shiftRightOp isSigned) ha' hm hk).of_safe (T := D)
    have h0 : 0 ≤ q := by
      rw [ha'.hasUnsignedType_eq] at hunsigned
      rw [hunsigned] at hrange
      exact (inRange_true.mp hrange).1
    have hvalue (ρ : Valuation) :=
      (value_literal q tq ρ).trans (ofInt_of_isPowOfTwo ht hrange h0 hpow)
    have hshift (ρ : Valuation) :=
      value_shift_amount ht (isShift_shiftRightOp s) (ha'.numeral ht) hm ρ
    split
    · refine .doubt hrun fun ρ hmsb => ?_
      rw [ite_shifted_of_msb _ hmsb, hvalue, hshift, shifted_of_msb hmsb,
        divided_twoPow_of_msb (msb_ushiftRight hmsb _) (by omega), shifted_add _ .shiftRight_Un]
    · next h =>
        obtain ⟨rfl, rfl⟩ : isSigned = false ∧ s = false := by simpa using h
        refine hrun.mono fun ρ => ?_
        rw [hvalue, hshift, divided_twoPow _ (by omega)]
        exact (ite_shifted _ (.inr rfl) _).trans (shifted_add _ .shiftRight_Un _ _).symm

omit ht in
/-- The quotient or the remainder of numbers traps, or is the one of their bits. -/
theorem concreteQuotient_keeps (hD : D) {q : ℤ} {result : Except Failure ℤ}
    {f : BitVec t.width → BitVec t.width → BitVec t.width}
    (h : result = ILCalculator.signedDivision p q t f ∨
      result = ILCalculator.unsignedDivision p q t f) :
    Keeps D D t (fun ρ => f ((literal p t).value ρ t.width) ((literal q t).value ρ t.width))
      (concreteQuotient t result) := by
  rcases division_cases h with ⟨e, rfl, he⟩ | rfl
  · exact .inr ⟨hD, he⟩
  · refine .pure (.boxed _) fun ρ => ?_
    rw [value_boxed, value_literal, value_literal]
    rfl

include hS in
theorem simplifyDivision_keeps [HashOrder FieldId] (hD : D) (isSigned : Bool)
    (hx : Simplified D t i x) (hy : Simplified D t j y) :
    Keeps D D t (fun ρ => divided isSigned (x.value ρ t.width) (y.value ρ t.width))
      (S.simplifyDivision isSigned t x y) := by
  unfold simplifyDivision
  refine simplifyGenericBinary_keeps hx hy (fun p q hp hq => ?_) ?_
  · subst hp hq
    cases isSigned with
    | true => exact concreteQuotient_keeps hD (.inl rfl)
    | false => exact concreteQuotient_keeps hD (.inr rfl)
  · refine (simplifyDivisionExt_rules ht hS isSigned hx hy).getD fun _ => ?_
    exact .pure (.quotient hD ⟨isSigned, .inl rfl⟩ hx hy le_rfl)
      fun ρ => Numeral.value_division ht (hx.numeral ht) (hy.numeral ht) ρ isSigned

/-! ### The calls -/

theorem simplifiers_callsKeep [HashOrder FieldId] (n : ℕ) : CallsKeep D t (simplifiers n) := by
  induction n with
  | zero =>
    exact ⟨fun _ _ => .inl rfl, fun _ => .inl rfl, fun _ _ => .inl rfl,
      fun _ _ _ _ _ _ _ _ => .inl rfl, simplifiers_shiftsKeep ht 0⟩
  | succ n ih =>
    exact {
      addition := simplifyAddition_keeps ht ih
      unaryMinus := simplifyUnaryMinus_keeps ht ih
      multiplication := simplifyMultiplication_keeps ht ih
      division := fun hD _ _ _ _ isSigned => simplifyDivision_keeps ht ih hD isSigned
      shift := simplifiers_shiftsKeep ht (n + 1) }

/-! ### Remainder -/

theorem simplifyRemainderExt_rules (isSigned : Bool) (hx : Simplified D t i x)
    (hy : Simplified D t j y) :
    Rules (simplifyRemainderExt isSigned t x y)
      (Keeps D D t fun ρ => reduced isSigned (x.value ρ t.width) (y.value ρ t.width)) := by
  have hzero {P : Valuation → BitVec t.width} (hP : ∀ ρ, P ρ = 0) :
      Keeps D D t P (pure (literal 0 t)) :=
    .pure (.zero ht) fun ρ => (value_zero ρ).trans (hP ρ).symm
  unfold simplifyRemainderExt
  refine .orElse (.of_rule fun h => ?_) fun _ => .orElse (.of_rule fun h => ?_) fun _ =>
    .orElse (.of_rule fun h => ?_) fun _ => .orElse (.of_rule fun h => ?_) fun _ =>
    .bind fun z hz => .of_rule fun h => ?_
  · refine .pure hx fun ρ => ?_
    rw [hx.value_of_any (fun _ => eq_of_isZero) h, ofInt_zero, zero_reduced]
  · refine hzero fun ρ => ?_
    rw [hy.value_of_any (fun _ => eq_of_equal) h, ofInt_one, reduced_one]
  · have hvalue (ρ : Valuation) : y.value ρ t.width = -1 := by
      rw [hy.value_of_any (fun _ => eq_of_equal) h.2, ofInt_neg_one]
    cases isSigned with
    | true =>
      refine hzero fun ρ => ?_
      rw [hvalue, reduced_neg_one]
    | false =>
      refine .doubt (hzero fun _ => rfl) fun ρ hright => ?_
      rw [hvalue, reduced_neg_one_of hright]
  · subst h
    exact hzero fun ρ => reduced_self _ isSigned
  · obtain ⟨rfl, hz', -⟩ := hy.of_unaryMinus hz
    subst h
    cases isSigned with
    | true =>
      refine hzero fun ρ => ?_
      rw [Numeral.value_neg ht (hx.numeral ht), reduced_neg, reduced_self]
    | false =>
      refine .doubt (hzero fun _ => rfl) fun ρ hright => ?_
      rw [Numeral.value_neg ht (hx.numeral ht), reduced_opposite hright]

section
variable (hD : D) (isSigned : Bool) (hx : Simplified D t i x) (hy : Simplified D t j y)

include hD isSigned hx hy

theorem simplifyRemainderOfProduct_keeps :
    Keeps D D t (fun ρ => reduced isSigned (x.value ρ t.width) (y.value ρ t.width))
      (simplifyRemainderOfProduct isSigned t x y) := by
  have hredex := fun ρ => Numeral.value_remainder ht (hx.numeral ht) (hy.numeral ht) ρ isSigned
  have hkeep : Keeps D D t (fun ρ => reduced isSigned (x.value ρ t.width) (y.value ρ t.width))
      (pure (makeBinary (remainderOp isSigned) x y t)) :=
    .pure (.quotient hD ⟨isSigned, .inr rfl⟩ hx hy le_rfl) hredex
  unfold simplifyRemainderOfProduct
  dsimp only
  split
  · rename_i a b p _ q _ hmul hp hq
    rw [hmul, Option.bind_some] at hp
    obtain ⟨rfl, i', j', ha, hb⟩ := hx.of_mul hmul
    obtain ⟨rfl, -⟩ := ha.of_concrete hp
    obtain ⟨rfl, -⟩ := hy.of_concrete hq
    rcases divides_cases isSigned t p q with ⟨e, h, he⟩ | ⟨r, h, hr⟩
    · rw [h]
      exact .inr ⟨hD, he⟩
    · rw [h]
      show Keeps D D t _ (Pure.pure r >>= _)
      rw [pure_bind]
      split
      · next hdvd =>
          refine .doubt (.pure (.zero ht) value_zero) fun ρ hright => ?_
          rw [Numeral.value_multiply ht (ha.numeral ht) (hb.numeral ht)]
          refine (reduced_mul ht.width_pos ?_ hright).symm
          rw [value_literal, value_literal]
          exact hr hdvd
      · exact hkeep
  · exact hkeep

theorem simplifyRemainder_keeps [HashOrder FieldId] (n : ℕ) :
    Keeps D D t (fun ρ => reduced isSigned (x.value ρ t.width) (y.value ρ t.width))
      (simplifyRemainder isSigned t n x y) := by
  cases n with
  | zero => exact .inl rfl
  | succ n =>
    rw [simplifyRemainder]
    refine simplifyGenericBinary_keeps hx hy (fun p q hp hq => ?_) ?_
    · subst hp hq
      cases isSigned with
      | true => exact concreteQuotient_keeps hD (.inl rfl)
      | false => exact concreteQuotient_keeps hD (.inr rfl)
    · exact (simplifyRemainderExt_rules ht isSigned hx hy).getD
        fun _ => simplifyRemainderOfProduct_keeps ht hD isSigned hx hy

end

end

end VSharp
