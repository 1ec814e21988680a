import VSharp.Core.Comparisons
import VSharp.Core.IntegralCasts

/-!
# Core — Integral terms

Casts of integral terms (`castConcrete`, `makeCast` and `primitiveCast` of
`VSharp.SILI.Core/Terms.fs`, `cast` of `VSharp.SILI.Core/TypeCasting.fs`), and comparisons of a term
that may be such a cast.

- `IntegralTerm` are the terms of an integral type that are no unions, `IntegralUnion` the flat
  unions of them that `merge` leaves;
- `cast_spec`: a cast extends the bits by the signedness of its target;
- `comparison_spec`: a comparison of two terms compares their bits, where the operands have one
  width or the second is a number that both types have;
- `simplifyComparison_truth`: the result has the truth of the comparison as long as the guards that
  are joined and negated are truth values and reduced formulas.
-/

namespace VSharp
open Term Propositional Library Merging MachineInteger BitVec

/-! ### Types -/

namespace Ty

/-- The integral types. -/
def integral? : Ty → Option IntegralType
  | .sbyte => some .sbyte
  | .byte => some .byte
  | .int16 => some .int16
  | .uint16 => some .uint16
  | .char => some .char
  | .int32 => some .int32
  | .uint32 => some .uint32
  | .int64 => some .int64
  | .uint64 => some .uint64
  | .intPtr => some .intPtr
  | .uintPtr => some .uintPtr
  | _ => none

/-- `Numeric`. -/
def numeric? : Ty → Option NumericType
  | .single => some .single
  | .double => some .double
  | t => t.integral?.map .integral

variable {t : Ty}

/-- What the width and the signedness of a type say of the integral type it is. -/
theorem exists_integral (h : 0 < t.width) : ∃ i, t.integral? = some i ∧
    t.numeric? = some (.integral i) ∧ t.width = i.numericBitSizeOf ∧
    t.isUnsigned = i.isUnsigned := by
  cases t <;> first | exact ⟨_, rfl, rfl, rfl, rfl⟩ | exact absurd h (Nat.lt_irrefl 0)

theorem ne_bool_of_width (h : 0 < t.width) : t ≠ .bool := by
  rintro rfl
  exact absurd h (by decide)

end Ty

/-! ### The code -/

/-- `castConcrete` of a number. -/
def castNumber (s t : IntegralType) (n : ℤ) : ℤ :=
  read t.isUnsigned (castConcrete s t (BitVec.ofInt _ n))

namespace Term

/-- `castConcrete`, to an integral type. -/
def castConcrete (obj : Obj) (s t : Ty) : Except Failure Term :=
  match obj, s.integral?, t.integral? with
  | .int n, some s', some t' => .ok (literal (castNumber s' t' n) t)
  | .bool b, none, some t' => if t'.isNative then .error .invalidCast
      else .ok (literal (if b then 1 else 0) t)
  | _, _, _ => .error .invalidCast

/-- The guards under which `makeCast` drops the inner cast, from `xType` to `t`, of a cast to
`toType`. -/
def dropsCast (xType t toType : Ty) : Bool :=
  match t.numeric?, toType.numeric? with
  | some t', some toType' =>
    !NumericType.isLessForNumericTypes t' toType' && NumericType.numericSameSign t' toType' ||
      match xType.numeric? with
      | some xType' => !NumericType.isLessForNumericTypes t' xType' &&
          !NumericType.isLessForNumericTypes toType' t' && NumericType.numericSameSign t' toType'
      | none => false
  | _, _ => false

def makeCast : Term → Ty → Ty → Term
  | .expression (.cast xType t) [x] u, fromType, toType =>
    if fromType = toType then .expression (.cast xType t) [x] u
    else if dropsCast xType t toType then makeCast x xType toType
    else .expression (.cast fromType toType) [.expression (.cast xType t) [x] u] toType
  | term, fromType, toType =>
    if fromType = toType then term else .expression (.cast fromType toType) [term] toType

/-- `primitiveCast` to an integral type, of a term that is no union and does not combine slices. -/
def primitiveCast (term : Term) (targetType : Ty) : Except Failure Term :=
  match term with
  | .concrete obj t => if t = targetType then .ok term else castConcrete obj t targetType
  | .constant _ t | .expression _ _ t => .ok (makeCast term t targetType)
  | _ => .error (.internal "unreachable")

def guardedApply [HashOrder FieldId] (f : Term → Except Failure Term) : Term → Except Failure Term
  | .ite branches elseValue => do
      let branches' ← branches.mapM fun b => do .ok (b.1, ← f b.2)
      let elseValue' ← f elseValue
      merge ⟨branches', elseValue'⟩
  | term => f term

/-- `cast` to an integral type, of a term that is no reference. -/
def cast [HashOrder FieldId] (term : Term) (targetType : Ty) : Except Failure Term :=
  guardedApply (primitiveCast · targetType) term

mutual

/-- `typeOf`, of unions too, where their values have one type. -/
def commonTypeOf : Term → Except Failure Ty
  | .ite branches elseValue => do
      let t ← commonTypeOf elseValue
      if (← typesOf branches).all (· = t) then .ok t
      else .error (.internal "values of several types")
  | .nop => .ok .void
  | .concrete _ t | .constant _ t | .expression _ _ t | .heapRef _ t | .struct _ t => .ok t
  | .ref a => .ok (.byRef (addressTypeOfLocation a))
  | .ptr _ t _ => .ok (.pointer t)
  | .slice .. => .error (.internal "getting type of unexpected term")
termination_by structural x => x

/-- The types of the values of a union. -/
def typesOf : List (Term × Term) → Except Failure (List Ty)
  | [] => .ok []
  | (_, v) :: branches => do .ok ((← commonTypeOf v) :: (← typesOf branches))
termination_by structural bs => bs

end

end Term

/-! ### Casts of numbers -/

section
variable {s t u : Ty}

/-- A number of `s` is cast the way the encoder casts its bits, unless it comes from less than 32
bits to more bits of the other signedness. -/
def Castable (s t : Ty) : Prop := s.width < 32 → s.width < t.width → s.isUnsigned = t.isUnsigned

theorem ofInt_castNumber {i j : IntegralType} (h : i.numericBitSizeOf < 32 →
    i.numericBitSizeOf < j.numericBitSizeOf → i.isUnsigned = j.isUnsigned) (n : ℤ) :
    BitVec.ofInt j.numericBitSizeOf (castNumber i j n) =
      extendTo j.isUnsigned _ (BitVec.ofInt i.numericBitSizeOf n) := by
  have hagree := (encodeCast_eq_castConcrete_iff i j (BitVec.ofInt _ n)).mpr
    fun ⟨h₁, h₂, h₃, _⟩ => h₃ (h h₁ h₂)
  rw [IntegralCasts.encodeCast_eq, Option.some_inj, IntegralCasts.castValue_eq] at hagree
  rw [castNumber, ofInt_read, hagree]

/-- A cast that drops another one extends the bits as the two do. -/
theorem extendTo_dropsCast (hs : 0 < s.width) (ht : 0 < t.width) (hu : 0 < u.width)
    (h : dropsCast s t u = true) (b : BitVec s.width) :
    extendTo u.isUnsigned u.width (extendTo t.isUnsigned t.width b) =
      extendTo u.isUnsigned u.width b := by
  obtain ⟨i, -, hi, hwi, hui⟩ := Ty.exists_integral hs
  obtain ⟨j, -, hj, hwj, huj⟩ := Ty.exists_integral ht
  obtain ⟨k, -, hk, hwk, huk⟩ := Ty.exists_integral hu
  have hdrop : IntegralCasts.integralTypes.collapses i j k = true := by
    rw [dropsCast, hi, hj, hk] at h
    exact h
  obtain ⟨hsign, hcases⟩ := IntegralCasts.collapses_iff.mp hdrop
  rw [← huj, ← huk] at hsign
  rw [← hwi, ← hwj, ← hwk] at hcases
  rw [hsign]
  rcases hcases with hle | ⟨hst, -⟩
  · rw [extendTo_eq_setWidth_of_le hle, setWidth_extendTo hle]
  · rcases Nat.lt_or_eq_of_le hst with hlt | heq
    · exact extendTo_extendTo hlt
    · exact extendTo_extendTo_of_eq heq.symm

end

variable {t : Ty}

theorem MachineValue.cast_extends (ht : 0 < t.width) {w : ℕ} (b : BitVec w) :
    (bits w b).cast t = .bits t.width (extendTo t.isUnsigned t.width b) := by
  unfold cast
  rw [if_neg (Ty.ne_bool_of_width ht), if_neg ht.ne']
  rfl

theorem MachineValue.cast_truth (ht : 0 < t.width) (b : Bool) :
    (bool b).cast t = .bits t.width (if b then 1 else 0) := by
  unfold cast
  rw [if_neg (Ty.ne_bool_of_width ht), if_neg ht.ne']

variable {m n : ℕ} {u : Bool}

theorem extendTo_bit {v : Bool} (hm : 0 < m) (hn : 0 < n) (hle : n ≤ m) :
    extendTo u n (if v then 1 else 0 : BitVec m) = if v then 1 else 0 := by
  rw [extendTo_eq_setWidth_of_le hle]
  cases v with
  | false => simp
  | true =>
    apply eq_of_toNat_eq
    have h1m : 1 < 2 ^ m := Nat.one_lt_two_pow hm.ne'
    have h1n : 1 < 2 ^ n := Nat.one_lt_two_pow hn.ne'
    simp [Nat.mod_eq_of_lt h1m, Nat.mod_eq_of_lt h1n]

/-- Fewer bits of a number. -/
theorem setWidth_ofInt (h : n ≤ m) (k : ℤ) : (BitVec.ofInt m k).setWidth n = BitVec.ofInt n k := by
  apply eq_of_toNat_eq
  rw [toNat_setWidth, toNat_ofInt, toNat_ofInt]
  have hdvd : (((2 : ℕ) ^ n : ℕ) : ℤ) ∣ ((2 : ℕ) ^ m : ℕ) := by
    exact_mod_cast pow_dvd_pow 2 h
  have hpos (w : ℕ) : (0 : ℤ) < ((2 : ℕ) ^ w : ℕ) := by exact_mod_cast Nat.two_pow_pos w
  have hm := Int.emod_nonneg k (hpos m).ne'
  have hn := Int.emod_nonneg k (hpos n).ne'
  have hmod : (((k % ((2 ^ m : ℕ) : ℤ)).toNat % 2 ^ n : ℕ) : ℤ) =
      (k % ((2 ^ n : ℕ) : ℤ)).toNat := by
    rw [Int.natCast_mod, Int.toNat_of_nonneg hm, Int.toNat_of_nonneg hn,
      Int.emod_emod_of_dvd k hdvd]
  exact_mod_cast hmod

theorem inRange_mono {k : ℤ} (h : m ≤ n) (hk : InRange u m k) : InRange u n k := by
  cases u with
  | true =>
    have hle : (2 : ℤ) ^ m ≤ 2 ^ n := by exact_mod_cast Nat.pow_le_pow_right (by decide) h
    exact ⟨hk.1, Int.lt_of_lt_of_le hk.2 hle⟩
  | false =>
    have hle : (2 : ℤ) ^ (m - 1) ≤ 2 ^ (n - 1) := by
      exact_mod_cast Nat.pow_le_pow_right (by decide) (Nat.sub_le_sub_right h 1)
    exact ⟨Int.le_trans (Int.neg_le_neg hle) hk.1, Int.lt_of_lt_of_le hk.2 hle⟩

/-- A number that the target has is kept, where no bits of the other signedness are added. -/
theorem read_extendTo {u' : Bool} {b : BitVec m} (hn : 0 < n) (hsize : n ≤ m ∨ u' = u ∧ m ≤ n)
    (h : InRange u' n (read u b)) : read u' (extendTo u' n b) = read u b := by
  rcases hsize with hle | ⟨rfl, hle⟩
  · rw [extendTo_eq_setWidth_of_le hle, ← ofInt_read (u := u) (b := b), setWidth_ofInt hle,
      ofInt_read, read_ofInt hn h]
  · cases u' with
    | true =>
      rw [extendTo_true, read_true, read_true, toNat_setWidth_of_le hle]
    | false => rw [extendTo_false, read_false, read_false, toInt_signExtend_of_le hle]

/-! ### Integral terms -/

/-- The term has, in all these valuations, the bits of its type. -/
def HasNumber (valid : Valuation → Prop) (t : Ty) (x : Term) : Prop :=
  ∀ ρ, valid ρ → x.eval ρ.machine = .bits t.width (x.value ρ t.width)

/-- The terms of an integral type that are no unions and combine no slices.  A sum with a literal
has the literal of its own type. -/
inductive IntegralTerm (valid : Valuation → Prop) : Ty → Term → Prop where
  | literal {t : Ty} {n : ℤ} (ht : 0 < t.width) (hn : InRange t.isUnsigned t.width n) :
      IntegralTerm valid t (literal n t)
  | constant {t : Ty} (ht : 0 < t.width) (c : Source) : IntegralTerm valid t (.constant c t)
  | cast {s t : Ty} {x : Term} (ht : 0 < t.width) (hx : IntegralTerm valid s x) :
      IntegralTerm valid t (.expression (.cast s t) [x] t)
  | castBool {t : Ty} {x : Term} (ht : 0 < t.width)
      (hbool : ∀ ρ, valid ρ → ∃ b, x.eval ρ.machine = .bool b)
      (hcast : ∀ s' t' y u, x = .expression (.cast s' t') [y] u → t' = .bool) :
      IntegralTerm valid t (.expression (.cast .bool t) [x] t)
  | operation {t : Ty} {op : Operation} {xs : List Term} (ht : 0 < t.width)
      (hop : (∀ s u, op ≠ .cast s u) ∧ op ≠ .combine)
      (hbits : HasNumber valid t (.expression op xs t))
      (hsum : ∀ a b m u, op = .operator .add → xs = [a, b] → concrete? a = some (m, u) →
        u = t ∧ InRange t.isUnsigned t.width m) :
      IntegralTerm valid t (.expression op xs t)

section
variable {valid : Valuation → Prop} {s t u : Ty} {x e : Term} {bs : List (Term × Term)} {w : ℕ}

namespace IntegralTerm

section
variable (h : IntegralTerm valid t x)

include h

theorem width_pos : 0 < t.width := by
  cases h <;> assumption

theorem notIte : NotIte x := by
  cases h <;> exact nofun

theorem typeOf_eq : typeOf x = .ok t := by
  cases h <;> rfl

theorem commonTypeOf_eq : commonTypeOf x = .ok t := by
  cases h <;> rfl

theorem plain : BranchLeaf .plain x := by
  refine ⟨?_, t, h.typeOf_eq, Ty.ne_bool_of_width h.width_pos⟩
  cases h <;> exact nofun

theorem hasNumber : HasNumber valid t x := by
  intro ρ hρ
  have of_eval {x : Term} {b : BitVec t.width} (h : x.eval ρ.machine = .bits t.width b) :
      x.eval ρ.machine = .bits t.width (x.value ρ t.width) := by
    rw [value_eq h, h]
  induction h with
  | literal => exact of_eval (eval_literal ρ _ _)
  | @constant t ht c =>
    refine of_eval (b := ρ.bits c t) ?_
    show (if t = .bool then _ else _ : MachineValue) = _
    rw [if_neg (Ty.ne_bool_of_width ht), if_neg ht.ne']
  | @cast s t x ht hx ih =>
    refine of_eval (b := extendTo t.isUnsigned _ (x.value ρ s.width)) ?_
    have hin := ih fun {x} {b} h => by rw [value_eq h, h]
    show MachineValue.cast t (x.eval ρ.machine) = _
    rw [hin, MachineValue.cast_extends ht]
  | @castBool t x ht hbool _ =>
    obtain ⟨b, hb⟩ := hbool ρ hρ
    refine of_eval (b := if b then 1 else 0) ?_
    show MachineValue.cast t (x.eval ρ.machine) = _
    rw [hb, MachineValue.cast_truth ht]
  | operation _ _ hbits => exact hbits ρ hρ

end

/-- The bits of a cast. -/
theorem value_cast (hx : IntegralTerm valid s x) (ht : 0 < t.width) {ρ : Valuation}
    (hρ : valid ρ) : (Term.expression (.cast s t) [x] t).value ρ t.width =
      extendTo t.isUnsigned t.width (x.value ρ s.width) := by
  refine value_eq ?_
  show MachineValue.cast t (x.eval ρ.machine) = _
  rw [hx.hasNumber ρ hρ, MachineValue.cast_extends ht]

theorem concrete_or (h : IntegralTerm valid t x) :
    (∃ n, x = VSharp.literal n t ∧ InRange t.isUnsigned t.width n) ∨ isConcrete x = false := by
  cases h with
  | literal _ hn => exact .inl ⟨_, rfl, hn⟩
  | _ => exact .inr rfl

end IntegralTerm

/-! ### Casts of terms -/

theorem makeCast_plain {fromType toType : Ty}
    (h : ∀ s' t' y u, x ≠ .expression (.cast s' t') [y] u) :
    makeCast x fromType toType =
      if fromType = toType then x else .expression (.cast fromType toType) [x] toType := by
  unfold makeCast
  split
  · exact absurd rfl (h _ _ _ _)
  · rfl

/-- A cast of a truth value is never dropped. -/
theorem makeCast_bool {y : Term} (ht : 0 < t.width)
    (hcast : ∀ s' t' z u, y = .expression (.cast s' t') [z] u → t' = .bool) :
    makeCast y .bool t = .expression (.cast .bool t) [y] t := by
  have hne : Ty.bool ≠ t := (Ty.ne_bool_of_width ht).symm
  unfold makeCast
  split
  · next s' t' z u =>
      rw [if_neg hne, if_neg]
      rw [hcast s' t' z u rfl, dropsCast]
      exact Bool.false_ne_true
  · rw [if_neg hne]

theorem dropsCast_bool (h : dropsCast .bool t u = true) (ht : 0 < t.width) (hu : 0 < u.width) :
    u.width ≤ t.width := by
  obtain ⟨j, -, hj, hwj, -⟩ := Ty.exists_integral ht
  obtain ⟨k, -, hk, hwk, -⟩ := Ty.exists_integral hu
  rw [dropsCast, hj, hk] at h
  simp only [show Ty.numeric? .bool = none from rfl, Bool.or_false, Bool.and_eq_true] at h
  rw [hwj, hwk]
  exact IntegralCasts.not_isLess_iff.mp h.1

theorem makeCast_spec (hx : IntegralTerm valid s x) (ht : 0 < t.width) :
    IntegralTerm valid t (makeCast x s t) ∧ ∀ ρ, valid ρ →
      (makeCast x s t).value ρ t.width = extendTo t.isUnsigned t.width (x.value ρ s.width) := by
  have new {x : Term} {s : Ty} (hx : IntegralTerm valid s x) :
      IntegralTerm valid t (.expression (.cast s t) [x] t) ∧ ∀ ρ, valid ρ →
        (Term.expression (.cast s t) [x] t).value ρ t.width =
          extendTo t.isUnsigned t.width (x.value ρ s.width) :=
    ⟨.cast ht hx, fun ρ hρ => hx.value_cast ht hρ⟩
  have same {x : Term} (hx : IntegralTerm valid t x) : IntegralTerm valid t x ∧ ∀ ρ, valid ρ →
      x.value ρ t.width = extendTo t.isUnsigned t.width (x.value ρ t.width) :=
    ⟨hx, fun ρ _ => extendTo_self.symm⟩
  have plain {x : Term} {s : Ty} (hx : IntegralTerm valid s x)
      (h : ∀ s' t' y u, x ≠ .expression (.cast s' t') [y] u) :
      IntegralTerm valid t (makeCast x s t) ∧ ∀ ρ, valid ρ →
        (makeCast x s t).value ρ t.width = extendTo t.isUnsigned t.width (x.value ρ s.width) := by
    rw [makeCast_plain h]
    split
    · next heq =>
        subst heq
        exact same hx
    · exact new hx
  induction hx with
  | literal ht hn => exact plain (.literal ht hn) nofun
  | constant ht c => exact plain (.constant ht c) nofun
  | operation hs hop hbits hsum =>
    refine plain (.operation hs hop hbits hsum) fun s' t' y u heq => ?_
    exact hop.1 s' t' (Term.expression.inj heq).1
  | @cast s₀ s y hs hy ih =>
    rw [makeCast]
    split
    · next heq =>
        subst heq
        exact same (.cast hs hy)
    split
    · next hdrop =>
        refine ⟨ih.1, fun ρ hρ => ?_⟩
        rw [ih.2 ρ hρ, hy.value_cast hs hρ, extendTo_dropsCast hy.width_pos hs ht hdrop]
    · exact new (.cast hs hy)
  | @castBool s y hs hbool hcast =>
    rw [makeCast]
    split
    · next heq =>
        subst heq
        exact same (.castBool hs hbool hcast)
    split
    · next hdrop =>
        rw [makeCast_bool ht hcast]
        refine ⟨.castBool ht hbool hcast, fun ρ hρ => ?_⟩
        obtain ⟨b, hb⟩ := hbool ρ hρ
        have hval {t : Ty} (ht : 0 < t.width) :
            (Term.expression (.cast .bool t) [y] t).value ρ t.width = if b then 1 else 0 :=
          value_eq ((congrArg (MachineValue.cast t) hb).trans (MachineValue.cast_truth ht b))
        rw [hval ht, hval hs, extendTo_bit hs ht (dropsCast_bool hdrop hs ht)]
    · exact new (.castBool hs hbool hcast)

/-- A cast of a term that is no union. -/
theorem primitiveCast_spec (hx : IntegralTerm valid s x) (ht : 0 < t.width)
    (hcast : isConcrete x = true → Castable s t) :
    ∃ r, primitiveCast x t = .ok r ∧ IntegralTerm valid t r ∧ ∀ ρ, valid ρ →
      r.value ρ t.width = extendTo t.isUnsigned t.width (x.value ρ s.width) := by
  have spec := makeCast_spec hx ht
  cases hx with
  | @literal _ n hs hn =>
    obtain ⟨i, hi, -, hwi, hui⟩ := Ty.exists_integral hs
    obtain ⟨j, hj, -, hwj, huj⟩ := Ty.exists_integral ht
    by_cases heq : s = t
    · subst heq
      refine ⟨_, by rw [literal, primitiveCast, if_pos rfl], .literal hs hn, fun ρ _ => ?_⟩
      exact extendTo_self.symm
    · have hrun : primitiveCast (literal n s) t = .ok (literal (castNumber i j n) t) := by
        simp only [literal, primitiveCast, if_neg heq, Term.castConcrete, hi, hj]
      refine ⟨_, hrun, .literal ht ?_, fun ρ _ => ?_⟩
      · rw [huj, hwj]
        exact inRange_read
      · rw [value_literal, value_literal, huj, hwj, hwi]
        refine ofInt_castNumber (fun h₁ h₂ => ?_) n
        rw [← hui, ← huj]
        exact hcast rfl (hwi ▸ h₁) (hwi ▸ hwj ▸ h₂)
  | constant | cast | castBool | operation => exact ⟨_, rfl, spec⟩

/-! ### Unions -/

/-- A term of an integral type, or a flat union of such terms. -/
inductive IntegralUnion (valid : Valuation → Prop) (t : Ty) : Term → Prop where
  | term {x : Term} (hx : IntegralTerm valid t x) : IntegralUnion valid t x
  | ite {bs : List (Term × Term)} {e : Term} (hne : bs ≠ []) (guards : ∀ b ∈ bs, Simple b.1)
      (values : ∀ b ∈ bs, IntegralTerm valid t b.2) (he : IntegralTerm valid t e) :
      IntegralUnion valid t (.ite bs e)

theorem value_ite {ρ : Valuation} :
    (Term.ite bs e).value ρ w = (chosen ρ.machine ⟨bs, e⟩).value ρ w := by
  rw [value, value, eval_chosen]

namespace IntegralUnion

theorem unionOf (h : IntegralUnion valid t x) : UnionOf Simple (IntegralTerm valid t) x := by
  cases h with
  | term hx => exact .leaf hx.notIte hx
  | ite hne guards values he =>
    exact .ite hne guards (fun b hb => .leaf (values b hb).notIte (values b hb))
      (.leaf he.notIte he)

theorem width_pos (h : IntegralUnion valid t x) : 0 < t.width := by
  cases h with
  | term hx => exact hx.width_pos
  | ite _ _ _ he => exact he.width_pos

theorem commonTypeOf_eq (h : IntegralUnion valid t x) : commonTypeOf x = .ok t := by
  cases h with
  | term hx => exact hx.commonTypeOf_eq
  | @ite bs e hne guards values he =>
    have htypes : typesOf bs = .ok (bs.map fun _ => t) := by
      clear he hne guards
      induction bs with
      | nil => rfl
      | cons b bs ih =>
        obtain ⟨hb, hbs⟩ := List.forall_mem_cons.mp values
        rw [typesOf, hb.commonTypeOf_eq, ih hbs]
        rfl
    rw [commonTypeOf, bind_ok he.commonTypeOf_eq, bind_ok htypes, if_pos]
    simp

end IntegralUnion

/-- Leaves under simple guards, merged. -/
theorem merge_integral [HashOrder FieldId] (hg : ∀ b ∈ bs, Simple b.1)
    (hv : ∀ b ∈ bs, IntegralTerm valid t b.2) (he : IntegralTerm valid t e) :
    ∃ r, merge ⟨bs, e⟩ = .ok r ∧ IntegralUnion valid t r ∧
      ∀ {V : Type} (I : Interp V), r.eval I = (ite bs e).eval I := by
  have hnv : ∀ b ∈ bs, NotIte b.2 := fun b hb => (hv b hb).notIte
  obtain ⟨res, h₁, h₂⟩ := simplify_spec (P := IntegralTerm valid t) (Q := IntegralTerm valid t)
    (fun _ h => h) (fun b hb => .simple (hg b hb)) (fun b hb => .leaf (hnv b hb) (hv b hb))
    (.leaf he.notIte he)
  have hsub := simplify_leaves hnv he.notIte h₁
  have helse : IntegralTerm valid t res.elseValue := h₂.flat.elseLeaf
  by_cases hnil : res.branches = []
  · have hcompress : compress res = .ok res.elseValue := by unfold compress; rw [if_pos hnil]
    refine ⟨res.elseValue, ?_, .term helse, fun I => ?_⟩
    · rw [merge_eq, bind_ok h₁, bind_ok hcompress, finish_notIte h₂.flat.elseNotIte]
    · rw [← h₂.value I, hnil, eval_ite_nil]
  · obtain ⟨r, h₃, h₄⟩ := finish_spec (ite res.branches res.elseValue)
    have hmerge : merge ⟨bs, e⟩ = .ok r := by
      rw [merge_eq, bind_ok h₁, bind_ok (compress_plain hnil helse.plain), h₃]
    refine ⟨r, hmerge, ?_, fun I => by rw [h₄, h₂.value I]⟩
    rcases finish_eq h₃ with rfl | rfl
    · exact .term helse
    · exact .ite hnil (fun b hb => hg b (hsub b hb)) (fun b hb => hv b (hsub b hb)) helse

/-- A cast of a term extends its bits by the signedness of the target. -/
theorem cast_spec [HashOrder FieldId] (hx : IntegralUnion valid s x) (ht : 0 < t.width)
    (hcast : Castable s t) : ∃ r, Term.cast x t = .ok r ∧ IntegralUnion valid t r ∧ ∀ ρ, valid ρ →
      r.value ρ t.width = extendTo t.isUnsigned t.width (x.value ρ s.width) := by
  cases hx with
  | term hx =>
    obtain ⟨r, h₁, h₂, h₃⟩ := primitiveCast_spec hx ht fun _ => hcast
    refine ⟨r, ?_, .term h₂, h₃⟩
    rw [Term.cast, guardedApply.eq_def]
    split
    · exact absurd rfl (hx.notIte _ _)
    · exact h₁
  | @ite bs e hne guards values he =>
    obtain ⟨bs', h₁, h₂⟩ := mapM_ok (f := fun b : Term × Term => do
        .ok (b.1, ← primitiveCast b.2 t)) (l := bs)
      (R := fun b b' => b'.1 = b.1 ∧ IntegralTerm valid t b'.2 ∧ ∀ ρ, valid ρ →
        b'.2.value ρ t.width = extendTo t.isUnsigned t.width (b.2.value ρ s.width))
      fun b hb => by
        obtain ⟨r, h₁, h₂, h₃⟩ := primitiveCast_spec (values b hb) ht fun _ => hcast
        exact ⟨(b.1, r), by rw [bind_ok h₁], rfl, h₂, h₃⟩
    obtain ⟨e', h₃, h₄, h₅⟩ := primitiveCast_spec he ht fun _ => hcast
    have hguards : ∀ b' ∈ bs', Simple b'.1 := fun b' hb' => by
      obtain ⟨b, hb, h⟩ := forall₂_mem_right h₂ hb'
      exact h.1 ▸ guards b hb
    have hvalues : ∀ b' ∈ bs', IntegralTerm valid t b'.2 := fun b' hb' => by
      obtain ⟨b, hb, h⟩ := forall₂_mem_right h₂ hb'
      exact h.2.1
    obtain ⟨r, h₆, h₇, h₈⟩ := merge_integral hguards hvalues h₄
    refine ⟨r, ?_, h₇, fun ρ hρ => ?_⟩
    · show (do
        let bs' ← bs.mapM fun b : Term × Term => do .ok (b.1, ← primitiveCast b.2 t)
        let e' ← primitiveCast e t
        merge ⟨bs', e'⟩) = _
      rw [bind_ok h₁, bind_ok h₃, h₆]
    · have := chosen_forall₂ (I := ρ.machine)
        (Q := fun x r => r.value ρ t.width = extendTo t.isUnsigned t.width (x.value ρ s.width))
        (h₂.imp fun b b' h => ⟨h.1, h.2.2 ρ hρ⟩) (h₅ ρ hρ)
      rw [← value_ite, ← value_ite] at this
      rw [value, h₈, ← value, this]

/-! ### Comparisons -/

/-- The second operand of a comparison has the width of the first, or is a number in the range of
both types. -/
def Fits (t t' : Ty) (y : Term) : Prop :=
  t'.width = t.width ∨ t'.width ≤ t.width ∧ ∃ n, y = literal n t' ∧ 0 ≤ n ∧ n < 2 ^ t'.width

variable {t' : Ty} {y : Term}

theorem Fits.width_le (h : Fits t t' y) : t'.width ≤ t.width :=
  h.elim (fun h => h.le) And.left

/-- The bits of a literal in the width of the first operand. -/
theorem Fits.value_literal {n : ℤ} (h : Fits t t' (literal n t')) (ρ : Valuation) :
    (literal n t').value ρ t.width = BitVec.ofInt t.width n := by
  show (BitVec.ofInt t'.width n).setWidth t.width = _
  rcases h with h | ⟨hle, m, heq, h0, hlt⟩
  · rw [h, setWidth_eq]
  · obtain ⟨rfl, -⟩ : n = m ∧ True := by simpa [literal] using heq
    apply eq_of_toNat_eq
    obtain ⟨k, rfl⟩ := Int.eq_ofNat_of_zero_le h0
    have hk : k < 2 ^ t'.width := by exact_mod_cast hlt
    have hk' : k < 2 ^ t.width := hk.trans_le (Nat.pow_le_pow_right (by decide) hle)
    simp [ofInt_natCast, Nat.mod_eq_of_lt hk, Nat.mod_eq_of_lt hk']

theorem Comparison.machineOperator_num (a : BitVec w) (v : MachineValue) (ρ : Valuation)
    (c : Comparison) :
    ρ.machineOperator c.operator [.bits w a, v] = .bool (c.compares a (v.num w)) := by
  cases c <;> simp [operator, Valuation.machineOperator, compares, BitVec.slt, BitVec.sle,
    BitVec.ult, BitVec.ule, bne, beq_eq_decide]

/-- Two literals of which the second fits. -/
theorem simplifyConcreteComparison_fits (ht : 32 ≤ t.width) {c : Comparison} (hc : c ≠ .notEqual)
    (m n : ℤ) (hle : t'.width ≤ t.width) :
    simplifyConcreteComparison c.operator (.int m) (.int n) t t' =
      pure (makeBool (c.compares (BitVec.ofInt t.width m) (BitVec.ofInt t.width n))) := by
  have hw : max 32 (max t.width t'.width) = t.width := by omega
  have hcompared (instruction : {w : ℕ} → BitVec w → BitVec w → Bool) :
      ILCalculator.compared instruction m n t t' =
        instruction (BitVec.ofInt t.width m) (BitVec.ofInt t.width n) := by
    unfold ILCalculator.compared
    rw [hw]
  cases c with
  | notEqual => exact absurd rfl hc
  | _ =>
    refine congrArg (fun b => (pure (makeBool b) : Run Term)) ((hcompared _).trans ?_)
    simp [Comparison.compares, BitVec.slt, BitVec.sle, BitVec.ult, BitVec.ule, beq_eq_decide]

/-- A sum with a literal, and what `summand?` finds in it. -/
theorem IntegralTerm.of_summand {c : Term} (hx : IntegralTerm valid t x)
    (h : summand? x y = some (c, u)) : ∃ m, c = VSharp.literal m t ∧ u = t ∧
      InRange t.isUnsigned t.width m ∧ x = makeBinary .add (VSharp.literal m t) y t := by
  obtain ⟨⟨a, b⟩, hadd, hs⟩ := Option.bind_eq_some_iff.mp h
  obtain ⟨⟨m, v⟩, hlit, hif⟩ := Option.bind_eq_some_iff.mp hs
  replace hif : (if b = y then some (a, v) else none) = some (c, u) := hif
  split at hif
  case isFalse => cases hif
  case isTrue hb =>
    subst hb
    cases hif
    cases hx with
    | @operation _ op xs _ _ _ hsum =>
      unfold add? at hadd
      split at hadd
      case h_2 => cases hadd
      case h_1 heq =>
        obtain ⟨rfl, rfl, rfl⟩ := Term.expression.inj heq
        cases hadd
        obtain ⟨rfl, hm⟩ := hsum _ _ _ _ rfl rfl hlit
        unfold concrete? at hlit
        split at hlit
        case h_2 => cases hlit
        case h_1 => cases hlit; exact ⟨m, rfl, rfl, hm, rfl⟩
    | _ => cases hadd

theorem value_sum (ht : 0 < t.width) (m : ℤ) (y : Term) (ρ : Valuation) :
    (makeBinary .add (literal m t) y t).value ρ t.width =
      BitVec.ofInt t.width m + y.value ρ t.width := by
  refine value_eq ?_
  show MachineValue.cast t
    (.bits t.width (BitVec.ofInt t.width m + (y.eval ρ.machine).num t.width)) = _
  rw [MachineValue.cast_extends ht, extendTo_self]
  rfl

theorem Run.lift_ok {α : Type} (a : α) : Run.lift (.ok a) = pure a := rfl

section
variable [HashOrder FieldId] {c : Comparison}

/-- The comparison of two terms that are no unions. -/
theorem comparison_leaf (ht : 32 ≤ t.width) (hc : c ≠ .notEqual) (hx : IntegralTerm valid t x)
    (hy : IntegralTerm valid t' y) (hfit : Fits t t' y) :
    Returns (simplifyComparison c.operator c.resultIfSame · x y) fun r => Simple r ∧
      ∀ ρ, valid ρ → r.holds ρ.machine = c.compares (x.value ρ t.width) (y.value ρ t.width) := by
  refine Filter.eventually_atTop.mpr ⟨2, fun n hn => ?_⟩
  obtain ⟨k, rfl⟩ : ∃ k, n = k + 2 := ⟨n - 2, by omega⟩
  show (simplifyComparison c.operator c.resultIfSame (k + 2) x y).Gives _
  have literals (k : ℕ) (m n : ℤ) {v u : Ty} (hv : 32 ≤ v.width) (hu : u.width ≤ v.width) :
      simplifyComparison c.operator c.resultIfSame (k + 1) (literal m v) (literal n u) =
        pure (makeBool (c.compares (BitVec.ofInt v.width m) (BitVec.ofInt v.width n))) :=
    simplifyConcreteComparison_fits hv hc m n hu
  by_cases hboth : (∃ m, x = literal m t) ∧ ∃ n, y = literal n t'
  · obtain ⟨⟨m, rfl⟩, n, rfl⟩ := hboth
    rw [literals _ m n ht hfit.width_le]
    refine .pure ⟨.makeBool _, fun ρ _ => ?_⟩
    rw [holds_makeBool, value_literal, hfit.value_literal]
  have hnot : isConcrete x = false ∨ isConcrete y = false := by
    rcases hx.concrete_or with ⟨m, hm, -⟩ | h
    · rcases hy.concrete_or with ⟨n, hn, -⟩ | h'
      · exact absurd ⟨⟨m, hm⟩, n, hn⟩ hboth
      · exact .inr h'
    · exact .inl h
  have hstep : simplifyComparison c.operator c.resultIfSame (k + 2) x y =
      simplifyComparisonExt (simplifyComparison c.operator c.resultIfSame (k + 1)) c.operator
        c.resultIfSame x y := simplifyGenericBinary_leaf hx.notIte hy.notIte hnot
  have hequal : c.operator = .equal ∨ c.operator = .notEqual → c = .equal := by
    cases c <;> simp [Comparison.operator] at hc ⊢
  have hzero (w : ℕ) : BitVec.ofInt w 0 = 0 := ofInt_natCast w 0
  rw [hstep, simplifyComparisonExt]
  split
  · next heq =>
      subst heq
      exact .pure ⟨.makeBool _, fun ρ _ => by rw [holds_makeBool, Comparison.compares_self]⟩
  have hbinary : Run.Gives (pure (makeBinary c.operator x y .bool) : Run Term) fun r _ =>
      Simple r ∧ ∀ ρ, valid ρ →
        r.holds ρ.machine = c.compares (x.value ρ t.width) (y.value ρ t.width) := by
    refine .pure ⟨(Reduced.atom ?_).simple, fun ρ hρ => ?_⟩
    · simpa [isAtom, makeBinary] using c.operator_ne
    · refine holds_operator ρ c.operator_ne ?_
      rw [List.map_cons, List.map_singleton, hx.hasNumber ρ hρ, c.machineOperator_num]
      rfl
  split
  case isFalse => exact hbinary
  case isTrue hop =>
    obtain rfl := hequal hop
    split
    · next d u hs =>
        obtain ⟨m, rfl, rfl, -, rfl⟩ := hx.of_summand hs
        rw [literals k m 0 ht le_rfl]
        refine .pure ⟨.makeBool _, fun ρ _ => ?_⟩
        rw [holds_makeBool, value_sum hx.width_pos, hzero]
        simp [Comparison.compares]
    · next d u _ hs =>
        obtain ⟨m, rfl, rfl, -, rfl⟩ := hy.of_summand hs
        -- a sum is no literal, so the widths are the same
        have hw : u.width = t.width := by
          rcases hfit with h | ⟨-, n, h, -⟩
          · exact h
          · cases h
        rw [literals k 0 m (hw ▸ ht) le_rfl]
        refine .pure ⟨.makeBool _, fun ρ _ => ?_⟩
        rw [holds_makeBool, ← hw, value_sum hy.width_pos, hzero]
        simpa [Comparison.compares] using eq_comm
    · exact hbinary

/-- The comparison of unions under simple guards. -/
theorem comparison_unions (ht : 32 ≤ t.width) (hc : c ≠ .notEqual)
    (hx : UnionOf Simple (IntegralTerm valid t) x)
    (hy : UnionOf Simple (fun v => IntegralTerm valid t' v ∧ Fits t t' v) y) :
    Returns (c.simplify · x y) fun r => Simple r ∧
      ∀ ρ, valid ρ → r.holds ρ.machine = c.compares (x.value ρ t.width) (y.value ρ t.width) := by
  rw [Comparison.simplify_eq hc]
  refine (simplifyGenericBinary_spec merges_simple (fun n => rfl)
    (R := fun vx vy r => ∀ ρ, valid ρ →
      r.holds ρ.machine = c.compares (vx.value ρ t.width) (vy.value ρ t.width))
    (fun vx vy _ _ hLx hLy => comparison_leaf ht hc hLx hLy.1 hLy.2) hx hy).mono
    fun r hr => ⟨hr.1, fun ρ hρ => ?_⟩
  obtain ⟨vx, vy, r', hvx, hvy, hr', heval⟩ := hr.2 ρ.machine
  rw [holds, heval, ← holds, hr' ρ hρ, value, value, hvx.eval_eq, hvy.eval_eq]
  rfl

/-- A comparison is true where it holds of the bits of its operands in the width of the first. -/
theorem comparison_spec (ht : 32 ≤ t.width) (hc : c ≠ .notEqual) (hx : IntegralUnion valid t x)
    (hy : IntegralUnion valid t' y) (hfit : Fits t t' y) :
    Returns (c.simplify · x y) fun r => Simple r ∧
      ∀ ρ, valid ρ → r.holds ρ.machine = c.compares (x.value ρ t.width) (y.value ρ t.width) := by
  have hleaves : UnionOf Simple (fun v => IntegralTerm valid t' v ∧ Fits t t' v) y := by
    rcases hfit with hw | ⟨hle, n, rfl, hn⟩
    · exact hy.unionOf.mono (fun _ h => h) fun v hv => ⟨hv, .inl hw⟩
    · have hlit : IntegralTerm valid t' (literal n t') := by
        cases hy with
        | term h => exact h
      exact .leaf nofun ⟨hlit, .inr ⟨hle, n, rfl, hn⟩⟩
  exact comparison_unions ht hc hx.unionOf hleaves

end

end

/-! ### Comparisons of numerals -/

section
variable [HashOrder FieldId] {t : Ty} {x : Term}

section
variable (ht : t.IsStackInt) (hx : Numeral t x)

include ht hx

omit [HashOrder FieldId] in
theorem Numeral.integralTerm (hv : NotIte x) : IntegralTerm (fun _ => True) t x := by
  have hbits : HasNumber (fun _ => True) t x := fun ρ _ => hx.eval_eq ht ρ
  have hpair {op : OperationType} {y z : Term} (hy : Numeral t y)
      (hbits : HasNumber (fun _ => True) t (makeBinary op y z t)) :
      IntegralTerm (fun _ => True) t (makeBinary op y z t) := by
    refine .operation ht.width_pos ⟨nofun, nofun⟩ hbits fun a b m u _ hxs hlit => ?_
    obtain ⟨rfl, -⟩ := List.cons.inj hxs
    exact (hy.of_concrete hlit).2
  cases hx with
  | literal hn => exact .literal ht.width_pos hn
  | constant c => exact .constant ht.width_pos c
  | unary => exact .operation ht.width_pos ⟨nofun, nofun⟩ hbits nofun
  | binary _ hy => exact hpair hy hbits
  | shift _ hy => exact hpair hy hbits
  | ite => exact absurd rfl (hv _ _)

omit [HashOrder FieldId] in
theorem Numeral.integralUnion (hg : Guarded Simple x) :
    UnionOf Simple (IntegralTerm (fun _ => True) t) x := by
  have h := hx.unionOf hg
  clear hx hg
  induction h with
  | leaf hv h => exact .leaf hv (h.integralTerm ht hv)
  | ite hne guards _ _ ihv ihe => exact .ite hne guards ihv ihe

theorem simplifyComparison_spec {y : Term} (hy : Numeral t y) (hgx : Guarded Simple x)
    (hgy : Guarded Simple y) {c : Comparison} (hc : c ≠ .notEqual) :
    Returns (c.simplify · x y) fun r => Simple r ∧ ∀ ρ : Valuation,
      r.holds ρ.machine = c.compares (x.value ρ t.width) (y.value ρ t.width) := by
  have hw : 32 ≤ t.width := by
    rcases ht.width with h | h <;> omega
  have hleaves := (hy.integralUnion ht hgy).mono (fun _ h => h)
    fun v hv => (⟨hv, .inl rfl⟩ : IntegralTerm (fun _ => True) t v ∧ Fits t t v)
  exact (comparison_unions hw hc (hx.integralUnion ht hgx) hleaves).mono fun r hr =>
    ⟨hr.1, fun ρ => hr.2 ρ trivial⟩

end

/-- A comparison is true where it holds of the bits of its operands, as long as every guard of the
unions that are distributed is a truth value or a reduced formula. -/
theorem simplifyComparison_truth (ht : t.IsStackInt) {x y : Term} (hx : Numeral t x)
    (hy : Numeral t y) (hgx : Guarded Simple x) (hgy : Guarded Simple y) (c : Comparison) :
    Returns (c.simplify · x y) fun r => ∀ ρ : Valuation,
      r.holds ρ.machine = c.compares (x.value ρ t.width) (y.value ρ t.width) := by
  by_cases hc : c = .notEqual
  · subst hc
    have hequal := simplifyComparison_spec ht hx hy hgx hgy (c := .equal) (by decide)
    refine Filter.Eventually.mono hequal fun n hn => ?_
    refine Run.Gives.bind hn fun r _ hr => ?_
    obtain ⟨r', h₁, -, h₂⟩ := connected_simple.not hr.1
    refine .lift h₁ fun ρ => ?_
    rw [h₂, hr.2 ρ, Comparison.compares_notEqual]
  · exact (simplifyComparison_spec ht hx hy hgx hgy hc).mono fun r hr => hr.2

end

/-- The comparison of two unions under different constants. -/
theorem simplifyComparison_unions : letI : HashOrder FieldId := ⟨fun _ => 0⟩
    let x : Term := .ite [(boolConstant 0, literal 1 .int32)] (.constant ⟨1, []⟩ .int32)
    let y : Term := .ite [(boolConstant 2, literal 5 .int32)] (literal (-5) .int32)
    Returns (Comparison.less.simplify · x y) fun r => ∀ ρ : Valuation,
      r.holds ρ.machine = Comparison.less.compares (x.value ρ 32) (y.value ρ 32) := by
  intro x y
  let _ : HashOrder FieldId := ⟨fun _ => 0⟩
  have hconst (n : ℕ) : Simple (boolConstant n) := (Reduced.atom rfl).simple
  have hleaf (n : ℤ) : Guarded Simple (literal n .int32) := .leaf nofun
  exact simplifyComparison_truth .int32
    (.ite (List.cons_ne_nil _ _) (List.forall_mem_singleton.mpr (.literal (by decide)))
      (.constant _))
    (.ite (List.cons_ne_nil _ _) (List.forall_mem_singleton.mpr (.literal (by decide)))
      (.literal (by decide)))
    (.ite (List.forall_mem_singleton.mpr (hconst 0))
      (List.forall_mem_singleton.mpr (hleaf 1)) (.leaf nofun))
    (.ite (List.forall_mem_singleton.mpr (hconst 2))
      (List.forall_mem_singleton.mpr (hleaf 5)) (hleaf (-5))) .less

end VSharp
