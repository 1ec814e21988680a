import Mathlib.Data.Rat.Cast.Defs
import VSharp.Core.PrimitiveCast
import VSharp.Library.MachineIntegers
import VSharp.Solver.Casts

/-!
# Core — RealCasts

Chains of casts between numeric types, integral and real.

- the values are the exact rationals: a cast of a real value to an integral type cuts its fraction,
  every other cast leaves the value as it is (`castValue`);
- `makeCast` compares an integral type with a real one by the order of the numeric types, in which
  64-bit integers and `double` are not comparable: it drops the cast of a real value to an integral
  type on the way to a real type (`collapses_real_iff`);
- a concrete value is converted by a `conv` opcode, which reads the evaluation stack as signed;
- `numericChain_keepsValue_iff` says on which chains no fraction is kept and no sign is made up.
-/

namespace VSharp
open BitVec

namespace RealCasts
open MachineInteger

/-! ### Objects and values -/

/-- The objects of a numeric type; those of a real type are exact. -/
abbrev Object : NumericType → Type
  | .integral t => BitVec t.numericBitSizeOf
  | .single | .double => ℚ

/-- Truncation toward zero. -/
def truncate (q : ℚ) : ℤ := q.num.tdiv q.den

/-- The number an object stands for. -/
def valueOf : {t : NumericType} → Object t → ℚ
  | .integral t, b => (read t.isUnsigned b : ℤ)
  | .single, q => q
  | .double, q => q

/-- A conversion of an integer to a real type: `conv.r4` and `conv.r8` read the stack as signed. -/
def convReal (s : IntegralType) (v : BitVec s.numericBitSizeOf) : ℚ :=
  ((unboxAny s v).slot.2.toInt : ℤ)

/-- A conversion of a real value to an integral type, for a value in the range of the type. -/
def convIntegral (t : IntegralType) (q : ℚ) : BitVec t.numericBitSizeOf :=
  BitVec.ofInt _ (truncate q)

/-- `castConcrete` between numeric types. -/
def castConcrete : {s : NumericType} → (t : NumericType) → Object s → Object t
  | .integral s, .integral t, v => VSharp.castConcrete s t v
  | .integral s, .single, v | .integral s, .double, v => convReal s v
  | .single, .integral t, q | .double, .integral t, q => convIntegral t q
  | .single, .single, q | .single, .double, q | .double, .single, q | .double, .double, q => q

/-- `makeCast` and `primitiveCast` on the numeric types. -/
def numericTypes : CastTypes NumericType Object where
  isLess := NumericType.isLessForNumericTypes
  sameSign := NumericType.numericSameSign
  sameIntegralSize := NumericType.sameIntegralSize
  castConcrete t v := castConcrete t v

/-- The exact meaning of a cast. -/
def castValue (s t : NumericType) (q : ℚ) : ℚ :=
  if s.isReal && !t.isReal then truncate q else q

/-- Values of the atoms, of combined slices and of the guards.  `Combine` takes the low bytes, read
by the signedness of the type. -/
structure Valuation where
  atom : ℕ → (t : NumericType) → Object t
  bytes : ℕ → BitVec 64
  real : ℕ → ℚ
  guard : ℕ → Bool

/-- The object of slices combined to a type. -/
def Valuation.combined (ρ : Valuation) (slices : ℕ) : (t : NumericType) → Object t
  | .integral _ => (ρ.bytes slices).setWidth _
  | .single | .double => ρ.real slices

def Valuation.meaning (ρ : Valuation) : CastMeaning NumericType Object fun _ => ℚ where
  concrete v := valueOf v
  atom id t := valueOf (ρ.atom id t)
  combined slices t := valueOf (ρ.combined slices t)
  guard := ρ.guard
  cast {s} t q := castValue s t q

/-- A value fits an integral type where its integral part is in the range of the type. -/
def Fits (q : ℚ) : NumericType → Prop
  | .integral t => InRange t.isUnsigned t.numericBitSizeOf (truncate q)
  | .single | .double => True

instance (q : ℚ) : (t : NumericType) → Decidable (Fits q t)
  | .integral t =>
    inferInstanceAs (Decidable (InRange t.isUnsigned t.numericBitSizeOf (truncate q)))
  | .single | .double => inferInstanceAs (Decidable True)

/-- An integer. -/
def IsInteger (q : ℚ) : Prop := ∃ n : ℤ, q = n

/-! ### Truncation -/

@[simp] theorem truncate_intCast (n : ℤ) : truncate n = n := by
  unfold truncate
  rw [Rat.num_intCast, Rat.den_intCast]
  exact Int.tdiv_one n

theorem isInteger_intCast (n : ℤ) : IsInteger n := ⟨n, rfl⟩

theorem truncate_eq_iff {q : ℚ} : (truncate q : ℚ) = q ↔ IsInteger q := by
  constructor
  · intro h
    exact ⟨truncate q, h.symm⟩
  · rintro ⟨n, rfl⟩
    rw [truncate_intCast]

section
variable {s t u : NumericType} {q : ℚ}

theorem castValue_self : castValue t t q = q := by
  unfold castValue
  rw [if_neg (by cases t.isReal <;> decide)]

theorem isInteger_castValue (h : IsInteger q) : castValue s t q = q := by
  unfold castValue
  split
  case isTrue => exact truncate_eq_iff.mpr h
  case isFalse => rfl

/-- A cast of an integral value, or to an integral type, has an integral value. -/
theorem isInteger_castValue_of_integral (hs : s.isReal = false → IsInteger q)
    (ht : t.isReal = false) : IsInteger (castValue s t q) := by
  unfold castValue
  cases h : s.isReal with
  | true => rw [ht]; exact isInteger_intCast _
  | false => exact hs h

theorem fits_castValue (h : Fits q u) : Fits (castValue s t q) u := by
  unfold castValue
  split
  case isFalse => exact h
  case isTrue =>
    cases u with
    | integral u =>
      show InRange _ _ (truncate (truncate q : ℚ))
      rwa [truncate_intCast]
    | single | double => trivial

theorem isInteger_valueOf {s : IntegralType} (b : Object (.integral s)) : IsInteger (valueOf b) :=
  isInteger_intCast _

end

/-! ### The casts that are dropped -/

section
variable (ρ : Valuation)

/-- A cast of `x` to `u` drops a cast of a value with a fraction to an integral type, `u` being
real. -/
def Drops : {t : NumericType} → SymbolicTerm NumericType t → NumericType → Prop
  | t, .cast (s := s) x _, u =>
    t ≠ u ∧ numericTypes.collapses s t u = true ∧
      ((s.isReal = true ∧ t.isReal = false ∧ u.isReal = true ∧ ¬IsInteger (x.eval ρ.meaning)) ∨
        Drops x u)
  | _, _, _ => False

variable {s t u : NumericType}

theorem isInteger_eval (x : SymbolicTerm NumericType t) (ht : t.isReal = false) :
    IsInteger (x.eval ρ.meaning) := by
  induction x with
  | atom _ t | combined _ t =>
    cases t with
    | integral t => exact isInteger_valueOf _
    | single | double => cases ht
  | cast x t ih => exact isInteger_castValue_of_integral ih ht

/-- Below a dropped cast with a fraction the fraction is cut already. -/
theorem Drops.isInteger {x : SymbolicTerm NumericType t} (h : Drops ρ x u) :
    IsInteger (x.eval ρ.meaning) := by
  induction x with
  | atom | combined => exact h.elim
  | cast x t ih =>
    obtain ⟨-, -, ⟨-, ht, -, -⟩ | h⟩ := h
    · exact isInteger_castValue_of_integral (isInteger_eval ρ x) ht
    · show IsInteger (castValue _ t (x.eval ρ.meaning))
      rw [isInteger_castValue (ih h)]
      exact ih h

/-- A cast that is dropped had no effect on the target, a cut fraction apart. -/
theorem castValue_castValue_iff {q : ℚ} (hs : s.isReal = false → IsInteger q) :
    castValue s u q = castValue t u (castValue s t q) ↔
      ¬(s.isReal = true ∧ t.isReal = false ∧ u.isReal = true ∧ ¬IsInteger q) := by
  by_cases hq : IsInteger q
  · simp only [isInteger_castValue hq, hq, not_true, and_false, not_false_eq_true]
  · have hs' : s.isReal = true := by
      cases h : s.isReal with
      | true => rfl
      | false => exact absurd (hs h) hq
    have hne : q ≠ truncate q := fun h => hq (truncate_eq_iff.mp h.symm)
    unfold castValue
    rw [hs']
    cases t.isReal <;> cases u.isReal <;> simp [hq, hne]

theorem eval_makeCast_iff (x : SymbolicTerm NumericType t) (u : NumericType) :
    (numericTypes.makeCast x u).eval ρ.meaning = castValue t u (x.eval ρ.meaning) ↔
      ¬Drops ρ x u := by
  induction x with
  | atom | combined =>
    simp only [CastTypes.makeCast]
    refine iff_of_true ?_ id
    split
    case isTrue h => subst h; exact castValue_self.symm
    case isFalse => rfl
  | @cast s x t ih =>
    rw [CastTypes.makeCast, Drops]
    split
    case isTrue h =>
      subst h
      exact iff_of_true castValue_self.symm fun h => h.1 rfl
    case isFalse hne =>
      split
      case isFalse hc => exact iff_of_true rfl fun h => hc h.2.1
      case isTrue hc =>
        have hcut := castValue_castValue_iff (t := t) (u := u) (isInteger_eval ρ x)
        show _ = castValue t u (castValue s t (x.eval ρ.meaning)) ↔ _
        by_cases hx : Drops ρ x u
        · -- the fraction is cut below already
          rw [← hcut.mpr fun h => h.2.2.2 (Drops.isInteger ρ hx)]
          exact iff_of_false (fun h => ih.mp h hx) fun h => h ⟨hne, hc, .inr hx⟩
        · rw [ih.mpr hx, hcut]
          exact not_congr ⟨fun h => ⟨hne, hc, .inl h⟩, fun h => h.2.2.resolve_right hx⟩

/-- Slices combined to one integral type are combined to another of its size with the same value,
where that fits. -/
theorem valueOf_combined (slices : ℕ) (hsize : numericTypes.sameIntegralSize t u = true)
    (hfit : Fits (valueOf (ρ.combined slices t)) u) :
    valueOf (ρ.combined slices u) = castValue t u (valueOf (ρ.combined slices t)) := by
  cases t with
  | single | double => cases hsize
  | integral t =>
    cases u with
    | single | double => cases hsize
    | integral u =>
      have hbits : t.numericBitSizeOf = u.numericBitSizeOf :=
        congrArg (· * 8) (beq_iff_eq.mp hsize)
      change InRange _ _ (truncate ((_ : ℤ) : ℚ)) at hfit
      rw [truncate_intCast] at hfit
      show ((_ : ℤ) : ℚ) = ((_ : ℤ) : ℚ)
      exact congrArg _ (read_setWidth hbits u.numericBitSizeOf_pos hfit)

theorem eval_castSymbolic_iff (x : SymbolicTerm NumericType t) (u : NumericType)
    (hfit : Fits (x.eval ρ.meaning) u) :
    (numericTypes.castSymbolic x u).eval ρ.meaning = castValue t u (x.eval ρ.meaning) ↔
      ¬Drops ρ x u := by
  unfold CastTypes.castSymbolic
  split
  case isTrue h =>
    subst h
    refine iff_of_true castValue_self.symm ?_
    cases x with
    | atom | combined => exact id
    | cast => exact fun h => h.1 rfl
  case isFalse =>
    cases x with
    | atom | cast => exact eval_makeCast_iff ρ _ u
    | combined slices =>
      dsimp only
      split
      case isFalse => exact eval_makeCast_iff ρ _ u
      case isTrue hsize => exact iff_of_true (valueOf_combined ρ slices hsize hfit) id

end

/-! ### The conversion of concrete values -/

section
variable {s t : IntegralType} {v : BitVec s.numericBitSizeOf}

/-- A large value of an unsigned type that fills a slot of the evaluation stack: the slot is read
as a negative number. -/
def ReadsNegative (s : IntegralType) (v : BitVec s.numericBitSizeOf) : Prop :=
  s.isUnsigned = true ∧ 32 ≤ s.numericBitSizeOf ∧ v.msb = true

theorem toInt_slot (s : StackValue) : s.slot.2.toInt = (s.extend false).toInt := by
  have h : s.slot.1 ≤ 64 := by
    cases s with
    | int32 => exact (show 32 ≤ 64 by decide)
    | int64 | nativeInt => exact Nat.le_refl 64
  exact (toInt_signExtend_of_le h).symm

theorem toInt_extend_iff :
    ((unboxAny s v).extend false).toInt = read s.isUnsigned v ↔ ¬ReadsNegative s v := by
  unfold ReadsNegative
  rcases IntegralType.eq_or_lt_32 s with h64 | h32
  · rw [extend_unboxAny_of_eq h64, ← h64, setWidth_eq]
    cases s.isUnsigned with
    | false => simp
    | true => rw [read_true, toInt_eq_toNat_iff]; simp [h64]
  · rw [extend_unboxAny_of_lt (by omega), extendTo_false, toInt_signExtend_of_le (by decide)]
    cases s.isUnsigned with
    | false => simp [toInt_signExtend_of_le h32]
    | true =>
      rw [read_true, extendTo_true, ← toNat_setWidth_of_le h32, toInt_eq_toNat_iff]
      rcases Nat.lt_or_eq_of_le h32 with hlt | heq
      · rw [← extendTo_true, msb_extendTo hlt]
        simp [hlt]
      · have hmsb : (v.setWidth 32).msb = v.msb := by
          simp only [msb_eq_decide, toNat_setWidth_of_le h32, heq]
        rw [hmsb]
        simp [heq]

theorem toNat_extend (h : 0 ≤ read s.isUnsigned v) :
    (((unboxAny s v).extend true).toNat : ℤ) = read s.isUnsigned v := by
  have hmsb : s.isUnsigned = true ∨ v.msb = false := by
    cases hs : s.isUnsigned with
    | true => exact .inl rfl
    | false => rw [hs] at h; exact .inr (msb_eq_false_of_read_nonneg h)
  rw [read_nonneg hmsb]
  rcases IntegralType.eq_or_lt_32 s with h64 | h32
  · rw [extend_unboxAny_of_eq h64, toNat_setWidth_of_le (Nat.le_of_eq h64)]
  · have hext : extendTo s.isUnsigned 32 v = v.setWidth 32 := by
      rcases hmsb with hs | hv
      · rw [hs, extendTo_true]
      · exact extendTo_eq_setWidth hv
    rw [extend_unboxAny_of_lt (by omega), hext, extendTo_true,
      toNat_setWidth_of_le (by decide), toNat_setWidth_of_le h32]

theorem read_castConcrete_of_unsigned (ht : t.isUnsigned = true)
    (hfit : InRange true t.numericBitSizeOf (read s.isUnsigned v)) :
    read true (VSharp.castConcrete s t v) = read s.isUnsigned v := by
  have hn := inRange_true.mp hfit
  rw [castConcrete_eq, ht, read_true, toNat_setWidth, Int.natCast_emod, toNat_extend hn.1]
  exact Int.emod_eq_of_lt hn.1 (by exact_mod_cast hn.2)

theorem read_castConcrete_of_signed (ht : t.isUnsigned = false)
    (hfit : InRange false t.numericBitSizeOf (read s.isUnsigned v)) :
    read false (VSharp.castConcrete s t v) = read s.isUnsigned v ↔ ¬ReadsNegative s v := by
  rw [castConcrete_eq, ht, ← toInt_extend_iff, read_false]
  rcases IntegralType.eq_or_lt_32 t with h64 | h32
  · rw [h64, setWidth_eq]
  · -- a value that fits 32 bits does not fill a slot
    have hfill : ¬ReadsNegative s v := by
      rintro ⟨hs, hw, hmsb⟩
      have hlt := (inRange_false.mp hfit).2
      have hge : 2 ^ (s.numericBitSizeOf - 1) ≤ v.toNat := by
        simpa [msb_eq_decide] using hmsb
      have hpow : (2 : ℕ) ^ (t.numericBitSizeOf - 1) ≤ 2 ^ (s.numericBitSizeOf - 1) :=
        Nat.pow_le_pow_right (by decide) (by omega)
      rw [hs, read_true] at hlt
      have : v.toNat < 2 ^ (t.numericBitSizeOf - 1) := by exact_mod_cast hlt
      omega
    have hext := toInt_extend_iff.mpr hfill
    refine iff_of_true ?_ hext
    rw [← signExtend_eq_setWidth_of_le _ (by omega), toInt_signExtend, Nat.min_eq_left (by omega),
      hext, ← toInt_ofInt, ← read_false, read_ofInt t.numericBitSizeOf_pos hfit]

end

section
variable {s t : NumericType}

/-- A large unsigned value converted to a signed type, as the real types are. -/
def ReadAsSigned : {s : NumericType} → Object s → NumericType → Prop
  | .integral s, v, t => ReadsNegative s v ∧ t.isUnsigned = false
  | .single, _, _ | .double, _, _ => False

theorem valueOf_castConcrete_iff (v : Object s) (hfit : Fits (valueOf v) t) :
    valueOf (castConcrete t v) = castValue s t (valueOf v) ↔ ¬ReadAsSigned v t := by
  cases s with
  | single | double =>
    refine iff_of_true ?_ id
    cases t with
    | single | double => rfl
    | integral t =>
      show ((read _ (BitVec.ofInt _ _) : ℤ) : ℚ) = (truncate v : ℚ)
      exact congrArg _ (read_ofInt t.numericBitSizeOf_pos hfit)
  | integral s =>
    have hcast : castValue (.integral s) t (valueOf v) = (read s.isUnsigned v : ℤ) := rfl
    rw [hcast]
    cases t with
    | single | double =>
      show (((unboxAny s v).slot.2.toInt : ℤ) : ℚ) = _ ↔ ¬(ReadsNegative s v ∧ false = false)
      rw [Rat.intCast_inj, toInt_slot, toInt_extend_iff, and_iff_left rfl]
    | integral t =>
      change InRange _ _ (truncate ((_ : ℤ) : ℚ)) at hfit
      rw [truncate_intCast] at hfit
      show ((read t.isUnsigned (VSharp.castConcrete s t v) : ℤ) : ℚ) = _ ↔
        ¬(ReadsNegative s v ∧ t.isUnsigned = false)
      rw [Rat.intCast_inj]
      cases ht : t.isUnsigned with
      | true =>
        rw [ht] at hfit
        exact iff_of_true (read_castConcrete_of_unsigned ht hfit) (by simp)
      | false =>
        rw [ht] at hfit
        rw [read_castConcrete_of_signed ht hfit, and_iff_left rfl]

variable (ρ : Valuation)

/-- What a cast to `t` does to the value of an alternative that it does not keep. -/
def Loses : Alternative NumericType Object s → NumericType → Prop
  | .concrete v, t => ReadAsSigned v t
  | .symbolic x, t => Drops ρ x t

theorem eval_castAlternative_iff (a : Alternative NumericType Object s)
    (hfit : Fits (a.eval ρ.meaning) t) :
    (numericTypes.castAlternative a t).eval ρ.meaning = castValue s t (a.eval ρ.meaning) ↔
      ¬Loses ρ a t := by
  cases a with
  | symbolic x => exact eval_castSymbolic_iff ρ x t hfit
  | concrete v =>
    by_cases h : s = t
    · subst h
      rw [CastTypes.castAlternative_self, castValue_self]
      refine iff_of_true rfl ?_
      cases s with
      | single | double => exact id
      | integral s =>
        rintro ⟨⟨hs, -, -⟩, ht⟩
        exact Bool.false_ne_true (ht.symm.trans hs)
    · rw [CastTypes.castAlternative, dif_neg h]
      exact valueOf_castConcrete_iff v hfit

theorem eval_primitiveCast_iff (x : NumericTerm NumericType Object s)
    (hfit : Fits (x.eval ρ.meaning) t) :
    (numericTypes.primitiveCast x t).eval ρ.meaning = castValue s t (x.eval ρ.meaning) ↔
      ¬Loses ρ (x.chosen ρ.meaning) t := by
  unfold NumericTerm.eval
  rw [CastTypes.chosen_primitiveCast]
  exact eval_castAlternative_iff ρ _ hfit

/-- No cast of the chain, in the state the casts before it leave, drops the cut of a fraction or
reads a large unsigned value as signed. -/
def NoneLoses : {s : NumericType} → NumericTerm NumericType Object s → List NumericType → Prop
  | _, _, [] => True
  | _, x, t :: ts => ¬Loses ρ (x.chosen ρ.meaning) t ∧
      NoneLoses (numericTypes.primitiveCast x t) ts

/-- A chain of casts of a value that fits its types keeps the value all along exactly where no cast
of it drops the cut of a fraction or reads a large unsigned value as signed. -/
theorem numericChain_keepsValue_iff (x : NumericTerm NumericType Object s) (ts : List NumericType)
    (hfit : ∀ t ∈ ts, Fits (x.eval ρ.meaning) t) :
    (∀ p, p <+: ts → numericTypes.KeepsValue ρ.meaning x p) ↔ NoneLoses ρ x ts := by
  induction ts generalizing s with
  | nil => exact iff_of_true (numericTypes.keepsValue_nil ρ.meaning) trivial
  | cons t ts ih =>
    have hstep := eval_primitiveCast_iff ρ x (hfit t (List.mem_cons_self ..))
    have hrest : (numericTypes.primitiveCast x t).eval ρ.meaning =
          castValue s t (x.eval ρ.meaning) →
        ∀ u ∈ ts, Fits ((numericTypes.primitiveCast x t).eval ρ.meaning) u := by
      intro h u hu
      rw [h]
      exact fits_castValue (hfit u (List.mem_cons_of_mem _ hu))
    rw [CastTypes.keepsValue_cons_iff, NoneLoses, ← hstep]
    exact and_congr_right fun h => ih _ (hrest h)

/-- A valuation that gives the real atoms the value `q`. -/
def realAtoms (q : ℚ) : Valuation where
  atom _ t := match t with
    | .integral _ => 0
    | .single | .double => q
  bytes _ := 0
  real _ := 0
  guard _ := false

/-- An unknown `double` of value 1 cast to `long` and back. -/
theorem integer_kept_through_long :
    Fits 1 (.integral .int64) ∧ ∀ p, p <+: [NumericType.integral .int64, .double] →
      numericTypes.KeepsValue (realAtoms 1).meaning (.symbolic (.atom 0 .double)) p := by
  have hfit : ∀ t ∈ [NumericType.integral .int64, .double], Fits 1 t := by decide
  have hnone : NoneLoses (realAtoms 1) (.symbolic (.atom 0 NumericType.double))
      [.integral .int64, .double] := by
    refine ⟨id, ?_, trivial⟩
    rintro ⟨-, -, ⟨-, -, -, h⟩ | h⟩
    · exact h (isInteger_intCast 1)
    · exact h
  exact ⟨by decide, (numericChain_keepsValue_iff (realAtoms 1) (.symbolic (.atom 0 .double)) _
    hfit).mpr hnone⟩

/-- 1.5 cast to `long` and back to `double` stays 1.5. -/
theorem fraction_kept_through_long : ∃ (ρ : Valuation)
    (x : NumericTerm NumericType Object .double),
    (∀ t ∈ [NumericType.integral .int64, .double], Fits (x.eval ρ.meaning) t) ∧
      ¬numericTypes.KeepsValue ρ.meaning x [.integral .int64, .double] := by
  let q : ℚ := ⟨3, 2, by decide, by decide⟩
  refine ⟨realAtoms q, .symbolic (.atom 0 NumericType.double), ?_, fun h => ?_⟩
  · show ∀ t ∈ [NumericType.integral .int64, .double], Fits q t
    decide
  · have hv : q = truncate q := eq_of_heq (Sigma.mk.inj h).2
    exact absurd hv (by decide)

end

end RealCasts

end VSharp
