import VSharp.Core.PrimitiveCast
import VSharp.Solver.Casts

/-!
# Core — IntegralCasts

Chains of casts between integral types.

- the encoder's cast is the extension of the value by the signedness of the target, cut to its
  width (`castValue_eq`), and such extensions compose under the guards of `makeCast`
  (`castValue_castValue`): a collapsed cast has the value of the casts it replaces;
- a concrete value is converted by the dynamic method instead, which extends it by the signedness
  of its own type first (`Solver/Casts`);
- `integralChain_keepsValue_iff`: a chain keeps the value exactly where the term is symbolic or no
  cast of the chain is one on which the two ways differ.
-/

namespace VSharp

namespace IntegralCasts

/-- The bits of an integral value. -/
abbrev Bits (t : IntegralType) : Type := BitVec t.numericBitSizeOf

/-- `makeCast` and `primitiveCast` on the integral types. -/
def integralTypes : CastTypes IntegralType Bits where
  isLess t₁ t₂ := NumericType.isLessForNumericTypes (.integral t₁) (.integral t₂)
  sameSign t₁ t₂ := NumericType.numericSameSign (.integral t₁) (.integral t₂)
  sameIntegralSize t₁ t₂ := NumericType.sameIntegralSize (.integral t₁) (.integral t₂)
  castConcrete t v := castConcrete _ t v

/-- The encoder's cast: truncation to a type that is not wider, extension by the signedness of the
target to one that is. -/
def castValue {s : IntegralType} (t : IntegralType) (v : Bits s) : Bits t :=
  if t.numericBitSizeOf ≤ s.numericBitSizeOf then v.setWidth _ else extendTo t.isUnsigned _ v

/-- Values of the atoms, of combined slices and of the guards.  `Combine` takes the low bytes. -/
structure Valuation where
  atom : ℕ → (t : IntegralType) → Bits t
  bytes : ℕ → BitVec 64
  guard : ℕ → Bool

def Valuation.meaning (ρ : Valuation) : CastMeaning IntegralType Bits Bits where
  concrete v := v
  atom := ρ.atom
  combined slices _ := (ρ.bytes slices).setWidth _
  guard := ρ.guard
  cast t v := castValue t v

variable {s t u : IntegralType}

/-! ### The encoder's cast -/

theorem encodeCast_eq (v : Bits s) : encodeCast s t v = some (castValue t v) := by
  unfold castValue
  split
  case isTrue h => exact encodeCast_of_le h
  case isFalse h => exact encodeCast_of_lt (by omega)

theorem castValue_eq (v : Bits s) : castValue t v = extendTo t.isUnsigned _ v := by
  unfold castValue
  split
  case isTrue h => exact (extendTo_eq_setWidth_of_le h).symm
  case isFalse => rfl

theorem castValue_self (v : Bits s) : castValue s v = v :=
  (castValue_eq v).trans extendTo_self

theorem sameSign_iff :
    integralTypes.sameSign s t = true ↔ s.isUnsigned = t.isUnsigned := by
  show NumericType.numericSameSign (.integral s) (.integral t) = true ↔ _
  simp only [NumericType.numericSameSign, NumericType.isUnsigned]
  cases s.isUnsigned <;> cases t.isUnsigned <;> decide

theorem not_isLess_iff :
    (!integralTypes.isLess s t) = true ↔ t.numericBitSizeOf ≤ s.numericBitSizeOf := by
  show (!NumericType.isLessForNumericTypes (.integral s) (.integral t)) = true ↔ _
  rw [NumericType.isLess_integral, Bool.not_eq_true', ← Bool.not_eq_true, IntegralType.isLess_iff]
  omega

/-- Both guards of `makeCast` ask for the signedness of the target, and for a middle type that is
not narrower than the wider end or than both the source and the target are apart. -/
theorem collapses_iff : integralTypes.collapses s t u = true ↔
    t.isUnsigned = u.isUnsigned ∧
      (u.numericBitSizeOf ≤ t.numericBitSizeOf ∨
        s.numericBitSizeOf ≤ t.numericBitSizeOf ∧ t.numericBitSizeOf ≤ u.numericBitSizeOf) := by
  simp only [CastTypes.collapses, Bool.or_eq_true, Bool.and_eq_true, sameSign_iff, not_isLess_iff]
  tauto

/-- Where `makeCast` drops the middle cast, the middle cast does not change the value. -/
theorem castValue_castValue (h : integralTypes.collapses s t u = true) (v : Bits s) :
    castValue u (castValue t v) = castValue u v := by
  obtain ⟨hsign, hle | ⟨hst, htu⟩⟩ := collapses_iff.mp h
  · rw [castValue_eq v, castValue_eq, castValue_eq, hsign, extendTo_eq_setWidth_of_le hle,
      setWidth_extendTo hle]
  · rw [castValue_eq v, castValue_eq, castValue_eq, hsign]
    rcases Nat.lt_or_eq_of_le hst with hlt | heq
    · exact extendTo_extendTo hlt
    · exact extendTo_extendTo_of_eq heq.symm

/-- Slices combined to one type and reinterpreted as another of its size. -/
theorem castValue_setWidth (h : s.numericBitSizeOf = t.numericBitSizeOf) (b : BitVec 64) :
    castValue t (b.setWidth s.numericBitSizeOf) = b.setWidth t.numericBitSizeOf := by
  have hle := Nat.le_of_eq h.symm
  rw [castValue, if_pos hle, BitVec.setWidth_setWidth_of_le _ hle]

/-! ### One cast -/

variable (ρ : Valuation)

theorem eval_makeCast (u : IntegralType) (x : SymbolicTerm IntegralType s) :
    (integralTypes.makeCast x u).eval ρ.meaning = castValue u (x.eval ρ.meaning) := by
  induction x with
  | atom | combined =>
    simp only [CastTypes.makeCast]
    split
    case isTrue h => subst h; exact (castValue_self _).symm
    case isFalse => rfl
  | cast x t ih =>
    rw [CastTypes.makeCast]
    split
    case isTrue h => subst h; exact (castValue_self _).symm
    case isFalse =>
      split
      case isTrue h => rw [ih]; exact (castValue_castValue h _).symm
      case isFalse => rfl

theorem eval_castSymbolic (u : IntegralType) (x : SymbolicTerm IntegralType s) :
    (integralTypes.castSymbolic x u).eval ρ.meaning = castValue u (x.eval ρ.meaning) := by
  unfold CastTypes.castSymbolic
  split
  case isTrue h => subst h; exact (castValue_self _).symm
  case isFalse =>
    split
    case h_1 slices _ =>
      split
      case isTrue hsize =>
        have hbits : s.numericBitSizeOf = u.numericBitSizeOf := by
          have : s.numericSizeOf = u.numericSizeOf := beq_iff_eq.mp hsize
          unfold IntegralType.numericBitSizeOf
          rw [this]
        exact (castValue_setWidth hbits _).symm
      case isFalse => exact eval_makeCast ρ u _
    case h_2 => exact eval_makeCast ρ u _

/-- A negative, or large, value of less than 32 bits widened to a type of the other signedness. -/
def Diverges {s : IntegralType} (v : Bits s) (t : IntegralType) : Prop :=
  s.numericBitSizeOf < 32 ∧ s.numericBitSizeOf < t.numericBitSizeOf ∧
    s.isUnsigned ≠ t.isUnsigned ∧ v.msb = true

theorem eval_castConcrete_iff (v : Bits s) :
    (integralTypes.castAlternative (.concrete v) t).eval ρ.meaning = castValue t v ↔
      ¬Diverges v t := by
  have hcast : (integralTypes.castAlternative (.concrete v) t).eval ρ.meaning =
      castConcrete s t v := by
    by_cases h : s = t
    · subst h
      rw [CastTypes.castAlternative_self, castConcrete, dif_pos rfl]
      rfl
    · rw [CastTypes.castAlternative, dif_neg h]
      rfl
  have := encodeCast_eq_castConcrete_iff s t v
  rw [encodeCast_eq, Option.some_inj] at this
  rw [hcast, eq_comm]
  exact this

/-! ### Chains -/

/-- The chosen alternative is a concrete value. -/
def IsConcrete : Alternative IntegralType Bits t → Prop
  | .concrete _ => True
  | .symbolic _ => False

theorem isConcrete_castAlternative (a : Alternative IntegralType Bits s) :
    IsConcrete (integralTypes.castAlternative a t) ↔ IsConcrete a := by
  by_cases h : s = t
  · subst h
    rw [CastTypes.castAlternative_self]
  · cases a with
    | concrete v => rw [CastTypes.castAlternative, dif_neg h]; exact Iff.rfl
    | symbolic x => exact Iff.rfl

/-- One cast keeps the value of a symbolic term, and of a concrete one on which the conversion does
not diverge. -/
theorem eval_primitiveCast_iff (x : NumericTerm IntegralType Bits s) :
    (integralTypes.primitiveCast x t).eval ρ.meaning = castValue t (x.eval ρ.meaning) ↔
      (IsConcrete (x.chosen ρ.meaning) → ¬Diverges (x.eval ρ.meaning) t) := by
  unfold NumericTerm.eval
  rw [CastTypes.chosen_primitiveCast]
  cases x.chosen ρ.meaning with
  | concrete v =>
    exact (eval_castConcrete_iff ρ v).trans ⟨fun h _ => h, fun h => h trivial⟩
  | symbolic y => exact iff_of_true (eval_castSymbolic ρ t y) fun h => h.elim

/-- No cast of the chain converts a value on which the encoder's cast and the conversion differ. -/
def NoneDiverges : {s : IntegralType} → Bits s → List IntegralType → Prop
  | _, _, [] => True
  | _, v, t :: ts => ¬Diverges v t ∧ NoneDiverges (castValue t v) ts

/-- A chain of casts keeps the value all along exactly where the alternative that the guards choose
is symbolic, or no cast of the chain diverges on the values the casts take one after the other. -/
theorem integralChain_keepsValue_iff (x : NumericTerm IntegralType Bits s)
    (ts : List IntegralType) :
    (∀ p, p <+: ts → integralTypes.KeepsValue ρ.meaning x p) ↔
      (IsConcrete (x.chosen ρ.meaning) → NoneDiverges (x.eval ρ.meaning) ts) := by
  induction ts generalizing s with
  | nil => exact iff_of_true (integralTypes.keepsValue_nil ρ.meaning) fun _ => trivial
  | cons t ts ih =>
    rw [CastTypes.keepsValue_cons_iff, ih, CastTypes.chosen_primitiveCast,
      isConcrete_castAlternative]
    show (_ = castValue t (x.eval ρ.meaning)) ∧ _ ↔ _
    rw [NoneDiverges]
    constructor
    · rintro ⟨hstep, hrest⟩ hc
      rw [hstep] at hrest
      exact ⟨(eval_primitiveCast_iff ρ x).mp hstep hc, hrest hc⟩
    · intro h
      have hstep := (eval_primitiveCast_iff ρ x).mpr fun hc => (h hc).1
      exact ⟨hstep, fun hc => hstep ▸ (h hc).2⟩

/-- The `sbyte` −1 as a `uint32`: the encoder makes it 255, the conversion 4294967295. -/
theorem negativeSByte_changes : ∃ (ρ : Valuation) (x : NumericTerm IntegralType Bits .sbyte),
    ¬integralTypes.KeepsValue ρ.meaning x [.uint32] := by
  refine ⟨⟨fun _ _ => 0, fun _ => 0, fun _ => false⟩, .concrete (0xFF#8), fun h => ?_⟩
  have hv : castConcrete .sbyte .uint32 0xFF#8 = castValue (s := .sbyte) .uint32 0xFF#8 :=
    eq_of_heq (Sigma.mk.inj h).2
  exact absurd hv (by decide)

end IntegralCasts

end VSharp
