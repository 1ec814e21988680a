import Mathlib.Data.Int.Notation
import VSharp.Utils.TypeUtils

/-!
# Core — PrimitiveCast

`primitiveCast` and `makeCast` of `VSharp.SILI.Core/Terms.fs`: the casts of numeric terms, and the
collapsing of a cast of a cast.

- a term carries its type as an index, so that the source of a cast is the type of its argument;
- `makeCast` is the only builder of casts, and it is given symbolic terms only: under a cast there
  is neither a concrete value nor a union (`SymbolicTerm`);
- the types and the objects are parameters: `Core/IntegralCasts` takes the integral types and their
  bits, `Core/RealCasts` all numeric types and their values.
-/

namespace VSharp

/-! ### The numeric types -/

/-- `numericTypes`. -/
inductive NumericType where
  | integral (t : IntegralType)
  | single
  | double
deriving DecidableEq, Repr

namespace NumericType

def isReal : NumericType → Bool
  | .integral _ => false
  | .single | .double => true

/-- `isUnsigned`; a real type is signed. -/
def isUnsigned : NumericType → Bool
  | .integral t => t.isUnsigned
  | .single | .double => false

/-- The entries of `isWiderForNumericTypesMap`.  Those of `float32` are the entries of the 32-bit
integral types, those of `float` the empty list. -/
def isWiderForNumericTypesMap : NumericType → List NumericType
  | .integral .byte | .integral .sbyte =>
    IntegralType.widerThan8.map .integral ++ [.single, .double]
  | .integral .int16 | .integral .uint16 | .integral .char =>
    IntegralType.widerThan16.map .integral ++ [.single, .double]
  | .integral .int32 | .integral .uint32 | .single =>
    IntegralType.widerThan32.map .integral ++ [.double]
  | .integral .int64 | .integral .uint64 | .double => IntegralType.widerThan64.map .integral
  | .integral .intPtr | .integral .uintPtr =>
    if nativeSize > 4 then [] else IntegralType.widerThan32.map .integral ++ [.double]

def isLessForNumericTypes (t₁ t₂ : NumericType) : Bool :=
  (isWiderForNumericTypesMap t₁).contains t₂

def numericSameSign (t₁ t₂ : NumericType) : Bool :=
  t₁.isUnsigned && t₂.isUnsigned || !t₁.isUnsigned && !t₂.isUnsigned

/-- The guard of `primitiveCast` on a combined term: both types integral, of one size. -/
def sameIntegralSize : NumericType → NumericType → Bool
  | .integral t₁, .integral t₂ => t₁.numericSizeOf == t₂.numericSizeOf
  | _, _ => false

variable {t₁ t₂ : IntegralType}

@[simp] theorem isLess_integral :
    isLessForNumericTypes (.integral t₁) (.integral t₂) =
      IntegralType.isLessForNumericTypes t₁ t₂ := by
  cases t₁ <;> cases t₂ <;> decide

end NumericType

/-! ### Terms -/

/-- What `primitiveCast` asks of the numeric types `τ` and of their objects. -/
structure CastTypes (τ : Type) (obj : τ → Type) where
  isLess : τ → τ → Bool
  sameSign : τ → τ → Bool
  sameIntegralSize : τ → τ → Bool
  castConcrete : {s : τ} → (t : τ) → obj s → obj t

/-- A symbolic term of a type: a `Constant`, an `Expression` of another operation (both an
`atom`), a `Combine` of slices, or a cast. -/
inductive SymbolicTerm (τ : Type) : τ → Type where
  | atom (id : ℕ) (t : τ) : SymbolicTerm τ t
  | combined (slices : ℕ) (t : τ) : SymbolicTerm τ t
  | cast {s : τ} (x : SymbolicTerm τ s) (t : τ) : SymbolicTerm τ t

mutual

/-- A numeric term of a type. -/
inductive NumericTerm (τ : Type) (obj : τ → Type) : τ → Type where
  | concrete {t : τ} (value : obj t) : NumericTerm τ obj t
  | symbolic {t : τ} (x : SymbolicTerm τ t) : NumericTerm τ obj t
  | ite {t : τ} (branches : Branches τ obj t) (elseValue : NumericTerm τ obj t) :
      NumericTerm τ obj t

/-- The guarded branches of a union; of a guard we keep its identity. -/
inductive Branches (τ : Type) (obj : τ → Type) : τ → Type where
  | nil {t : τ} : Branches τ obj t
  | cons {t : τ} (guard : ℕ) (value : NumericTerm τ obj t) (rest : Branches τ obj t) :
      Branches τ obj t

end

namespace CastTypes
variable {τ : Type} [DecidableEq τ] {obj : τ → Type} (C : CastTypes τ obj)

/-- The guards under which `makeCast` drops the inner cast of a cast from `xType` to `t` and on to
`toType`. -/
def collapses (xType t toType : τ) : Bool :=
  !C.isLess t toType && C.sameSign t toType ||
    !C.isLess t xType && !C.isLess toType t && C.sameSign t toType

def makeCast : {fromType : τ} → SymbolicTerm τ fromType → (toType : τ) → SymbolicTerm τ toType
  | t, .cast (s := xType) x _, toType =>
    if h : t = toType then h ▸ .cast x t
    else if C.collapses xType t toType then makeCast x toType
    else .cast (.cast x t) toType
  | fromType, term, toType => if h : fromType = toType then h ▸ term else .cast term toType

/-- `primitiveCast` on `Combined`, `Constant` and `Expression`. -/
def castSymbolic {s : τ} (term : SymbolicTerm τ s) (targetType : τ) : SymbolicTerm τ targetType :=
  if h : s = targetType then h ▸ term
  else match term with
    | .combined slices t =>
      if C.sameIntegralSize t targetType then .combined slices targetType
      else C.makeCast (.combined slices t) targetType
    | term => C.makeCast term targetType

mutual

def primitiveCast {s : τ} :
    NumericTerm τ obj s → (targetType : τ) → NumericTerm τ obj targetType
  | .concrete value, targetType =>
    if h : s = targetType then h ▸ .concrete value
    else .concrete (C.castConcrete targetType value)
  | .symbolic x, targetType => .symbolic (C.castSymbolic x targetType)
  | .ite branches e, targetType =>
    if h : s = targetType then h ▸ .ite branches e
    else .ite (castBranches branches targetType) (primitiveCast e targetType)

def castBranches {s : τ} :
    Branches τ obj s → (targetType : τ) → Branches τ obj targetType
  | .nil, _ => .nil
  | .cons g v rest, targetType =>
    .cons g (primitiveCast v targetType) (castBranches rest targetType)

end

/-- A chain of casts, one after the other. -/
def castChain {s : τ} (x : NumericTerm τ obj s) : List τ → Σ t, NumericTerm τ obj t
  | [] => ⟨s, x⟩
  | t :: ts => castChain (C.primitiveCast x t) ts

end CastTypes

/-! ### Values -/

/-- What the atoms, the slices and the guards of numeric terms stand for, with the meaning of a
cast, in values that depend on the type. -/
structure CastMeaning (τ : Type) (obj V : τ → Type) where
  concrete : {t : τ} → obj t → V t
  atom : ℕ → (t : τ) → V t
  combined : ℕ → (t : τ) → V t
  guard : ℕ → Bool
  cast : {s : τ} → (t : τ) → V s → V t

variable {τ : Type} {obj V : τ → Type}

namespace SymbolicTerm

/-- The value of a symbolic term. -/
def eval (M : CastMeaning τ obj V) {t : τ} : SymbolicTerm τ t → V t
  | .atom id t => M.atom id t
  | .combined slices t => M.combined slices t
  | .cast x t => M.cast t (eval M x)

end SymbolicTerm

/-- A numeric term that is no union. -/
inductive Alternative (τ : Type) (obj : τ → Type) (t : τ) where
  | concrete (value : obj t)
  | symbolic (x : SymbolicTerm τ t)

/-- The value of an alternative. -/
def Alternative.eval (M : CastMeaning τ obj V) {t : τ} : Alternative τ obj t → V t
  | .concrete value => M.concrete value
  | .symbolic x => x.eval M

mutual

/-- The alternative of a term that its guards choose: the first true guard wins. -/
def NumericTerm.chosen (M : CastMeaning τ obj V) {t : τ} : NumericTerm τ obj t → Alternative τ obj t
  | .concrete value => .concrete value
  | .symbolic x => .symbolic x
  | .ite branches e => (branches.chosen M).getD (e.chosen M)

def Branches.chosen (M : CastMeaning τ obj V) {t : τ} :
    Branches τ obj t → Option (Alternative τ obj t)
  | .nil => none
  | .cons g v rest => if M.guard g then some (v.chosen M) else rest.chosen M

end

/-- The value of a numeric term. -/
def NumericTerm.eval (M : CastMeaning τ obj V) {t : τ} (x : NumericTerm τ obj t) : V t :=
  (x.chosen M).eval M

/-- The casts of a chain applied to a value, one after the other. -/
def CastMeaning.applyCasts (M : CastMeaning τ obj V) {s : τ} (v : V s) : List τ → Σ t, V t
  | [] => ⟨s, v⟩
  | t :: ts => M.applyCasts (M.cast t v) ts

/-! ### Chains -/

namespace CastTypes
variable [DecidableEq τ] (C : CastTypes τ obj) (M : CastMeaning τ obj V) {t s : τ}
  {x : NumericTerm τ obj s}

/-- `primitiveCast` on a term that is no union. -/
def castAlternative {s : τ} : Alternative τ obj s → (targetType : τ) → Alternative τ obj targetType
  | .concrete value, targetType =>
    if h : s = targetType then h ▸ .concrete value
    else .concrete (C.castConcrete targetType value)
  | .symbolic x, targetType => .symbolic (C.castSymbolic x targetType)

theorem castAlternative_self (a : Alternative τ obj t) : C.castAlternative a t = a := by
  cases a with
  | concrete value => exact dif_pos rfl
  | symbolic x => exact congrArg Alternative.symbolic (dif_pos rfl)

mutual

/-- A cast of a union is the cast of its alternatives. -/
theorem chosen_primitiveCast {s : τ} (t : τ) : ∀ x : NumericTerm τ obj s,
    (C.primitiveCast x t).chosen M = C.castAlternative (x.chosen M) t
  | .concrete value => by
      rw [primitiveCast, NumericTerm.chosen, castAlternative]
      split
      case isTrue h => subst h; rfl
      case isFalse => rfl
  | .symbolic x => rfl
  | .ite branches e => by
      rw [primitiveCast]
      split
      case isTrue h => subst h; exact (C.castAlternative_self _).symm
      case isFalse =>
        rw [NumericTerm.chosen, NumericTerm.chosen, chosen_castBranches t branches,
          chosen_primitiveCast t e]
        cases branches.chosen M <;> rfl

theorem chosen_castBranches {s : τ} (t : τ) : ∀ branches : Branches τ obj s,
    (C.castBranches branches t).chosen M = (branches.chosen M).map fun a => C.castAlternative a t
  | .nil => rfl
  | .cons g v rest => by
      rw [castBranches, Branches.chosen, Branches.chosen, chosen_primitiveCast t v,
        chosen_castBranches t rest]
      split <;> rfl

end

/-- The casts of a chain keep the value: the term they build has the value of the casts applied one
after the other. -/
def KeepsValue {s : τ} (x : NumericTerm τ obj s) (ts : List τ) : Prop :=
  ⟨_, (C.castChain x ts).2.eval M⟩ = M.applyCasts (x.eval M) ts

/-- A chain keeps the value all along where its first cast does and the rest of it does. -/
theorem keepsValue_cons_iff {ts : List τ} :
    (∀ p, p <+: t :: ts → C.KeepsValue M x p) ↔
      (C.primitiveCast x t).eval M = M.cast t (x.eval M) ∧
        ∀ p, p <+: ts → C.KeepsValue M (C.primitiveCast x t) p := by
  constructor
  · intro h
    have hstep : (C.primitiveCast x t).eval M = M.cast t (x.eval M) := by
      have := h [t] ⟨ts, rfl⟩
      simpa [KeepsValue, castChain, CastMeaning.applyCasts] using this
    refine ⟨hstep, fun p hp => ?_⟩
    have := h (t :: p) (List.cons_prefix_cons.mpr ⟨rfl, hp⟩)
    unfold KeepsValue at this ⊢
    rwa [castChain, CastMeaning.applyCasts, ← hstep] at this
  · rintro ⟨hstep, hrest⟩ p hp
    rcases List.prefix_cons_iff.mp hp with rfl | ⟨q, rfl, hq⟩
    · rfl
    · have := hrest q hq
      unfold KeepsValue at this ⊢
      rwa [castChain, CastMeaning.applyCasts, ← hstep]

theorem keepsValue_nil : ∀ p, p <+: [] → C.KeepsValue M x p := by
  intro p hp
  rw [List.prefix_nil.mp hp]
  rfl

end CastTypes

end VSharp
