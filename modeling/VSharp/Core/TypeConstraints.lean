import VSharp.Utils.Collections

/-!
# Core — Type constraints

`typeConstraints` and `typesConstraints` of `VSharp.SILI.Core/TypeSolverUtils.fs`, over ground types;
results about them are about types that are no array types either (`TypeHierarchy`).  On these
`potentiallyEquals` is equality and `potentiallyIsAssignableTo` is assignability.  The mutable lists of
the source are fields of a value.
-/

namespace VSharp.Core
open HashSet List

/-- What the type solver asks `System.Type` about ground types. -/
structure GroundTypes (T : Type) where
  /-- `typeof<obj>`. -/
  obj : T
  /-- `t.IsAssignableTo u`. -/
  isAssignableTo : T → T → Bool
  isClass : T → Bool
  isInterface : T → Bool
  isSealed : T → Bool

/-- Ground types without arrays. -/
structure TypeHierarchy (T : Type) extends GroundTypes T where
  assignable_refl : ∀ t, isAssignableTo t t = true
  assignable_trans : ∀ t u v, isAssignableTo t u = true → isAssignableTo u v = true →
    isAssignableTo t v = true
  assignable_obj : ∀ t, isAssignableTo t obj = true
  /-- Only the type itself is assignable to a sealed one. -/
  eq_of_sealed : ∀ t u, isSealed u = true → isAssignableTo t u = true → t = u

instance {T : Type} : Coe (TypeHierarchy T) (GroundTypes T) := ⟨TypeHierarchy.toGroundTypes⟩

structure TypeConstraints (T : Type) where
  equal : List T
  supertypes : List T
  subtypes : List T
  notEqual : List T
  notSubtypes : List T
  notSupertypes : List T
deriving DecidableEq

namespace TypeConstraints
variable {T : Type} [DecidableEq T]

def empty : TypeConstraints T := ⟨[], [], [], [], [], []⟩

def create (h : TypeHierarchy T) (equal supertypes subtypes notEqual notSupertypes notSubtypes : List T) :
    TypeConstraints T where
  equal := equal.eraseDups
  supertypes := (supertypes.filter (· ≠ h.obj)).eraseDups
  subtypes := subtypes.eraseDups
  notEqual := notEqual
  notSubtypes := notSubtypes.eraseDups
  notSupertypes := notSupertypes.eraseDups

def fromSuperTypes (h : TypeHierarchy T) (superTypes : List T) : TypeConstraints T :=
  { empty with supertypes := (superTypes.filter (· ≠ h.obj)).eraseDups }

/-- One list of `Merge`. -/
def mergeLists (types types' : List T) : List T :=
  if types ≠ types' then (types ++ types').eraseDups else types

/-- The constraints that `Merge` leaves. -/
def merge (x other : TypeConstraints T) : TypeConstraints T where
  equal := mergeLists x.equal other.equal
  supertypes := mergeLists x.supertypes other.supertypes
  subtypes := mergeLists x.subtypes other.subtypes
  notEqual := mergeLists x.notEqual other.notEqual
  notSubtypes := mergeLists x.notSubtypes other.notSubtypes
  notSupertypes := mergeLists x.notSupertypes other.notSupertypes

/-- What `Merge` returns: some list of the other constraints is a different one. -/
def mergeChanges (x other : TypeConstraints T) : Bool := x ≠ other

section
variable (h : GroundTypes T) (x : TypeConstraints T)

def equalContradicts (t : T) : Bool :=
  x.equal.any (t ≠ ·)
    || x.supertypes.any (!h.isAssignableTo t ·)
    || x.subtypes.any (!h.isAssignableTo · t)
    || x.notSupertypes.any (h.isAssignableTo t ·)
    || x.notSubtypes.any (h.isAssignableTo · t)

def notEqualContradicts (t : T) : Bool :=
  x.equal.any (t = ·) || x.supertypes.any fun u => t = u && h.isSealed u

def supertypeContradicts (t : T) : Bool :=
  x.notSupertypes.any (h.isAssignableTo t ·) || h.isSealed t && x.notSubtypes.contains t

omit [DecidableEq T] in
def nonComparable (t u : T) : Bool :=
  h.isClass u && h.isClass t && !h.isAssignableTo u t && !h.isAssignableTo t u
    || h.isSealed t && h.isInterface u && !h.isAssignableTo t u

def isContradicting : Bool :=
  x.equal.any (equalContradicts h x)
    || x.notEqual.any (notEqualContradicts h x)
    || x.supertypes.any (supertypeContradicts h x)
    || x.subtypes.any (fun u => x.notSubtypes.any (h.isAssignableTo · u))
    || x.subtypes.any (fun u => x.supertypes.any (!h.isAssignableTo u ·))
    || x.supertypes.any (fun u => x.supertypes.any (nonComparable h u))

/-- `IsSuitable`, with nothing to substitute. -/
def isSuitable (candidate : T) : Bool :=
  x.equal.all (candidate = ·)
    && x.notEqual.all (candidate ≠ ·)
    && x.subtypes.all (h.isAssignableTo · candidate)
    && x.supertypes.all (h.isAssignableTo candidate ·)
    && x.notSubtypes.all (!h.isAssignableTo · candidate)
    && x.notSupertypes.all (!h.isAssignableTo candidate ·)

end

/-! ### Suitable types -/

section
variable {h : GroundTypes T} {x y : TypeConstraints T} {t u : T}

theorem isSuitable_iff : x.isSuitable h t = true ↔
    (∀ u ∈ x.equal, t = u) ∧ (∀ u ∈ x.notEqual, t ≠ u) ∧
      (∀ u ∈ x.subtypes, h.isAssignableTo u t = true) ∧
      (∀ u ∈ x.supertypes, h.isAssignableTo t u = true) ∧
      (∀ u ∈ x.notSubtypes, h.isAssignableTo u t = false) ∧
      (∀ u ∈ x.notSupertypes, h.isAssignableTo t u = false) := by
  simp only [isSuitable, Bool.and_eq_true, all_eq_true, decide_eq_true_eq, Bool.not_eq_true',
    and_assoc]

@[simp] theorem isSuitable_empty : (empty : TypeConstraints T).isSuitable h t = true := rfl

@[simp] theorem mem_mergeLists {types types' : List T} :
    t ∈ mergeLists types types' ↔ t ∈ types ∨ t ∈ types' := by
  rw [mergeLists]
  split
  case isTrue => rw [mem_eraseDups, mem_append]
  case isFalse heq =>
    rw [not_not.mp heq, or_self]

/-- A type is suitable for merged constraints when it is for both. -/
theorem isSuitable_merge :
    (x.merge y).isSuitable h t = true ↔ x.isSuitable h t = true ∧ y.isSuitable h t = true := by
  simp only [isSuitable_iff, merge, mem_mergeLists, or_imp, forall_and]
  tauto

theorem mem_supertypes_merge : t ∈ (x.merge y).supertypes ↔ t ∈ x.supertypes ∨ t ∈ y.supertypes :=
  mem_mergeLists

/-- The parts of a contradiction. -/
theorem isContradicting_eq_false : x.isContradicting h = false ↔
    (∀ t ∈ x.equal, x.equalContradicts h t = false) ∧
      (∀ t ∈ x.notEqual, x.notEqualContradicts h t = false) ∧
      (∀ t ∈ x.supertypes, x.supertypeContradicts h t = false) ∧
      (∀ u ∈ x.subtypes, ∀ v ∈ x.notSubtypes, h.isAssignableTo v u = false) ∧
      (∀ u ∈ x.subtypes, ∀ v ∈ x.supertypes, h.isAssignableTo u v = true) ∧
      ∀ u ∈ x.supertypes, ∀ v ∈ x.supertypes, nonComparable h u v = false := by
  simp only [isContradicting, Bool.or_eq_false_iff, any_eq_false, Bool.not_eq_true,
    Bool.not_eq_false', and_assoc]

end

variable {h : TypeHierarchy T} {x : TypeConstraints T} {t : T}

/-- A type that the constraints equal is suitable, when they do not contradict each other. -/
theorem isSuitable_of_equal (hc : x.isContradicting h = false) (ht : t ∈ x.equal) :
    x.isSuitable h t = true := by
  obtain ⟨hequal, hnotEqual, -⟩ := isContradicting_eq_false.mp hc
  have hcontra := hequal t ht
  simp only [equalContradicts, Bool.or_eq_false_iff, any_eq_false, Bool.not_eq_true,
    Bool.not_eq_true', decide_eq_false_iff_not, not_not, Bool.not_eq_false] at hcontra
  obtain ⟨⟨⟨⟨heq, hsuper⟩, hsub⟩, hnotSuper⟩, hnotSub⟩ := hcontra
  refine isSuitable_iff.mpr ⟨heq, fun u hu htu => ?_, hsub, hsuper, hnotSub, hnotSuper⟩
  have hne := hnotEqual u hu
  simp only [notEqualContradicts, Bool.or_eq_false_iff, any_eq_false, decide_eq_true_eq] at hne
  exact hne.1 t ht htu.symm

/-- A sealed supertype is suitable when it has the other supertypes. -/
theorem isSuitable_of_sealed (hc : x.isContradicting h = false) (ht : t ∈ x.supertypes)
    (hsealed : h.isSealed t = true) (hsuper : ∀ u ∈ x.supertypes, h.isAssignableTo t u = true) :
    x.isSuitable h t = true := by
  obtain ⟨hequal, hnotEqual, hsupertype, -, hsub, -⟩ := isContradicting_eq_false.mp hc
  have hcontra := hsupertype t ht
  simp only [supertypeContradicts, hsealed, Bool.true_and, Bool.or_eq_false_iff, any_eq_false,
    Bool.not_eq_true, contains_eq_mem, decide_eq_false_iff_not] at hcontra
  refine isSuitable_iff.mpr ⟨fun u hu => ?_, fun u hu htu => ?_, fun u hu => ?_, hsuper,
    fun u hu => ?_, hcontra.1⟩
  · have heq := hequal u hu
    simp only [equalContradicts, Bool.or_eq_false_iff, any_eq_false, Bool.not_eq_true',
      Bool.not_eq_false] at heq
    exact (h.eq_of_sealed u t hsealed (heq.1.1.1.2 t ht)).symm
  · have hne := hnotEqual u hu
    simp only [notEqualContradicts, Bool.or_eq_false_iff, any_eq_false] at hne
    exact hne.2 t ht (by simp [htu, htu ▸ hsealed])
  · rw [h.eq_of_sealed u t hsealed (hsub u hu t ht)]
    exact h.assignable_refl t
  · by_contra hassign
    rw [Bool.not_eq_false] at hassign
    exact hcontra.2 (h.eq_of_sealed u t hsealed hassign ▸ hu)

end TypeConstraints

/-! ### The constraints of all addresses -/

structure TypesConstraints (A T : Type) where
  newAddresses : List A
  constraints : Pdict A (TypeConstraints T)

namespace TypesConstraints
open PersistentDict

variable {A T : Type} [DecidableEq A] [DecidableEq T]

def empty : TypesConstraints A T := ⟨[], []⟩

def clearNewAddresses (x : TypesConstraints A T) : TypesConstraints A T :=
  { x with newAddresses := [] }

def add (address : A) (typeConstraint : TypeConstraints T) (x : TypesConstraints A T) :
    TypesConstraints A T :=
  match tryFind x.constraints address with
  | some current =>
    { newAddresses :=
        if current.mergeChanges typeConstraint then HashSet.add x.newAddresses address
        else x.newAddresses
      constraints := Dictionary.set address (current.merge typeConstraint) x.constraints }
  | none =>
    { newAddresses := HashSet.add x.newAddresses address
      constraints := Dictionary.set address typeConstraint x.constraints }

/-- `Item`: a copy of the constraints of an address, which the callers know to have some. -/
def item (x : TypesConstraints A T) (address : A) : TypeConstraints T :=
  (tryFind x.constraints address).getD .empty

def checkInequality (h : TypeHierarchy T) (x : TypesConstraints A T) : Option (List (A × A)) :=
  if x.constraints.any fun e => e.2.isContradicting h then none
  else some (x.constraints.foldl (fun unequal e₁ =>
    x.constraints.foldl (fun unequal e₂ =>
      if e₁.1 ≠ e₂.1 ∧ (e₁.2.merge e₂.2).isContradicting h ∧ (e₂.1, e₁.1) ∉ unequal then
        HashSet.add unequal (e₁.1, e₂.1)
      else unequal) unequal) [])

variable {x : TypesConstraints A T} {address a : A} {typeConstraint : TypeConstraints T}

/-- The constraints of an address after `Add`. -/
theorem tryFind_add : tryFind (x.add address typeConstraint).constraints a =
    if a = address then
      some (match tryFind x.constraints address with
        | some current => current.merge typeConstraint
        | none => typeConstraint)
    else tryFind x.constraints a := by
  rw [add]
  cases tryFind x.constraints address with
  | none => exact Dictionary.tryFind_set
  | some current => exact Dictionary.tryFind_set

theorem item_add_ne (h : a ≠ address) : (x.add address typeConstraint).item a = x.item a := by
  rw [item, tryFind_add, if_neg h, item]

/-- `Add` only adds supertypes. -/
theorem mem_supertypes_item_add {t : T} (h : t ∈ (x.item a).supertypes) :
    t ∈ ((x.add address typeConstraint).item a).supertypes := by
  by_cases ha : a = address
  case neg => rwa [item_add_ne ha]
  subst ha
  rw [item] at h
  rw [item, tryFind_add, if_pos rfl]
  cases hfind : tryFind x.constraints a with
  | none => simp [hfind, TypeConstraints.empty] at h
  | some current =>
    rw [hfind] at h
    exact TypeConstraints.mem_supertypes_merge.mpr (.inl h)

theorem mem_keys_add : a ∈ keys (x.add address typeConstraint).constraints ↔
    a = address ∨ a ∈ keys x.constraints := by
  rw [add]
  cases tryFind x.constraints address with
  | none => exact Dictionary.mem_keys_set
  | some current => exact Dictionary.mem_keys_set

theorem merge_of_not_changes {c d : TypeConstraints T} (h : c.mergeChanges d = false) :
    c.merge d = c := by
  have heq : c = d := by simpa [TypeConstraints.mergeChanges] using h
  subst heq
  simp [TypeConstraints.merge, TypeConstraints.mergeLists]

theorem mem_newAddresses_of_mem (h : a ∈ x.newAddresses) :
    a ∈ (x.add address typeConstraint).newAddresses := by
  rw [add]
  cases tryFind x.constraints address with
  | none => exact mem_add.mpr (.inl h)
  | some current =>
    dsimp only
    split
    case isTrue => exact mem_add.mpr (.inl h)
    case isFalse => exact h

theorem eq_or_mem_of_mem_newAddresses (h : a ∈ (x.add address typeConstraint).newAddresses) :
    a = address ∨ a ∈ x.newAddresses := by
  rw [add] at h
  cases hfind : tryFind x.constraints address with
  | none =>
    rw [hfind] at h
    exact (mem_add.mp h).symm
  | some current =>
    rw [hfind] at h
    dsimp only at h
    split at h
    case isTrue => exact (mem_add.mp h).symm
    case isFalse => exact .inr h

/-- An address that is not new keeps its constraints. -/
theorem tryFind_add_of_not_mem (h : a ∉ (x.add address typeConstraint).newAddresses) :
    tryFind (x.add address typeConstraint).constraints a = tryFind x.constraints a := by
  rw [tryFind_add]
  split
  case isFalse => rfl
  case isTrue heq =>
    subst heq
    rw [add] at h
    cases hfind : tryFind x.constraints a with
    | none =>
      rw [hfind] at h
      exact absurd (mem_add.mpr (.inr rfl)) h
    | some current =>
      rw [hfind] at h
      dsimp only at h ⊢
      split at h
      case isTrue => exact absurd (mem_add.mpr (.inr rfl)) h
      case isFalse hsame => rw [merge_of_not_changes (Bool.eq_false_iff.mpr hsame)]

end TypesConstraints

end VSharp.Core
