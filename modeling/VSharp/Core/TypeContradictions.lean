import VSharp.Core.TypeConstraints

/-!
# Core — Type contradictions

`IsContradicting` of `VSharp.SILI.Core/TypeSolverUtils.fs`, over ground types with arrays.  Its rules
take a sealed type for one with nothing below it, and two classes for comparable when they have
something in common below them; array types are sealed classes, and neither holds of them
(`contradiction_iff`).
-/

namespace VSharp.Core
open List

/-- Ground types with single inheritance of classes and with arrays, which are covariant in their
elements. -/
structure ArrayHierarchy (T : Type) extends GroundTypes T where
  /-- The type of the elements, of an array type. -/
  elementType : T → Option T
  isReferenceType : T → Bool
  assignable_refl : ∀ t, isAssignableTo t t = true
  assignable_trans : ∀ t u v, isAssignableTo t u = true → isAssignableTo u v = true →
    isAssignableTo t v = true
  assignable_obj : ∀ t, isAssignableTo t obj = true
  /-- Only the type itself is assignable to a sealed one that is no array. -/
  eq_of_sealed : ∀ t u, elementType u = none → isSealed u = true → isAssignableTo t u = true → t = u
  /-- Of two base classes one is a base class of the other. -/
  comparable : ∀ t u v, elementType u = none → elementType v = none → isClass u = true →
    isClass v = true → isAssignableTo t u = true → isAssignableTo t v = true →
      isAssignableTo u v = true ∨ isAssignableTo v u = true
  sealed_class : ∀ t, elementType t ≠ none → isSealed t = true ∧ isClass t = true
  array_of_assignable : ∀ t u, elementType u ≠ none → isAssignableTo t u = true →
    elementType t ≠ none
  covariant : ∀ t u e f, elementType t = some e → elementType u = some f →
    isReferenceType e = true → isReferenceType f = true → isAssignableTo e f = true →
      isAssignableTo t u = true

instance {T : Type} : Coe (ArrayHierarchy T) (GroundTypes T) := ⟨ArrayHierarchy.toGroundTypes⟩

namespace TypeConstraints
variable {T : Type} [DecidableEq T] (h : ArrayHierarchy T) (x : TypeConstraints T)

abbrev IsArray (t : T) : Prop := h.elementType t ≠ none

/-- An array type among the supertypes of which a rule concludes that nothing below it satisfies the
other constraints. -/
structure Misjudged (u : T) : Prop where
  array : IsArray h u
  supertype : u ∈ x.supertypes
  rule : u ∈ x.notEqual ∨ u ∈ x.notSubtypes ∨
    ∃ v ∈ x.supertypes, h.isAssignableTo u v = false ∧
      (h.isClass v = true ∧ h.isAssignableTo v u = false ∨ h.isInterface v = true)

variable {h x} {t u v : T}

/-- A rule applies to a misjudged type. -/
theorem Misjudged.isContradicting (hu : Misjudged h x u) : x.isContradicting h = true := by
  obtain ⟨hsealed, hclass⟩ := h.sealed_class u hu.array
  by_contra hnot
  obtain ⟨-, hnotEqual, hsuper, -, -, hpair⟩ :=
    isContradicting_eq_false.mp (eq_false_of_ne_true hnot)
  rcases hu.rule with hmem | hmem | ⟨v, hv, huv, hrule⟩
  · have hne := hnotEqual u hmem
    simp only [notEqualContradicts, Bool.or_eq_false_iff, any_eq_false] at hne
    exact hne.2 u hu.supertype (by simp [hsealed])
  · have hno := hsuper u hu.supertype
    simp only [supertypeContradicts, hsealed, Bool.true_and, Bool.or_eq_false_iff,
      contains_eq_mem, decide_eq_false_iff_not] at hno
    exact hno.2 hmem
  · have hno := hpair u hu.supertype v hv
    rcases hrule with ⟨hvclass, hvu⟩ | hinterface
    · simp [nonComparable, hclass, hvclass, hvu, huv] at hno
    · simp [nonComparable, hsealed, hinterface, huv] at hno

/-- Two supertypes of a suitable type are reported for one of them that is misjudged. -/
theorem misjudged_of_nonComparable (ht : x.isSuitable h t = true) (hu : u ∈ x.supertypes)
    (hv : v ∈ x.supertypes) (hno : nonComparable h u v = true) : ∃ w, Misjudged h x w := by
  obtain ⟨-, -, -, hsuper, -, -⟩ := isSuitable_iff.mp ht
  simp only [nonComparable, Bool.or_eq_true, Bool.and_eq_true, Bool.not_eq_true'] at hno
  rcases hno with ⟨⟨⟨hvclass, huclass⟩, hvu⟩, huv⟩ | ⟨⟨hsealed, hinterface⟩, huv⟩
  · by_cases harray : IsArray h u
    · exact ⟨u, harray, hu, .inr (.inr ⟨v, hv, huv, .inl ⟨hvclass, hvu⟩⟩)⟩
    by_cases harray' : IsArray h v
    · exact ⟨v, harray', hv, .inr (.inr ⟨u, hu, hvu, .inl ⟨huclass, huv⟩⟩)⟩
    · have hcomparable := h.comparable t u v (not_not.mp harray) (not_not.mp harray') huclass hvclass
        (hsuper u hu) (hsuper v hv)
      rw [huv, hvu] at hcomparable
      exact absurd hcomparable (by decide)
  · by_cases harray : IsArray h u
    · exact ⟨u, harray, hu, .inr (.inr ⟨v, hv, huv, .inr hinterface⟩)⟩
    · have htu := h.eq_of_sealed t u (not_not.mp harray) hsealed (hsuper u hu)
      rw [← htu, hsuper v hv] at huv
      cases huv

/-- If a suitable type is there, only a misjudged array type is reported. -/
theorem exists_misjudged (ht : x.isSuitable h t = true) (hx : x.isContradicting h = true) :
    ∃ u, Misjudged h x u := by
  obtain ⟨hequal, hnotEqual, hsub, hsuper, hnotSub, hnotSuper⟩ := isSuitable_iff.mp ht
  by_contra hnone
  refine absurd (isContradicting_eq_false.mpr ⟨?_, ?_, ?_, ?_, ?_, ?_⟩) (by rw [hx]; decide)
  · intro u hu
    obtain rfl := hequal u hu
    simp only [equalContradicts, Bool.or_eq_false_iff, any_eq_false, Bool.not_eq_true,
      Bool.not_eq_true', decide_eq_false_iff_not, not_not, Bool.not_eq_false]
    exact ⟨⟨⟨⟨hequal, hsuper⟩, hsub⟩, hnotSuper⟩, hnotSub⟩
  · intro u hu
    simp only [notEqualContradicts, Bool.or_eq_false_iff, any_eq_false, decide_eq_true_eq,
      Bool.and_eq_true, not_and]
    refine ⟨fun v hv huv => hnotEqual u hu (huv ▸ hequal v hv), ?_⟩
    rintro v hv rfl hsealed
    by_cases harray : IsArray h u
    · exact hnone ⟨u, harray, hv, .inl hu⟩
    · exact hnotEqual u hu (h.eq_of_sealed t u (not_not.mp harray) hsealed (hsuper u hv))
  · intro u hu
    simp only [supertypeContradicts, Bool.or_eq_false_iff, any_eq_false,
      Bool.and_eq_false_iff, contains_eq_mem, decide_eq_false_iff_not]
    refine ⟨fun v hv huv => ?_, ?_⟩
    · have htv := h.assignable_trans t u v (hsuper u hu) huv
      rw [hnotSuper v hv] at htv
      cases htv
    · by_contra hboth
      push Not at hboth
      obtain ⟨hsealed, hmem⟩ := hboth
      by_cases harray : IsArray h u
      · exact hnone ⟨u, harray, hu, .inr (.inl hmem)⟩
      · have htu := h.eq_of_sealed t u (not_not.mp harray) (by simpa using hsealed) (hsuper u hu)
        have hself := hnotSub u hmem
        rw [htu, h.assignable_refl] at hself
        cases hself
  · intro u hu v hv
    by_contra hvu
    have hvt := h.assignable_trans v u t (by simpa using hvu) (hsub u hu)
    rw [hnotSub v hv] at hvt
    cases hvt
  · exact fun u hu v hv => h.assignable_trans u t v (hsub u hu) (hsuper v hv)
  · intro u hu v hv
    by_contra hno
    exact hnone (misjudged_of_nonComparable ht hu hv (by simpa using hno))

/-- Reported contradictions are real, unless an array type satisfies the constraints and lies below
one that is misjudged. -/
theorem contradiction_iff : (x.isContradicting h = true → ∀ t, x.isSuitable h t = false) ↔
    ¬ ∃ u, Misjudged h x u ∧ ∃ t, IsArray h t ∧ x.isSuitable h t = true := by
  constructor
  · rintro hreal ⟨u, hu, t, -, ht⟩
    rw [hreal hu.isContradicting t] at ht
    cases ht
  · intro hnone hx t
    by_contra hne
    have ht : x.isSuitable h t = true := by simpa using hne
    obtain ⟨u, hu⟩ := exists_misjudged ht hx
    have htu := (isSuitable_iff.mp ht).2.2.2.1 u hu.supertype
    exact hnone ⟨u, hu, t, h.array_of_assignable t u hu.array htu, ht⟩

/-! ### An array below another one -/

inductive SomeType where
  | object
  | string
  | array
  | objects
  | strings
deriving DecidableEq

namespace SomeType

/-- `object`, `string`, `Array`, `object[]` and `string[]`. -/
def hierarchy : ArrayHierarchy SomeType where
  obj := object
  isAssignableTo
    | _, object => true
    | array, array => true
    | objects, array => true
    | strings, array => true
    | objects, objects => true
    | strings, objects => true
    | string, string => true
    | strings, strings => true
    | _, _ => false
  isClass _ := true
  isInterface _ := false
  isSealed t := t ≠ object && t ≠ array
  elementType
    | objects => some object
    | strings => some string
    | _ => none
  isReferenceType _ := true
  assignable_refl t := by cases t <;> rfl
  assignable_trans t u v := by cases t <;> cases u <;> cases v <;> decide
  assignable_obj t := by cases t <;> rfl
  eq_of_sealed t u := by cases t <;> cases u <;> decide
  comparable t u v := by cases t <;> cases u <;> cases v <;> decide
  sealed_class t := by cases t <;> decide
  array_of_assignable t u := by cases t <;> cases u <;> decide
  covariant t u e f := by cases t <;> cases u <;> cases e <;> cases f <;> decide

/-- `X <: object[]` and `X ≠ object[]` are reported to contradict each other, and `string[]` satisfies
both. -/
theorem not_contradiction_strings :
    ({ empty with supertypes := [objects], notEqual := [objects] } :
        TypeConstraints SomeType).isContradicting hierarchy = true ∧
      ({ empty with supertypes := [objects], notEqual := [objects] } :
        TypeConstraints SomeType).isSuitable hierarchy strings = true := by
  decide

end SomeType

end TypeConstraints

end VSharp.Core
