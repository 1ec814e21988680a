import VSharp.Core.PathCondition
import VSharp.Core.TypeStorages

/-!
# Core — Type atoms

`addTypeConstraints` of `VSharp.SILI.Core/TypeSolver.fs`: the type constraints of the addresses,
gathered by a fold over a condition.  The fold stops at type atoms and their negations and goes
into the children of every other term, whatever its operator.  So what it records from a conjunct
that is a type literal follows from the condition, and what it records from inside any other
conjunct follows only by chance: `branch_constraints_iff`, and `disjunction_constrained`.

- `Respects` is an assignment of types to the addresses that are not null.
- `Buried` are the type literals below a connective other than the conjunction that a condition is.
-/

namespace VSharp.Core
open PersistentDict Term Propositional Library List

/-! ### The fold -/

/-- The source of a constant, as the active patterns of the solver see it. -/
inductive SourceView (T : Type) where
  | typeSubtypeTypeSource
  | refEqTypeSource (address : Term) (typ : T)
  | refSubtypeTypeSource (address : Term) (typ : T)
  | typeSubtypeRefSource (typ : T) (address : Term)
  | refSubtypeRefSource
  /-- A heap or pointer address, with the type of its location. -/
  | addressSource (typeOfLocation : T)
  /-- Any other source, with its `SubTerms`. -/
  | other (subTerms : List Term)

/-- The dictionary that a constraint is put in. -/
inductive ConstraintKind where
  | equality
  | supertype
  | subtype
  | inequality
  | notSupertype
  | notSubtype
deriving DecidableEq

/-- What `add` is called with. -/
structure TypeRecord (T : Type) where
  kind : ConstraintKind
  address : Term
  typ : T
deriving DecidableEq

section
variable {T : Type} (view : Source → SourceView T)

/-- `internalfail "TypeSolver is not fully implemented"`. -/
def notImplemented : Failure := .internal "TypeSolver is not fully implemented"

/-- `addConstraints`: what it does to a term before `next`, or nothing when it goes `into` it. -/
def addConstraints : Term → Option (Except Failure (TypeRecord T))
  | .constant s t =>
    match view s with
    | .typeSubtypeTypeSource => some (.error notImplemented)
    | .refEqTypeSource address typ => some (.ok ⟨.equality, address, typ⟩)
    | .refSubtypeTypeSource address typ => some (.ok ⟨.supertype, address, typ⟩)
    | .typeSubtypeRefSource typ address => some (.ok ⟨.subtype, address, typ⟩)
    | .refSubtypeRefSource => some (.error notImplemented)
    -- Adding super types from testing function info
    | .addressSource typ => some (.ok ⟨.supertype, .constant s t, typ⟩)
    | .other _ => none
  | .expression (.operator .logicalNot) [.constant s _] _ =>
    match view s with
    | .typeSubtypeTypeSource => some (.error notImplemented)
    | .refSubtypeTypeSource address typ => some (.ok ⟨.notSupertype, address, typ⟩)
    | .refEqTypeSource address typ => some (.ok ⟨.inequality, address, typ⟩)
    | .typeSubtypeRefSource typ address => some (.ok ⟨.notSubtype, address, typ⟩)
    | .refSubtypeRefSource => some (.error notImplemented)
    | .addressSource _ | .other _ => none
  | _ => none

def addressChildren : Address Term → List Term
  | .primitiveStackLocation _ | .staticField .. | .boxedLocation .. => []
  | .classField addr _ => [addr]
  | .arrayIndex addr indices _ => addr :: indices
  | .structField addr _ => addressChildren addr
  | .arrayLength addr dim _ => [addr, dim]
  | .arrayLowerBound addr dim _ => [addr, dim]
  | .stackBufferIndex _ index => [index]

def pointerBaseChildren : PointerBase Term → List Term
  | .heapLocation heapAddress _ => [heapAddress]
  | .stackLocation _ | .staticLocation _ => []

/-- What `foldChildren` goes into; in a constant, the subterms of its source. -/
def children : Term → List Term
  | .constant s _ =>
    match view s with
    | .other subTerms => subTerms
    | _ => []
  | .expression _ args _ => args
  | .struct fields _ => fields.map Prod.snd
  | .ref address => addressChildren address
  | .ptr base _ indent => pointerBaseChildren base ++ [indent]
  | .slice part cuts => part :: cuts.flatMap fun (s, e, pos, _) => [s, e, pos]
  | .ite branches elseValue => branches.map Prod.fst ++ (branches.map Prod.snd ++ [elseValue])
  | .nop | .concrete .. | .heapRef .. => []

def foldList (fold : Term → Except Failure (List (TypeRecord T))) :
    List Term → Except Failure (List (TypeRecord T))
  | [] => .ok []
  | x :: xs => do .ok ((← fold x) ++ (← foldList fold xs))

/-- `doFold addConstraints`, for a term nested less than `n` deep, with the sources of its constants. -/
def doFold : ℕ → Term → Except Failure (List (TypeRecord T))
  | 0, _ => .error (.internal "nested too deep")
  | n + 1, c =>
    match addConstraints view c with
    | some r => r.map ([·])
    | none => foldList (doFold n) (children view c)

end

/-! ### The constraints -/

section
variable {T : Type} [DecidableEq T] (view : Source → SourceView T)

/-- The dictionaries of `addTypeConstraints`, and the addresses in them. -/
structure Recorded (T : Type) where
  types : ConstraintKind → Pdict Term (List T)
  addresses : List Term

omit [DecidableEq T] in
def Recorded.toList (x : Recorded T) (kind : ConstraintKind) (address : Term) : List T :=
  (tryFind (x.types kind) address).getD []

def Recorded.add (x : Recorded T) (r : TypeRecord T) : Recorded T where
  types kind :=
    if kind = r.kind then
      Dictionary.set r.address (HashSet.add (x.toList kind r.address) r.typ) (x.types kind)
    else x.types kind
  addresses :=
    match tryFind (x.types r.kind) r.address with
    | some _ => x.addresses
    | none => x.addresses ++ [r.address]

variable (h : TypeHierarchy T)

/-- The constraints that are made of what was recorded for an address. -/
def Recorded.constraints (x : Recorded T) (address : Term) : TypeConstraints T :=
  .create h (x.toList .equality address) (x.toList .supertype address) (x.toList .subtype address)
    (x.toList .inequality address) (x.toList .notSupertype address)
    (x.toList .notSubtype address)

/-- The loop of `addTypeConstraints` over the addresses. -/
def addRecords (records : List (TypeRecord T)) (x : TypesConstraints Term T) :
    TypesConstraints Term T :=
  let recorded := records.foldl Recorded.add ⟨fun _ => [], []⟩
  recorded.addresses.foldl (fun x address => x.add address (recorded.constraints h address)) x

/-- `addTypeConstraint`, for a condition nested less than `n` deep. -/
def addTypeConstraint (n : ℕ) (x : TypesConstraints Term T) (condition : Term) :
    Except Failure (TypesConstraints Term T) := do
  .ok (addRecords h (← doFold view n condition) x)

/-- The constraints that `commonStatedConditionalExecutionk` gives the two branches: each has its
own copy of those before. -/
def branchConstraints (n : ℕ) (x : TypesConstraints Term T) (condition : Term) :
    Except Failure (TypesConstraints Term T × TypesConstraints Term T) := do
  let notCondition ← simplifyNegation condition
  .ok (← addTypeConstraint view h n x condition, ← addTypeConstraint view h n x notCondition)

/-! ### Assignments of types -/

variable {V : Type} (I : Interp V) (types : V → T)

omit [DecidableEq T] in
/-- The address is not null. -/
def NonNull (address : Term) : Prop := address.eval I ≠ zeroAddress.eval I

/-- The type atoms say what the types of their addresses are, and an address constant has a type
below that of its location.  Nothing is said about null addresses. -/
structure Respects : Prop where
  refEqType : ∀ s t address typ, view s = .refEqTypeSource address typ → NonNull I address →
    ((Term.constant s t).holds I = true ↔ types (address.eval I) = typ)
  refSubtypeType : ∀ s t address typ, view s = .refSubtypeTypeSource address typ →
    NonNull I address →
      ((Term.constant s t).holds I = true ↔ h.isAssignableTo (types (address.eval I)) typ = true)
  typeSubtypeRef : ∀ s t address typ, view s = .typeSubtypeRefSource typ address →
    NonNull I address →
      ((Term.constant s t).holds I = true ↔ h.isAssignableTo typ (types (address.eval I)) = true)
  address : ∀ s t typ, view s = .addressSource typ → NonNull I (.constant s t) →
    h.isAssignableTo (types ((Term.constant s t).eval I)) typ = true

omit [DecidableEq T] in
/-- A type meets what was recorded. -/
def TypeRecord.Allows (r : TypeRecord T) (t : T) : Prop :=
  match r.kind with
  | .equality => t = r.typ
  | .supertype => h.isAssignableTo t r.typ = true
  | .subtype => h.isAssignableTo r.typ t = true
  | .inequality => t ≠ r.typ
  | .notSupertype => h.isAssignableTo t r.typ = false
  | .notSubtype => h.isAssignableTo r.typ t = false

/-- What was recorded holds of the type of the address. -/
def TypeRecord.Holds (r : TypeRecord T) : Prop :=
  NonNull I r.address → r.Allows h (types (r.address.eval I))

/-- The types of all addresses satisfy their constraints. -/
def Satisfied (x : TypesConstraints Term T) : Prop :=
  ∀ a c, tryFind x.constraints a = some c → NonNull I a → c.isSuitable h (types (a.eval I)) = true

variable {h I types} {x : TypesConstraints Term T} {records : List (TypeRecord T)}
variable {t : T} {a c d : Term} {kind : ConstraintKind}

/-! ### What the constraints say -/

theorem isSuitable_create {equal supertypes subtypes notEqual notSupertypes notSubtypes : List T} :
    (TypeConstraints.create h equal supertypes subtypes notEqual notSupertypes
      notSubtypes).isSuitable h t = true ↔
    (∀ u ∈ equal, t = u) ∧ (∀ u ∈ notEqual, t ≠ u) ∧
      (∀ u ∈ subtypes, h.isAssignableTo u t = true) ∧
      (∀ u ∈ supertypes, h.isAssignableTo t u = true) ∧
      (∀ u ∈ notSubtypes, h.isAssignableTo u t = false) ∧
      (∀ u ∈ notSupertypes, h.isAssignableTo t u = false) := by
  -- `obj` is dropped from the supertypes, and everything is below it
  have hsupertypes : (∀ u ∈ (supertypes.filter (· ≠ h.obj)).eraseDups,
      h.isAssignableTo t u = true) ↔ ∀ u ∈ supertypes, h.isAssignableTo t u = true := by
    constructor
    · intro hall u hu
      by_cases hobj : u = h.obj
      · exact hobj ▸ h.assignable_obj t
      · exact hall u (mem_eraseDups.mpr (mem_filter.mpr ⟨hu, decide_eq_true hobj⟩))
    · exact fun hall u hu => hall u (mem_filter.mp (mem_eraseDups.mp hu)).1
  rw [TypeConstraints.isSuitable_iff, TypeConstraints.create, hsupertypes]
  simp only [mem_eraseDups]

theorem toList_add (x : Recorded T) (r : TypeRecord T) :
    t ∈ (x.add r).toList kind a ↔ t ∈ x.toList kind a ∨ r = ⟨kind, a, t⟩ := by
  have hr : r = ⟨kind, a, t⟩ ↔ r.kind = kind ∧ r.address = a ∧ r.typ = t := by
    cases r
    simp
  rw [hr, Recorded.toList, Recorded.add]
  dsimp only
  by_cases hkind : kind = r.kind
  · subst hkind
    rw [if_pos rfl, Dictionary.tryFind_set]
    by_cases ha : a = r.address
    · subst ha
      rw [if_pos rfl, Option.getD_some, HashSet.mem_add]
      simp [eq_comm]
    · rw [if_neg ha, ← Recorded.toList, or_iff_left]
      exact fun h => ha h.2.1.symm
  · rw [if_neg hkind, ← Recorded.toList, or_iff_left]
    exact fun h => hkind h.1.symm

theorem mem_toList_foldl {x : Recorded T} :
    t ∈ (records.foldl Recorded.add x).toList kind a ↔
      t ∈ x.toList kind a ∨ ⟨kind, a, t⟩ ∈ records := by
  induction records generalizing x with
  | nil => simp
  | cons r records ih =>
    rw [foldl_cons, ih, toList_add, mem_cons, or_assoc]
    exact or_congr_right (or_congr_left eq_comm)

/-- The addresses are those of what was recorded. -/
theorem mem_addresses_foldl {x : Recorded T}
    (hx : ∀ kind a ts, tryFind (x.types kind) a = some ts → a ∈ x.addresses) :
    a ∈ (records.foldl Recorded.add x).addresses ↔
      a ∈ x.addresses ∨ ∃ r ∈ records, r.address = a := by
  induction records generalizing x with
  | nil => simp
  | cons r records ih =>
    have hadd : ∀ a, a ∈ (x.add r).addresses ↔ a ∈ x.addresses ∨ r.address = a := by
      intro a
      rw [Recorded.add]
      dsimp only
      cases hfind : tryFind (x.types r.kind) r.address with
      | some ts => exact (or_iff_left_of_imp fun heq => heq ▸ hx _ _ ts hfind).symm
      | none => rw [mem_append, mem_singleton, eq_comm (a := a)]
    rw [foldl_cons, ih, hadd, or_assoc]
    · simp
    · intro kind a ts hfind
      rw [Recorded.add] at hfind
      dsimp only at hfind
      split at hfind
      case isFalse => exact (hadd a).mpr (.inl (hx kind a ts hfind))
      case isTrue hkind =>
        rw [Dictionary.tryFind_set] at hfind
        split at hfind
        case isTrue ha => exact (hadd a).mpr (.inr ha.symm)
        case isFalse => exact (hadd a).mpr (.inl (hx kind a ts hfind))

theorem isSuitable_constraints :
    ((records.foldl Recorded.add ⟨fun _ => [], []⟩).constraints h a).isSuitable h t = true ↔
      ∀ r ∈ records, r.address = a → r.Allows h t := by
  have hmem : ∀ kind u, u ∈ (records.foldl Recorded.add ⟨fun _ => [], []⟩).toList kind a ↔
      ⟨kind, a, u⟩ ∈ records := by
    intro kind u
    rw [mem_toList_foldl, or_iff_right]
    exact not_mem_nil
  rw [Recorded.constraints, isSuitable_create]
  simp only [hmem]
  constructor
  · rintro ⟨hequal, hnotEqual, hsub, hsuper, hnotSub, hnotSuper⟩ ⟨kind, a', u⟩ hr rfl
    cases kind with
    | equality => exact hequal u hr
    | supertype => exact hsuper u hr
    | subtype => exact hsub u hr
    | inequality => exact hnotEqual u hr
    | notSupertype => exact hnotSuper u hr
    | notSubtype => exact hnotSub u hr
  · intro hall
    exact ⟨fun u hu => hall _ hu rfl, fun u hu => hall _ hu rfl, fun u hu => hall _ hu rfl,
      fun u hu => hall _ hu rfl, fun u hu => hall _ hu rfl, fun u hu => hall _ hu rfl⟩

theorem satisfied_add {c : TypeConstraints T} : Satisfied h I types (x.add a c) ↔
    Satisfied h I types x ∧ (NonNull I a → c.isSuitable h (types (a.eval I)) = true) := by
  constructor
  · intro hsat
    refine ⟨fun b d hfind hnull => ?_, fun hnull => ?_⟩
    · by_cases hb : b = a
      · subst hb
        have hmerged := hsat b _ (by rw [TypesConstraints.tryFind_add, if_pos rfl]) hnull
        rw [hfind] at hmerged
        exact (TypeConstraints.isSuitable_merge.mp hmerged).1
      · exact hsat b d (by rw [TypesConstraints.tryFind_add, if_neg hb, hfind]) hnull
    · have hmerged := hsat a _ (by rw [TypesConstraints.tryFind_add, if_pos rfl]) hnull
      cases hfind : tryFind x.constraints a with
      | none => rwa [hfind] at hmerged
      | some d =>
        rw [hfind] at hmerged
        exact (TypeConstraints.isSuitable_merge.mp hmerged).2
  · rintro ⟨hsat, hnew⟩ b d hfind hnull
    rw [TypesConstraints.tryFind_add] at hfind
    split at hfind
    case isFalse => exact hsat b d hfind hnull
    case isTrue hb =>
      subst hb
      cases hfind' : tryFind x.constraints b with
      | none =>
        rw [hfind'] at hfind
        cases hfind
        exact hnew hnull
      | some d' =>
        rw [hfind'] at hfind
        cases hfind
        exact TypeConstraints.isSuitable_merge.mpr ⟨hsat b d' hfind' hnull, hnew hnull⟩

/-- Constraints with what was recorded say what they did before, and what was recorded. -/
theorem satisfied_addRecords : Satisfied h I types (addRecords h records x) ↔
    Satisfied h I types x ∧ ∀ r ∈ records, r.Holds h I types := by
  have hfold : ∀ (f : Term → TypeConstraints T) (as : List Term) (x : TypesConstraints Term T),
      Satisfied h I types (as.foldl (fun x a => x.add a (f a)) x) ↔
        Satisfied h I types x ∧
          ∀ a ∈ as, NonNull I a → (f a).isSuitable h (types (a.eval I)) = true := by
    intro f as
    induction as with
    | nil => simp
    | cons a as ih =>
      intro x
      rw [foldl_cons, ih, satisfied_add, forall_mem_cons, and_assoc]
  rw [addRecords, hfold]
  refine and_congr_right fun _ => ?_
  constructor
  · intro hall r hr hnull
    refine isSuitable_constraints.mp (hall r.address ?_ hnull) r hr rfl
    refine (mem_addresses_foldl fun _ _ _ hfind => ?_).mpr (.inr ⟨r, hr, rfl⟩)
    cases hfind
  · intro hall a _ hnull
    refine isSuitable_constraints.mpr fun r hr ha => ?_
    subst ha
    exact hall r hr hnull

end

/-! ### Type literals in terms -/

/-- A type atom, or its negation, and the address it is about. -/
structure TypeLiteral where
  atom : Term
  positive : Bool
  address : Term

section
variable {T : Type} (view : Source → SourceView T)

def SourceView.atomAddress : SourceView T → Option Term
  | .refEqTypeSource address _ => some address
  | .refSubtypeTypeSource address _ => some address
  | .typeSubtypeRefSource _ address => some address
  | _ => none

def typeLiteral : Term → Option TypeLiteral
  | .constant s t => (view s).atomAddress.map fun a => ⟨.constant s t, true, a⟩
  | .expression (.operator .logicalNot) [.constant s t] _ =>
    (view s).atomAddress.map fun a => ⟨.constant s t, false, a⟩
  | _ => none

/-- A type literal is in a term. -/
inductive Occurs (l : TypeLiteral) : Term → Prop
  | here {c : Term} : typeLiteral view c = some l → Occurs l c
  | child {c d : Term} : typeLiteral view c = none → d ∈ children view c → Occurs l d → Occurs l c

/-- What a condition is a conjunction of. -/
def conjuncts (condition : Term) : List Term :=
  (operands? .logicalAnd condition).getD [condition]

/-- A type literal is inside a conjunct that is no type literal. -/
def Buried (l : TypeLiteral) (condition : Term) : Prop :=
  ∃ d ∈ conjuncts condition, typeLiteral view d = none ∧ Occurs view l d

/-- The literal is true, unless its address is null. -/
def TypeLiteral.Holds {V : Type} (I : Interp V) (l : TypeLiteral) : Prop :=
  NonNull I l.address → l.atom.holds I = l.positive

variable {view} {l : TypeLiteral} {c d : Term}

theorem typeLiteral_of_addConstraints (hc : addConstraints view c = none) :
    typeLiteral view c = none := by
  unfold addConstraints at hc
  split at hc
  case h_1 s t =>
    split at hc
    case h_7 hview => rw [typeLiteral, hview]; rfl
    all_goals cases hc
  case h_2 s _ _ =>
    split at hc
    case h_6 hview => rw [typeLiteral, hview]; rfl
    case h_7 hview => rw [typeLiteral, hview]; rfl
    all_goals cases hc
  case h_3 hconstant hnegated =>
    unfold typeLiteral
    split
    · exact absurd rfl (hconstant _ _)
    · exact absurd rfl (hnegated _ _ _)
    · rfl

/-- A type literal is not inside another. -/
theorem Occurs.eq {l' : TypeLiteral} (h : Occurs view l c) (hc : typeLiteral view c = some l') :
    l = l' := by
  cases h with
  | here hc' => exact Option.some.inj (hc'.symm.trans hc)
  | child hnone =>
    rw [hnone] at hc
    cases hc

theorem eq_of_operands {op : OperationType} {xs : List Term} (hc : operands? op c = some xs) :
    ∃ t, c = .expression (.operator op) xs t := by
  unfold operands? at hc
  split at hc
  case h_1 op' xs' t =>
    split at hc
    case isTrue heq =>
      cases hc
      exact ⟨t, heq ▸ rfl⟩
    case isFalse => cases hc
  case h_2 => cases hc

theorem occurs_conjuncts : Occurs view l c ↔ ∃ d ∈ conjuncts c, Occurs view l d := by
  rw [conjuncts]
  cases hand : operands? .logicalAnd c with
  | none => simp
  | some xs =>
    obtain ⟨t, rfl⟩ := eq_of_operands hand
    constructor
    · intro h
      cases h with
      | here hc => cases hc
      | child _ hd hoccurs => exact ⟨_, hd, hoccurs⟩
    · rintro ⟨d, hd, hoccurs⟩
      exact .child rfl hd hoccurs

variable {V : Type} {I : Interp V}

theorem holds_of_mem_conjuncts (hc : Condition c) (hd : d ∈ conjuncts c)
    (hholds : c.holds I = true) : Condition d ∧ d.holds I = true := by
  rw [conjuncts] at hd
  cases hand : operands? .logicalAnd c with
  | none =>
    rw [hand, Option.getD_none, mem_singleton] at hd
    exact hd ▸ ⟨hc, hholds⟩
  | some xs =>
    rw [hand, Option.getD_some] at hd
    obtain ⟨rfl, hreduced, -, -⟩ :=
      (hc.reduced_of_operands hand).of_operands (.inl rfl) hand
    rw [holds_conjunction, all_eq_true] at hholds
    exact ⟨(hreduced d hd).condition, hholds d hd⟩

/-- A type literal that is a true condition holds. -/
theorem TypeLiteral.holds_of_condition (hcond : Condition c) (hc : typeLiteral view c = some l)
    (hholds : c.holds I = true) : l.Holds I := by
  intro _
  unfold typeLiteral at hc
  split at hc
  case h_1 =>
    obtain ⟨_, -, rfl⟩ := Option.map_eq_some_iff.mp hc
    exact hholds
  case h_2 s t t' =>
    obtain ⟨_, -, rfl⟩ := Option.map_eq_some_iff.mp hc
    obtain ⟨heq, -⟩ := (hcond.simple_of_not_ite (fun _ _ h => nomatch h)).resolve_left
      (fun ⟨_, h⟩ => nomatch h) |>.of_negation (y := .constant s t) rfl
    rwa [heq, holds_negate, Bool.not_eq_true'] at hholds
  case h_3 => cases hc

end

/-! ### What the fold records -/

section
variable {T : Type} {view : Source → SourceView T} {h : TypeHierarchy T} {V : Type} {I : Interp V}
variable {types : V → T} {records records' : List (TypeRecord T)} {xs ys : List Term} {c : Term}

variable (view h I types) in
/-- What was recorded holds when the type literals in the terms do. -/
def Agrees (records : List (TypeRecord T)) (xs : List Term) : Prop :=
  (∀ r ∈ records, r.Holds h I types) ↔ ∀ c ∈ xs, ∀ l, Occurs view l c → l.Holds I

theorem Agrees.append (hxs : Agrees view h I types records xs)
    (hys : Agrees view h I types records' ys) :
    Agrees view h I types (records ++ records') (xs ++ ys) := by
  unfold Agrees at *
  rw [forall_mem_append, forall_mem_append, hxs, hys]

theorem Agrees.of_children (hc : addConstraints view c = none)
    (hchildren : Agrees view h I types records (children view c)) :
    Agrees view h I types records [c] := by
  have hnone := typeLiteral_of_addConstraints hc
  unfold Agrees at *
  rw [forall_mem_singleton, hchildren]
  constructor
  · intro hall l hoccurs
    cases hoccurs with
    | here hsome => cases hnone.symm.trans hsome
    | child _ hd hoccurs => exact hall _ hd l hoccurs
  · exact fun hall d hd l hoccurs => hall l (.child hnone hd hoccurs)

/-- The fold stops at a type literal, and records what it says. -/
theorem Agrees.of_literal {result : Except Failure (TypeRecord T)}
    (hrespects : Respects view h I types) (hc : addConstraints view c = some result)
    (hrun : result.map ([·]) = .ok records) : Agrees view h I types records [c] := by
  obtain ⟨r, rfl, rfl⟩ := map_eq_ok hrun
  rw [Agrees, forall_mem_singleton, forall_mem_singleton]
  -- It is the literal alone that occurs.
  have hliteral : ∀ l, typeLiteral view c = some l → (r.Holds h I types ↔ l.Holds I) →
      (r.Holds h I types ↔ ∀ l, Occurs view l c → l.Holds I) := by
    intro l hl hiff
    rw [hiff]
    exact ⟨fun h l' hoccurs => hoccurs.eq hl ▸ h, fun h => h l (.here hl)⟩
  unfold addConstraints at hc
  split at hc
  case h_1 s t =>
    split at hc
    case h_2 address typ hview =>
      cases hc
      exact hliteral ⟨_, true, address⟩ (by rw [typeLiteral, hview]; rfl)
        (forall_congr' fun hnull => (hrespects.refEqType s t address typ hview hnull).symm)
    case h_3 address typ hview =>
      cases hc
      exact hliteral ⟨_, true, address⟩ (by rw [typeLiteral, hview]; rfl)
        (forall_congr' fun hnull => (hrespects.refSubtypeType s t address typ hview hnull).symm)
    case h_4 typ address hview =>
      cases hc
      exact hliteral ⟨_, true, address⟩ (by rw [typeLiteral, hview]; rfl)
        (forall_congr' fun hnull => (hrespects.typeSubtypeRef s t address typ hview hnull).symm)
    case h_6 typ hview =>
      -- Of a constant address always the same is known.
      cases hc
      refine iff_of_true (hrespects.address s t typ hview) fun l hoccurs => ?_
      cases hoccurs with
      | here hsome => rw [typeLiteral, hview] at hsome; cases hsome
      | child _ hd => rw [children, hview] at hd; cases hd
    all_goals cases hc
  case h_2 s t t' =>
    have hnot : ∀ {p : Prop}, ((Term.constant s t).holds I = true ↔ p) →
        (¬ p ↔ (Term.constant s t).holds I = false) := fun hiff => by
      rw [← hiff, Bool.not_eq_true]
    split at hc
    case h_2 address typ hview =>
      cases hc
      exact hliteral ⟨_, false, address⟩ (by rw [typeLiteral, hview]; rfl)
        (forall_congr' fun hnull => (Bool.not_eq_true _).symm.to_iff.trans
          (hnot (hrespects.refSubtypeType s t address typ hview hnull)))
    case h_3 address typ hview =>
      cases hc
      exact hliteral ⟨_, false, address⟩ (by rw [typeLiteral, hview]; rfl)
        (forall_congr' fun hnull => hnot (hrespects.refEqType s t address typ hview hnull))
    case h_4 typ address hview =>
      cases hc
      exact hliteral ⟨_, false, address⟩ (by rw [typeLiteral, hview]; rfl)
        (forall_congr' fun hnull => (Bool.not_eq_true _).symm.to_iff.trans
          (hnot (hrespects.typeSubtypeRef s t address typ hview hnull)))
    all_goals cases hc
  case h_3 => cases hc

theorem doFold_agrees (hrespects : Respects view h I types) {n : ℕ} :
    ∀ c records, doFold view n c = .ok records → Agrees view h I types records [c] := by
  induction n with
  | zero =>
    intro c records hrun
    cases hrun
  | succ n ih =>
    -- The records of the children come from the fold at the depth below.
    have hlist : ∀ xs records, foldList (doFold view n) xs = .ok records →
        Agrees view h I types records xs := by
      intro xs
      induction xs with
      | nil =>
        intro records hrun
        cases hrun
        exact ⟨nofun, nofun⟩
      | cons x xs ihxs =>
        intro records hrun
        obtain ⟨_, hx, hrun⟩ := bind_eq_ok hrun
        obtain ⟨_, hxs, heq⟩ := bind_eq_ok hrun
        cases heq
        exact (ih x _ hx).append (ihxs _ hxs)
    intro c records hrun
    rw [doFold] at hrun
    cases hc : addConstraints view c with
    | none =>
      rw [hc] at hrun
      exact .of_children hc (hlist _ records hrun)
    | some result =>
      rw [hc] at hrun
      exact .of_literal hrespects hc hrun

end

/-! ### Branches -/

section
variable {T : Type} [DecidableEq T] (view : Source → SourceView T) (h : TypeHierarchy T)

/-- No model of a path condition violates the constraints. -/
def Follows (pc : PathCondition) (x : TypesConstraints Term T) : Prop :=
  ∀ {V : Type} (I : Interp V) (types : V → T), Respects view h I types → PC.Holds I pc →
    Satisfied h I types x

/-- A type literal is true in all models of a path condition. -/
def Entails (pc : PathCondition) (l : TypeLiteral) : Prop :=
  ∀ {V : Type} (I : Interp V) (types : V → T), Respects view h I types → PC.Holds I pc → l.Holds I

variable {view h} {pc pc' pcThen pcElse : PathCondition} {condition notCondition : Term}
  {x x' xThen xElse : TypesConstraints Term T} {n : ℕ}

/-- One branch, whose path condition assumes the condition. -/
theorem follows_iff (hcond : Condition condition) (hx : Follows view h pc x)
    (hpc : ∀ {V : Type} (I : Interp V), PC.Holds I pc' → PC.Holds I pc ∧ condition.holds I = true)
    (hadd : addTypeConstraint view h n x condition = .ok x') :
    Follows view h pc' x' ↔ ∀ l, Buried view l condition → Entails view h pc' l := by
  obtain ⟨records, hrecords, heq⟩ := bind_eq_ok hadd
  cases heq
  have hagrees : ∀ {V : Type} {I : Interp V} {types : V → T}, Respects view h I types →
      ((∀ r ∈ records, r.Holds h I types) ↔ ∀ l, Occurs view l condition → l.Holds I) := by
    intro V I types hrespects
    rw [← forall_mem_singleton (p := fun c => ∀ l, Occurs view l c → l.Holds I)]
    exact doFold_agrees hrespects condition records hrecords
  constructor
  · rintro hfollows l ⟨d, hd, -, hoccurs⟩ V I types hrespects hholds
    exact (hagrees hrespects).mp (satisfied_addRecords.mp (hfollows I types hrespects hholds)).2 l
      (occurs_conjuncts.mpr ⟨d, hd, hoccurs⟩)
  · intro hburied V I types hrespects hholds
    obtain ⟨hbefore, htrue⟩ := hpc I hholds
    refine satisfied_addRecords.mpr ⟨hx I types hrespects hbefore,
      (hagrees hrespects).mpr fun l hoccurs => ?_⟩
    obtain ⟨d, hd, hoccurs⟩ := occurs_conjuncts.mp hoccurs
    cases hliteral : typeLiteral view d with
    | none => exact hburied l ⟨d, hd, hliteral, hoccurs⟩ I types hrespects hholds
    | some l' =>
      obtain ⟨hdcond, hdtrue⟩ := holds_of_mem_conjuncts hcond hd htrue
      exact hoccurs.eq hliteral ▸ TypeLiteral.holds_of_condition hdcond hliteral hdtrue

variable [HashOrder Term]

/-- No model of the path condition of a branch violates the constraints the branch is given, exactly
when the type literals inside the conjuncts that are no type literals follow from it. -/
theorem branch_constraints_iff (hpc : PC.Conditions pc) (hcond : Condition condition)
    (hneg : simplifyNegation condition = .ok notCondition)
    (hthen : PC.add pc condition = .ok pcThen) (helse : PC.add pc notCondition = .ok pcElse)
    (hx : Follows view h pc x)
    (hbranch : branchConstraints view h n x condition = .ok (xThen, xElse)) :
    Follows view h pcThen xThen ∧ Follows view h pcElse xElse ↔
      (∀ l, Buried view l condition → Entails view h pcThen l) ∧
        ∀ l, Buried view l notCondition → Entails view h pcElse l := by
  rw [branchConstraints, bind_ok hneg] at hbranch
  obtain ⟨x₁, h₁, hbranch⟩ := bind_eq_ok hbranch
  obtain ⟨x₂, h₂, heq⟩ := bind_eq_ok hbranch
  cases heq
  obtain ⟨n', hneg', hncond, -⟩ := simplifyNegation_spec hcond
  rw [hneg] at hneg'
  cases hneg'
  have hadded : ∀ {c : Term} {pc' : PathCondition}, Condition c → PC.add pc c = .ok pc' →
      ∀ {V : Type} (I : Interp V), PC.Holds I pc' → PC.Holds I pc ∧ c.holds I = true := by
    intro c pc' hc hadd V I hholds
    obtain ⟨pc'', hadd', -, hiff⟩ := PC.add_spec hpc hc
    rw [hadd] at hadd'
    cases hadd'
    exact (hiff I).mp hholds
  exact and_congr (follows_iff hcond hx (hadded hcond hthen) h₁)
    (follows_iff hncond hx (hadded hncond helse) h₂)

end

namespace SampleType

/-- One address below `object`, and the atoms that it is below `int` and below `long`. -/
def view (s : Source) : SourceView SampleType :=
  match s.id with
  | 0 => .addressSource object
  | 1 => .refSubtypeTypeSource (boolConstant 0) int
  | 2 => .refSubtypeTypeSource (boolConstant 0) long
  | _ => .other []

/-- The branch on a disjunction gets an atom in it as a constraint, which the path condition has. -/
theorem known_atom_follows : letI := PC.insertionOrder
    ∃ pc c notC pcThen pcElse xs, PC.add PC.empty (boolConstant 1) = .ok pc ∧
      simplifyOr (boolConstant 1) (boolConstant 3) = .ok c ∧ simplifyNegation c = .ok notC ∧
      PC.add pc c = .ok pcThen ∧ PC.add pc notC = .ok pcElse ∧
      branchConstraints view sampleUniverse.toTypeHierarchy 3 .empty c = .ok xs ∧
      Follows view sampleUniverse.toTypeHierarchy pcThen xs.1 ∧
      Follows view sampleUniverse.toTypeHierarchy pcElse xs.2 := by
  let _ := PC.insertionOrder
  have hatom : Condition (boolConstant 1) := (Reduced.atom rfl).condition
  obtain ⟨pc, hpc, hconds, hiff⟩ := PC.add_spec PC.conditions_empty hatom
  obtain ⟨c, hc, hcond, -⟩ := simplifyOr_spec hatom
    (Reduced.atom (x := boolConstant 3) rfl).condition
  have hor : simplifyOr (boolConstant 1) (boolConstant 3) =
      .ok (.expression (.operator .logicalOr) [boolConstant 1, boolConstant 3] .bool) := by
    decide +kernel
  have hnot : simplifyNegation
      (.expression (.operator .logicalOr) [boolConstant 1, boolConstant 3] .bool) =
        .ok (.expression (.operator .logicalAnd) [negate (boolConstant 1), negate (boolConstant 3)]
          .bool) := by
    decide +kernel
  rw [hor] at hc
  cases hc
  obtain ⟨n, hn, hncond, -⟩ := simplifyNegation_spec hcond
  rw [hnot] at hn
  cases hn
  obtain ⟨pcThen, hthen, -, hthenIff⟩ := PC.add_spec hconds hcond
  obtain ⟨pcElse, helse, -⟩ := PC.add_spec hconds hncond
  obtain ⟨⟨xThen, xElse⟩, hbranch⟩ : ∃ xs : TypesConstraints Term SampleType × _,
      branchConstraints view sampleUniverse.toTypeHierarchy 3 .empty
        (.expression (.operator .logicalOr) [boolConstant 1, boolConstant 3] .bool) = .ok xs := by
    rw [branchConstraints, bind_ok hnot]
    exact ⟨_, rfl⟩
  refine ⟨pc, _, _, pcThen, pcElse, _, hpc, hor, hnot, hthen, helse, hbranch,
    (branch_constraints_iff hconds hcond hnot hthen helse ?_ hbranch).mpr ⟨?_, ?_⟩⟩
  · intro V I types _ _ a c hfind
    cases hfind
  · rintro l ⟨d, hd, hnone, hoccurs⟩ V I types _ hholds _
    obtain rfl := mem_singleton.mp hd
    cases hoccurs with
    | here hsome => cases hsome
    | child _ hmem hoccurs =>
      have htrue := ((hiff I).mp ((hthenIff I).mp hholds).1).2
      rcases mem_cons.mp hmem with rfl | hmem
      · obtain rfl := hoccurs.eq rfl
        exact htrue
      · obtain rfl := mem_singleton.mp hmem
        cases hoccurs with
        | here hsome => cases hsome
        | child _ hmem => cases hmem
  · rintro l ⟨d, hd, hnone, hoccurs⟩
    -- The negation is a conjunction of literals: only that of the other constant is no type literal.
    rcases mem_cons.mp hd with rfl | hd
    · cases hnone
    · obtain rfl := mem_singleton.mp hd
      cases hoccurs with
      | here hsome => cases hsome
      | child _ hmem hoccurs =>
        obtain rfl := mem_singleton.mp hmem
        cases hoccurs with
        | here hsome => cases hsome
        | child _ hmem => cases hmem

/-- The branch on a disjunction of two atoms gets both as constraints. -/
theorem disjunction_constrained : letI := PC.insertionOrder
    ∃ c pcThen xs, simplifyOr (boolConstant 1) (boolConstant 2) = .ok c ∧
      PC.add PC.empty c = .ok pcThen ∧
      branchConstraints view sampleUniverse.toTypeHierarchy 3 .empty c = .ok xs ∧
      ¬ Follows view sampleUniverse.toTypeHierarchy pcThen xs.1 := by
  let _ := PC.insertionOrder
  obtain ⟨c, hc, hcond, hholds⟩ := simplifyOr_spec (Reduced.atom (x := boolConstant 1) rfl).condition
    (Reduced.atom (x := boolConstant 2) rfl).condition
  obtain ⟨pcThen, hthen, -, hiff⟩ := PC.add_spec PC.conditions_empty hcond
  have hor : simplifyOr (boolConstant 1) (boolConstant 2) =
      .ok (.expression (.operator .logicalOr) [boolConstant 1, boolConstant 2] .bool) := by
    decide +kernel
  rw [hor] at hc
  cases hc
  refine ⟨_, pcThen, _, hor, hthen, rfl, fun hfollows => ?_⟩
  -- the address has type `long`
  let I : Interp Bool := Interp.bools fun n => decide (n ≠ 1)
  have hrespects : Respects view sampleUniverse.toTypeHierarchy I fun _ => long := by
    refine ⟨fun s t a typ hview _ => ?_, fun s t a typ hview _ => ?_, fun s t a typ hview _ => ?_,
      fun s t typ hview _ => ?_⟩
    · unfold view at hview
      split at hview <;> cases hview
    · have hholds' : (Term.constant s t).holds I = decide (s.id ≠ 1) := rfl
      rw [hholds']
      unfold view at hview
      split at hview
      case h_2 hid =>
        cases hview
        rw [hid]
        decide
      case h_3 hid =>
        cases hview
        rw [hid]
        decide
      all_goals cases hview
    · unfold view at hview
      split at hview <;> cases hview
    · unfold view at hview
      split at hview
      case h_1 =>
        cases hview
        decide
      all_goals cases hview
  have hpc : PC.Holds I pcThen := by
    refine (hiff I).mpr ⟨fun e he => ?_, ?_⟩
    · cases he
    · rw [hholds]
      rfl
  have hsatisfied := hfollows I (fun _ => long) hrespects hpc (boolConstant 0) _ rfl
    (show true ≠ false by decide)
  exact absurd hsatisfied (by decide)

end SampleType

end VSharp.Core
