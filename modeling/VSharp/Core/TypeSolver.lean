import Mathlib.Data.List.Sort
import VSharp.Core.TypeConstraints
import VSharp.Utils.VectorTime

/-!
# Core — Type solver

`VSharp.SILI.Core/TypeSolver.fs` over ground types: the candidate types of an address, the mocks, and
the refinement of a type storage.  Candidates that are generic or array types are left out, and
`solve` has no type parameter to substitute.

- A mock is an object with a number for its uid: `MockHeap` has the supertypes of each, and keeps
  whether the assertion in `getMock` held so far.  A type storage has only its table of mocks.
- What changes the storage or the mocks returns them beside its result.
-/

namespace VSharp.Core
open PersistentDict

/-- What the type solver asks reflection about the types it enumerates. -/
structure TypeUniverse (T Asm : Type) extends TypeHierarchy T where
  isPublic : T → Bool
  isAbstract : T → Bool
  isDelegate : T → Bool
  isBuiltInType : T → Bool
  hasNonPublicAbstractMethods : T → Bool
  /-- Byref-like, `Void`, compiler generated, or a generated mock. -/
  isInvalid : T → Bool
  /-- A type, its `BaseType`, and so on. -/
  baseTypes : T → List T
  assembly : T → Asm
  userAssembly : Asm
  mscorlib : Asm
  /-- The assemblies that are not dynamic. -/
  assemblies : List Asm
  getTypesChecked : Asm → List T
  getExportedTypesChecked : Asm → List T
  /-- The order of type handles. -/
  le : T → T → Bool
  le_trans : ∀ t u v, le t u = true → le u v = true → le t v = true
  le_total : ∀ t u, (le t u || le u t) = true

/-- `candidates`: the ground types in the order of their groups, and the mock. -/
structure Candidates (T : Type) where
  types : List T
  mock : Option ℕ
deriving DecidableEq

inductive SymbolicType (T : Type) where
  | concreteType (t : T)
  | mockType (mock : ℕ)
deriving DecidableEq

namespace Candidates
variable {T : Type}

def isEmpty (x : Candidates T) : Bool := x.mock.isNone && x.types.isEmpty

/-- `Pick`: the first of the types, which throws when there is none. -/
def pick (x : Candidates T) : Option (SymbolicType T) :=
  (x.types.map SymbolicType.concreteType ++ (x.mock.map SymbolicType.mockType).toList).head?

end Candidates

/-- The mocks that were made: the supertypes of each, by its number. -/
structure MockHeap (T : Type) where
  superTypes : List (List T)
  asserted : Bool

/-- A table of mocks beside the mocks themselves. -/
structure Mocks (T : Type) where
  typeMocks : Pdict (List T) ℕ
  heap : MockHeap T

/-- `SuperTypes` of a mock. -/
def MockHeap.superTypesOf {T : Type} (heap : MockHeap T) (mock : ℕ) : List T :=
  heap.superTypes.getD mock []

section
variable {A T Asm : Type} [DecidableEq A] [DecidableEq T] [DecidableEq Asm]
variable (u : TypeUniverse T Asm)

/-- `List.sortBy (fun t -> {t=t})`, which is stable. -/
def sortTypes (types : List T) : List T := types.insertionSort fun t u' => u.le t u' = true

/-- A mock gets other supertypes: it leaves its key, and the table has it under the new one. -/
def Mocks.rekey (current : ℕ) (supertypes : List T) (m : Mocks T) : Mocks T :=
  let oldSupertypes := m.heap.superTypesOf current
  { typeMocks := Dictionary.set supertypes current (remove oldSupertypes m.typeMocks)
    heap := {
      superTypes := m.heap.superTypes.set current supertypes
      asserted := m.heap.asserted && decide (oldSupertypes ∈ keys m.typeMocks) } }

/-- A new mock, under the key of its supertypes. -/
def Mocks.addMock (supertypes : List T) (m : Mocks T) : ℕ × Mocks T :=
  (m.heap.superTypes.length, {
    typeMocks := Dictionary.set supertypes m.heap.superTypes.length m.typeMocks
    heap := { m.heap with superTypes := m.heap.superTypes ++ [supertypes] } })

def getMock (current : Option ℕ) (supertypes : List T) (m : Mocks T) : ℕ × Mocks T :=
  let supertypes := sortTypes u supertypes
  match tryFind m.typeMocks supertypes with
  | some mock => (mock, m)
  | none =>
    match current with
    | some current => (current, m.rekey current supertypes)
    | none => m.addMock supertypes

/-- `CandidateGroups.GroupBy`, joined. -/
def groupBy (items : List T) : List T :=
  let (publicBuiltIn, rest) := items.partition fun t => u.isPublic t && u.isBuiltInType t
  let (publicUser, rest) := rest.partition fun t => u.isPublic t && u.assembly t = u.userAssembly
  let (privateUser, rest) := rest.partition fun t => !u.isPublic t && u.assembly t = u.userAssembly
  publicBuiltIn ++ publicUser ++ privateUser ++ rest

/-- The constructor of `candidates`. -/
def candidates (cs : List T) (mock : Option ℕ) : Candidates T := ⟨groupBy u cs.eraseDups, mock⟩

/-! ### Enumeration -/

/-- `hasSubtypes`: no ground type is an array. -/
def hasSubtypes (t : T) : Bool := !u.isSealed t

def canBeMocked (t : T) : Bool :=
  hasSubtypes u t && u.isPublic t && !u.hasNonPublicAbstractMethods t || u.isDelegate t

def chooseCandidate (constraints : TypeConstraints T) (t : T) : Option T :=
  if constraints.isSuitable u.toTypeHierarchy t then some t else none

/-- The validation of `enumerateNonAbstractSupertypes` and `enumerateNonAbstractTypes`. -/
def validateNonAbstract (validate : T → Option T) (t : T) : Option T :=
  if u.isAbstract t then none else validate t

/-- `enumerateNonAbstractSupertypes`: the accumulator has the root first. -/
def enumerateNonAbstractSupertypes (predicate : T → Option T) (typ : T) : Candidates T :=
  candidates u ((u.baseTypes typ).filterMap (validateNonAbstract u predicate)).reverse none

/-- The assemblies that `enumerateTypes` goes through. -/
def enumeratedAssemblies (supertypes : List T) : List Asm :=
  match supertypes.find? (!u.isPublic ·) with
  | some t => [u.assembly t]
  | none => (u.userAssembly :: u.mscorlib :: u.assemblies).eraseDups

/-- `makeCandidate` of `enumerateTypes`. -/
def makeCandidate (validate : T → Option T) (t : T) : Option T :=
  if u.isInvalid t then none else validate t

def enumerateTypes (supertypes : List T) (mock : List T → Mocks T → ℕ × Mocks T)
    (validate : T → Option T) (m : Mocks T) : Candidates T × Mocks T :=
  let ownTypes :=
    if supertypes.isEmpty then [u.obj].filterMap validate else supertypes.filterMap validate
  let types :=
    if supertypes.all (hasSubtypes u) then
      ownTypes ++ (enumeratedAssemblies u supertypes).flatMap fun assembly =>
        (if assembly = u.userAssembly then u.getTypesChecked assembly
          else u.getExportedTypesChecked assembly).filterMap (makeCandidate u validate)
    else ownTypes
  if supertypes.all (canBeMocked u) then
    let made := mock supertypes m
    (candidates u types (some made.1), made.2)
  else (candidates u types none, m)

def enumerateNonAbstractTypes (supertypes : List T) (mock : List T → Mocks T → ℕ × Mocks T)
    (validate : T → Option T) (m : Mocks T) : Candidates T × Mocks T :=
  enumerateTypes u supertypes mock (validateNonAbstract u validate) m

def typeCandidates (constraints : TypeConstraints T) (m : Mocks T) : Candidates T × Mocks T :=
  match constraints.supertypes.find? u.isSealed with
  | some t =>
    if u.isDelegate t then
      -- Forcing mock usage for delegate types
      let made := getMock u none constraints.supertypes m
      (candidates u [] (some made.1), made.2)
    else (candidates u [t] none, m)
  | none =>
    match constraints.equal, constraints.subtypes with
    | t :: _, _ => (candidates u [t] none, m)
    | [], [] =>
      enumerateNonAbstractTypes u constraints.supertypes (getMock u none)
        (chooseCandidate u constraints) m
    | [], t :: _ => (enumerateNonAbstractSupertypes u (chooseCandidate u constraints) t, m)

/-- `List.map getCandidates` of `solveConstraints`. -/
def mapCandidates : List (TypeConstraints T) → Mocks T → List (Candidates T) × Mocks T
  | [], m => ([], m)
  | constraints :: rest, m =>
    let first := typeCandidates u constraints m
    let others := mapCandidates rest first.2
    (first.1 :: others.1, others.2)

def solveConstraints (typesConstraints : List (TypeConstraints T)) (m : Mocks T) :
    Option (List (Candidates T)) × Mocks T :=
  let solved := mapCandidates u typesConstraints m
  (if solved.1.any Candidates.isEmpty then none else some solved.1, solved.2)

/-- `solve`: without type parameters both substitutions it tries are empty. -/
def solve (inputConstraints : List (TypeConstraints T)) (m : Mocks T) :
    Option (List (Candidates T)) × Mocks T :=
  if inputConstraints.any (·.isContradicting u.toTypeHierarchy) then (none, m)
  else
    match solveConstraints u inputConstraints m with
    | (some candidates, m) => (some candidates, m)
    | (none, m) => solveConstraints u inputConstraints m

/-! ### Refinement -/

/-- `nonSuitable` of `refineMock`. -/
def nonSuitable (constraints : TypeConstraints T) : Bool :=
  constraints.supertypes.any (!u.isPublic ·) || !constraints.equal.isEmpty
    || !constraints.subtypes.isEmpty || constraints.supertypes.any (!canBeMocked u ·)

/-- The supertypes that `refineMock` gives a mock. -/
def refinedSupertypes (constraints : TypeConstraints T) (mockSuperTypes : List T) : List T :=
  if constraints.supertypes.isEmpty then mockSuperTypes
  else (mockSuperTypes ++ constraints.supertypes).eraseDups

def refineMock (getMock : Option ℕ → List T → Mocks T → ℕ × Mocks T)
    (constraints : TypeConstraints T) (mock : ℕ) (m : Mocks T) : Option ℕ × Mocks T :=
  if nonSuitable u constraints then (none, m)
  else
    let mockSuperTypes := m.heap.superTypesOf mock
    let supertypes := refinedSupertypes constraints mockSuperTypes
    let changedSupertypes := supertypes.length ≠ mockSuperTypes.length
    let mockConstraints := { constraints with supertypes }
    let satisfies := !mockConstraints.isContradicting u.toTypeHierarchy
    if satisfies && changedSupertypes then
      let made := getMock (some mock) supertypes m
      (some made.1, made.2)
    else if satisfies then (some mock, m)
    else (none, m)

def refineCandidates (getMock : Option ℕ → List T → Mocks T → ℕ × Mocks T)
    (typeConstraint : TypeConstraints T) (candidates : Candidates T) (m : Mocks T) :
    Candidates T × Mocks T :=
  let types := candidates.types.filterMap (chooseCandidate u typeConstraint)
  match candidates.mock with
  | none => (⟨types, none⟩, m)
  | some mock =>
    let refined := refineMock u getMock typeConstraint mock m
    (⟨types, refined.1⟩, refined.2)

structure TypeStorage (A T : Type) where
  constraints : TypesConstraints A T
  addressesTypes : Pdict A (Candidates T)
  typeMocks : Pdict (List T) ℕ

inductive TypeSolvingResult where
  | typeSat
  | typeUnsat
deriving DecidableEq

/-- What the loop of `refineStorage` changes. -/
structure Refinement (A T : Type) where
  emptyCandidates : Bool
  addressesTypes : Pdict A (Candidates T)
  newAddresses : Pdict A (TypeConstraints T)
  mocks : Mocks T

/-- The body of the loop of `refineStorage`. -/
def refineAddress (constraints : TypesConstraints A T) (r : Refinement A T) (address : A) :
    Refinement A T :=
  if r.emptyCandidates then r
  else
    let typeConstraint := constraints.item address
    match tryFind r.addressesTypes address with
    | some candidates =>
      let refined := refineCandidates u (getMock u) typeConstraint candidates r.mocks
      { r with
        emptyCandidates := refined.1.isEmpty
        addressesTypes := Dictionary.set address refined.1 r.addressesTypes
        mocks := refined.2 }
    | none => { r with newAddresses := Dictionary.set address typeConstraint r.newAddresses }

/-- The loop of `refineStorage`, over some of the new addresses. -/
def refineAddresses (s : TypeStorage A T) (heap : MockHeap T) (addresses : List A) :
    Refinement A T :=
  addresses.foldl (refineAddress u s.constraints) ⟨false, s.addressesTypes, [], ⟨s.typeMocks, heap⟩⟩

def refineStorage (s : TypeStorage A T) (heap : MockHeap T) :
    TypeSolvingResult × TypeStorage A T × MockHeap T :=
  let r := refineAddresses u s heap s.constraints.newAddresses
  let refined : TypeStorage A T :=
    ⟨s.constraints.clearNewAddresses, r.addressesTypes, r.mocks.typeMocks⟩
  if r.emptyCandidates then (.typeUnsat, refined, r.mocks.heap)
  else if r.newAddresses.isEmpty then (.typeSat, refined, r.mocks.heap)
  else
    match solve u (r.newAddresses.map Prod.snd) r.mocks with
    | (none, m) => (.typeUnsat, { refined with typeMocks := m.typeMocks }, m.heap)
    | (some candidates, m) =>
      (.typeSat, { refined with
        addressesTypes := ((keys r.newAddresses).zip candidates).foldl
          (fun types e => Dictionary.set e.1 e.2 types) r.addressesTypes
        typeMocks := m.typeMocks }, m.heap)

/-! ### Queries -/

def mergeConstraints (constraints : TypesConstraints A T) (addresses : List A) :
    TypeConstraints T :=
  addresses.foldl (fun result address => result.merge (constraints.item address)) .empty

/-- `eqInModel`: the addresses of each concrete address, which are not null in the model. -/
def eqInModel (model : A → VectorTime) (addresses : List A) : Pdict VectorTime (List A) :=
  addresses.foldl (fun clusters address =>
    if model address = VectorTime.zero then clusters
    else Dictionary.set (model address)
      ((tryFind clusters (model address)).getD [] ++ [address]) clusters) []

/-- `getMock` of `evalInModel`: it creates only new mocks, not refining existing. -/
def getNewMock (_ : Option ℕ) (supertypes : List T) (m : Mocks T) : ℕ × Mocks T :=
  getMock u none supertypes m

/-- `evaledType` of `evalInModel`, for the addresses of one cluster. -/
def evalCluster (s : TypeStorage A T) (same : List A) (m : Mocks T) :
    Option (SymbolicType T) × Mocks T :=
  match same.head?.bind (tryFind s.addressesTypes) with
  | none => (none, m)
  | some candidates =>
    if same.length > 1 then
      let merged := mergeConstraints s.constraints same
      let refined := refineCandidates u (getNewMock u) merged candidates m
      (refined.1.pick, refined.2)
    else (candidates.pick, m)

/-- The loop of `evalInModel` over the clusters: it ends where `Pick` throws. -/
def evalClusters (s : TypeStorage A T) :
    List (VectorTime × List A) → Mocks T → Option (List (VectorTime × SymbolicType T)) × Mocks T
  | [], m => (some [], m)
  | entry :: rest, m =>
    match evalCluster u s entry.2 m with
    | (none, m) => (none, m)
    | (some evaledType, m) =>
      let others := evalClusters s rest m
      (others.1.map ((entry.1, evaledType) :: ·), others.2)

def evalInModel (model : A → VectorTime) (s : TypeStorage A T) (heap : MockHeap T) :
    Option (List (VectorTime × SymbolicType T)) × Mocks T :=
  evalClusters u s (eqInModel model (keys s.addressesTypes)) ⟨s.typeMocks, heap⟩

local instance lawfulBEq_pair : LawfulBEq (A × A) := Prod.instLawfulBEq

/-- The body of `checkInequalityViaCandidates`, for two addresses. -/
def checkPair (s : TypeStorage A T) (e₁ e₂ : A × Candidates T)
    (r : List (A × A) × Mocks T) : List (A × A) × Mocks T :=
  if e₁.1 ≠ e₂.1 then
    let constraints := (s.constraints.item e₁.1).merge (s.constraints.item e₂.1)
    let refined := refineCandidates u (getMock u) constraints e₁.2 r.2
    (if refined.1.isEmpty && decide ((e₂.1, e₁.1) ∉ r.1) then HashSet.add r.1 (e₁.1, e₂.1) else r.1,
      refined.2)
  else r

def checkInequalityViaCandidates (s : TypeStorage A T) (heap : MockHeap T) :
    List (A × A) × Mocks T :=
  s.addressesTypes.foldl (fun r e₁ => s.addressesTypes.foldl (fun r e₂ => checkPair u s e₁ e₂ r) r)
    ([], ⟨s.typeMocks, heap⟩)

omit [DecidableEq Asm] in
/-- The two loops, as one over the pairs. -/
theorem checkInequalityViaCandidates_eq (s : TypeStorage A T) (heap : MockHeap T) :
    checkInequalityViaCandidates u s heap =
      (s.addressesTypes.product s.addressesTypes).foldl (fun r q => checkPair u s q.1 q.2 r)
        ([], ⟨s.typeMocks, heap⟩) := by
  rw [checkInequalityViaCandidates, List.product, List.foldl_flatMap]
  simp only [List.foldl_map]

/-- `hasInterface` of `checkInequality`. -/
def hasInterface (s : TypeStorage A T) : Bool :=
  s.constraints.constraints.any fun e => e.2.supertypes.any u.isInterface

def checkInequality (s : TypeStorage A T) (heap : MockHeap T) :
    Option (List (A × A)) × TypeStorage A T × MockHeap T :=
  if hasInterface u s then
    match refineStorage u s heap with
    | (.typeSat, s, heap) =>
      let r := checkInequalityViaCandidates u s heap
      (some r.1, { s with typeMocks := r.2.typeMocks }, r.2.heap)
    | (.typeUnsat, s, heap) => (none, s, heap)
  else (s.constraints.checkInequality u.toTypeHierarchy, s, heap)

/-- `changeMock` of `Copy`: the new table, and the mocks beside it. -/
def changeMock (mock : ℕ) (m : Mocks T) : ℕ × Mocks T :=
  let superTypes := m.heap.superTypesOf mock
  match tryFind m.typeMocks superTypes with
  | some mock => (mock, m)
  | none => m.addMock superTypes

/-- The loop of `Copy` over the addresses. -/
def copyTypes : Pdict A (Candidates T) → Mocks T → Pdict A (Candidates T) × Mocks T
  | [], m => ([], m)
  | (address, candidates) :: rest, m =>
    match candidates.mock with
    | none =>
      let others := copyTypes rest m
      ((address, candidates) :: others.1, others.2)
    | some mock =>
      let made := changeMock mock m
      let others := copyTypes rest made.2
      ((address, { candidates with mock := some made.1 }) :: others.1, others.2)

/-- `Copy` of a type storage. -/
def TypeStorage.copy (s : TypeStorage A T) (heap : MockHeap T) : TypeStorage A T × MockHeap T :=
  let r := copyTypes s.addressesTypes ⟨[], heap⟩
  (⟨s.constraints, r.1, r.2.typeMocks⟩, r.2.heap)

def TypeStorage.addConstraint (address : A) (typeConstraint : TypeConstraints T)
    (s : TypeStorage A T) : TypeStorage A T :=
  { s with constraints := s.constraints.add address typeConstraint }

end

end VSharp.Core
