import Mathlib.Data.List.Induction
import VSharp.Core.TypeStorages
import VSharp.Library.Results

/-!
# Core — Type candidates

The candidate types of an address against the constraints of the address.  Three of the four ways to
enumerate candidates give only suitable types.  The fourth takes the first sealed supertype without
looking at it: it is suitable when it has the other supertypes (`SealedFits`), and
`sealed_not_suitable` is a storage in which it has not.

- `Tracked` is what holds of a storage between two refinements: candidates are suitable unless their
  address is marked as new.
- `Refined` is what the loop of `refineStorage` does for the addresses it has seen.
-/

namespace VSharp.Core
open PersistentDict Library List Dictionary

section
variable {A T Asm : Type} [DecidableEq A] [DecidableEq T] [DecidableEq Asm]
variable {u : TypeUniverse T Asm} {constraints : TypeConstraints T} {t : T} {m : Mocks T}
variable {s : TypeStorage A T} {cs : List (TypeConstraints T)} {xs : List (Candidates T)} {t' : T}

/-! ### Enumerated candidates -/

omit [DecidableEq T] in
theorem mem_groupBy {items : List T} : t ∈ groupBy u items ↔ t ∈ items := by
  simp only [groupBy, partition_eq_filter_filter, mem_append, mem_filter, Function.comp_apply]
  by_cases h₁ : (u.isPublic t && u.isBuiltInType t) = true
  · simp [h₁]
  · by_cases h₂ : (u.isPublic t && decide (u.assembly t = u.userAssembly)) = true
    · simp [h₁, h₂]
    · by_cases h₃ : (!u.isPublic t && decide (u.assembly t = u.userAssembly)) = true
      · simp [h₁, h₂, h₃]
      · simp [h₁, h₂, h₃]

@[simp] theorem mem_types_candidates {cs : List T} {mock : Option ℕ} :
    t ∈ (candidates u cs mock).types ↔ t ∈ cs := by
  rw [candidates, mem_groupBy, mem_eraseDups]

omit [DecidableEq Asm] in
theorem suitable_of_chooseCandidate (h : chooseCandidate u constraints t' = some t) :
    constraints.isSuitable u.toTypeHierarchy t = true := by
  rw [chooseCandidate] at h
  split at h
  case isTrue hsuitable =>
    cases h
    exact hsuitable
  case isFalse => cases h

omit [DecidableEq Asm] in
theorem suitable_of_validateNonAbstract
    (h : validateNonAbstract u (chooseCandidate u constraints) t' = some t) :
    constraints.isSuitable u.toTypeHierarchy t = true := by
  rw [validateNonAbstract] at h
  split at h
  case isTrue => cases h
  case isFalse => exact suitable_of_chooseCandidate h

/-- What is validated in an enumeration is what it gives. -/
theorem mem_types_enumerateTypes {supertypes : List T} {mock : List T → Mocks T → ℕ × Mocks T}
    {validate : T → Option T} (h : t ∈ (enumerateTypes u supertypes mock validate m).1.types) :
    ∃ t', validate t' = some t := by
  have htypes : t ∈ (if supertypes.isEmpty then [u.obj].filterMap validate
        else supertypes.filterMap validate) ∨
      t ∈ (enumeratedAssemblies u supertypes).flatMap (fun assembly =>
        (if assembly = u.userAssembly then u.getTypesChecked assembly
          else u.getExportedTypesChecked assembly).filterMap (makeCandidate u validate)) := by
    rw [enumerateTypes] at h
    split at h <;> split at h
    all_goals simp only [mem_types_candidates, mem_append] at h
    · exact h
    · exact .inl h
    · exact h
    · exact .inl h
  rcases htypes with hown | hassembly
  · split at hown
    case isTrue =>
      obtain ⟨t', -, hvalid⟩ := mem_filterMap.mp hown
      exact ⟨t', hvalid⟩
    case isFalse =>
      obtain ⟨t', -, hvalid⟩ := mem_filterMap.mp hown
      exact ⟨t', hvalid⟩
  · obtain ⟨assembly, -, hmem⟩ := mem_flatMap.mp hassembly
    obtain ⟨t', -, hmade⟩ := mem_filterMap.mp hmem
    rw [makeCandidate] at hmade
    split at hmade
    case isTrue => cases hmade
    case isFalse => exact ⟨t', hmade⟩

/-- The first sealed supertype, when a candidate is made of it, has the other supertypes. -/
def SealedFits (u : TypeUniverse T Asm) (constraints : TypeConstraints T) : Prop :=
  ∀ t ∈ constraints.supertypes.find? u.isSealed, u.isDelegate t = false →
    ∀ t' ∈ constraints.supertypes, u.isAssignableTo t t' = true

/-- The candidates that are enumerated for constraints are suitable for them. -/
theorem suitable_typeCandidates (hc : constraints.isContradicting u.toTypeHierarchy = false)
    (hsealed : SealedFits u constraints) (h : t ∈ (typeCandidates u constraints m).1.types) :
    constraints.isSuitable u.toTypeHierarchy t = true := by
  rw [typeCandidates] at h
  cases hfind : constraints.supertypes.find? u.isSealed with
  | some t' =>
    rw [hfind] at h
    dsimp only at h
    split at h
    case isTrue => exact absurd (mem_types_candidates.mp h) not_mem_nil
    case isFalse hdelegate =>
      rw [mem_types_candidates, mem_singleton] at h
      subst h
      exact TypeConstraints.isSuitable_of_sealed hc (mem_of_find?_eq_some hfind)
        (by simpa using find?_some hfind)
        (hsealed t hfind (Bool.eq_false_iff.mpr hdelegate))
  | none =>
    rw [hfind] at h
    dsimp only at h
    split at h
    case h_1 t' equal subtypes hequal =>
      rw [mem_types_candidates, mem_singleton] at h
      subst h
      exact TypeConstraints.isSuitable_of_equal hc (hequal ▸ mem_cons_self)
    case h_2 =>
      obtain ⟨t', hvalid⟩ := mem_types_enumerateTypes h
      exact suitable_of_validateNonAbstract hvalid
    case h_3 =>
      rw [enumerateNonAbstractSupertypes, mem_types_candidates, mem_reverse] at h
      obtain ⟨t', -, hvalid⟩ := mem_filterMap.mp h
      exact suitable_of_validateNonAbstract hvalid

omit [DecidableEq Asm] in
/-- The types that `refineCandidates` leaves. -/
theorem mem_types_refineCandidates {getMock : Option ℕ → List T → Mocks T → ℕ × Mocks T}
    {x : Candidates T} : t ∈ (refineCandidates u getMock constraints x m).1.types ↔
      t ∈ x.types ∧ constraints.isSuitable u.toTypeHierarchy t = true := by
  have hfilter : t ∈ x.types.filterMap (chooseCandidate u constraints) ↔
      t ∈ x.types ∧ constraints.isSuitable u.toTypeHierarchy t = true := by
    rw [mem_filterMap]
    constructor
    · rintro ⟨t', hmem, hchoose⟩
      have heq : t' = t := by
        rw [chooseCandidate] at hchoose
        split at hchoose
        case isTrue => exact Option.some.inj hchoose
        case isFalse => cases hchoose
      exact ⟨heq ▸ hmem, suitable_of_chooseCandidate hchoose⟩
    · rintro ⟨hmem, hsuitable⟩
      exact ⟨t, hmem, if_pos hsuitable⟩
  rw [refineCandidates]
  cases x.mock with
  | none => exact hfilter
  | some mock => exact hfilter

/-! ### Solving -/

theorem forall₂_mapCandidates (cs : List (TypeConstraints T)) :
    List.Forall₂ (fun c x => ∃ m', x = (typeCandidates u c m').1) cs (mapCandidates u cs m).1 := by
  induction cs generalizing m with
  | nil => exact .nil
  | cons c cs ih => exact .cons ⟨m, rfl⟩ ih

theorem solveConstraints_eq_some (h : (solveConstraints u cs m).1 = some xs) :
    xs = (mapCandidates u cs m).1 := by
  rw [solveConstraints] at h
  dsimp only at h
  split at h
  case isTrue => cases h
  case isFalse => exact (Option.some.inj h).symm

/-- What `solve` finds. -/
theorem solve_eq_some {m' : Mocks T} (h : solve u cs m = (some xs, m')) :
    (∀ c ∈ cs, c.isContradicting u.toTypeHierarchy = false) ∧
      ∃ m₀, xs = (mapCandidates u cs m₀).1 := by
  rw [solve] at h
  split at h
  case isTrue => cases h
  case isFalse hcontra =>
    refine ⟨fun c hc => ?_, ?_⟩
    · by_contra hne
      exact hcontra (any_eq_true.mpr ⟨c, hc, Bool.not_eq_false _ ▸ hne⟩)
    · split at h
      case h_1 m₁ hfirst =>
        cases h
        exact ⟨m, solveConstraints_eq_some (congrArg Prod.fst hfirst)⟩
      case h_2 m₁ hfirst => exact ⟨m₁, solveConstraints_eq_some (congrArg Prod.fst h)⟩

/-! ### The loop of `refineStorage` -/

/-- What the loop has done for the addresses it went through, when all have candidates. -/
structure Refined (u : TypeUniverse T Asm) (s : TypeStorage A T) (addresses : List A)
    (r : Refinement A T) : Prop where
  keys_types : keys r.addressesTypes = keys s.addressesTypes
  types : ∀ a x, tryFind r.addressesTypes a = some x → a ∈ addresses →
    ∀ t ∈ x.types, (s.constraints.item a).isSuitable u.toTypeHierarchy t = true
  kept : ∀ a x, tryFind r.addressesTypes a = some x → a ∉ addresses →
    tryFind s.addressesTypes a = some x
  keys_new : ∀ a, a ∈ keys r.newAddresses ↔ a ∈ addresses ∧ a ∉ keys s.addressesTypes
  new : ∀ e ∈ r.newAddresses, e.2 = s.constraints.item e.1

section

omit [DecidableEq Asm]

theorem refineAddresses_append (s : TypeStorage A T) (heap : MockHeap T) (l : List A) (a : A) :
    refineAddresses u s heap (l ++ [a]) =
      refineAddress u s.constraints (refineAddresses u s heap l) a := by
  rw [refineAddresses, foldl_append, foldl_cons, foldl_nil, ← refineAddresses]

theorem Refined.step {l : List A} {r : Refinement A T} {a : A} (h : Refined u s l r)
    (hr : r.emptyCandidates = false) :
    Refined u s (l ++ [a]) (refineAddress u s.constraints r a) := by
  rw [refineAddress, if_neg (by simp [hr])]
  dsimp only
  cases hfind : tryFind r.addressesTypes a with
  | some x =>
    have hkey : a ∈ keys r.addressesTypes := mem_keys_of_tryFind hfind
    refine ⟨(keys_set_of_mem _ hkey).trans h.keys_types, fun a' x' hfind' hmem t ht => ?_,
      fun a' x' hfind' hmem => ?_, fun a' => ?_, h.new⟩
    · dsimp only at hfind'
      rw [tryFind_set] at hfind'
      split at hfind'
      case isTrue heq =>
        cases hfind'
        exact heq ▸ (mem_types_refineCandidates.mp ht).2
      case isFalse hne =>
        refine h.types a' x' hfind' ?_ t ht
        exact (mem_append.mp hmem).resolve_right fun h' => hne (mem_singleton.mp h')
    · dsimp only at hfind'
      rw [mem_append, mem_singleton, not_or] at hmem
      rw [tryFind_set, if_neg hmem.2] at hfind'
      exact h.kept a' x' hfind' hmem.1
    · rw [h.keys_new, mem_append, mem_singleton]
      refine and_congr_left fun hnot => (or_iff_left ?_).symm
      rintro rfl
      exact hnot (h.keys_types ▸ hkey)
  | none =>
    have hkey : a ∉ keys s.addressesTypes := h.keys_types ▸ tryFind_eq_none_iff.mp hfind
    refine ⟨h.keys_types, fun a' x' hfind' hmem t ht => ?_, fun a' x' hfind' hmem => ?_,
      fun a' => ?_, fun e he => ?_⟩
    · refine h.types a' x' hfind' ((mem_append.mp hmem).resolve_right fun h' => ?_) t ht
      rw [mem_singleton.mp h', hfind] at hfind'
      cases hfind'
    · exact h.kept a' x' hfind' fun h' => hmem (mem_append_left _ h')
    · rw [mem_keys_set, h.keys_new, mem_append, mem_singleton]
      constructor
      · rintro (rfl | ⟨hmem, hnot⟩)
        · exact ⟨.inr rfl, hkey⟩
        · exact ⟨.inl hmem, hnot⟩
      · rintro ⟨hmem | rfl, hnot⟩
        · exact .inr ⟨hmem, hnot⟩
        · exact .inl rfl
    · rcases mem_set.mp he with rfl | ⟨-, he⟩
      · rfl
      · exact h.new e he

/-- The loop, as long as no address is left without candidates. -/
theorem refined_refineAddresses {heap : MockHeap T} (l : List A)
    (h : (refineAddresses u s heap l).emptyCandidates = false) :
    Refined u s l (refineAddresses u s heap l) := by
  induction l using List.reverseRecOn with
  | nil =>
    exact ⟨rfl, fun _ _ _ hmem => absurd hmem not_mem_nil, fun _ _ hfind _ => hfind,
      fun _ => by simp [refineAddresses, PersistentDict.keys], fun _ he => absurd he not_mem_nil⟩
  | append_singleton l a ih =>
    rw [refineAddresses_append] at h ⊢
    have hprev : (refineAddresses u s heap l).emptyCandidates = false := by
      by_contra hne
      rw [refineAddress, if_pos (Bool.not_eq_false _ ▸ hne)] at h
      exact hne h
    exact (ih hprev).step hprev

/-! ### Storages -/

/-- What holds of a storage between two refinements. -/
structure Tracked (u : TypeUniverse T Asm) (s : TypeStorage A T) : Prop where
  types : ∀ a ∈ keys s.addressesTypes, a ∈ keys s.constraints.constraints
  new : ∀ a ∈ s.constraints.newAddresses, a ∈ keys s.constraints.constraints
  known : ∀ a ∈ keys s.constraints.constraints,
    a ∈ keys s.addressesTypes ∨ a ∈ s.constraints.newAddresses
  suitable : ∀ a x, tryFind s.addressesTypes a = some x → a ∉ s.constraints.newAddresses →
    ∀ t ∈ x.types, (s.constraints.item a).isSuitable u.toTypeHierarchy t = true

/-- The addresses of a storage are those with constraints, and their candidates are suitable. -/
structure Suitable (u : TypeUniverse T Asm) (s : TypeStorage A T) : Prop where
  keys_iff : ∀ a, a ∈ keys s.addressesTypes ↔ a ∈ keys s.constraints.constraints
  suitable : ∀ a x, tryFind s.addressesTypes a = some x →
    ∀ t ∈ x.types, (s.constraints.item a).isSuitable u.toTypeHierarchy t = true

theorem Suitable.tracked (h : Suitable u s) (hnew : s.constraints.newAddresses = []) :
    Tracked u s where
  types _ := (h.keys_iff _).mp
  new _ ha := absurd (hnew ▸ ha) not_mem_nil
  known _ ha := .inl ((h.keys_iff _).mpr ha)
  suitable a x hfind _ := h.suitable a x hfind

theorem Tracked.addConstraint (h : Tracked u s) (address : A) (c : TypeConstraints T) :
    Tracked u (s.addConstraint address c) where
  types a ha := TypesConstraints.mem_keys_add.mpr (.inr (h.types a ha))
  new a ha := by
    rcases TypesConstraints.eq_or_mem_of_mem_newAddresses ha with heq | hmem
    · exact TypesConstraints.mem_keys_add.mpr (.inl heq)
    · exact TypesConstraints.mem_keys_add.mpr (.inr (h.new a hmem))
  known a ha := by
    by_cases hnew : a ∈ (s.constraints.add address c).newAddresses
    case pos => exact .inr hnew
    have hkey : a ∈ keys s.constraints.constraints := by
      by_contra hnot
      have hnone := TypesConstraints.tryFind_add_of_not_mem hnew
      rw [tryFind_eq_none_iff.mpr hnot] at hnone
      exact tryFind_eq_none_iff.mp hnone ha
    rcases h.known a hkey with htypes | hmem
    · exact .inl htypes
    · exact absurd (TypesConstraints.mem_newAddresses_of_mem hmem) hnew
  suitable a x hfind hnew t ht := by
    have hitem : (s.constraints.add address c).item a = s.constraints.item a := by
      rw [TypesConstraints.item, TypesConstraints.tryFind_add_of_not_mem hnew,
        ← TypesConstraints.item]
    rw [TypeStorage.addConstraint]
    dsimp only
    rw [hitem]
    exact h.suitable a x hfind
      (fun hmem => hnew (TypesConstraints.mem_newAddresses_of_mem hmem)) t ht

end

/-- What `refineStorage` asks of the constraints of the addresses that it enumerates first. -/
def SealedStorage (u : TypeUniverse T Asm) (s : TypeStorage A T) : Prop :=
  ∀ a ∈ s.constraints.newAddresses, a ∉ keys s.addressesTypes → SealedFits u (s.constraints.item a)

/-- After `refineStorage` answered that there are types, all candidates are suitable. -/
theorem Tracked.refineStorage {heap : MockHeap T} (h : Tracked u s) (hsealed : SealedStorage u s)
    (hsat : (refineStorage u s heap).1 = .typeSat) :
    Suitable u (refineStorage u s heap).2.1 ∧
      (refineStorage u s heap).2.1.constraints = s.constraints.clearNewAddresses := by
  rw [VSharp.Core.refineStorage] at hsat ⊢
  dsimp only at hsat ⊢
  split at hsat
  case isTrue => cases hsat
  case isFalse hempty =>
  rw [if_neg hempty]
  have hr := refined_refineAddresses s.constraints.newAddresses (Bool.eq_false_iff.mpr hempty)
  generalize refineAddresses u s heap s.constraints.newAddresses = r at hr hsat ⊢
  have hold : ∀ a x, tryFind r.addressesTypes a = some x →
      ∀ t ∈ x.types, (s.constraints.item a).isSuitable u.toTypeHierarchy t = true := by
    intro a x hfind
    by_cases hmem : a ∈ s.constraints.newAddresses
    · exact hr.types a x hfind hmem
    · exact h.suitable a x (hr.kept a x hfind hmem) hmem
  have hknown : ∀ a, a ∈ keys r.newAddresses ∨ a ∈ keys r.addressesTypes ↔
      a ∈ keys s.constraints.constraints := by
    intro a
    rw [hr.keys_new, hr.keys_types]
    constructor
    · rintro (⟨hmem, -⟩ | hmem)
      · exact h.new a hmem
      · exact h.types a hmem
    · intro ha
      rcases h.known a ha with hmem | hmem
      · exact .inr hmem
      · by_cases htypes : a ∈ keys s.addressesTypes
        · exact .inr htypes
        · exact .inl ⟨hmem, htypes⟩
  split at hsat
  case isTrue hnone =>
    rw [if_pos hnone]
    refine ⟨⟨fun a => ?_, hold⟩, rfl⟩
    rw [List.isEmpty_iff] at hnone
    have hiff := hknown a
    rwa [hnone, show keys ([] : Pdict A (TypeConstraints T)) = [] from rfl,
      or_iff_right not_mem_nil] at hiff
  case isFalse hsome =>
    rw [if_neg hsome]
    split at hsat
    case h_1 => cases hsat
    case h_2 xs m hsolve =>
    obtain ⟨hcontra, m₀, rfl⟩ := solve_eq_some hsolve
    have hall := forall₂_mapCandidates (u := u) (m := m₀) (r.newAddresses.map Prod.snd)
    refine ⟨⟨fun a => ?_, fun a x hfind t ht => ?_⟩, rfl⟩
    · dsimp only
      rw [mem_keys_foldl_set, map_fst_zip, hknown]
      · rfl
      · rw [PersistentDict.keys, length_map, ← hall.length_eq, length_map]
    · rcases tryFind_foldl_set hfind with hmem | ⟨-, hfind⟩
      · rw [PersistentDict.keys, zip_map_left, mem_map] at hmem
        obtain ⟨⟨e, x'⟩, hzip, heq⟩ := hmem
        cases heq
        obtain ⟨m', hmade⟩ := forall₂_mem_zip hall hzip
        have hnew := (of_mem_zip hzip).1
        have hkeys := (hr.keys_new e.1).mp (mem_keys.mpr ⟨e.2, hnew⟩)
        have hc := hcontra e.2 (mem_map_of_mem hnew)
        have hfits := hsealed e.1 hkeys.1 hkeys.2
        dsimp only [Prod.map]
        rw [← hr.new e hnew] at hfits
        have ht' : t ∈ (typeCandidates u e.2 m').1.types := hmade ▸ ht
        exact hr.new e hnew ▸ suitable_typeCandidates hc hfits ht'
      · exact hold a x hfind t ht

/-! ### Runs -/

omit [DecidableEq A] [DecidableEq Asm] in
/-- The candidates of a copied storage are those of the storage, up to the mocks. -/
theorem copyTypes_types (d : Pdict A (Candidates T)) :
    List.Forall₂ (fun e e' => e.1 = e'.1 ∧ e.2.types = e'.2.types) d (copyTypes d m).1 := by
  induction d generalizing m with
  | nil => exact .nil
  | cons e d ih =>
    rw [copyTypes]
    cases e.2.mock with
    | none => exact .cons ⟨rfl, rfl⟩ ih
    | some mock => exact .cons ⟨rfl, rfl⟩ ih

omit [DecidableEq Asm] in
theorem Tracked.copy (h : Tracked u s) (heap : MockHeap T) :
    Tracked u (s.copy heap).1 := by
  have hall := copyTypes_types (m := ⟨[], heap⟩) s.addressesTypes
  have hkeys := keys_forall₂ (R := fun x y : Candidates T => x.types = y.types) hall
  refine ⟨fun a ha => h.types a (hkeys ▸ ha), h.new, fun a ha => ?_, fun a x hfind hnew => ?_⟩
  · rw [TypeStorage.copy, hkeys]
    exact h.known a ha
  · obtain ⟨y, hy, htypes⟩ :=
      tryFind_forall₂ (R := fun x y : Candidates T => x.types = y.types) hall hfind
    exact htypes ▸ h.suitable a y hy hnew

/-- Constraints, copies, and refinements that answer that there are types. -/
def SatRun (u : TypeUniverse T Asm) (w : Storages A T) (op : ℕ × StorageOp A T) : Prop :=
  match op.2 with
  | .addConstraint _ _ | .copy => True
  | .refineStorage => ∀ s ∈ w.storages[op.1]?, (refineStorage u s w.heap).1 = .typeSat
  | .checkInequality | .evalInModel _ => False

/-- The same, with refinements of storages that meet `SealedStorage`. -/
def SealedRun (u : TypeUniverse T Asm) (w : Storages A T) (op : ℕ × StorageOp A T) : Prop :=
  SatRun u w op ∧ match op.2 with
    | .refineStorage => ∀ s ∈ w.storages[op.1]?, SealedStorage u s
    | _ => True

theorem tracked_of_reaches {w : Storages A T}
    (h : (storageSystem u A).Reaches (SealedRun u) w) : ∀ s ∈ w.storages, Tracked u s := by
  refine h.invariant (P := fun w => ∀ s ∈ w.storages, Tracked u s) ?_ ?_
  · intro s hs
    rw [storageSystem, mem_singleton] at hs
    subst hs
    exact ⟨fun _ h => h, fun _ h => absurd h not_mem_nil,
      fun _ h => absurd h not_mem_nil, fun _ _ h => nomatch h⟩
  · intro w op w' hw hallowed hstep s' hs'
    obtain ⟨s, hs, rfl⟩ := Option.map_eq_some_iff.mp hstep
    have htracked := hw s (mem_of_getElem? hs)
    rw [mem_append, Option.mem_toList] at hs'
    rw [SealedRun, SatRun] at hallowed
    rcases hs' with hmem | hcopy
    · rcases mem_or_eq_of_mem_set hmem with hmem | rfl
      · exact hw s' hmem
      · cases hop : op.2 with
        | addConstraint address c => exact htracked.addConstraint address c
        | refineStorage =>
          rw [hop] at hallowed
          obtain ⟨hsuitable, hconstraints⟩ :=
            htracked.refineStorage (hallowed.2 s hs) (hallowed.1 s hs)
          exact hsuitable.tracked (by rw [hconstraints, TypesConstraints.clearNewAddresses])
        | checkInequality => rw [hop] at hallowed; exact hallowed.1.elim
        | evalInModel model => rw [hop] at hallowed; exact hallowed.1.elim
        | copy => exact htracked
    · cases hop : op.2 with
      | copy =>
        rw [hop, applyOp] at hcopy
        cases hcopy
        exact htracked.copy w.heap
      | _ =>
        rw [hop, applyOp] at hcopy
        cases hcopy

/-- In a run whose refinements meet `SealedStorage`, each refinement leaves the addresses that have
constraints, with candidates that satisfy all the constraints of their address. -/
theorem candidates_suitable {w : Storages A T} {i : ℕ} {s : TypeStorage A T}
    (h : (storageSystem u A).Reaches (SealedRun u) w)
    (hallowed : SealedRun u w (i, .refineStorage)) (hs : w.storages[i]? = some s) :
    Suitable u (refineStorage u s w.heap).2.1 :=
  ((tracked_of_reaches h s (mem_of_getElem? hs)).refineStorage (hallowed.2 s hs)
    (hallowed.1 s hs)).1

end

namespace SampleType

/-- A storage with one new address that has the given supertypes. -/
def oneAddress (supertypes : List SampleType) : TypeStorage ℕ SampleType :=
  ⟨⟨[0], [(0, .fromSuperTypes sampleUniverse.toTypeHierarchy supertypes)]⟩, [], []⟩

theorem reaches_oneAddress {allowed : Storages ℕ SampleType → ℕ × StorageOp ℕ SampleType → Prop}
    (supertypes : List SampleType) (h : ∀ w i a c, allowed w (i, .addConstraint a c)) :
    (storageSystem sampleUniverse ℕ).Reaches allowed ⟨[oneAddress supertypes], ⟨[], true⟩⟩ :=
  .step .start (h _ 0 0 (.fromSuperTypes sampleUniverse.toTypeHierarchy supertypes)) rfl

/-- Two addresses: one got the types of `iShape`, and is no `circle` since then, and one is below a
structure. -/
def twoAddresses : TypeStorage ℕ SampleType :=
  ((refineStorage sampleUniverse (oneAddress [iShape]) ⟨[], true⟩).2.1.addConstraint 0
    { TypeConstraints.empty with notEqual := [circle] }).addConstraint 1
      (.fromSuperTypes sampleUniverse.toTypeHierarchy [int])

theorem suitable_of_two_refinements :
    Suitable sampleUniverse (refineStorage sampleUniverse twoAddresses ⟨[], true⟩).2.1 := by
  have hrefine : SealedRun sampleUniverse ⟨[oneAddress [iShape]], ⟨[], true⟩⟩
      (0, .refineStorage) := by
    refine ⟨?_, ?_⟩
    · rintro s ⟨rfl⟩
      decide
    · rintro s ⟨rfl⟩ a ha - t ht
      obtain rfl : a = 0 := mem_singleton.mp ha
      cases ht
  have hconstraint (w : Storages ℕ SampleType) (a : ℕ) (c : TypeConstraints SampleType) :
      SealedRun sampleUniverse w (0, .addConstraint a c) := ⟨trivial, trivial⟩
  have hreaches : (storageSystem sampleUniverse ℕ).Reaches (SealedRun sampleUniverse)
      ⟨[twoAddresses], ⟨[], true⟩⟩ :=
    .step (.step (.step (reaches_oneAddress [iShape] fun w _ => hconstraint w) hrefine rfl)
      (hconstraint _ 0 _) rfl) (hconstraint _ 1 _) rfl
  refine candidates_suitable (i := 0) hreaches ⟨?_, ?_⟩ rfl
  · rintro s ⟨rfl⟩
    decide
  · rintro s ⟨rfl⟩ a ha hnew t ht - t' ht'
    have hnames : twoAddresses.constraints.newAddresses = [0, 1] := by decide
    rw [hnames] at ha
    obtain rfl | rfl : a = 0 ∨ a = 1 := by simpa using ha
    · exact absurd (by decide) hnew
    · obtain rfl : int = t := Option.some.inj ht
      obtain rfl : t' = int := mem_singleton.mp ht'
      decide

/-- An address below two structures gets the first of them, which is not the second. -/
theorem sealed_not_suitable : ¬ ∀ (w : Storages ℕ SampleType) (i : ℕ) (s : TypeStorage ℕ SampleType),
    (storageSystem sampleUniverse ℕ).Reaches (SatRun sampleUniverse) w →
      SatRun sampleUniverse w (i, .refineStorage) → w.storages[i]? = some s →
        Suitable sampleUniverse (refineStorage sampleUniverse s w.heap).2.1 := by
  intro h
  have hsuitable := h ⟨[oneAddress [int, long]], ⟨[], true⟩⟩ 0 (oneAddress [int, long])
    (reaches_oneAddress [int, long] fun _ _ _ _ => trivial)
    (by
      rintro s ⟨rfl⟩
      decide) rfl
  have hlong := hsuitable.suitable 0 ⟨[int], none⟩ (by decide) int (by decide)
  exact absurd hlong (by decide)

end SampleType

end VSharp.Core
