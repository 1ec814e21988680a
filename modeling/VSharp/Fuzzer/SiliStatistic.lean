import VSharp.Utils.Collections
import VSharp.Utils.CoverageDeserializer

/-!
# Fuzzer — SiliStatistic

`SiliStatisticConverter` of `VSharp.Fuzzer/Interaction.fs`: the places that the fuzzer has covered,
as code locations.

- `Reflection.resolveMethodBase` and `Application.getMethod` are parameters; resolving may raise.
- The sequence of code locations is computed while it is read: it ends where a conversion raises,
  and the methods resolved so far are kept.
-/

namespace VSharp.Fuzzer
open CoverageDeserializer PersistentDict List Option

/-! ### The code -/

/-- What the converter uses of reflection. -/
structure Resolution (MethodBase Method : Type) where
  resolveMethodBase (assemblyName moduleName : List CodeUnit) (token : BitVec 32) :
    Option MethodBase
  getMethod : MethodBase → Method

/-- The place of an instruction. -/
structure CodeLocation (Method : Type) where
  offset : Int
  method : Method
deriving DecidableEq, Repr

/-- The arguments of `ToSiliStatistic`. -/
structure Report where
  methodInfo : Pdict (BitVec 32) RawMethodInfo
  loc : List RawCoverageLocation
deriving DecidableEq, Repr

/-- `methods` of the converter. -/
abbrev Methods (Method : Type) := Pdict (BitVec 32) Method

section
variable {MethodBase Method : Type} (R : Resolution MethodBase Method)

/-- The method that an entry of a table names. -/
def Resolution.method (info : RawMethodInfo) : Option Method :=
  (R.resolveMethodBase info.assemblyName info.moduleName info.methodToken).map R.getMethod

/-- `getMethod` of `ToSiliStatistic`. -/
def getMethod (methods : Methods Method) (l : RawMethodInfo) : Option (Method × Methods Method) :=
  match tryFind methods l.methodToken with
  | some m => some (m, methods)
  | none => do
      let methodBase ← R.resolveMethodBase l.assemblyName l.moduleName l.methodToken
      let method := R.getMethod methodBase
      some (method, Dictionary.set l.methodToken method methods)

def toCodeLocation (methodInfo : Pdict (BitVec 32) RawMethodInfo) (methods : Methods Method)
    (l : RawCoverageLocation) : Option (CodeLocation Method × Methods Method) := do
  let info ← tryFind methodInfo l.methodId
  let (method, methods) ← getMethod R methods info
  some (⟨l.offset.toInt, method⟩, methods)

/-- `ToSiliStatistic`, as far as it comes. -/
def toSiliStatistic (methodInfo : Pdict (BitVec 32) RawMethodInfo) (methods : Methods Method) :
    List RawCoverageLocation → List (CodeLocation Method) × Methods Method
  | [] => ([], methods)
  | l :: loc =>
    match toCodeLocation R methodInfo methods l with
    | none => ([], methods)
    | some (location, methods) =>
      let (locations, methods) := toSiliStatistic methodInfo methods loc
      (location :: locations, methods)

/-- What comes of one call after another. -/
def toSiliStatistics (methods : Methods Method) : List Report → List (List (CodeLocation Method))
  | [] => []
  | r :: reports =>
    let (locations, methods) := toSiliStatistic R r.methodInfo methods r.loc
    locations :: toSiliStatistics methods reports

/-! ### What is credited -/

/-- The location is in the method that the entry of its table names. -/
def Credited (methodInfo : Pdict (BitVec 32) RawMethodInfo) (l : RawCoverageLocation)
    (location : CodeLocation Method) : Prop :=
  ∃ info, tryFind methodInfo l.methodId = some info ∧ R.method info = some location.method

/-- All locations of a call are credited. -/
def CreditedAll (methodInfo : Pdict (BitVec 32) RawMethodInfo) (loc : List RawCoverageLocation)
    (locations : List (CodeLocation Method)) : Prop :=
  ∀ p ∈ loc.zip locations, Credited R methodInfo p.1 p.2

/-- The entries that a call asks for, up to the first one that names no method. -/
def requests (methodInfo : Pdict (BitVec 32) RawMethodInfo) :
    List RawCoverageLocation → List RawMethodInfo
  | [] => []
  | l :: loc =>
    match tryFind methodInfo l.methodId with
    | none => []
    | some info => info :: if (R.method info).isSome then requests methodInfo loc else []

/-- Where the first of two entries names a method, the second one names the same if it has the same
token. -/
def Consistent (a b : RawMethodInfo) : Prop :=
  a.methodToken = b.methodToken → (R.method a).isSome → R.method a = R.method b

/-- What is resolved already is right for the entries to come, and these are consistent. -/
def Agree (methods : Methods Method) (infos : List RawMethodInfo) : Prop :=
  (∀ info ∈ infos, ∀ m, tryFind methods info.methodToken = some m → R.method info = some m) ∧
    infos.Pairwise (Consistent R)

variable {R} {methods methods' : Methods Method} {info : RawMethodInfo} {m : Method}
  {methodInfo : Pdict (BitVec 32) RawMethodInfo}
variable {infos : List RawMethodInfo}

theorem getMethod_found (h : tryFind methods info.methodToken = some m) :
    getMethod R methods info = some (m, methods) := by
  rw [getMethod, h]

theorem getMethod_resolved (h : tryFind methods info.methodToken = none)
    (hm : R.method info = some m) :
    getMethod R methods info = some (m, Dictionary.set info.methodToken m methods) := by
  obtain ⟨methodBase, hbase, rfl⟩ := map_eq_some_iff.mp hm
  rw [getMethod, h]
  dsimp only
  rw [hbase]
  rfl

theorem getMethod_unresolved (h : tryFind methods info.methodToken = none)
    (hm : R.method info = none) : getMethod R methods info = none := by
  have hbase := map_eq_none_iff.mp hm
  rw [getMethod, h]
  dsimp only
  rw [hbase]
  rfl

/-- An entry whose token is resolved already. -/
theorem agree_found (h : tryFind methods info.methodToken = some m) :
    Agree R methods (info :: infos) ↔ R.method info = some m ∧ Agree R methods infos := by
  constructor
  · rintro ⟨hright, hpairwise⟩
    exact ⟨hright info mem_cons_self m h,
      fun i hi => hright i (mem_cons_of_mem _ hi), (pairwise_cons.mp hpairwise).2⟩
  · rintro ⟨hm, hright, hpairwise⟩
    refine ⟨forall_mem_cons.mpr ⟨fun m' h' => ?_, hright⟩,
      pairwise_cons.mpr ⟨fun i hi htoken _ => ?_, hpairwise⟩⟩
    · rw [hm, ← h, h']
    · rw [hm, hright i hi m (htoken ▸ h)]

/-- An entry whose token is not resolved yet, and that names a method. -/
theorem agree_resolved (h : tryFind methods info.methodToken = none) (hm : R.method info = some m) :
    Agree R methods (info :: infos) ↔
      Agree R (Dictionary.set info.methodToken m methods) infos := by
  constructor
  · rintro ⟨hright, hpairwise⟩
    obtain ⟨hhead, htail⟩ := pairwise_cons.mp hpairwise
    refine ⟨fun i hi m' hm' => ?_, htail⟩
    rw [Dictionary.tryFind_set] at hm'
    split at hm'
    case isTrue htoken =>
      obtain rfl := some.inj hm'
      rw [← hhead i hi htoken.symm (by rw [hm]; rfl), hm]
    case isFalse => exact hright i (mem_cons_of_mem _ hi) m' hm'
  · rintro ⟨hright, hpairwise⟩
    refine ⟨forall_mem_cons.mpr ⟨fun m' h' => ?_, fun i hi m' hm' => ?_⟩,
      pairwise_cons.mpr ⟨fun i hi htoken _ => ?_, hpairwise⟩⟩
    · rw [h] at h'
      cases h'
    · refine hright i hi m' ?_
      rw [Dictionary.tryFind_set, if_neg, hm']
      intro htoken
      rw [htoken, h] at hm'
      cases hm'
    · rw [hm, hright i hi m (by rw [Dictionary.tryFind_set, if_pos htoken.symm])]

/-- An entry that names no method adds nothing to the entries behind it. -/
theorem agree_unresolved (h : tryFind methods info.methodToken = none) (hm : R.method info = none) :
    Agree R methods (info :: infos) ↔ Agree R methods infos := by
  constructor
  · rintro ⟨hright, hpairwise⟩
    exact ⟨fun i hi => hright i (mem_cons_of_mem _ hi), (pairwise_cons.mp hpairwise).2⟩
  · rintro ⟨hright, hpairwise⟩
    refine ⟨forall_mem_cons.mpr ⟨fun m' h' => ?_, hright⟩,
      pairwise_cons.mpr ⟨fun i _ _ hsome => ?_, hpairwise⟩⟩
    · rw [h] at h'
      cases h'
    · rw [hm] at hsome
      cases hsome

section
variable {l : RawCoverageLocation} (hinfo : tryFind methodInfo l.methodId = some info)

include hinfo

theorem requests_resolved (hm : R.method info = some m) (loc : List RawCoverageLocation) :
    requests R methodInfo (l :: loc) = info :: requests R methodInfo loc := by
  rw [requests, hinfo]
  dsimp only
  rw [hm, isSome_some, if_pos rfl]

theorem requests_unresolved (hm : R.method info = none) (loc : List RawCoverageLocation) :
    requests R methodInfo (l :: loc) = [info] := by
  rw [requests, hinfo]
  dsimp only
  rw [hm, isSome_none, if_neg Bool.false_ne_true]

theorem toSiliStatistic_step (hget : getMethod R methods info = some (m, methods'))
    (loc : List RawCoverageLocation) :
    toSiliStatistic R methodInfo methods (l :: loc) =
      (⟨l.offset.toInt, m⟩ :: (toSiliStatistic R methodInfo methods' loc).1,
        (toSiliStatistic R methodInfo methods' loc).2) := by
  rw [toSiliStatistic, toCodeLocation, hinfo]
  simp only [bind_eq_bind, bind_some, hget]

theorem toSiliStatistic_stop (hget : getMethod R methods info = none)
    (loc : List RawCoverageLocation) :
    toSiliStatistic R methodInfo methods (l :: loc) = ([], methods) := by
  rw [toSiliStatistic, toCodeLocation, hinfo]
  simp only [bind_eq_bind, bind_some, hget, bind_none]

theorem creditedAll_cons {loc : List RawCoverageLocation} {locations : List (CodeLocation Method)} :
    CreditedAll R methodInfo (l :: loc) (⟨l.offset.toInt, m⟩ :: locations) ↔
      R.method info = some m ∧ CreditedAll R methodInfo loc locations := by
  have hhead : Credited R methodInfo l ⟨l.offset.toInt, m⟩ ↔ R.method info = some m := by
    rw [Credited, hinfo]
    exact ⟨fun ⟨_, heq, hm⟩ => some.inj heq ▸ hm, fun hm => ⟨info, rfl, hm⟩⟩
  rw [CreditedAll, zip_cons_cons, forall_mem_cons, hhead]
  rfl

end

theorem creditedAll_nil {loc : List RawCoverageLocation} :
    CreditedAll R methodInfo loc ([] : List (CodeLocation Method)) := by
  rw [CreditedAll, zip_nil_right]
  exact nofun

/-- The locations of a call are credited, and the methods it leaves agree with what is to come, if
the methods before it agree with all of it. -/
theorem creditedAll_iff (loc : List RawCoverageLocation) (methods : Methods Method)
    (infos : List RawMethodInfo) :
    (CreditedAll R methodInfo loc (toSiliStatistic R methodInfo methods loc).1 ∧
      Agree R (toSiliStatistic R methodInfo methods loc).2 infos) ↔
      Agree R methods (requests R methodInfo loc ++ infos) := by
  induction loc generalizing methods with
  | nil => exact and_iff_right fun p hp => by cases hp
  | cons l loc ih =>
    cases hinfo : tryFind methodInfo l.methodId with
    | none =>
      rw [toSiliStatistic, toCodeLocation, requests, hinfo]
      exact and_iff_right creditedAll_nil
    | some info =>
      cases hfound : tryFind methods info.methodToken with
      | some m =>
        have hget := getMethod_found (R := R) hfound
        rw [toSiliStatistic_step hinfo hget, creditedAll_cons hinfo, and_assoc, ih]
        cases hm : R.method info with
        | some m' =>
          rw [requests_resolved hinfo hm, cons_append, agree_found hfound, hm]
        | none =>
          rw [requests_unresolved hinfo hm, cons_append, agree_found hfound, hm]
          exact ⟨fun h => absurd h.1 nofun, fun h => absurd h.1 nofun⟩
      | none =>
        cases hm : R.method info with
        | some m =>
          have hget := getMethod_resolved hfound hm
          rw [toSiliStatistic_step hinfo hget, creditedAll_cons hinfo, and_assoc, ih,
            requests_resolved hinfo hm, cons_append, agree_resolved hfound hm]
          exact and_iff_right hm
        | none =>
          have hget := getMethod_unresolved hfound hm
          rw [toSiliStatistic_stop hinfo hget, requests_unresolved hinfo hm,
            cons_append, nil_append, agree_unresolved hfound hm]
          exact and_iff_right creditedAll_nil

theorem forall₂_creditedAll_iff (reports : List Report) (methods : Methods Method) :
    List.Forall₂ (fun r locations => CreditedAll R r.methodInfo r.loc locations) reports
        (toSiliStatistics R methods reports) ↔
      Agree R methods (reports.flatMap fun r => requests R r.methodInfo r.loc) := by
  induction reports generalizing methods with
  | nil => exact ⟨fun _ => ⟨nofun, .nil⟩, fun _ => .nil⟩
  | cons r reports ih =>
    rw [toSiliStatistics, forall₂_cons, ih, flatMap_cons, creditedAll_iff]

end

/-- Every location of every call is credited to the method that its own entry names if and only if
no two of the entries asked for have one token and name different methods. -/
theorem toSiliStatistics_iff {MethodBase Method : Type} (R : Resolution MethodBase Method)
    (reports : List Report) :
    List.Forall₂ (fun r locations => CreditedAll R r.methodInfo r.loc locations) reports
        (toSiliStatistics R [] reports) ↔
      (reports.flatMap fun r => requests R r.methodInfo r.loc).Pairwise (Consistent R) := by
  rw [forall₂_creditedAll_iff, Agree]
  exact and_iff_right fun info _ m hm => by cases hm

/-- Every token of a module names a method. -/
def everyToken : Resolution (List CodeUnit × BitVec 32) (List CodeUnit × BitVec 32) where
  resolveMethodBase _ moduleName token := some (moduleName, token)
  getMethod methodBase := methodBase

/-- A method of the module `A` and one of the module `B`, which have the same token. -/
def twoModules : Report where
  methodInfo := [(0, ⟨0x06000001, [65], [88]⟩), (1, ⟨0x06000001, [66], [88]⟩)]
  loc := [⟨0, 0, 0, 1⟩, ⟨0, 0, 1, 1⟩]

/-- The second location is credited to the method of the first one. -/
theorem not_credited_twoModules :
    ¬ List.Forall₂ (fun r locations => CreditedAll everyToken r.methodInfo r.loc locations)
      [twoModules] (toSiliStatistics everyToken [] [twoModules]) := by
  intro h
  have hrun : toSiliStatistics everyToken [] [twoModules] =
      [[⟨0, ([65], 0x06000001)⟩, ⟨0, ([65], 0x06000001)⟩]] := by decide
  rw [hrun] at h
  cases h with
  | cons hall _ =>
    obtain ⟨info, hinfo, hm⟩ := hall (⟨0, 0, 1, 1⟩, ⟨0, ([65], 0x06000001)⟩) (by decide)
    obtain rfl : ⟨0x06000001, [66], [88]⟩ = info := some.inj hinfo
    exact absurd hm (by decide)

end VSharp.Fuzzer
