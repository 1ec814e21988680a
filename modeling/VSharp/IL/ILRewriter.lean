import Mathlib.Data.Fintype.Card
import VSharp.Utils.Collections

/-!
# IL — ILRewriter

`VSharp.IL/ILRewriter.fs`, the analysis of what a method can reach: `AnalyseMethod` collects the
events of one body and the methods it calls, `analyseMethod` searches the call graph depth first and
keeps what it finds in `eventsCache`.  The mutable sets are passed along, `eventsCache` is a partial
map.  `UnionWith` works in place on the set
of the method being analysed, which nobody else holds until the method is cached again, so that a
value in its place reads the same.
-/

namespace VSharp.ILRewriter
open HashSet List
variable {M F : Type}

inductive AnalysisEvent (M F : Type) where
  | calli
  | callVirt (method : M)
  | ldsfld (field : F)
  | stsfld (field : F)
deriving DecidableEq

/-- The instructions `AnalyseMethod` looks at, with their resolved tokens, and all others. -/
inductive IlInstr (M F : Type) where
  | call (method : M)
  | newobj (method : M)
  | calli
  | callvirt (method : M)
  | ldsfld (field : F)
  | ldsflda (field : F)
  | stsfld (field : F)
  | other
deriving DecidableEq

structure AnalyseResult (M F : Type) where
  method : M
  events : List (AnalysisEvent M F)
  dependencies : List M
deriving DecidableEq

structure CheckResult (M F : Type) where
  success : Bool
  analyseResult : AnalyseResult M F
deriving DecidableEq

namespace AnalyseResult

def empty (m : M) : AnalyseResult M F := ⟨m, [], []⟩

def isComplete (x : AnalyseResult M F) : Bool := x.dependencies.isEmpty

variable [DecidableEq M] [DecidableEq F]

def union (x other : AnalyseResult M F) : AnalyseResult M F :=
  { x with
    events := unionWith x.events other.events
    dependencies := ((x.dependencies ++ other.dependencies).filter
      fun d => d ≠ x.method && d ≠ other.method).eraseDups }

variable {x other : AnalyseResult M F}

@[simp] theorem mem_union_events {e : AnalysisEvent M F} :
    e ∈ (x.union other).events ↔ e ∈ x.events ∨ e ∈ other.events := mem_unionWith

@[simp] theorem mem_union_dependencies {d : M} :
    d ∈ (x.union other).dependencies ↔
      (d ∈ x.dependencies ∨ d ∈ other.dependencies) ∧ d ≠ x.method ∧ d ≠ other.method := by
  simp [union, or_and_right]

end AnalyseResult

namespace CheckResult

def empty (m : M) : CheckResult M F := ⟨true, .empty m⟩

def union [DecidableEq M] [DecidableEq F] (x other : CheckResult M F) : CheckResult M F :=
  ⟨x.success && other.success, x.analyseResult.union other.analyseResult⟩

end CheckResult

section
variable [DecidableEq M] [DecidableEq F]

/-- One turn of the loop of `ILRewriter.AnalyseMethod`. -/
def analyseInstr (x : AnalyseResult M F) : IlInstr M F → AnalyseResult M F
  | .call method | .newobj method => { x with dependencies := add x.dependencies method }
  | .calli => { x with events := add x.events .calli }
  | .callvirt method => { x with events := add x.events (.callVirt method) }
  | .ldsfld field | .ldsflda field => { x with events := add x.events (.ldsfld field) }
  | .stsfld field => { x with events := add x.events (.stsfld field) }
  | .other => x

/-- `ILRewriter.AnalyseMethod`. -/
def analyseBody (m : M) (il : List (IlInstr M F)) : AnalyseResult M F :=
  il.foldl analyseInstr (.empty m)

theorem analyseBody_method (m : M) (il : List (IlInstr M F)) : (analyseBody m il).method = m := by
  have hstep (x : AnalyseResult M F) : (il.foldl analyseInstr x).method = x.method := by
    induction il generalizing x with
    | nil => rfl
    | cons i il ih =>
      rw [foldl_cons, ih]
      cases i <;> rfl
  exact hstep _

/-- `checkEvents`: no event fails. -/
def checkEvents (events : List (AnalysisEvent M F)) (failPredicate : AnalysisEvent M F → Bool) :
    Bool :=
  events.foldl (fun success event => if success then !failPredicate event else success) true

section

omit [DecidableEq F]

omit [DecidableEq M] in
@[simp] theorem checkEvents_eq_true {events : List (AnalysisEvent M F)}
    {failPredicate : AnalysisEvent M F → Bool} :
    checkEvents events failPredicate = true ↔ ∀ e ∈ events, failPredicate e = false := by
  have hstep (success : Bool) :
      events.foldl (fun success event => if success then !failPredicate event else success)
        success = (success && events.all fun e => !failPredicate e) := by
    induction events generalizing success with
    | nil => simp
    | cons e events ih =>
      rw [foldl_cons, ih, all_cons]
      cases success <;> simp
  rw [checkEvents, hstep]
  simp

/-- The caches of the search: `eventsCache`, kept between queries, and `checkedMethods`. -/
structure SearchState (M F : Type) where
  eventsCache : M → Option (AnalyseResult M F)
  checkedMethods : List M

/-- The bodies of the methods of a program. -/
abbrev Program (M F : Type) := M → List (IlInstr M F)

/-- What `eventsCache` holds for `m`, or else the analysis of its body. -/
def lookup (program : Program M F) (eventsCache : M → Option (AnalyseResult M F)) (m : M) :
    AnalyseResult M F :=
  (eventsCache m).getD (analyseBody m (program m))

/-- `checkedMethods.Add m`. -/
def SearchState.enter (st : SearchState M F) (m : M) : SearchState M F :=
  { st with checkedMethods := add st.checkedMethods m }

/-- `eventsCache[m] <- result`. -/
def SearchState.store (st : SearchState M F) (m : M) (result : AnalyseResult M F) :
    SearchState M F :=
  { st with eventsCache := Function.update st.eventsCache m (some result) }

@[simp] theorem SearchState.mem_enter {st : SearchState M F} {m y : M} :
    y ∈ (st.enter m).checkedMethods ↔ y ∈ st.checkedMethods ∨ y = m := mem_add

@[simp] theorem SearchState.store_eventsCache (st : SearchState M F) (m : M)
    (result : AnalyseResult M F) :
    (st.store m result).eventsCache = Function.update st.eventsCache m (some result) := rfl

end

/-- `checkDependencies`: the dependencies in turn, until one of them fails. -/
def checkDependencies
    (checkCallee : SearchState M F → M → Option (CheckResult M F × SearchState M F))
    (skipPredicate : M → Bool) :
    CheckResult M F → List M → SearchState M F → Option (CheckResult M F × SearchState M F)
  | resultAcc, [], st => some (resultAcc, st)
  | resultAcc, method :: methods, st =>
    if resultAcc.success && !skipPredicate method then
      match checkCallee st method with
      | none => none
      | some (calleeResult, st') =>
        checkDependencies checkCallee skipPredicate (resultAcc.union calleeResult) methods st'
    else checkDependencies checkCallee skipPredicate resultAcc methods st

/-- `checkCallee`, to a given depth of calls. -/
def checkCallee (program : Program M F) (failPredicate : AnalysisEvent M F → Bool)
    (skipPredicate : M → Bool) :
    ℕ → SearchState M F → M → Option (CheckResult M F × SearchState M F)
  | 0, _, _ => none
  | depth + 1, st, m =>
    if m ∈ st.checkedMethods then some (.empty m, st)
    else
      let result := lookup program st.eventsCache m
      if checkEvents result.events failPredicate then
        if result.isComplete then some (⟨true, result⟩, st.enter m)
        else
          match checkDependencies (checkCallee program failPredicate skipPredicate depth)
              skipPredicate ⟨true, result⟩ result.dependencies (st.enter m) with
          | none => none
          | some (checkResult, st') =>
            some (checkResult, st'.store m checkResult.analyseResult)
      else some (⟨false, result⟩, st.enter m)

/-- `analyseMethod`: the answer and the cache for the next query.  A search of `Fintype.card M`
nested calls has met every method. -/
def analyseMethod [Fintype M] (program : Program M F)
    (eventsCache : M → Option (AnalyseResult M F)) (m : M)
    (failPredicate : AnalysisEvent M F → Bool) (skipPredicate : M → Bool) :
    Option (Bool × (M → Option (AnalyseResult M F))) :=
  let result := lookup program eventsCache m
  if checkEvents result.events failPredicate then
    if result.isComplete then some (true, eventsCache)
    else
      match checkDependencies
          (checkCallee program failPredicate skipPredicate (Fintype.card M)) skipPredicate
          ⟨true, result⟩ result.dependencies (SearchState.enter ⟨eventsCache, []⟩ m) with
      | none => none
      | some (checkResult, st) =>
        some (checkResult.success, (st.store m checkResult.analyseResult).eventsCache)
  else some (false, eventsCache)

/-! ### What a call of the search can do -/

section
variable {program : Program M F} {failPredicate : AnalysisEvent M F → Bool}
  {skipPredicate : M → Bool} {depth : ℕ} {st st' : SearchState M F} {m : M} {r : CheckResult M F}

theorem checkCallee_cases
    (h : checkCallee program failPredicate skipPredicate (depth + 1) st m = some (r, st')) :
    (m ∈ st.checkedMethods ∧ r = .empty m ∧ st' = st) ∨
    (m ∉ st.checkedMethods ∧
      checkEvents (lookup program st.eventsCache m).events failPredicate = false ∧
      r = ⟨false, lookup program st.eventsCache m⟩ ∧ st' = st.enter m) ∨
    (m ∉ st.checkedMethods ∧
      checkEvents (lookup program st.eventsCache m).events failPredicate = true ∧
      (lookup program st.eventsCache m).dependencies = [] ∧
      r = ⟨true, lookup program st.eventsCache m⟩ ∧ st' = st.enter m) ∨
    (m ∉ st.checkedMethods ∧
      checkEvents (lookup program st.eventsCache m).events failPredicate = true ∧
      ∃ st₁, checkDependencies (checkCallee program failPredicate skipPredicate depth)
          skipPredicate ⟨true, lookup program st.eventsCache m⟩
          (lookup program st.eventsCache m).dependencies (st.enter m) = some (r, st₁) ∧
        st' = st₁.store m r.analyseResult) := by
  simp only [checkCallee] at h
  split at h
  case isTrue hm =>
    cases h
    exact .inl ⟨hm, rfl, rfl⟩
  case isFalse hm =>
    split at h
    case isFalse hev =>
      cases h
      exact .inr (.inl ⟨hm, Bool.eq_false_of_not_eq_true hev, rfl, rfl⟩)
    case isTrue hev =>
      split at h
      case isTrue hc =>
        cases h
        exact .inr (.inr (.inl ⟨hm, hev, List.isEmpty_iff.mp hc, rfl, rfl⟩))
      case isFalse =>
        split at h
        case h_1 => cases h
        case h_2 r₁ st₁ hdeps =>
          cases h
          exact .inr (.inr (.inr ⟨hm, hev, st₁, hdeps, rfl⟩))

/-- What every call of the search keeps, all the dependencies keep in turn. -/
theorem checkDependencies_inv
    {callee : SearchState M F → M → Option (CheckResult M F × SearchState M F)}
    {Q : List M → CheckResult M F → SearchState M F → Prop} {deps : List M}
    (hcall : ∀ done acc st d r st', d ∈ deps → Q done acc st → acc.success = true →
      skipPredicate d = false → callee st d = some (r, st') → Q (done ++ [d]) (acc.union r) st')
    (hskip : ∀ done acc st d, Q done acc st → (acc.success = true → skipPredicate d = true) →
      Q (done ++ [d]) acc st)
    {done : List M} {acc : CheckResult M F}
    (h : checkDependencies callee skipPredicate acc deps st = some (r, st')) (hQ : Q done acc st) :
    Q (done ++ deps) r st' := by
  induction deps generalizing done acc st with
  | nil =>
    cases h
    simpa using hQ
  | cons d deps ih =>
    have hcall' := fun done acc st d' r st' (hd : d' ∈ deps) =>
      hcall done acc st d' r st' (mem_cons_of_mem d hd)
    rw [checkDependencies] at h
    rw [append_cons]
    split at h
    case isTrue hgo =>
      simp only [Bool.and_eq_true, Bool.not_eq_true'] at hgo
      split at h
      case h_1 => cases h
      case h_2 r₁ st₁ hr₁ =>
        exact ih hcall' h (hcall done acc st d r₁ st₁ mem_cons_self hQ hgo.1 hgo.2 hr₁)
    case isFalse hgo =>
      refine ih hcall' h (hskip done acc st d hQ fun hs => ?_)
      simpa [hs] using hgo

end

/-- The predicate of `CanCallConcrete`: nothing that leaves the analysed code, and no static field
that has been changed. -/
def CanCallConcrete.failPredicate (changedStaticFields : List F) : AnalysisEvent M F → Bool
  | .calli => true
  | .callVirt _ => true
  | .ldsfld f => f ∈ changedStaticFields
  | .stsfld _ => true

end

end VSharp.ILRewriter
