import Mathlib.Algebra.GroupWithZero.Nat
import VSharp.Explorer.FairEnumerator
import VSharp.Explorer.StateSets
import VSharp.Library.Results
import VSharp.Library.Systems

/-!
# Explorer — Fair searcher

`FairSearcher` of `VSharp.Explorer/FairSearcher.fs`: the methods of the initial states take turns,
first their types and then the methods of each type, and the base searcher is asked for a state of
the method whose turn it is.  A method for which it has none is dropped.

- `FairSearcher` — the operations, on any base searcher.  An operation that throws has no result.
- `Serves` — a base searcher that stands for a set of states.
- `Offers` — the methods that still get their turns; `pick_ok` says what `Pick` answers and which
  methods it drops.
- `forgets_nothing_iff` — in which states `Pick` finds what is held.
-/

namespace VSharp.Explorer
open Library PersistentDict FairEnumerator List Option

variable {M T : Type} [DecidableEq M] [DecidableEq T]

/-- What a fair searcher finds around it: the reading of the clock and the current coverage change
with the number of readings so far. -/
structure FairSetting (M T : Type) where
  declaringType : M → T
  getCallsCount : M → ℕ
  getCurrentCoverage : ℕ → M → ℕ
  clock : ℕ → ℕ
  timeoutMillis : ℕ

/-- The mutable fields of `FairSearcher`. -/
structure FairSearcher (searcher : ForwardSearcher M) (T : Type) where
  baseSearcher : searcher.State
  methodEnumerators : Pdict T (FairEnumerator M)
  typeEnumerator : FairEnumerator T
  times : Times

namespace FairSearcher
variable (setting : FairSetting M T) {searcher : ForwardSearcher M}
variable {d : Pdict T (FairEnumerator M)} {e : FairEnumerator M}

/-! ### Budgets -/

/-- Division, which throws on zero. -/
def divide (a b : ℕ) : Option ℕ := if b = 0 then none else some (a / b)

def shouldStopType (times : Times) : Bool := times.totalTime = 0

/-- `getTypeTimeout`, with the `Count` of the types. -/
def getTypeTimeout (typeCount : ℕ) (times : Times) : Option ℕ := divide times.totalTime typeCount

def shouldStopMethod (typeCount methodCount : ℕ) (times : Times) : Option Bool := do
  let timeout ← getTypeTimeout typeCount times
  return timeout ≤ methodCount * 10

def getMethodTimeout (typeCount methodCount : ℕ) (times : Times) : Option ℕ := do
  let timeout ← getTypeTimeout typeCount times
  divide timeout methodCount

def onMethodTimeout (elapsed : ℕ) (times : Times) : Times :=
  { times with elapsedTime := times.elapsedTime + elapsed }

/-- `onTypeTimeout`: the old `elapsedTime` is read before the method is stopped. -/
def onTypeTimeout (typ : T) (methodEnumerators : Pdict T (FairEnumerator M)) (times : Times) :
    Option (Pdict T (FairEnumerator M) × Times) := do
  let e ← tryFind methodEnumerators typ
  let (elapsed, scene) ← stopCurrent setting.clock
    (fun _ elapsed rest times => some (rest, onMethodTimeout elapsed times)) ⟨e, (), times⟩
  return (Dictionary.set typ scene.enumerator methodEnumerators,
    { scene.times with elapsedTime := times.elapsedTime + elapsed })

def onTypeRound (types : List T) (times : Times) : List T × Times :=
  (types, { times with
    totalTime := if times.elapsedTime > times.totalTime then 0
      else times.totalTime - times.elapsedTime
    elapsedTime := 0 })

def onMethodRound (methods : List M) (times : Times) : List M × Times :=
  (methods.insertionSort fun m m' =>
    setting.getCurrentCoverage times.readings m ≤ setting.getCurrentCoverage times.readings m',
    times)

/-- The arguments of `typeEnumerator`. -/
def typeCallbacks : Callbacks T (Pdict T (FairEnumerator M)) where
  getElementTimeoutMs e times := getTypeTimeout e.count times
  shouldStop _ times := some (shouldStopType times)
  onRound := onTypeRound
  onTimeout typ _ := onTypeTimeout setting typ

/-- The arguments of the enumerator of the methods of a type. -/
def methodCallbacks (typeCount : ℕ) : Callbacks M Unit where
  getElementTimeoutMs e times := getMethodTimeout typeCount e.count times
  shouldStop e times := shouldStopMethod typeCount e.count times
  onRound := onMethodRound setting
  onTimeout _ elapsed rest times := some (rest, onMethodTimeout elapsed times)

/-! ### Operations -/

/-- `Seq.groupBy (fun m -> m.DeclaringType)` of distinct methods. -/
def groupByType (methods : List M) : List (T × List M) :=
  (HashSet.unionWith [] (methods.map setting.declaringType)).map fun typ =>
    (typ, methods.filter fun m => setting.declaringType m = typ)

def init (initialStates : List (StateRef M)) : Option (FairSearcher searcher T) := do
  let base ← searcher.init initialStates
  let methods ← (searcher.states base).mapM StateRef.entryMethod
  let groupedByType := groupByType setting (HashSet.unionWith [] methods)
  return {
    baseSearcher := base
    methodEnumerators := groupedByType.foldl (fun d e => Dictionary.set e.1 (create
      (e.2.insertionSort fun m m' => setting.getCallsCount m ≤ setting.getCallsCount m')) d) []
    typeEnumerator := create (groupedByType.map Prod.fst)
    times := ⟨setting.timeoutMillis, 0, 0, false⟩ }

def update (parent : StateRef M) (newStates : List (StateRef M)) (s : FairSearcher searcher T) :
    Option (FairSearcher searcher T) := do
  let base ← searcher.update parent newStates s.baseSearcher
  return { s with baseSearcher := base }

def remove (cilState : StateRef M) (s : FairSearcher searcher T) :
    Option (FairSearcher searcher T) := do
  let base ← searcher.remove cilState s.baseSearcher
  return { s with baseSearcher := base }

def states (s : FairSearcher searcher T) : List (StateRef M) := searcher.states s.baseSearcher

/-- `typeEnumerator.Pick()`. -/
def pickType (s : FairSearcher searcher T) : Option (Option T × FairSearcher searcher T) := do
  let (typ, scene) ← FairEnumerator.pick setting.clock (typeCallbacks setting)
    ⟨s.typeEnumerator, s.methodEnumerators, s.times⟩
  return (typ, { s with
    typeEnumerator := scene.enumerator, methodEnumerators := scene.rest, times := scene.times })

/-- `methodEnumerators[typ].Pick()`. -/
def pickMethod (typ : T) (s : FairSearcher searcher T) :
    Option (Option M × FairSearcher searcher T) := do
  let e ← tryFind s.methodEnumerators typ
  let (method, scene) ← FairEnumerator.pick setting.clock
    (methodCallbacks setting s.typeEnumerator.count) ⟨e, (), s.times⟩
  return (method, { s with
    methodEnumerators := Dictionary.set typ scene.enumerator s.methodEnumerators
    times := scene.times })

/-- `typeEnumerator.DropCurrent() |> ignore`. -/
def dropType (s : FairSearcher searcher T) : FairSearcher searcher T :=
  let (_, typeEnumerator, times) := dropCurrent setting.clock s.typeEnumerator s.times
  { s with typeEnumerator, times }

/-- `elapsedTime <- elapsedTime + methodEnumerators[typ].DropCurrent()`. -/
def dropMethod (typ : T) (s : FairSearcher searcher T) : Option (FairSearcher searcher T) := do
  let e ← tryFind s.methodEnumerators typ
  let (elapsed, e, times) := dropCurrent setting.clock e s.times
  return { s with
    methodEnumerators := Dictionary.set typ e s.methodEnumerators
    times := { times with elapsedTime := s.times.elapsedTime + elapsed } }

/-- `baseSearcher.Pick (fun s -> s.EntryMethod = method && selector s)`.  Every state that is held
has an entry method. -/
def pickState (selector : StateRef M → Bool) (method : M) (s : FairSearcher searcher T) :
    Option (Option (StateRef M) × FairSearcher searcher T) := do
  let (state, base) ← searcher.pickSelected
    (fun x => x.entryMethod = some method && selector x) s.baseSearcher
  return (state, { s with baseSearcher := base })

/-- `pick`, with a bound on its recursion. -/
def pickLoop (selector : StateRef M → Bool) :
    ℕ → FairSearcher searcher T → Option (Option (StateRef M) × FairSearcher searcher T)
  | 0, _ => none
  | fuel + 1, s => do
      let (typ, s) ← pickType setting s
      match typ with
      | none => return (none, s)
      | some typ => do
          let (method, s) ← pickMethod setting typ s
          match method with
          | none => pickLoop selector fuel (dropType setting s)
          | some method => do
              let (state, s) ← pickState selector method s
              match state with
              | none => do
                  let s ← dropMethod setting typ s
                  pickLoop selector fuel s
              | some state => return (some state, s)

/-- The types and methods that are in turn. -/
def size (s : FairSearcher searcher T) : ℕ :=
  (s.typeEnumerator.elements.map fun typ =>
    1 + ((tryFind s.methodEnumerators typ).elim 0 FairEnumerator.count)).sum

/-- `pick`: every pass but the last drops a type or a method. -/
def pick (selector : StateRef M → Bool) (s : FairSearcher searcher T) :
    Option (Option (StateRef M) × FairSearcher searcher T) :=
  pickLoop setting selector (s.size + 1) s

/-! ### Runs -/

inductive Operation (M : Type) where
  | update (parent : StateRef M) (newStates : List (StateRef M))
  | remove (cilState : StateRef M)
  | pick (selector : StateRef M → Bool)

/-- The operations one after another. -/
def system (start : FairSearcher searcher T) : System (FairSearcher searcher T) (Operation M) where
  start := start
  step s
    | .update parent newStates => update parent newStates s
    | .remove cilState => remove cilState s
    | .pick selector => (pick setting selector s).map Prod.snd

/-! ### What is in turn -/

/-- The methods of a type that are in turn. -/
def methodsOf (d : Pdict T (FairEnumerator M)) (typ : T) : List M :=
  (tryFind d typ).elim [] FairEnumerator.elements

/-- The method still gets its turns. -/
def Offers (s : FairSearcher searcher T) (m : M) : Prop :=
  setting.declaringType m ∈ s.typeEnumerator.elements ∧
    m ∈ methodsOf s.methodEnumerators (setting.declaringType m)

/-- Every type in turn has an enumerator of distinct methods of its own. -/
structure Consistent (s : FairSearcher searcher T) : Prop where
  nodup : s.typeEnumerator.elements.Nodup
  created : ∀ typ ∈ s.typeEnumerator.elements, (tryFind s.methodEnumerators typ).isSome
  methods : ∀ typ, (methodsOf s.methodEnumerators typ).Nodup
  declared : ∀ typ, ∀ m ∈ methodsOf s.methodEnumerators typ, setting.declaringType m = typ

section

omit [DecidableEq M]

theorem methodsOf_of_tryFind {typ : T} (h : tryFind d typ = some e) :
    methodsOf d typ = e.elements := by
  rw [methodsOf, h]
  rfl

theorem methodsOf_set {typ typ' : T} :
    methodsOf (Dictionary.set typ e d) typ' =
      if typ' = typ then e.elements else methodsOf d typ' := by
  rw [methodsOf, Dictionary.tryFind_set]
  split
  · rfl
  · rfl

/-- The same methods, in another order. -/
structure Regroups (d d' : Pdict T (FairEnumerator M)) : Prop where
  created : ∀ typ, (tryFind d typ).isSome → (tryFind d' typ).isSome
  methods : ∀ typ, (methodsOf d' typ).Perm (methodsOf d typ)

theorem Regroups.refl (d : Pdict T (FairEnumerator M)) : Regroups d d :=
  ⟨fun _ h => h, fun _ => .refl _⟩

/-- An enumerator that is replaced by one of the same methods. -/
theorem Regroups.set {d' : Pdict T (FairEnumerator M)} {typ : T} (h : Regroups d d')
    (he : e.elements.Perm (methodsOf d' typ)) :
    Regroups d (Dictionary.set typ e d') := by
  refine ⟨fun typ' hsome => ?_, fun typ' => ?_⟩
  · rw [Dictionary.tryFind_set]
    split
    · rfl
    · exact h.created typ' hsome
  · rw [methodsOf_set]
    split
    case isTrue heq => exact heq ▸ he.trans (h.methods typ)
    case isFalse => exact h.methods typ'

end

theorem divide_pos {a b : ℕ} (hb : b ≠ 0) : divide a b = some (a / b) := if_neg hb

variable {setting}

theorem onTypeTimeout_ok {typ : T} {d' : Pdict T (FairEnumerator M)}
    (hcreated : (tryFind d typ).isSome) (hnodup : (methodsOf d typ).Nodup) (h : Regroups d d')
    (times : Times) : ∃ d'' times', onTypeTimeout setting typ d' times = some (d'', times') ∧
      Regroups d d'' ∧ (times.usedUp = true → times'.usedUp = true) := by
  obtain ⟨e, he⟩ := isSome_iff_exists.mp (h.created typ hcreated)
  have hperm := methodsOf_of_tryFind he ▸ h.methods typ
  have hstopped : ∃ elapsed scene', stopCurrent setting.clock
      (fun _ elapsed rest times => some (rest, onMethodTimeout elapsed times)) ⟨e, (), times⟩ =
        some (elapsed, scene') ∧ KeepsValues (fun _ => True) ⟨e, (), times⟩ scene' ∧
        (e.toExplore ≠ [] → scene'.enumerator.stopwatch = none) :=
    stopCurrent_ok (fun _ _ _ _ _ _ => ⟨_, _, rfl, trivial, id⟩) (fun _ h => h)
      (hperm.nodup_iff.mpr hnodup) trivial
  obtain ⟨elapsed, scene', hstopped, hkeeps, -⟩ := hstopped
  refine ⟨Dictionary.set typ scene'.enumerator d',
    { scene'.times with elapsedTime := times.elapsedTime + elapsed }, ?_,
    h.set (hkeeps.perm.trans (.of_eq (methodsOf_of_tryFind he).symm)), hkeeps.usedUp⟩
  rw [onTypeTimeout, he, bind_eq_bind, bind_some, hstopped]
  rfl

theorem typeCallbacks_sound {s : FairSearcher searcher T} (h : Consistent setting s) :
    (typeCallbacks setting).Sound (· ∈ s.typeEnumerator.elements)
      (Regroups s.methodEnumerators) where
  timeout _ _ hne := ⟨_, divide_pos (count_pos hne)⟩
  stop _ _ _ := ⟨_, rfl⟩
  round l _ := ⟨.refl l, id⟩
  expire typ _ _ times htyp hd := onTypeTimeout_ok (h.created typ htyp) (h.methods typ) hd times

omit [DecidableEq M] [DecidableEq T] in
theorem methodCallbacks_sound {typeCount : ℕ} (hpos : typeCount ≠ 0) (values : M → Prop) :
    (methodCallbacks setting typeCount).Sound values (fun _ => True) where
  timeout e times hne := by
    refine ⟨times.totalTime / typeCount / e.count, ?_⟩
    change getMethodTimeout typeCount e.count times = _
    rw [getMethodTimeout, getTypeTimeout, divide_pos hpos]
    exact divide_pos (count_pos hne)
  stop e times _ := by
    refine ⟨times.totalTime / typeCount ≤ e.count * 10, ?_⟩
    change shouldStopMethod typeCount e.count times = _
    rw [shouldStopMethod, getTypeTimeout, divide_pos hpos]
    rfl
  round l times := ⟨perm_insertionSort _ l, id⟩
  expire _ _ _ _ _ _ := ⟨_, _, rfl, trivial, id⟩

/-- The state later on, with the same types and methods in turn. -/
structure Same (s s' : FairSearcher searcher T) : Prop where
  base : s'.baseSearcher = s.baseSearcher
  types : s'.typeEnumerator.elements.Perm s.typeEnumerator.elements
  methods : Regroups s.methodEnumerators s'.methodEnumerators
  usedUp : s.times.usedUp = true → s'.times.usedUp = true

variable {s s' : FairSearcher searcher T} {typ : T} {m : M}

omit [DecidableEq M] in
theorem Same.offers_iff (h : Same s s') : Offers setting s' m ↔ Offers setting s m :=
  and_congr h.types.mem_iff (h.methods.methods _).mem_iff

omit [DecidableEq M] in
theorem Same.consistent (h : Same s s') (hs : Consistent setting s) : Consistent setting s' where
  nodup := h.types.nodup_iff.mpr hs.nodup
  created typ htyp := h.methods.created typ (hs.created typ (h.types.mem_iff.mp htyp))
  methods typ := (h.methods.methods typ).nodup_iff.mpr (hs.methods typ)
  declared typ m hm := hs.declared typ m ((h.methods.methods typ).mem_iff.mp hm)

theorem pickType_ok (hs : Consistent setting s) :
    ∃ r s', pickType setting s = some (r, s') ∧ Same s s' ∧
      (∀ typ, r = some typ → s'.typeEnumerator.toExplore.head? = some typ) ∧
      (r = none → s'.typeEnumerator.elements = [] ∨ s'.times.usedUp = true) := by
  have hpicked : ∃ r scene', FairEnumerator.pick setting.clock (typeCallbacks setting)
      ⟨s.typeEnumerator, s.methodEnumerators, s.times⟩ = some (r, scene') ∧
        Yields (Regroups s.methodEnumerators) ⟨s.typeEnumerator, s.methodEnumerators, s.times⟩ r
          scene' :=
    FairEnumerator.pick_ok (typeCallbacks_sound hs) (fun _ h => h) hs.nodup (.refl _)
  obtain ⟨r, scene', hpicked, hyields⟩ := hpicked
  refine ⟨r, { s with
    typeEnumerator := scene'.enumerator, methodEnumerators := scene'.rest, times := scene'.times },
    ?_, ⟨rfl, hyields.perm, hyields.fine, hyields.usedUp⟩, hyields.front, hyields.exhausted⟩
  rw [pickType, hpicked]
  rfl

theorem pickMethod_ok (hs : Consistent setting s) (htyp : typ ∈ s.typeEnumerator.elements) :
    ∃ r s', pickMethod setting typ s = some (r, s') ∧ Same s s' ∧
      s'.typeEnumerator = s.typeEnumerator ∧
      (∀ m, r = some m → ∃ e, tryFind s'.methodEnumerators typ = some e ∧
        e.toExplore.head? = some m) ∧
      (r = none → methodsOf s'.methodEnumerators typ = [] ∨ s'.times.usedUp = true) := by
  obtain ⟨e, he⟩ := isSome_iff_exists.mp (hs.created typ htyp)
  have hmethods := methodsOf_of_tryFind he
  have hcount := count_pos (ne_nil_of_mem htyp)
  have hpicked : ∃ r scene', FairEnumerator.pick setting.clock
      (methodCallbacks setting s.typeEnumerator.count) ⟨e, (), s.times⟩ = some (r, scene') ∧
        Yields (fun _ => True) ⟨e, (), s.times⟩ r scene' :=
    FairEnumerator.pick_ok (methodCallbacks_sound hcount (· ∈ e.elements)) (fun _ h => h)
      (hmethods ▸ hs.methods typ) trivial
  obtain ⟨r, scene', hpicked, hyields⟩ := hpicked
  refine ⟨r, { s with
    methodEnumerators := Dictionary.set typ scene'.enumerator s.methodEnumerators
    times := scene'.times }, ?_, ⟨rfl, .refl _, ?_, hyields.usedUp⟩, rfl, fun m hm => ?_,
    fun hr => ?_⟩
  · rw [pickMethod, he, bind_eq_bind, bind_some, hpicked]
    rfl
  · exact (Regroups.refl _).set (hmethods ▸ hyields.perm)
  · exact ⟨scene'.enumerator, by rw [Dictionary.tryFind_set, if_pos rfl], hyields.front m hm⟩
  · rw [methodsOf_set, if_pos rfl]
    exact hyields.exhausted hr

section

omit [DecidableEq M]

/-- The type in front is dropped with its methods. -/
theorem dropType_ok (hs : Consistent setting s)
    (hfront : s.typeEnumerator.toExplore.head? = some typ) :
    Consistent setting (dropType setting s) ∧
      s.typeEnumerator.elements.Perm (typ :: (dropType setting s).typeEnumerator.elements) ∧
      (dropType setting s).times.usedUp = s.times.usedUp := by
  obtain ⟨hperm, hused⟩ := dropCurrent_elements setting.clock hfront s.times
  refine ⟨⟨?_, fun typ' htyp' => hs.created typ' ?_, hs.methods, hs.declared⟩, hperm, hused⟩
  · exact (nodup_cons.mp (hperm.nodup_iff.mp hs.nodup)).2
  · exact hperm.mem_iff.mpr (mem_cons_of_mem _ htyp')

/-- The method in front is dropped. -/
theorem dropMethod_ok (hs : Consistent setting s) (he : tryFind s.methodEnumerators typ = some e)
    (hfront : e.toExplore.head? = some m) :
    ∃ s', dropMethod setting typ s = some s' ∧ Consistent setting s' ∧
      s'.baseSearcher = s.baseSearcher ∧ s'.typeEnumerator = s.typeEnumerator ∧
      (methodsOf s.methodEnumerators typ).Perm (m :: methodsOf s'.methodEnumerators typ) ∧
      (∀ typ', typ' ≠ typ → methodsOf s'.methodEnumerators typ' =
        methodsOf s.methodEnumerators typ') ∧
      s'.times.usedUp = s.times.usedUp := by
  obtain ⟨hperm, hused⟩ := dropCurrent_elements setting.clock hfront s.times
  have hmethods := methodsOf_of_tryFind he
  have hset : ∀ typ', methodsOf (Dictionary.set typ (dropCurrent setting.clock e s.times).2.1
      s.methodEnumerators) typ' = if typ' = typ then
        (dropCurrent setting.clock e s.times).2.1.elements
      else methodsOf s.methodEnumerators typ' := fun _ => methodsOf_set
  have hleft : ∀ m' ∈ (dropCurrent setting.clock e s.times).2.1.elements,
      m' ∈ methodsOf s.methodEnumerators typ := fun m' hm' =>
    hmethods ▸ hperm.mem_iff.mpr (mem_cons_of_mem _ hm')
  refine ⟨{ s with
    methodEnumerators := Dictionary.set typ (dropCurrent setting.clock e s.times).2.1
      s.methodEnumerators
    times := { (dropCurrent setting.clock e s.times).2.2 with
      elapsedTime := s.times.elapsedTime + (dropCurrent setting.clock e s.times).1 } },
    ?_, ⟨hs.nodup, ?_, ?_, ?_⟩, rfl, rfl, ?_, fun typ' hne => ?_, hused⟩
  · rw [dropMethod, he]
    rfl
  · intro typ' htyp'
    rw [Dictionary.tryFind_set]
    split
    · rfl
    · exact hs.created typ' htyp'
  · intro typ'
    rw [hset]
    split
    · exact (nodup_cons.mp (hperm.nodup_iff.mp (hmethods ▸ hs.methods typ))).2
    · exact hs.methods typ'
  · intro typ' m' hm'
    rw [hset] at hm'
    split at hm'
    case isTrue heq => exact heq ▸ hs.declared typ m' (hleft m' hm')
    case isFalse => exact hs.declared typ' m' hm'
  · rw [hset, if_pos rfl, hmethods]
    exact hperm
  · exact (hset typ').trans (if_neg hne)

/-! ### Its size -/

theorem size_eq (s : FairSearcher searcher T) : s.size = (s.typeEnumerator.elements.map fun typ =>
    1 + (methodsOf s.methodEnumerators typ).length).sum := by
  rw [size]
  refine congrArg List.sum (map_congr_left fun typ _ => ?_)
  rw [methodsOf]
  cases tryFind s.methodEnumerators typ with
  | none => rfl
  | some e => simp [elements, FairEnumerator.count]

theorem Same.size_eq (h : Same s s') : s'.size = s.size := by
  rw [FairSearcher.size_eq, FairSearcher.size_eq, (h.types.map _).sum_nat]
  refine congrArg List.sum (map_congr_left fun typ _ => ?_)
  rw [(h.methods.methods typ).length_eq]

theorem dropType_size (hs : Consistent setting s)
    (hfront : s.typeEnumerator.toExplore.head? = some typ) :
    (dropType setting s).size < s.size := by
  obtain ⟨-, hperm, -⟩ := dropType_ok hs hfront
  rw [size_eq, size_eq, (hperm.map _).sum_nat, map_cons, sum_cons]
  have hsame : (dropType setting s).methodEnumerators = s.methodEnumerators := rfl
  rw [hsame]
  omega

/-- One method less. -/
theorem size_lt (hs : Consistent setting s) (htyp : typ ∈ s.typeEnumerator.elements)
    (htypes : s'.typeEnumerator = s.typeEnumerator)
    (hmethods : (methodsOf s.methodEnumerators typ).Perm (m :: methodsOf s'.methodEnumerators typ))
    (hother : ∀ typ', typ' ≠ typ → methodsOf s'.methodEnumerators typ' =
      methodsOf s.methodEnumerators typ') : s'.size < s.size := by
  have hperm := perm_cons_erase htyp
  have hrest : ∀ typ' ∈ s.typeEnumerator.elements.erase typ, typ' ≠ typ := by
    rintro typ' htyp' rfl
    exact hs.nodup.not_mem_erase htyp'
  have hlength := hmethods.length_eq
  rw [length_cons] at hlength
  rw [size_eq, size_eq, htypes, (hperm.map _).sum_nat, (hperm.map _).sum_nat, map_cons,
    map_cons, sum_cons, sum_cons, hlength]
  have hsum : ((s.typeEnumerator.elements.erase typ).map fun typ' =>
      1 + (methodsOf s'.methodEnumerators typ').length) =
      (s.typeEnumerator.elements.erase typ).map fun typ' =>
        1 + (methodsOf s.methodEnumerators typ').length :=
    map_congr_left fun typ' htyp' => by rw [hother typ' (hrest typ' htyp')]
  rw [hsum]
  omega

end

/-! ### What `Pick` answers -/

/-- Which calls a base searcher takes. -/
structure Accepts (M : Type) where
  init : List (StateRef M) → Prop
  update : Set (StateRef M) → StateRef M → List (StateRef M) → Prop
  remove : StateRef M → Prop

/-- The base searcher stands for a set of states with entry methods. -/
structure Serves (searcher : ForwardSearcher M) (accepts : Accepts M)
    (holds : searcher.State → Set (StateRef M) → Prop) : Prop where
  init : ∀ initialStates, accepts.init initialStates →
    ∃ st S, searcher.init initialStates = some st ∧ holds st S ∧ ∀ x ∈ S, x.isIsolated = false
  states : ∀ st S, holds st S → ∀ x, x ∈ searcher.states st ↔ x ∈ S
  update : ∀ st S parent newStates, holds st S → accepts.update S parent newStates →
    ∃ st', searcher.update parent newStates st = some st' ∧ holds st' (S ∪ {x | x ∈ newStates})
  pickSelected : ∀ st S selector, holds st S →
    ∃ r st', searcher.pickSelected selector st = some (r, st') ∧ holds st' S ∧ Picks S selector r
  remove : ∀ st S x, holds st S → accepts.remove x →
    ∃ st', searcher.remove x st = some st' ∧ holds st' (S \ {x})

variable {accepts : Accepts M} {holds : searcher.State → Set (StateRef M) → Prop}
  {S : Set (StateRef M)} {selector : StateRef M → Bool} {s'' : FairSearcher searcher T}
  {op : Operation M}

/-- The later state holds the same set, and the methods dropped on the way have no state in it that
satisfies the selector. -/
structure Passes (setting : FairSetting M T) (holds : searcher.State → Set (StateRef M) → Prop)
    (S : Set (StateRef M)) (selector : StateRef M → Bool) (s s' : FairSearcher searcher T) :
    Prop where
  consistent : Consistent setting s'
  holds : holds s'.baseSearcher S
  usedUp : s.times.usedUp = true → s'.times.usedUp = true
  offers : ∀ m, Offers setting s' m → Offers setting s m
  dropped : s'.times.usedUp = false → ∀ m, Offers setting s m → ¬ Offers setting s' m →
    ∀ x ∈ S, x.entryMethod = some m → selector x = false

/-- `Pick` answers with a state of a method in turn, or no method is left. -/
structure Answers (setting : FairSetting M T) (holds : searcher.State → Set (StateRef M) → Prop)
    (S : Set (StateRef M)) (selector : StateRef M → Bool) (s : FairSearcher searcher T)
    (r : Option (StateRef M)) (s' : FairSearcher searcher T) : Prop
    extends Passes setting holds S selector s s' where
  found : ∀ x, r = some x →
    x ∈ S ∧ selector x = true ∧ ∃ m, x.entryMethod = some m ∧ Offers setting s m
  exhausted : r = none → s'.times.usedUp = false → ∀ m, ¬ Offers setting s' m

section

omit [DecidableEq M]

theorem usedUp_false {t t' : Times} (h : t.usedUp = true → t'.usedUp = true)
    (ht' : t'.usedUp = false) : t.usedUp = false :=
  eq_false_of_ne_true fun ht => Bool.noConfusion ((h ht).symm.trans ht')

theorem Passes.trans (h : Passes setting holds S selector s s')
    (h' : Passes setting holds S selector s' s'') : Passes setting holds S selector s s'' where
  consistent := h'.consistent
  holds := h'.holds
  usedUp := h'.usedUp ∘ h.usedUp
  offers m := h.offers m ∘ h'.offers m
  dropped hused m hm hm'' := by
    by_cases hm' : Offers setting s' m
    · exact h'.dropped hused m hm' hm''
    · exact h.dropped (usedUp_false h'.usedUp hused) m hm hm'

theorem Passes.answers {r : Option (StateRef M)} (h : Passes setting holds S selector s s')
    (h' : Answers setting holds S selector s' r s'') :
    Answers setting holds S selector s r s'' where
  toPasses := h.trans h'.toPasses
  found x hx :=
    let ⟨hmem, hselector, m, hm, hoffers⟩ := h'.found x hx
    ⟨hmem, hselector, m, hm, h.offers m hoffers⟩
  exhausted := h'.exhausted

theorem Same.passes (selector : StateRef M → Bool) (h : Same s s') (hs : Consistent setting s)
    (hholds : holds s.baseSearcher S) :
    Passes setting holds S selector s s' where
  consistent := h.consistent hs
  holds := h.base ▸ hholds
  usedUp := h.usedUp
  offers _ := h.offers_iff.mp
  dropped _ _ hm hm' := absurd (h.offers_iff.mpr hm) hm'

/-- A type is dropped when none of its methods is left. -/
theorem dropType_passes (hs : Consistent setting s) (hholds : holds s.baseSearcher S)
    (hfront : s.typeEnumerator.toExplore.head? = some typ)
    (hover : methodsOf s.methodEnumerators typ = [] ∨ s.times.usedUp = true) :
    Passes setting holds S selector s (dropType setting s) := by
  obtain ⟨hconsistent, hperm, hused⟩ := dropType_ok hs hfront
  refine ⟨hconsistent, hholds, fun h => hused.trans h,
    fun m hm => ⟨hperm.mem_iff.mpr (mem_cons_of_mem _ hm.1), hm.2⟩, fun hclean m hm hm' => ?_⟩
  have hempty := hover.resolve_right fun h => Bool.noConfusion ((hused.trans h).symm.trans hclean)
  rcases mem_cons.mp (hperm.mem_iff.mp hm.1) with heq | hmem
  · have hin := hm.2
    rw [heq, hempty] at hin
    cases hin
  · exact absurd ⟨hmem, hm.2⟩ hm'

end

/-- A method is dropped when no state of it satisfies the selector. -/
theorem dropMethod_passes (hs : Consistent setting s) (hholds : holds s.baseSearcher S)
    (htyp : typ ∈ s.typeEnumerator.elements) (he : tryFind s.methodEnumerators typ = some e)
    (hfront : e.toExplore.head? = some m)
    (hvain : ∀ x ∈ S, x.entryMethod = some m → selector x = false) :
    ∃ s', dropMethod setting typ s = some s' ∧ Passes setting holds S selector s s' ∧
      s'.size < s.size := by
  obtain ⟨s', hdrop, hconsistent, hbase, htypes, hmethods, hother, hused⟩ :=
    dropMethod_ok hs he hfront
  refine ⟨s', hdrop, ⟨hconsistent, hbase ▸ hholds, fun h => hused.trans h, fun m' hm' => ?_,
    fun _ m' hm' hnot => ?_⟩, size_lt hs htyp htypes hmethods hother⟩
  · refine ⟨htypes ▸ hm'.1, ?_⟩
    by_cases heq : setting.declaringType m' = typ
    · rw [heq]
      exact hmethods.mem_iff.mpr (mem_cons_of_mem _ (heq ▸ hm'.2))
    · exact hother _ heq ▸ hm'.2
  · have heq : m' = m := by
      by_contra hne
      refine hnot ⟨htypes ▸ hm'.1, ?_⟩
      by_cases heq : setting.declaringType m' = typ
      · have hin := hm'.2
        rw [heq] at hin ⊢
        exact (mem_cons.mp (hmethods.mem_iff.mp hin)).resolve_left hne
      · exact (hother _ heq).symm ▸ hm'.2
    exact heq ▸ hvain

section
variable (hserves : Serves searcher accepts holds)

include hserves

/-- The base searcher is asked for a state of the method. -/
theorem pickState_ok (selector : StateRef M → Bool)
    (m : M) (hs : Consistent setting s) (hholds : holds s.baseSearcher S) :
    ∃ r s', pickState selector m s = some (r, s') ∧ Passes setting holds S selector s s' ∧
      s'.typeEnumerator = s.typeEnumerator ∧ s'.methodEnumerators = s.methodEnumerators ∧
      Picks S (fun x => x.entryMethod = some m && selector x) r := by
  obtain ⟨r, st', hpicked, hholds', hpicks⟩ := hserves.pickSelected s.baseSearcher S
    (fun x => x.entryMethod = some m && selector x) hholds
  refine ⟨r, { s with baseSearcher := st' }, ?_, ⟨⟨hs.nodup, hs.created, hs.methods, hs.declared⟩,
    hholds', id, fun _ => id, fun _ _ hm hm' => absurd hm hm'⟩, rfl, rfl, hpicks⟩
  rw [pickState, hpicked]
  rfl

theorem pickLoop_ok {fuel : ℕ} (hfuel : s.size < fuel)
    (hs : Consistent setting s) (hholds : holds s.baseSearcher S) :
    ∃ r s', pickLoop setting selector fuel s = some (r, s') ∧
      Answers setting holds S selector s r s' := by
  induction fuel generalizing s with
  | zero => exact absurd hfuel (Nat.not_lt_zero _)
  | succ fuel ih =>
    obtain ⟨typ, s₁, htype, hsame₁, hfront₁, hover₁⟩ := pickType_ok hs
    have hs₁ := hsame₁.consistent hs
    have hpasses₁ := hsame₁.passes selector hs hholds
    rw [pickLoop, htype]
    cases typ with
    | none =>
      refine ⟨none, s₁, rfl, hpasses₁, nofun, fun _ hclean m hm => ?_⟩
      have hempty := (hover₁ rfl).resolve_right fun h => Bool.noConfusion (h.symm.trans hclean)
      have hin := hm.1
      rw [hempty] at hin
      cases hin
    | some typ =>
      have hfront := hfront₁ typ rfl
      have htyp : typ ∈ s₁.typeEnumerator.elements :=
        mem_append_left _ (mem_of_head? hfront)
      obtain ⟨method, s₂, hmethod, hsame₂, htypes₂, hfront₂, hover₂⟩ := pickMethod_ok hs₁ htyp
      have hs₂ := hsame₂.consistent hs₁
      have hpasses₂ := hpasses₁.trans (hsame₂.passes selector hs₁ hpasses₁.holds)
      have hsize : s₂.size = s.size := hsame₂.size_eq.trans hsame₁.size_eq
      rw [bind_eq_bind, bind_some]
      dsimp only
      rw [hmethod]
      cases method with
      | none =>
        rw [← htypes₂] at hfront
        have hdrop := hpasses₂.trans (dropType_passes hs₂ hpasses₂.holds hfront (hover₂ rfl))
        have hlt := dropType_size hs₂ hfront
        obtain ⟨r, s', hpick, hanswers⟩ := ih (by omega) hdrop.consistent hdrop.holds
        exact ⟨r, s', hpick, hdrop.answers hanswers⟩
      | some method =>
        obtain ⟨e, he, hfront'⟩ := hfront₂ method rfl
        rw [← htypes₂] at htyp
        obtain ⟨state, s₃, hstate, hpasses₃, htypes₃, hmethods₃, hpicks⟩ :=
          pickState_ok hserves selector method hs₂ hpasses₂.holds
        have hpasses := hpasses₂.trans hpasses₃
        rw [← htypes₃] at htyp
        rw [← hmethods₃] at he
        rw [bind_eq_bind, bind_some]
        dsimp only
        rw [hstate]
        cases state with
        | none =>
          have hvain : ∀ x ∈ S, x.entryMethod = some method → selector x = false := by
            intro x hx heq
            simpa [heq] using hpicks.2 rfl x hx
          obtain ⟨s₄, hdrop, hpasses₄, hlt⟩ := dropMethod_passes hpasses.consistent
            hpasses.holds htyp he hfront' hvain
          have hsize₃ : s₃.size = s₂.size := by rw [size, size, htypes₃, hmethods₃]
          obtain ⟨r, s', hpick, hanswers⟩ :=
            ih (by omega) hpasses₄.consistent hpasses₄.holds
          refine ⟨r, s', ?_, (hpasses.trans hpasses₄).answers hanswers⟩
          rw [bind_eq_bind, bind_some]
          dsimp only
          rw [hdrop]
          exact hpick
        | some x =>
          refine ⟨some x, s₃, rfl, hpasses, ?_, nofun⟩
          rintro x' ⟨⟩
          obtain ⟨hmem, hselected⟩ := hpicks.1 x rfl
          obtain ⟨hentry, hselector⟩ := Bool.and_eq_true_iff.mp hselected
          have hin : method ∈ methodsOf s₃.methodEnumerators typ := by
            rw [methodsOf_of_tryFind he]
            exact mem_append_left _ (mem_of_head? hfront')
          have hdeclared := hpasses.consistent.declared typ method hin
          exact ⟨hmem, hselector, method, by simpa using hentry,
            hpasses.offers method ⟨hdeclared ▸ htyp, hdeclared ▸ hin⟩⟩

/-- `Pick` answers. -/
theorem pick_ok (selector : StateRef M → Bool)
    (hs : Consistent setting s) (hholds : holds s.baseSearcher S) :
    ∃ r s', pick setting selector s = some (r, s') ∧ Answers setting holds S selector s r s' :=
  pickLoop_ok hserves (Nat.lt_succ_self _) hs hholds

end

/-! ### The first state -/

section

omit [DecidableEq M]

theorem tryFind_foldl_table {f : T → FairEnumerator M} (types : List T) (typ : T) :
    tryFind ((types.map fun typ => (typ, f typ)).foldl (fun d e => Dictionary.set e.1 e.2 d) [])
      typ = if typ ∈ types then some (f typ) else none := by
  split
  case isTrue htyp =>
    have hkey : typ ∈ keys ((types.map fun typ => (typ, f typ)).foldl
        (fun d e => Dictionary.set e.1 e.2 d) []) :=
      Dictionary.mem_keys_foldl_set.mpr (.inl (by simpa using htyp))
    obtain ⟨e, he⟩ := ne_none_iff_exists'.mp fun hnone =>
      tryFind_eq_none_iff.mp hnone hkey
    rcases Dictionary.tryFind_foldl_set he with hmem | ⟨-, hnil⟩
    · obtain ⟨typ', -, heq⟩ := List.mem_map.mp hmem
      cases heq
      exact he
    · cases hnil
  case isFalse htyp =>
    refine tryFind_eq_none_iff.mpr fun hkey => htyp ?_
    rcases Dictionary.mem_keys_foldl_set.mp hkey with hmem | hnil
    · simpa using hmem
    · cases hnil

/-- The enumerator of a type, as `init` makes it. -/
def enumeratorOf (setting : FairSetting M T) (methods : List M) (typ : T) : FairEnumerator M :=
  create ((methods.filter fun m => setting.declaringType m = typ).insertionSort
    fun m m' => setting.getCallsCount m ≤ setting.getCallsCount m')

/-- The searcher that `init` makes. -/
def initial (setting : FairSetting M T) (base : searcher.State) (methods : List M)
    (times : Times) : FairSearcher searcher T where
  baseSearcher := base
  methodEnumerators := (groupByType setting methods).foldl (fun d e => Dictionary.set e.1
    (create (e.2.insertionSort fun m m' => setting.getCallsCount m ≤ setting.getCallsCount m')) d) []
  typeEnumerator := create ((groupByType setting methods).map Prod.fst)
  times := times

variable {base : searcher.State} {methods : List M} {times : Times}

theorem tryFind_initial (typ : T) :
    tryFind (initial setting base methods times).methodEnumerators typ =
      if typ ∈ HashSet.unionWith [] (methods.map setting.declaringType) then
        some (enumeratorOf setting methods typ)
      else none := by
  have hfind := tryFind_foldl_table (f := enumeratorOf setting methods)
    (HashSet.unionWith [] (methods.map setting.declaringType)) typ
  rw [foldl_map] at hfind
  rw [initial, groupByType, foldl_map]
  exact hfind

theorem mem_enumeratorOf :
    m ∈ (enumeratorOf setting methods typ).elements ↔
      m ∈ methods ∧ setting.declaringType m = typ := by
  rw [elements, enumeratorOf, create, append_nil, (perm_insertionSort _ _).mem_iff,
    mem_filter, decide_eq_true_eq]

theorem consistent_initial (setting : FairSetting M T) (base : searcher.State) (times : Times)
    (hmethods : methods.Nodup) :
    Consistent setting (initial setting base methods times) ∧
      ∀ m ∈ methods, Offers setting (initial setting base methods times) m := by
  have htypes : (initial setting base methods times).typeEnumerator.elements =
      HashSet.unionWith [] (methods.map setting.declaringType) := by
    rw [initial, elements, create, append_nil, groupByType, List.map_map]
    exact List.map_id' _
  have hmethodsOf (typ : T) : methodsOf (initial setting base methods times).methodEnumerators typ =
      if typ ∈ HashSet.unionWith [] (methods.map setting.declaringType) then
        (enumeratorOf setting methods typ).elements
      else [] := by
    rw [methodsOf, tryFind_initial]
    split <;> rfl
  refine ⟨⟨?_, fun typ htyp => ?_, fun typ => ?_, fun typ m hm => ?_⟩, fun m hm => ⟨?_, ?_⟩⟩
  · rw [htypes]
    exact HashSet.nodup_unionWith nodup_nil _
  · rw [htypes] at htyp
    rw [tryFind_initial, if_pos htyp]
    rfl
  · rw [hmethodsOf]
    split
    · rw [elements, enumeratorOf, create, append_nil]
      exact (perm_insertionSort _ _).nodup_iff.mpr (hmethods.filter _)
    · exact nodup_nil
  · rw [hmethodsOf] at hm
    split at hm
    · exact (mem_enumeratorOf.mp hm).2
    · cases hm
  · rw [htypes]
    simpa using ⟨m, hm, rfl⟩
  · rw [hmethodsOf, if_pos (by simpa using ⟨m, hm, rfl⟩)]
    exact mem_enumeratorOf.mpr ⟨hm, rfl⟩

end

/-- The methods of the initial states are in turn. -/
theorem init_ok (setting : FairSetting M T) (hserves : Serves searcher accepts holds)
    {initialStates : List (StateRef M)} (hinit : accepts.init initialStates) :
    ∃ (s : FairSearcher searcher T) (S : Set (StateRef M)), init setting initialStates = some s ∧
      Consistent setting s ∧ holds s.baseSearcher S ∧
      ∀ x ∈ S, ∃ m, x.entryMethod = some m ∧ Offers setting s m := by
  obtain ⟨st, S, hst, hholds, hentry⟩ := hserves.init initialStates hinit
  obtain ⟨methods, hmethods, hall⟩ := mapM_some (f := StateRef.entryMethod)
    (R := fun x m => x.entryMethod = some m) (l := searcher.states st) fun x hx => by
      obtain ⟨m, hm⟩ := isSome_iff_exists.mp
        (isNone_eq_false_iff.mp (hentry x ((hserves.states st S hholds x).mp hx)))
      exact ⟨m, hm, hm⟩
  obtain ⟨hconsistent, hoffers⟩ := consistent_initial setting st
    ⟨setting.timeoutMillis, 0, 0, false⟩ (HashSet.nodup_unionWith nodup_nil methods)
  refine ⟨_, S, ?_, hconsistent, hholds, fun x hx => ?_⟩
  · rw [init, hst, bind_eq_bind, bind_some, hmethods]
    rfl
  · obtain ⟨m, hm, hxm⟩ := forall₂_mem_left hall ((hserves.states st S hholds x).mpr hx)
    exact ⟨m, hxm, hoffers m (by simpa using hm)⟩

/-! ### Runs -/

/-- The calls that the base searcher takes, with states that have entry methods. -/
def Allowed (accepts : Accepts M) (s : FairSearcher searcher T) : Operation M → Prop
  | .update parent newStates => accepts.update {x | x ∈ s.states} parent newStates ∧
      ∀ x ∈ newStates, x.isIsolated = false
  | .remove cilState => accepts.remove cilState
  | .pick _ => True

/-- New states come to methods in turn, and a selector is satisfied by a state of each method in
turn that has any. -/
def Careful (setting : FairSetting M T) (s : FairSearcher searcher T) : Operation M → Prop
  | .update _ newStates => ∀ x ∈ newStates, ∃ m, x.entryMethod = some m ∧ Offers setting s m
  | .remove _ => True
  | .pick selector => ∀ m, Offers setting s m → (∃ x ∈ s.states, x.entryMethod = some m) →
      ∃ x ∈ s.states, x.entryMethod = some m ∧ selector x = true

/-- `None` is the answer only when no state that is held satisfies the selector. -/
def NoneIfNone (selector : StateRef M → Bool) (s : FairSearcher searcher T)
    (r : Option (StateRef M)) : Prop := r = none → ∀ x ∈ s.states, selector x = false

/-- When a state that is held satisfies the selector, one of a method in turn does. -/
def InTurn (setting : FairSetting M T) (selector : StateRef M → Bool)
    (s : FairSearcher searcher T) : Prop :=
  (∃ x ∈ s.states, selector x = true) →
    ∃ x ∈ s.states, selector x = true ∧ ∃ m, x.entryMethod = some m ∧ Offers setting s m

/-- What holds in all runs: the base searcher stands for a set of states. -/
def Running (setting : FairSetting M T) (holds : searcher.State → Set (StateRef M) → Prop)
    (s : FairSearcher searcher T) : Prop :=
  Consistent setting s ∧ ∃ S, holds s.baseSearcher S

/-- A step, and the states that are held after it. -/
theorem step_ok (hserves : Serves searcher accepts holds) (start : FairSearcher searcher T)
    (hs : Consistent setting s) (hholds : holds s.baseSearcher S) (hallowed : Allowed accepts s op)
    (hstep : (system setting start).step s op = some s') :
    Consistent setting s' ∧ (s.times.usedUp = true → s'.times.usedUp = true) ∧
      ∃ S', holds s'.baseSearcher S' ∧ match op with
        | .update _ newStates => S' = S ∪ {x | x ∈ newStates} ∧
            ∀ m, Offers setting s' m ↔ Offers setting s m
        | .remove cilState => S' = S \ {cilState} ∧ ∀ m, Offers setting s' m ↔ Offers setting s m
        | .pick selector => S' = S ∧ Passes setting holds S selector s s' := by
  have hstates : {x | x ∈ s.states} = S := Set.ext (hserves.states _ S hholds)
  cases op with
  | update parent newStates =>
    obtain ⟨st', hst, hholds'⟩ :=
      hserves.update s.baseSearcher S parent newStates hholds (hstates ▸ hallowed.1)
    have hs' : update parent newStates s = some s' := hstep
    rw [update, hst] at hs'
    cases hs'
    exact ⟨⟨hs.nodup, hs.created, hs.methods, hs.declared⟩, id, _, hholds', rfl, fun _ => Iff.rfl⟩
  | remove cilState =>
    obtain ⟨st', hst, hholds'⟩ := hserves.remove s.baseSearcher S cilState hholds hallowed
    have hs' : remove cilState s = some s' := hstep
    rw [remove, hst] at hs'
    cases hs'
    exact ⟨⟨hs.nodup, hs.created, hs.methods, hs.declared⟩, id, _, hholds', rfl, fun _ => Iff.rfl⟩
  | pick selector =>
    obtain ⟨r, s₁, hpick, hanswers⟩ := pick_ok hserves selector hs hholds
    obtain ⟨p, hp, rfl⟩ := map_eq_some_iff.mp hstep
    rw [hpick] at hp
    cases hp
    exact ⟨hanswers.consistent, hanswers.usedUp, S, hanswers.holds, rfl, hanswers.toPasses⟩

theorem Running.step (hserves : Serves searcher accepts holds) (start : FairSearcher searcher T)
    (h : Running setting holds s) (hallowed : Allowed accepts s op)
    (hstep : (system setting start).step s op = some s') : Running setting holds s' := by
  obtain ⟨hs, S, hholds⟩ := h
  obtain ⟨hs', -, S', hholds', -⟩ := step_ok hserves start hs hholds hallowed hstep
  exact ⟨hs', S', hholds'⟩

omit [DecidableEq M] in
theorem noneIfNone_iff (hserves : Serves searcher accepts holds) {r : Option (StateRef M)}
    (hholds : holds s.baseSearcher S) (h : Answers setting holds S selector s r s')
    (hused : s'.times.usedUp = false) :
    NoneIfNone selector s r ↔ InTurn setting selector s := by
  have hstates : ∀ x, x ∈ s.states ↔ x ∈ S := hserves.states _ S hholds
  constructor
  · rintro hnone ⟨x, hx, hselector⟩
    cases r with
    | none => exact Bool.noConfusion ((hnone rfl x hx).symm.trans hselector)
    | some y =>
      obtain ⟨hy, hyselector, hoffers⟩ := h.found y rfl
      exact ⟨y, (hstates y).mpr hy, hyselector, hoffers⟩
  · rintro hturn hr x hx
    refine eq_false_of_ne_true fun hselector => ?_
    obtain ⟨y, hy, hyselector, m, hm, hoffers⟩ := hturn ⟨x, hx, hselector⟩
    have hvain := h.dropped hused m hoffers (h.exhausted hr hused m) y ((hstates y).mp hy) hm
    exact Bool.noConfusion (hvain.symm.trans hyselector)

/-- With careful steps every state that is held is of a method in turn. -/
theorem careful_invariant (hserves : Serves searcher accepts holds)
    {start : FairSearcher searcher T} (hs : Consistent setting start)
    (hholds : holds start.baseSearcher S)
    (hoffers : ∀ x ∈ S, ∃ m, x.entryMethod = some m ∧ Offers setting start m)
    (hreach : (system setting start).Reaches
      (fun s op => Allowed accepts s op ∧ Careful setting s op) s) :
    Consistent setting s ∧ ∃ S', holds s.baseSearcher S' ∧ (s.times.usedUp = false →
      ∀ x ∈ S', ∃ m, x.entryMethod = some m ∧ Offers setting s m) := by
  refine hreach.invariant (P := fun s => Consistent setting s ∧ ∃ S', holds s.baseSearcher S' ∧
    (s.times.usedUp = false → ∀ x ∈ S', ∃ m, x.entryMethod = some m ∧ Offers setting s m))
    ⟨hs, S, hholds, fun _ => hoffers⟩ ?_
  rintro s op s' ⟨hs, S, hholds, hoffers⟩ ⟨hallowed, hcareful⟩ hstep
  have hstates : ∀ x, x ∈ s.states ↔ x ∈ S := hserves.states _ S hholds
  obtain ⟨hs', hused, S', hholds', hop⟩ := step_ok hserves start hs hholds hallowed hstep
  refine ⟨hs', S', hholds', fun hclean x hx => ?_⟩
  have hoffers := hoffers (usedUp_false hused hclean)
  cases op with
  | update parent newStates =>
    obtain ⟨rfl, hsame⟩ := hop
    rcases hx with hx | hx
    · obtain ⟨m, hm, hoffered⟩ := hoffers x hx
      exact ⟨m, hm, (hsame m).mpr hoffered⟩
    · obtain ⟨m, hm, hoffered⟩ := hcareful x hx
      exact ⟨m, hm, (hsame m).mpr hoffered⟩
  | remove cilState =>
    obtain ⟨rfl, hsame⟩ := hop
    obtain ⟨m, hm, hoffered⟩ := hoffers x hx.1
    exact ⟨m, hm, (hsame m).mpr hoffered⟩
  | pick selector =>
    obtain ⟨rfl, hpasses⟩ := hop
    obtain ⟨m, hm, hoffered⟩ := hoffers x hx
    refine ⟨m, hm, ?_⟩
    by_contra hnot
    -- a method that is dropped has no state that satisfies the selector
    obtain ⟨y, hy, hym, hselector⟩ := hcareful m hoffered ⟨x, (hstates x).mpr hx, hm⟩
    have hvain := hpasses.dropped hclean m hoffered hnot y ((hstates y).mp hy) hym
    exact Bool.noConfusion (hvain.symm.trans hselector)

/-- In every state of every run with time left, `Pick` finds a state that is held exactly when one
of a method in turn will do; and it always does when all steps are careful. -/
theorem forgets_nothing_iff (setting : FairSetting M T) (hserves : Serves searcher accepts holds)
    {initialStates : List (StateRef M)} (hinit : accepts.init initialStates) :
    ∃ start : FairSearcher searcher T, init setting initialStates = some start ∧
      (∀ s, (system setting start).Reaches (Allowed accepts) s → ∀ selector, ∃ r s',
        pick setting selector s = some (r, s') ∧ (s'.times.usedUp = false →
          (NoneIfNone selector s r ↔ InTurn setting selector s))) ∧
      ∀ s, (system setting start).Reaches
          (fun s op => Allowed accepts s op ∧ Careful setting s op) s → ∀ selector, ∃ r s',
        pick setting selector s = some (r, s') ∧ (s'.times.usedUp = false →
          NoneIfNone selector s r) := by
  obtain ⟨start, S, hstart, hs, hholds, hoffers⟩ := init_ok setting hserves hinit
  refine ⟨start, hstart, fun s hreach selector => ?_, fun s hreach selector => ?_⟩
  · have hrunning : Running setting holds s :=
      System.Reaches.invariant (P := Running setting holds) ⟨hs, S, hholds⟩
        (fun _ _ _ h hallowed hstep => Running.step hserves start h hallowed hstep) hreach
    obtain ⟨hs, S, hholds⟩ := hrunning
    obtain ⟨r, s', hpick, hanswers⟩ := pick_ok hserves selector hs hholds
    exact ⟨r, s', hpick, noneIfNone_iff hserves hholds hanswers⟩
  · obtain ⟨hs, S, hholds, hoffers⟩ := careful_invariant hserves hs hholds hoffers hreach
    obtain ⟨r, s', hpick, hanswers⟩ := pick_ok hserves selector hs hholds
    refine ⟨r, s', hpick, fun hused => (noneIfNone_iff hserves hholds hanswers hused).mpr ?_⟩
    rintro ⟨x, hx, hselector⟩
    exact ⟨x, hx, hselector, hoffers (usedUp_false hanswers.usedUp hused) x
      ((hserves.states _ S hholds x).mp hx)⟩

/-! ### Two methods -/

/-- The calls of the searchers that implement a set of states. -/
def plainAccepts (M : Type) : Accepts M where
  init := EntryDistinct
  update S parent newStates := parent ∈ S ∧ Fresh S parent newStates
  remove x := x.isIsolated = false

omit [DecidableEq M] in
/-- Searchers that implement a set of states serve as base searchers. -/
theorem serves_of_simulates (h : searcher.Simulates holds) :
    Serves searcher (plainAccepts M) holds where
  init initialStates hinit :=
    let ⟨st, hst, hholds⟩ := h.init initialStates hinit
    ⟨st, _, hst, hholds, hinit.1⟩
  states := h.states
  update st S parent newStates hholds haccepts :=
    h.update st S parent newStates hholds haccepts.1 haccepts.2
  pickSelected := h.pickSelected
  remove := h.remove

/-- A clock that stands still, and methods of one type. -/
def stillSetting : FairSetting ℕ Unit where
  declaringType _ := ()
  getCallsCount _ := 0
  getCurrentCoverage _ _ := 0
  clock _ := 0
  timeoutMillis := 1000

/-- A state of each of two methods. -/
def twoStates : List (StateRef ℕ) := [⟨0, some 0⟩, ⟨1, some 1⟩]

theorem forgets_nothing_iff_two :
    ∃ start : FairSearcher (bfsSearcher ℕ) Unit, init stillSetting twoStates = some start ∧
      (∀ s, (system stillSetting start).Reaches (Allowed (plainAccepts ℕ)) s →
        ∀ selector, ∃ r s', pick stillSetting selector s = some (r, s') ∧
          (s'.times.usedUp = false → (NoneIfNone selector s r ↔ InTurn stillSetting selector s))) ∧
      ∀ s, (system stillSetting start).Reaches
          (fun s op => Allowed (plainAccepts ℕ) s op ∧ Careful stillSetting s op) s →
        ∀ selector, ∃ r s', pick stillSetting selector s = some (r, s') ∧
          (s'.times.usedUp = false → NoneIfNone selector s r) :=
  let ⟨_, hsimulates⟩ := bfsSearcher_implements (M := ℕ)
  forgets_nothing_iff stillSetting (serves_of_simulates hsimulates) ⟨by decide, by decide⟩

/-- Both methods are in turn. -/
def bothInTurn : FairSearcher (bfsSearcher ℕ) Unit :=
  ⟨twoStates, [((), create [0, 1])], create [()], ⟨1000, 0, 0, false⟩⟩

/-- The first method has been dropped, as the selector asked for the second state. -/
def oneInTurn : FairSearcher (bfsSearcher ℕ) Unit :=
  ⟨twoStates, [((), ⟨[1], [], some 0⟩)], ⟨[()], [], some 0⟩, ⟨1000, 0, 5, false⟩⟩

/-- The first state is asked for after the second has been, and is not found. -/
theorem not_noneIfNone_two : (∃ holds, Serves (bfsSearcher ℕ) (plainAccepts ℕ) holds) ∧
    EntryDistinct twoStates ∧
    ∃ start s s' : FairSearcher (bfsSearcher ℕ) Unit, init stillSetting twoStates = some start ∧
      (system stillSetting start).Reaches (Allowed (plainAccepts ℕ)) s ∧
      pick stillSetting (fun x => x.internalId = 0) s = some (none, s') ∧
      s'.times.usedUp = false ∧ ¬ NoneIfNone (fun x => x.internalId = 0) s none := by
  obtain ⟨holds, hsimulates⟩ := bfsSearcher_implements (M := ℕ)
  refine ⟨⟨holds, serves_of_simulates hsimulates⟩, ⟨by decide, by decide⟩, ?_⟩
  refine ⟨bothInTurn, oneInTurn,
    ⟨twoStates, [((), ⟨[], [], none⟩)], ⟨[], [], none⟩, ⟨1000, 0, 10, false⟩⟩,
    rfl, ?_, rfl, rfl, ?_⟩
  · have hstep : (system stillSetting bothInTurn).step bothInTurn
        (.pick fun x => x.internalId = 1) = some oneInTurn := rfl
    refine .step .start ?_ hstep
    trivial
  · exact fun h => Bool.noConfusion (h rfl ⟨0, some 0⟩ mem_cons_self)

end FairSearcher

end VSharp.Explorer
