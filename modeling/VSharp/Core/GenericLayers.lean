import Mathlib.Data.Finset.Card
import VSharp.Library.Layers
import VSharp.Library.Results
import VSharp.Utils.Collections

/-!
# Core — Generic layers

`VSharp.SILI.Core/TypeSolverUtils.fs`, `GenericUtils`: the order in which generic parameters are
solved.  The constraints of a parameter are walked for the parameters they mention, the graph is
turned round, a depth-first search looks for cycles, and what depends on nothing is taken away
layer by layer.

* `makeLayers` — the functions of the source on one another's results, on dictionaries that are
  enumerated as they were filled.  Depths are unbounded integers.
* `Mentions`, `Collects` — a parameter mentioned anywhere in a type, and one that `getDependencies`
  comes upon: it does not look into arrays.
* `SolvedInOrder` — cycles are reported, and the layers follow the dependencies.
* `solvedInOrder_iff` — which sets of parameters are solved in order.
-/

namespace VSharp.Core.GenericLayers
open Library Library.Layers PersistentDict Relation List Dictionary

/-! ### Dependencies of a type -/

/-- A type of a constraint, as far as its parameters go. -/
inductive ConstraintType (P : Type) where
  | parameter (p : P)
  | generic (arguments : List (ConstraintType P))
  | array (element : ConstraintType P)
  | other

variable {P : Type}

mutual

def getDependencies (acc : List P × ℤ) : ConstraintType P → List P × ℤ
  | .parameter t => (t :: acc.1, max 0 acc.2)
  | .generic arguments =>
    let found := foldDependencies (acc.1, 0) arguments
    (found.1, max (found.2 + 1) acc.2)
  | .array _ => (acc.1, max 0 acc.2)
  | .other => (acc.1, max 0 acc.2)

/-- `Array.fold getDependencies`. -/
def foldDependencies (acc : List P × ℤ) : List (ConstraintType P) → List P × ℤ
  | [] => acc
  | t :: ts => foldDependencies (getDependencies acc t) ts

end

/-- The parameter occurs in the type. -/
inductive Mentions (q : P) : ConstraintType P → Prop where
  | parameter : Mentions q (.parameter q)
  | generic {t : ConstraintType P} {arguments : List (ConstraintType P)} (ht : t ∈ arguments)
      (h : Mentions q t) : Mentions q (.generic arguments)
  | array {t : ConstraintType P} (h : Mentions q t) : Mentions q (.array t)

/-- The parameter occurs in the type outside arrays. -/
inductive Collects (q : P) : ConstraintType P → Prop where
  | parameter : Collects q (.parameter q)
  | generic {t : ConstraintType P} {arguments : List (ConstraintType P)} (ht : t ∈ arguments)
      (h : Collects q t) : Collects q (.generic arguments)

theorem Collects.mentions {q : P} {t : ConstraintType P} (h : Collects q t) : Mentions q t := by
  induction h with
  | parameter => exact .parameter
  | generic ht _ ih => exact .generic ht ih

mutual

theorem mem_getDependencies {q : P} (acc : List P × ℤ) : (t : ConstraintType P) →
    (q ∈ (getDependencies acc t).1 ↔ q ∈ acc.1 ∨ Collects q t)
  | .parameter p => by
      rw [getDependencies, mem_cons]
      constructor
      · rintro (rfl | h)
        · exact .inr .parameter
        · exact .inl h
      · rintro (h | h)
        · exact .inr h
        · cases h
          exact .inl rfl
  | .generic arguments => by
      rw [getDependencies, mem_foldDependencies (acc.1, 0) arguments]
      refine or_congr_right ⟨fun ⟨t, ht, h⟩ => .generic ht h, ?_⟩
      rintro (- | ⟨ht, h⟩)
      exact ⟨_, ht, h⟩
  | .array element => by
      rw [getDependencies]
      exact ⟨.inl, fun h => h.resolve_right nofun⟩
  | .other => by
      rw [getDependencies]
      exact ⟨.inl, fun h => h.resolve_right nofun⟩

theorem mem_foldDependencies {q : P} (acc : List P × ℤ) : (ts : List (ConstraintType P)) →
    (q ∈ (foldDependencies acc ts).1 ↔ q ∈ acc.1 ∨ ∃ t ∈ ts, Collects q t)
  | [] => by simp [foldDependencies]
  | t :: ts => by
      rw [foldDependencies, mem_foldDependencies _ ts, mem_getDependencies acc t, or_assoc]
      simp

end

/-! ### Layers -/

variable [DecidableEq P] {ν ω : Type} {ks parameters : List P} {k : P}

inductive Failure where
  | keyNotFound
  | duplicateKey
  | outOfFuel
deriving DecidableEq

/-- `dict[key]`. -/
def item {ν : Type} (d : Pdict P ν) (key : P) : Except Failure ν :=
  match tryFind d key with
  | some v => .ok v
  | none => .error .keyNotFound

/-- `dict.Add(key, value)`. -/
def addKey {ν : Type} (key : P) (value : ν) (d : Pdict P ν) : Except Failure (Pdict P ν) :=
  if key ∈ keys d then .error .duplicateKey else .ok (Dictionary.set key value d)

def addParameterDependencies (constraints : P → List (ConstraintType P))
    (acc : Pdict P (List P) × Pdict P ℤ) (typ : P) :
    Except Failure (Pdict P (List P) × Pdict P ℤ) := do
  let found := foldDependencies ([], 0) (constraints typ)
  let dependencies ← addKey typ found.1 acc.1
  let maxDepths ← addKey typ found.2 acc.2
  return (dependencies, maxDepths)

/-- `collectDependencies`, where `constraints` stands for `GetGenericParameterConstraints`. -/
def collectDependencies (parameters : List P) (constraints : P → List (ConstraintType P)) :
    Except Failure (Pdict P (List P) × Pdict P ℤ) :=
  parameters.foldlM (addParameterDependencies constraints) ([], [])

/-- The body of the inner loop of `reverseDependencies`. -/
def reverseEdge (parameter : P) (acc : Pdict P (List P) × Pdict P ℤ) (dep : P) :
    Except Failure (Pdict P (List P) × Pdict P ℤ) := do
  let count ← item acc.2 parameter
  let found ← item acc.1 dep
  return (Dictionary.set dep (parameter :: found) acc.1, Dictionary.set parameter (count + 1) acc.2)

/-- The first loop of `reverseDependencies`. -/
def addEmpty (acc : Pdict P (List P) × Pdict P ℤ) (key : P) :
    Except Failure (Pdict P (List P) × Pdict P ℤ) := do
  let reversedDeps ← addKey key [] acc.1
  let depsCounts ← addKey key 0 acc.2
  return (reversedDeps, depsCounts)

def reverseDependencies (dependencies : Pdict P (List P)) :
    Except Failure (Pdict P (List P) × Pdict P ℤ) := do
  let empty ← (keys dependencies).foldlM addEmpty ([], [])
  dependencies.foldlM (fun acc e => e.2.foldlM (reverseEdge e.1) acc) empty

/-- The variables of `refineMaxDepths` that are assigned to. -/
structure Marks (P : Type) where
  newMaxDepths : Pdict P ℤ
  isCycled : Bool

/-- The body of the loop of `dfs`, where `dfs` is the recursive call. -/
def visit (maxDepths : Pdict P ℤ) (dfs : P → Marks P → Except Failure (ℤ × Marks P))
    (acc : ℤ × Marks P) (dep : P) : Except Failure (ℤ × Marks P) :=
  match tryFind acc.2.newMaxDepths dep with
  | some depth =>
    if depth = -1 then .ok (acc.1, { acc.2 with isCycled := true })
    else do
      let own ← item maxDepths dep
      return (max acc.1 (depth + own), acc.2)
  | none => do
      let found ← dfs dep acc.2
      return (max acc.1 found.1, found.2)

/-- `dfs` of `refineMaxDepths`. -/
def dfs (dependencies : Pdict P (List P)) (maxDepths : Pdict P ℤ) :
    ℕ → P → Marks P → Except Failure (ℤ × Marks P)
  | 0, _, _ => .error .outOfFuel
  | fuel + 1, t, marks => do
      let newMaxDepths ← addKey t (-1) marks.newMaxDepths
      let deps ← item dependencies t
      let found ← deps.foldlM (visit maxDepths (dfs dependencies maxDepths fuel))
        (0, { marks with newMaxDepths })
      let own ← item maxDepths t
      return (found.1 + own,
        { found.2 with newMaxDepths := Dictionary.set t found.1 found.2.newMaxDepths })

/-- The loop of `refineMaxDepths`. -/
def refineKey (dependencies : Pdict P (List P)) (maxDepths : Pdict P ℤ) (fuel : ℕ)
    (marks : Marks P) (key : P) : Except Failure (Marks P) :=
  if key ∈ keys marks.newMaxDepths then .ok marks
  else do
    let found ← dfs dependencies maxDepths fuel key marks
    return found.2

def refineMaxDepths (fuel : ℕ) (dependencies : Pdict P (List P)) (maxDepths : Pdict P ℤ) :
    Except Failure (Marks P) :=
  (keys dependencies).foldlM (refineKey dependencies maxDepths fuel) ⟨[], false⟩

/-- `counts[dep] <- counts[dep] - 1`. -/
def decrement (counts : Pdict P ℤ) (dep : P) : Except Failure (Pdict P ℤ) := do
  let count ← item counts dep
  return Dictionary.set dep (count - 1) counts

/-- The last loop of `layerDependencies`, for one of the zeroes. -/
def release (dependencies : Pdict P (List P)) (counts : Pdict P ℤ) (zero : P) :
    Except Failure (Pdict P ℤ) := do
  let deps ← item dependencies zero
  deps.foldlM decrement counts

/-- `zeroes` of `layerDependencies`. -/
def zeroes (counts : Pdict P ℤ) : List P := (counts.filter fun e => e.2 = 0).map Prod.fst

def layerDependencies (dependencies : Pdict P (List P)) :
    ℕ → Pdict P ℤ → Except Failure (List (List P))
  | 0, _ => .error .outOfFuel
  | fuel + 1, counts =>
    if counts.length = 0 then .ok []
    else do
      let left := (zeroes counts).foldl (fun counts zero => remove zero counts) counts
      let released ← (zeroes counts).foldlM (release dependencies) left
      let layers ← layerDependencies dependencies fuel released
      return zeroes counts :: layers

def distinct (deps : List P) : List P := HashSet.unionWith [] deps

/-- What `makeLayers` returns. -/
structure Solution (P : Type) where
  layers : List (List P)
  maxDepths : Pdict P ℤ
  isCycled : Bool

/-- `makeLayers`.  Every value of `dependencies` is replaced, so the loop over them is a map. -/
def makeLayers (fuel : ℕ) (parameters : List P) (constraints : P → List (ConstraintType P)) :
    Except Failure (Solution P) := do
  let collected ← collectDependencies parameters constraints
  let dependencies := collected.1.map fun e => (e.1, distinct e.2)
  let reversed ← reverseDependencies dependencies
  let refined ← refineMaxDepths fuel reversed.1 collected.2
  let layers ←
    if refined.isCycled then .ok [] else layerDependencies reversed.1 fuel reversed.2
  return ⟨layers, refined.newMaxDepths, refined.isCycled⟩

/-! ### Dictionaries -/

theorem item_ok {d : Pdict P ν} {key : P} {v : ν} (h : tryFind d key = some v) :
    item d key = .ok v := by
  rw [item, h]

/-- The dictionary filled with one value for each key. -/
def table {ν : Type} (f : P → ν) (ks : List P) : Pdict P ν := ks.map fun k => (k, f k)

omit [DecidableEq P] in
@[simp] theorem keys_table (f : P → ν) (ks : List P) : keys (table f ks) = ks := by
  rw [PersistentDict.keys, table, List.map_map]
  exact map_id' ks

theorem tryFind_table (f : P → ν) (hk : k ∈ ks) : tryFind (table f ks) k = some (f k) := by
  induction ks with
  | nil => cases hk
  | cons k' ks ih =>
    rw [table, map_cons, tryFind_cons]
    by_cases h : k' = k
    · rw [if_pos h, h]
    · rw [if_neg h]
      exact ih ((mem_cons.mp hk).resolve_left (Ne.symm h))

theorem addKey_table (f : P → ν) (hk : k ∉ ks) :
    addKey k (f k) (table f ks) = .ok (table f (ks ++ [k])) := by
  have hkeys : k ∉ keys (table f ks) := by rwa [keys_table]
  rw [addKey, if_neg hkeys, Dictionary.set, if_neg hkeys, table, table, map_append]
  rfl

omit [DecidableEq P] in
theorem foldlM_table {β : Type} {step : β → P × ν → Except Failure β} (f : P → ν) (ks : List P)
    (b : β) : (table f ks).foldlM step b = ks.foldlM (fun b k => step b (k, f k)) b :=
  foldlM_map ..

omit [DecidableEq P] in
theorem map_table (f : P → ν) (g : ν → ω) (ks : List P) :
    (table f ks).map (fun e => (e.1, g e.2)) = table (fun k => g (f k)) ks :=
  List.map_map ..

/-- What `addParameterDependencies` adds for a parameter. -/
def foundFor (constraints : P → List (ConstraintType P)) (p : P) : List P :=
  (foldDependencies ([], 0) (constraints p)).1

def depthFor (constraints : P → List (ConstraintType P)) (p : P) : ℤ :=
  (foldDependencies ([], 0) (constraints p)).2

/-- The dictionaries of tables over distinct keys are filled one key after another. -/
theorem foldlM_tables {f : P → ν} {g : P → ω}
    {step : Pdict P ν × Pdict P ω → P → Except Failure (Pdict P ν × Pdict P ω)}
    (hstep : ∀ acc p, step acc p = (do
      let first ← addKey p (f p) acc.1
      let second ← addKey p (g p) acc.2
      return (first, second))) (hset : parameters.Nodup) :
    parameters.foldlM step ([], []) = .ok (table f parameters, table g parameters) := by
  obtain ⟨filled, hfilled, rfl⟩ := foldlM_nodup (f := step)
    (P := fun done acc => acc = (table f done, table g done)) hset
    (fun done p acc _ hp hacc => by
      refine ⟨_, ?_, rfl⟩
      rw [hstep, hacc]
      exact (bind_ok (addKey_table f hp) _).trans (bind_ok (addKey_table g hp) _))
    rfl
  exact hfilled

theorem collectDependencies_ok {constraints : P → List (ConstraintType P)} (hset : parameters.Nodup)
    :
    collectDependencies parameters constraints =
      .ok (table (foundFor constraints) parameters, table (depthFor constraints) parameters) :=
  foldlM_tables (fun _ _ => rfl) hset

/-! ### Counting dependencies -/

section
variable {S T : P → P → Prop} {counts : Pdict P ℤ} {reversed : Pdict P (List P)} {p q : P}

/-- The count of each key `p` is the number of the `q` with `S p q`. -/
def Counts (S : P → P → Prop) (counts : Pdict P ℤ) : Prop :=
  ∀ p ∈ keys counts, ∃ l : List P, l.Nodup ∧ (∀ q, q ∈ l ↔ S p q) ∧
    tryFind counts p = some (l.length : ℤ)

/-- The list of each key `q` has every `p` with `S p q`, once. -/
def Reverses (S : P → P → Prop) (reversed : Pdict P (List P)) : Prop :=
  ∀ q ∈ keys reversed, ∃ l : List P, l.Nodup ∧ (∀ p, p ∈ l ↔ S p q) ∧ tryFind reversed q = some l

theorem Counts.congr (h : Counts S counts) (hiff : ∀ p ∈ keys counts, ∀ q, S p q ↔ T p q) :
    Counts T counts := by
  intro p hp
  obtain ⟨l, hl, hmem, hfind⟩ := h p hp
  exact ⟨l, hl, fun q => (hmem q).trans (hiff p hp q), hfind⟩

theorem Reverses.congr (h : Reverses S reversed) (hiff : ∀ p q, S p q ↔ T p q) :
    Reverses T reversed := by
  intro q hq
  obtain ⟨l, hl, hmem, hfind⟩ := h q hq
  exact ⟨l, hl, fun p => (hmem p).trans (hiff p q), hfind⟩

section
variable (h : Counts S counts) (hp : p ∈ keys counts)

include h hp

/-- A count that changes with what it counts, the others being left. -/
theorem Counts.set (hother : ∀ p' q', p' ≠ p → (S p' q' ↔ T p' q')) {l : List P} (hl : l.Nodup)
    (hmem : ∀ q, q ∈ l ↔ T p q) : Counts T (Dictionary.set p (l.length : ℤ) counts) := by
  intro p' hp'
  rw [keys_set_of_mem _ hp] at hp'
  rw [tryFind_set]
  by_cases heq : p' = p
  · subst heq
    exact ⟨l, hl, hmem, if_pos rfl⟩
  · obtain ⟨l', hl', hmem', hfind⟩ := h p' hp'
    exact ⟨l', hl', fun q => (hmem' q).trans (hother p' q heq), (if_neg heq).trans hfind⟩

theorem Counts.increment (hnew : ¬ S p q) :
    ∃ n, tryFind counts p = some n ∧
      Counts (fun p' q' => S p' q' ∨ p' = p ∧ q' = q) (Dictionary.set p (n + 1) counts) := by
  obtain ⟨l, hl, hmem, hfind⟩ := h p hp
  have hlength : ((q :: l).length : ℤ) = l.length + 1 := by simp
  refine ⟨_, hfind, ?_⟩
  rw [← hlength]
  refine h.set hp (fun p' q' hne => by simp [hne])
    (nodup_cons.mpr ⟨fun hq => hnew ((hmem q).mp hq), hl⟩) fun q' => ?_
  rw [mem_cons, hmem]
  simp [or_comm]

theorem Counts.decrement (hq : S p q) :
    ∃ n, tryFind counts p = some n ∧
      Counts (fun p' q' => S p' q' ∧ ¬ (p' = p ∧ q' = q)) (Dictionary.set p (n - 1) counts) := by
  obtain ⟨l, hl, hmem, hfind⟩ := h p hp
  have hlength : ((l.erase q).length : ℤ) = l.length - 1 := by
    have hpos := length_pos_of_mem ((hmem q).mpr hq)
    rw [length_erase_of_mem ((hmem q).mpr hq)]
    omega
  refine ⟨_, hfind, ?_⟩
  rw [← hlength]
  refine h.set hp (fun p' q' hne => by simp [hne]) (hl.erase q) fun q' => ?_
  rw [hl.mem_erase_iff, hmem]
  simp [and_comm]

end

theorem Reverses.push (h : Reverses S reversed) (hq : q ∈ keys reversed) (hnew : ¬ S p q) :
    ∃ l, tryFind reversed q = some l ∧
      Reverses (fun p' q' => S p' q' ∨ p' = p ∧ q' = q) (Dictionary.set q (p :: l) reversed) := by
  obtain ⟨l, hl, hmem, hfind⟩ := h q hq
  refine ⟨l, hfind, fun q' hq' => ?_⟩
  rw [keys_set_of_mem _ hq] at hq'
  rw [tryFind_set]
  by_cases heq : q' = q
  · subst heq
    refine ⟨p :: l, nodup_cons.mpr ⟨fun hp => hnew ((hmem p).mp hp), hl⟩, fun p' => ?_, if_pos rfl⟩
    rw [mem_cons, hmem]
    simp [or_comm]
  · obtain ⟨l', hl', hmem', hfind'⟩ := h q' hq'
    exact ⟨l', hl', fun p' => by simp [hmem', heq], (if_neg heq).trans hfind'⟩

end

/-! ### The reversed graph -/

section
variable {parameters : List P} {S : P → P → Prop} {acc : Pdict P (List P) × Pdict P ℤ} {p q : P}

/-- The dictionaries of `reverseDependencies`, when the dependencies `S` are counted. -/
structure Reversed (parameters : List P) (S : P → P → Prop)
    (acc : Pdict P (List P) × Pdict P ℤ) : Prop where
  keys_fst : keys acc.1 = parameters
  keys_snd : keys acc.2 = parameters
  reverses : Reverses S acc.1
  counts : Counts S acc.2

theorem Reversed.congr {T : P → P → Prop} (h : Reversed parameters S acc)
    (hiff : ∀ p q, S p q ↔ T p q) : Reversed parameters T acc :=
  ⟨h.keys_fst, h.keys_snd, h.reverses.congr hiff, h.counts.congr fun p _ => hiff p⟩

theorem reverseEdge_ok (h : Reversed parameters S acc) (hp : p ∈ parameters)
    (hq : q ∈ parameters) (hnew : ¬ S p q) : ∃ acc', reverseEdge p acc q = .ok acc' ∧
      Reversed parameters (fun p' q' => S p' q' ∨ p' = p ∧ q' = q) acc' := by
  have hkey : p ∈ keys acc.2 := h.keys_snd ▸ hp
  have hkey' : q ∈ keys acc.1 := h.keys_fst ▸ hq
  obtain ⟨n, hn, hcounts⟩ := h.counts.increment hkey hnew
  obtain ⟨l, hl, hreverses⟩ := h.reverses.push hkey' hnew
  refine ⟨_, (bind_ok (item_ok hn) _).trans (bind_ok (item_ok hl) _), ?_, ?_, hreverses, hcounts⟩
  · exact (keys_set_of_mem _ hkey').trans h.keys_fst
  · exact (keys_set_of_mem _ hkey).trans h.keys_snd

/-- The dependencies of one parameter. -/
theorem foldlM_reverseEdge_ok (h : Reversed parameters S acc) (hp : p ∈ parameters)
    {deps : List P} (hdeps : ∀ q ∈ deps, q ∈ parameters) (hnodup : deps.Nodup)
    (hfresh : ∀ q, ¬ S p q) : ∃ acc', deps.foldlM (reverseEdge p) acc = .ok acc' ∧
      Reversed parameters (fun p' q' => S p' q' ∨ p' = p ∧ q' ∈ deps) acc' := by
  refine foldlM_nodup (P := fun done acc =>
    Reversed parameters (fun p' q' => S p' q' ∨ p' = p ∧ q' ∈ done) acc) hnodup ?_
    (h.congr fun p' q' => by simp)
  intro done q acc hmem hq hacc
  obtain ⟨acc', hacc', hreversed⟩ := reverseEdge_ok hacc hp (hdeps q hmem) (by simp [hfresh q, hq])
  refine ⟨acc', hacc', hreversed.congr fun p' q' => ?_⟩
  rw [mem_append, mem_singleton, or_assoc, ← and_or_left]

variable {deps : P → List P}

theorem reverseDependencies_ok (hset : parameters.Nodup) (hnodup : ∀ p, (deps p).Nodup)
    (hclosed : ∀ p ∈ parameters, ∀ q ∈ deps p, q ∈ parameters) :
    ∃ acc, reverseDependencies (table deps parameters) = .ok acc ∧
      Reversed parameters (fun p q => p ∈ parameters ∧ q ∈ deps p) acc := by
  have hempty : parameters.foldlM addEmpty ([], []) =
      .ok (table (fun _ => []) parameters, table (fun _ => 0) parameters) :=
    foldlM_tables (fun _ _ => rfl) hset
  have hstart : Reversed parameters (fun p q => p ∈ ([] : List P) ∧ q ∈ deps p)
      (table (fun _ => []) parameters, table (fun _ => 0) parameters) := by
    refine ⟨keys_table _ _, keys_table _ _, fun q hq => ?_, fun p hp => ?_⟩
    · rw [keys_table] at hq
      exact ⟨[], nodup_nil, by simp, tryFind_table _ hq⟩
    · rw [keys_table] at hp
      exact ⟨[], nodup_nil, by simp, tryFind_table _ hp⟩
  obtain ⟨acc, hacc, hreversed⟩ := foldlM_nodup
    (f := fun acc p => (deps p).foldlM (reverseEdge p) acc)
    (P := fun done acc => Reversed parameters (fun p q => p ∈ done ∧ q ∈ deps p) acc) hset
    (fun done p acc hmem hp hacc => by
      obtain ⟨acc', hacc', hreversed⟩ := foldlM_reverseEdge_ok hacc hmem (hclosed p hmem)
        (hnodup p) (by simp [hp])
      refine ⟨acc', hacc', hreversed.congr fun p' q' => ?_⟩
      rw [mem_append, mem_singleton, or_and_right]
      refine or_congr_right (and_congr_right fun heq => ?_)
      rw [heq])
    hstart
  refine ⟨acc, ?_, hreversed⟩
  rw [reverseDependencies, keys_table, bind_ok hempty, foldlM_table]
  exact hacc

end

/-! ### The search for cycles -/

section
variable {parameters : List P} {E : P → P → Prop} {reversed : Pdict P (List P)}
  {maxDepths : Pdict P ℤ} {grey : P → Prop} {done : List P} {marks marks' : Marks P} {t p : P}

/-- The dictionaries `dfs` reads hold the graph `E` over the parameters. -/
structure Graph (parameters : List P) (E : P → P → Prop) (reversed : Pdict P (List P))
    (maxDepths : Pdict P ℤ) : Prop where
  successors : ∀ t ∈ parameters, ∃ l, tryFind reversed t = some l ∧ ∀ p, p ∈ l ↔ E t p
  closed : ∀ t ∈ parameters, ∀ p, E t p → p ∈ parameters
  depths : ∀ t ∈ parameters, ∃ depth, tryFind maxDepths t = some depth

/-- The marks during the search, with the vertices in progress and those that are done. -/
structure Searched (E : P → P → Prop) (grey : P → Prop) (done : List P) (marks : Marks P) :
    Prop where
  grey_iff : ∀ t, grey t ↔ tryFind marks.newMaxDepths t = some (-1)
  done_iff : ∀ t, t ∈ done ↔ ∃ depth, tryFind marks.newMaxDepths t = some depth ∧ depth ≠ -1
  topological : marks.isCycled = false → Topological E done
  cycle : marks.isCycled = true → ∃ t, TransGen E t t

theorem Searched.mem_keys_iff (h : Searched E grey done marks) :
    t ∈ keys marks.newMaxDepths ↔ grey t ∨ t ∈ done := by
  rw [h.grey_iff, h.done_iff]
  constructor
  · intro hkey
    obtain ⟨depth, hdepth⟩ := Option.ne_none_iff_exists'.mp fun hnone =>
      tryFind_eq_none_iff.mp hnone hkey
    by_cases heq : depth = -1
    · exact .inl (heq ▸ hdepth)
    · exact .inr ⟨depth, hdepth, heq⟩
  · rintro (hfind | ⟨depth, hfind, -⟩)
    · exact mem_keys_of_tryFind hfind
    · exact mem_keys_of_tryFind hfind

theorem Searched.notMem_done (h : Searched E grey done marks) (hgrey : grey t) : t ∉ done := by
  intro hdone
  obtain ⟨depth, hfind, hne⟩ := (h.done_iff t).mp hdone
  rw [(h.grey_iff t).mp hgrey] at hfind
  exact hne (Option.some.inj hfind).symm

/-- The parameters that have no mark yet. -/
def unseen (parameters : List P) (marks : Marks P) : ℕ :=
  (parameters.toFinset.filter fun t => t ∉ keys marks.newMaxDepths).card

theorem unseen_lt (hsub : ∀ p, p ∈ keys marks.newMaxDepths → p ∈ keys marks'.newMaxDepths)
    (ht : t ∈ parameters) (hnew : t ∉ keys marks.newMaxDepths)
    (hseen : t ∈ keys marks'.newMaxDepths) :
    unseen parameters marks' < unseen parameters marks := by
  refine Finset.card_lt_card ((Finset.ssubset_iff_of_subset ?_).mpr ⟨t, ?_, ?_⟩)
  · exact Finset.monotone_filter_right _ fun p _ hp hkey => hp (hsub p hkey)
  · simpa using ⟨ht, hnew⟩
  · simp [hseen]

/-- `newMaxDepths.Add(t, -1)`. -/
theorem Searched.enter (h : Searched E grey done marks) (hnew : t ∉ keys marks.newMaxDepths) :
    Searched E (fun p => grey p ∨ p = t) done
      { marks with newMaxDepths := Dictionary.set t (-1) marks.newMaxDepths } := by
  refine ⟨fun p => ?_, fun p => ?_, h.topological, h.cycle⟩
  · rw [tryFind_set, h.grey_iff]
    by_cases heq : p = t
    · simp [heq]
    · simp [heq]
  · rw [tryFind_set, h.done_iff]
    by_cases heq : p = t
    · have hnone : tryFind marks.newMaxDepths t = none := tryFind_eq_none_iff.mpr hnew
      simp [heq, hnone]
    · simp [heq]

/-- `newMaxDepths[t] <- maxDepth`. -/
theorem Searched.leave {maxDepth : ℤ} (h : Searched E (fun p => grey p ∨ p = t) done marks)
    (hgrey : ¬ grey t) (hdepth : 0 ≤ maxDepth)
    (hnext : marks.isCycled = false → ∀ p, E t p → p ∈ done) :
    Searched E grey (t :: done)
      { marks with newMaxDepths := Dictionary.set t maxDepth marks.newMaxDepths } := by
  refine ⟨fun p => ?_, fun p => ?_, fun hcycled => ?_, h.cycle⟩
  · rw [tryFind_set]
    by_cases heq : p = t
    · have hne : maxDepth ≠ -1 := by omega
      simp [heq, hgrey, hne]
    · simp [heq, ← h.grey_iff]
  · rw [tryFind_set, mem_cons]
    by_cases heq : p = t
    · have hne : maxDepth ≠ -1 := by omega
      simp [heq, hne]
    · simp [heq, h.done_iff]
  · exact .cons (h.notMem_done (.inr rfl)) (hnext hcycled) (h.topological hcycled)

/-- `isCycled <- true`. -/
theorem Searched.cycled (h : Searched E grey done marks) (hcycle : TransGen E t t) :
    Searched E grey done { marks with isCycled := true } :=
  ⟨h.grey_iff, h.done_iff, nofun, fun _ => ⟨t, hcycle⟩⟩

/-- What the search of `t` comes to. -/
def Finds (E : P → P → Prop) (grey : P → Prop) (done : List P) (marks : Marks P) (t : P)
    (result : Except Failure (ℤ × Marks P)) : Prop :=
  ∃ found done', result = .ok found ∧ Searched E grey done' found.2 ∧ done ⊆ done' ∧ t ∈ done' ∧
    (marks.isCycled = true → found.2.isCycled = true)

/-- The loop of `dfs`, with `visited` behind it. -/
structure Visiting (E : P → P → Prop) (grey : P → Prop) (start : List P) (marks : Marks P)
    (visited : List P) (acc : ℤ × Marks P) : Prop where
  depth : 0 ≤ acc.1
  searched : ∃ done, Searched E grey done acc.2 ∧ start ⊆ done ∧
    (acc.2.isCycled = false → ∀ p ∈ visited, p ∈ done)
  cycled : marks.isCycled = true → acc.2.isCycled = true

section
variable (hgraph : Graph parameters E reversed maxDepths) {fuel : ℕ}

include hgraph

/-- One step of the loop, where the recursive call finds what has no mark. -/
theorem visit_ok {rec : P → Marks P → Except Failure (ℤ × Marks P)} {start visited : List P}
    {acc : ℤ × Marks P} (hacc : Visiting E grey start marks visited acc) (hp : p ∈ parameters)
    (hgrey : grey p → ∃ t, TransGen E t t)
    (hrec : ∀ done, Searched E grey done acc.2 → start ⊆ done → p ∉ keys acc.2.newMaxDepths →
      Finds E grey done acc.2 p (rec p acc.2)) :
    ∃ acc', visit maxDepths rec acc p = .ok acc' ∧
      Visiting E grey start marks (visited ++ [p]) acc' := by
  obtain ⟨done, hsearched, hstart, hvisited⟩ := hacc.searched
  rw [visit]
  cases hfind : tryFind acc.2.newMaxDepths p with
  | none =>
    obtain ⟨found, done', hfound, hsearched', hsub, hmem, hcycled⟩ :=
      hrec done hsearched hstart (tryFind_eq_none_iff.mp hfind)
    refine ⟨_, bind_ok hfound _, le_max_of_le_left hacc.depth, ⟨done', hsearched',
      List.Subset.trans hstart hsub, fun hclean q hq => ?_⟩, hcycled ∘ hacc.cycled⟩
    have hclean' : acc.2.isCycled = false :=
      eq_false_of_ne_true fun h => Bool.noConfusion ((hcycled h).symm.trans hclean)
    rcases mem_append.mp hq with hq | hq
    · exact hsub (hvisited hclean' q hq)
    · exact mem_singleton.mp hq ▸ hmem
  | some depth =>
    by_cases hmark : depth = -1
    · -- an edge to a vertex in progress closes a cycle
      obtain ⟨t, ht⟩ := hgrey ((hsearched.grey_iff p).mpr (hmark ▸ hfind))
      exact ⟨_, if_pos hmark, hacc.depth, ⟨done, hsearched.cycled ht, hstart, nofun⟩, fun _ => rfl⟩
    · obtain ⟨own, hown⟩ := hgraph.depths p hp
      refine ⟨_, (if_neg hmark).trans (bind_ok (item_ok hown) _), le_max_of_le_left hacc.depth,
        ⟨done, hsearched, hstart, fun hclean q hq => ?_⟩, hacc.cycled⟩
      rcases mem_append.mp hq with hq | hq
      · exact hvisited hclean q hq
      · rw [mem_singleton.mp hq]
        exact (hsearched.done_iff p).mpr ⟨depth, hfind, hmark⟩

/-- The search returns, and what is in progress stays so. -/
theorem dfs_ok (hsearched : Searched E grey done marks) (ht : t ∈ parameters)
    (hnew : t ∉ keys marks.newMaxDepths) (hgrey : ∀ g, grey g → TransGen E g t)
    (hfuel : unseen parameters marks < fuel) :
    Finds E grey done marks t (dfs reversed maxDepths fuel t marks) := by
  induction fuel generalizing grey done marks t with
  | zero => exact absurd hfuel (Nat.not_lt_zero _)
  | succ fuel ih =>
    obtain ⟨deps, hdeps, hedge⟩ := hgraph.successors t ht
    obtain ⟨own, hown⟩ := hgraph.depths t ht
    have hnotGrey : ¬ grey t := fun h => hnew (hsearched.mem_keys_iff.mpr (.inl h))
    have henter := hsearched.enter hnew
    -- every vertex in progress has an edge chain to the one that is visited
    have hreach : ∀ p, E t p → ∀ g, (grey g ∨ g = t) → TransGen E g p := by
      rintro p hp g (hg | rfl)
      · exact (hgrey g hg).tail hp
      · exact .single hp
    obtain ⟨acc, hacc, hvisiting⟩ := foldlM_ok (d := []) (l := deps)
      (f := visit maxDepths (dfs reversed maxDepths fuel))
      (b := (0, { marks with newMaxDepths := Dictionary.set t (-1) marks.newMaxDepths }))
      (P := Visiting E (fun p => grey p ∨ p = t) done marks)
      (fun visited acc p hp hacc => by
        have hp := (hedge p).mp hp
        have hmem := hgraph.closed t ht p hp
        refine visit_ok hgraph hacc hmem (fun h => ⟨p, hreach p hp p h⟩) ?_
        intro done' hsearched' hsub hnew'
        refine ih hsearched' hmem hnew' (hreach p hp) ?_
        have hlt : unseen parameters acc.2 < unseen parameters marks := by
          refine unseen_lt (fun q hq => ?_) ht hnew (hsearched'.mem_keys_iff.mpr (.inl (.inr rfl)))
          rw [hsearched'.mem_keys_iff]
          rcases hsearched.mem_keys_iff.mp hq with hq | hq
          · exact .inl (.inl hq)
          · exact .inr (hsub hq)
        omega)
      ⟨le_rfl, ⟨done, henter, List.Subset.refl _, fun _ => nofun⟩, id⟩
    obtain ⟨done', hsearched', hsub, hvisited⟩ := hvisiting.searched
    refine ⟨(acc.1 + own, { acc.2 with
        newMaxDepths := Dictionary.set t acc.1 acc.2.newMaxDepths }), t :: done', ?_,
      hsearched'.leave hnotGrey hvisiting.depth
      fun hclean p hp => hvisited hclean p ?_, fun _ h => mem_cons_of_mem _ (hsub h),
      mem_cons_self, hvisiting.cycled⟩
    · rw [dfs, addKey, if_neg hnew]
      exact (bind_ok rfl _).trans ((bind_ok (item_ok hdeps) _).trans
        ((bind_ok hacc _).trans (bind_ok (item_ok hown) _)))
    · exact mem_append_right _ ((hedge p).mpr hp)

/-- The whole search: with no cycle reported every parameter has its successors behind it. -/
theorem refineMaxDepths_ok (hkeys : keys reversed = parameters) (hfuel : parameters.length < fuel) :
    ∃ marks, refineMaxDepths fuel reversed maxDepths = .ok marks ∧
      (marks.isCycled = true → ∃ t, TransGen E t t) ∧
      (marks.isCycled = false → ∃ done, Topological E done ∧ ∀ t ∈ parameters, t ∈ done) := by
  have hunseen : ∀ marks, unseen parameters marks < fuel := fun marks =>
    ((Finset.card_filter_le _ _).trans (toFinset_card_le _)).trans_lt hfuel
  obtain ⟨marks, hmarks, done, hsearched, hall⟩ := foldlM_ok (d := []) (l := parameters)
    (f := refineKey reversed maxDepths fuel) (b := ⟨[], false⟩)
    (P := fun visited marks => ∃ done, Searched E (fun _ => False) done marks ∧
      ∀ t ∈ visited, t ∈ done)
    (fun visited marks t ht ⟨done, hsearched, hall⟩ => by
      rw [refineKey]
      by_cases hkey : t ∈ keys marks.newMaxDepths
      · refine ⟨marks, if_pos hkey, done, hsearched, fun p hp => ?_⟩
        rcases mem_append.mp hp with hp | hp
        · exact hall p hp
        · exact mem_singleton.mp hp ▸ (hsearched.mem_keys_iff.mp hkey).resolve_left id
      · obtain ⟨found, done', hfound, hsearched', hsub, hmem, -⟩ :=
          dfs_ok hgraph hsearched ht hkey nofun (hunseen marks)
        refine ⟨_, (if_neg hkey).trans (bind_ok hfound _), done', hsearched', fun p hp => ?_⟩
        rcases mem_append.mp hp with hp | hp
        · exact hsub (hall p hp)
        · exact mem_singleton.mp hp ▸ hmem)
    ⟨[], ⟨by simp [tryFind], by simp [tryFind], fun _ => .nil, nofun⟩, nofun⟩
  refine ⟨marks, ?_, hsearched.cycle, fun hclean => ⟨done, hsearched.topological hclean, hall⟩⟩
  rw [refineMaxDepths, hkeys]
  exact hmarks

end

end

/-! ### The rounds of the layering -/

section
variable {parameters : List P} {r S : P → P → Prop} {reversed : Pdict P (List P)}
  {counts : Pdict P ℤ} {n : ℕ} {p q : P}

/-- The counts of the parameters with a chain of `n` steps. -/
structure Counted (parameters : List P) (r : P → P → Prop) (n : ℕ) (S : P → P → Prop)
    (counts : Pdict P ℤ) : Prop where
  wf : Wf counts
  keys_iff : ∀ p, p ∈ keys counts ↔ p ∈ parameters ∧ HasChain r n p
  counts : Counts S counts

/-- The counts when `n` layers have been taken away. -/
def Round (parameters : List P) (r : P → P → Prop) (n : ℕ) (counts : Pdict P ℤ) : Prop :=
  Counted parameters r n (fun p q => r p q ∧ HasChain r n q) counts

theorem Counted.congr {T : P → P → Prop} (h : Counted parameters r n S counts)
    (hiff : ∀ p ∈ parameters, ∀ q, S p q ↔ T p q) : Counted parameters r n T counts :=
  ⟨h.wf, h.keys_iff, h.counts.congr fun p hp => hiff p ((h.keys_iff p).mp hp).1⟩

omit [DecidableEq P] in
theorem zeroes_nodup (h : Wf counts) : (zeroes counts).Nodup := h.filter _

theorem mem_zeroes (h : Wf counts) : p ∈ zeroes counts ↔ tryFind counts p = some 0 := by
  rw [tryFind_eq_some_iff h, zeroes, mem_map]
  constructor
  · rintro ⟨⟨k, n⟩, hmem, rfl⟩
    obtain ⟨hmem, hzero⟩ := mem_filter.mp hmem
    have hzero : n = 0 := by simpa using hzero
    exact hzero ▸ hmem
  · intro hmem
    exact ⟨(p, 0), mem_filter.mpr ⟨hmem, by simp⟩, rfl⟩

/-- The zeroes are what the round takes. -/
theorem Round.mem_zeroes (h : Round parameters r n counts) :
    p ∈ zeroes counts ↔ p ∈ parameters ∧ HasChain r n p ∧ ¬ HasChain r (n + 1) p := by
  rw [GenericLayers.mem_zeroes h.wf, ← and_assoc, ← h.keys_iff]
  constructor
  · intro hfind
    have hkey := mem_keys_of_tryFind hfind
    obtain ⟨l, -, hmem, hlength⟩ := h.counts p hkey
    have hnil : l = [] := by
      rw [hfind] at hlength
      exact length_eq_zero_iff.mp (by simpa using hlength.symm)
    refine ⟨hkey, fun ⟨q, hq⟩ => ?_⟩
    have hmem := (hmem q).mpr hq
    rw [hnil] at hmem
    cases hmem
  · rintro ⟨hkey, hlast⟩
    obtain ⟨l, -, hmem, hlength⟩ := h.counts p hkey
    have hnil : l = [] := eq_nil_iff_forall_not_mem.mpr fun q hq => hlast ⟨q, (hmem q).mp hq⟩
    rw [hlength, hnil]
    rfl

theorem tryFind_foldl_remove (removed : List P) (counts : Pdict P ℤ) (p : P) :
    tryFind (removed.foldl (fun counts zero => remove zero counts) counts) p =
      if p ∈ removed then none else tryFind counts p := by
  induction removed generalizing counts with
  | nil => simp
  | cons z removed ih =>
    rw [foldl_cons, ih, tryFind_remove]
    by_cases hp : p ∈ removed
    · simp [hp]
    · simp [hp]

theorem wf_foldl_remove (removed : List P) (h : Wf counts) :
    Wf (removed.foldl (fun counts zero => remove zero counts) counts) := by
  induction removed generalizing counts with
  | nil => exact h
  | cons z removed ih => exact ih (h.remove z)

/-- `counts.Remove(zero)` of all zeroes. -/
theorem Round.remove (h : Round parameters r n counts) :
    Counted parameters r (n + 1) (fun p q => r p q ∧ HasChain r n q)
      ((zeroes counts).foldl (fun counts zero => remove zero counts) counts) := by
  refine ⟨wf_foldl_remove _ h.wf, fun p => ?_, fun p hp => ?_⟩
  · rw [← not_iff_not, ← tryFind_eq_none_iff, tryFind_foldl_remove]
    split
    case isTrue hlast =>
      exact iff_of_true rfl fun hmem => (h.mem_zeroes.mp hlast).2.2 hmem.2
    case isFalse hlast =>
      rw [tryFind_eq_none_iff, h.keys_iff]
      refine not_congr ⟨fun hmem => ⟨hmem.1, ?_⟩, fun hmem => ⟨hmem.1, hmem.2.pred⟩⟩
      by_contra hlonger
      exact hlast (h.mem_zeroes.mpr ⟨hmem.1, hmem.2, hlonger⟩)
  · have hfind := fun hnone => tryFind_eq_none_iff.mp hnone hp
    rw [tryFind_foldl_remove] at hfind ⊢
    split at hfind
    case isTrue => exact absurd rfl hfind
    case isFalse hlast =>
      rw [if_neg hlast]
      have hkey : p ∈ keys counts := by
        by_contra hnot
        exact hfind (tryFind_eq_none_iff.mpr hnot)
      exact h.counts p hkey

theorem decrement_ok (h : Counted parameters r n S counts) (hp : p ∈ parameters)
    (hchain : HasChain r n p) (hq : S p q) : ∃ counts', decrement counts p = .ok counts' ∧
      Counted parameters r n (fun p' q' => S p' q' ∧ ¬ (p' = p ∧ q' = q)) counts' := by
  have hkey := (h.keys_iff p).mpr ⟨hp, hchain⟩
  obtain ⟨m, hm, hcounts⟩ := h.counts.decrement hkey hq
  refine ⟨_, bind_ok (item_ok hm) _, wf_set h.wf p _, fun p' => ?_, hcounts⟩
  rw [keys_set_of_mem _ hkey]
  exact h.keys_iff p'

/-- The dependencies on one of the zeroes are no longer counted. -/
theorem release_ok {z : P} (hreverses : Reverses r reversed) (hz : z ∈ keys reversed)
    (hparameters : ∀ p, r p z → p ∈ parameters)
    (h : Counted parameters r (n + 1) S counts) (hchain : HasChain r n z)
    (hcounted : ∀ p, r p z → S p z) : ∃ counts', release reversed counts z = .ok counts' ∧
      Counted parameters r (n + 1) (fun p q => S p q ∧ ¬ (r p q ∧ q = z)) counts' := by
  obtain ⟨l, hl, hmem, hfind⟩ := hreverses z hz
  obtain ⟨counts', hcounts', hresult⟩ := foldlM_nodup (f := decrement) (b := counts)
    (P := fun released counts => Counted parameters r (n + 1)
      (fun p q => S p q ∧ ¬ (p ∈ released ∧ q = z)) counts) hl
    (fun released p counts hp hfresh hcounts => by
      have hedge := (hmem p).mp hp
      obtain ⟨counts', hcounts', hresult⟩ := decrement_ok hcounts (hparameters p hedge)
        ⟨z, hedge, hchain⟩ (q := z) ⟨hcounted p hedge, fun hold => hfresh hold.1⟩
      refine ⟨counts', hcounts', hresult.congr fun p' _ q' => ?_⟩
      rw [mem_append, mem_singleton, or_and_right, not_or, and_assoc])
    (h.congr fun p _ q => by simp)
  refine ⟨counts', (bind_ok (item_ok hfind) _).trans hcounts', hresult.congr fun p _ q => ?_⟩
  refine and_congr_right fun _ => not_congr (and_congr_left fun hq => ?_)
  rw [hmem, hq]

section
variable (hreverses : Reverses r reversed) (hkeys : keys reversed = parameters)
  (hclosed : ∀ p q, r p q → p ∈ parameters ∧ q ∈ parameters)

include hreverses hkeys hclosed

/-- One round. -/
theorem round_ok (h : Round parameters r n counts) : ∃ counts',
      (zeroes counts).foldlM (release reversed)
        ((zeroes counts).foldl (fun counts zero => remove zero counts) counts) = .ok counts' ∧
      Round parameters r (n + 1) counts' := by
  obtain ⟨counts', hcounts', hresult⟩ := foldlM_nodup (f := release reversed)
    (P := fun released counts => Counted parameters r (n + 1)
      (fun p q => (r p q ∧ HasChain r n q) ∧ q ∉ released) counts) (zeroes_nodup h.wf)
    (fun released z counts hz hfresh hcounts => by
      obtain ⟨hmem, hchain, -⟩ := h.mem_zeroes.mp hz
      obtain ⟨counts', hcounts', hresult⟩ := release_ok hreverses (hkeys ▸ hmem)
        (fun p hp => (hclosed p z hp).1) hcounts hchain (fun p hp => ⟨⟨hp, hchain⟩, hfresh⟩)
      refine ⟨counts', hcounts', hresult.congr fun p _ q => ?_⟩
      rw [mem_append, mem_singleton, not_or, ← and_assoc]
      exact and_congr_right fun hold => not_congr (and_iff_right hold.1.1))
    (h.remove.congr fun p _ q => by simp)
  refine ⟨counts', hcounts', hresult.congr fun p _ q => ?_⟩
  rw [and_assoc]
  refine and_congr_right fun hedge => ?_
  rw [h.mem_zeroes]
  constructor
  · rintro ⟨hchain, hlast⟩
    by_contra hlonger
    exact hlast ⟨(hclosed p q hedge).2, hchain, hlonger⟩
  · exact fun hlonger => ⟨hlonger.pred, fun hlast => hlast.2.2 hlonger⟩

/-- The loop ends, with a layer for each round. -/
theorem layerDependencies_ok {bound : ℕ} (hbound : ∀ p ∈ parameters, ¬ HasChain r bound p)
    {fuel : ℕ} (hfuel : bound < n + fuel) (hn : n ≤ bound) (h : Round parameters r n counts) :
    ∃ layers, layerDependencies reversed fuel counts = .ok layers ∧
      Layered r (· ∈ parameters) n layers := by
  induction fuel generalizing n counts with
  | zero => omega
  | succ fuel ih =>
    rw [layerDependencies]
    by_cases hempty : counts.length = 0
    · refine ⟨[], if_pos hempty, .nil fun p hp hchain => ?_⟩
      have hkey := (h.keys_iff p).mpr ⟨hp, hchain⟩
      rw [length_eq_zero_iff.mp hempty] at hkey
      cases hkey
    · obtain ⟨⟨p, m⟩, hmem⟩ := exists_mem_of_length_pos (Nat.pos_of_ne_zero hempty)
      obtain ⟨hp, hchain⟩ := (h.keys_iff p).mp (mem_map_of_mem hmem)
      have hlt : n < bound := by
        by_contra hle
        exact hbound p hp (hchain.of_le (Nat.le_of_not_lt hle))
      obtain ⟨last, hlast⟩ := exists_last (S := (· ∈ parameters))
        (fun a b _ hab => (hclosed a b hab).2) hbound hp hchain
      obtain ⟨counts', hcounts', hround⟩ := round_ok hreverses hkeys hclosed h
      obtain ⟨layers, hlayers, hlayered⟩ := ih (by omega) hlt hround
      refine ⟨zeroes counts :: layers, ?_, .cons (zeroes_nodup h.wf) ?_
        (fun a => h.mem_zeroes) hlayered⟩
      · exact (if_neg hempty).trans ((bind_ok hcounts' _).trans (bind_ok hlayers _))
      · exact ne_nil_of_mem (h.mem_zeroes.mpr hlast)

end

end

/-! ### Solving in order -/

section
variable (parameters : List P) (constraints : P → List (ConstraintType P))

omit [DecidableEq P] in
/-- A constraint of the parameter `p` mentions `q`. -/
def Depends (p q : P) : Prop := p ∈ parameters ∧ ∃ t ∈ constraints p, Mentions q t

/-- A constraint of the parameter `p` has `q` outside arrays. -/
def Seen (p q : P) : Prop := p ∈ parameters ∧ ∃ t ∈ constraints p, Collects q t

/-- The constraints mention parameters of the set only. -/
def Closed : Prop := ∀ p q, Depends parameters constraints p q → q ∈ parameters

/-- The layers have every parameter once, and what it depends on before it. -/
structure InOrder (layers : List (List P)) : Prop where
  perm : layers.flatten.Perm parameters
  nonempty : [] ∉ layers
  earlier : ∀ (p q : P) (i j : ℕ) (layer layer' : List P), Depends parameters constraints p q →
    layers[i]? = some layer → p ∈ layer → layers[j]? = some layer' → q ∈ layer' → j < i

/-- Cycles are reported, and without one the layers are in order. -/
structure SolvedInOrder (s : Solution P) : Prop where
  cycled : s.isCycled = true ↔ ∃ p, TransGen (Depends parameters constraints) p p
  layered : s.isCycled = false → InOrder parameters constraints s.layers

variable {parameters constraints} {p q : P}

omit [DecidableEq P] in
theorem Seen.depends (h : Seen parameters constraints p q) : Depends parameters constraints p q :=
  let ⟨hp, t, ht, hq⟩ := h
  ⟨hp, t, ht, hq.mentions⟩

theorem mem_distinct_iff :
    p ∈ parameters ∧ q ∈ distinct (foundFor constraints p) ↔ Seen parameters constraints p q := by
  simp [distinct, foundFor, mem_foldDependencies, Seen]

/-- With every parameter on a topological list, chains are no longer than there are parameters. -/
theorem not_hasChain_length (hclosed : Closed parameters constraints) {done : List P}
    (hdone : Topological (Function.swap (Seen parameters constraints)) done)
    (hall : ∀ t ∈ parameters, t ∈ done) (hp : p ∈ parameters) :
    ¬ HasChain (Seen parameters constraints) parameters.length p := by
  intro hchain
  obtain ⟨b, hb, hpb⟩ := exists_chain_swap (m := 0) trivial hchain
  rw [Nat.zero_add] at hb
  have hmem : b ∈ parameters := by
    induction hpb with
    | refl => exact hp
    | tail _ hstep _ => exact hclosed _ _ hstep.depends
  have htopological := hdone.filter (S := fun t => t ∈ parameters) fun t p _ h => by
    simpa using h.1
  have hlt := htopological.lt_length (by simpa using ⟨hall b hmem, hmem⟩) hb
  have hsub : done.filter (fun t => t ∈ parameters) ⊆ parameters := fun t ht => by
    simpa using (mem_filter.mp ht).2
  exact absurd (htopological.nodup.subperm hsub).length_le (Nat.not_le_of_lt hlt)

/-- What the cycle search and the layering see is the graph `Seen`. -/
theorem makeLayers_ok (hset : parameters.Nodup) (hclosed : Closed parameters constraints)
    {fuel : ℕ} (hfuel : parameters.length < fuel) :
    ∃ s, makeLayers fuel parameters constraints = .ok s ∧
      (s.isCycled = true → ∃ p, TransGen (Seen parameters constraints) p p) ∧
      (s.isCycled = false → (∀ p, ¬ TransGen (Seen parameters constraints) p p) ∧
        Layered (Seen parameters constraints) (· ∈ parameters) 0 s.layers) := by
  have hmem : ∀ p q, Seen parameters constraints p q → p ∈ parameters ∧ q ∈ parameters :=
    fun p q h => ⟨h.1, hclosed p q h.depends⟩
  have hnodup : ∀ p, (distinct (foundFor constraints p)).Nodup := fun p =>
    HashSet.nodup_unionWith nodup_nil _
  obtain ⟨reversed, hreversed, hedges⟩ := reverseDependencies_ok hset hnodup
    fun p hp q hq => (hmem p q (mem_distinct_iff.mp ⟨hp, hq⟩)).2
  have hedges := hedges.congr fun p q => mem_distinct_iff
  have hgraph : Graph parameters (Function.swap (Seen parameters constraints)) reversed.1
      (table (depthFor constraints) parameters) := by
    refine ⟨fun t ht => ?_, fun t _ p hp => (hmem p t hp).1, fun t ht => ⟨_, tryFind_table _ ht⟩⟩
    obtain ⟨l, -, hl, hfind⟩ := hedges.reverses t (hedges.keys_fst ▸ ht)
    exact ⟨l, hfind, hl⟩
  obtain ⟨marks, hmarks, hcycle, hdone⟩ := refineMaxDepths_ok hgraph hedges.keys_fst hfuel
  have hrun : makeLayers fuel parameters constraints = (do
      let layers ←
        if marks.isCycled then .ok [] else layerDependencies reversed.1 fuel reversed.2
      return ⟨layers, marks.newMaxDepths, marks.isCycled⟩) := by
    rw [makeLayers, bind_ok (collectDependencies_ok hset), map_table]
    exact (bind_ok hreversed _).trans (bind_ok hmarks _)
  rw [hrun]
  cases hflag : marks.isCycled with
  | true =>
    obtain ⟨p, hp⟩ := hcycle hflag
    exact ⟨_, rfl, fun _ => ⟨p, transGen_swap.mp hp⟩, fun h => by cases h⟩
  | false =>
    obtain ⟨done, htopological, hall⟩ := hdone hflag
    have hstart : Round parameters (Seen parameters constraints) 0 reversed.2 := by
      refine ⟨by rwa [Wf, hedges.keys_snd], fun p => ?_, hedges.counts.congr fun p _ q => ?_⟩
      · rw [hedges.keys_snd]
        exact (and_iff_left trivial).symm
      · exact (and_iff_left trivial).symm
    obtain ⟨layers, hlayers, hlayered⟩ := layerDependencies_ok hedges.reverses hedges.keys_fst
      hmem (fun p hp => not_hasChain_length hclosed htopological hall hp)
      (by rwa [Nat.zero_add]) (Nat.zero_le _) hstart
    refine ⟨_, bind_ok hlayers _, (fun h => by cases h), fun _ => ⟨fun p hp => ?_, hlayered⟩⟩
    obtain ⟨q, hpq, -⟩ := TransGen.head'_iff.mp hp
    exact htopological.acyclic (hall p hpq.1) (transGen_swap.mpr hp)

omit [DecidableEq P] in
theorem shorter_of_trans (hshorter : ∀ p q, Depends parameters constraints p q →
      Shorter (Seen parameters constraints) q p) (h : TransGen (Depends parameters constraints) p q)
    :
    Shorter (Seen parameters constraints) q p := by
  induction h with
  | single h => exact hshorter _ _ h
  | tail _ h ih => exact ih.trans (hshorter _ _ h)

omit [DecidableEq P] in
theorem inOrder_iff (hset : parameters.Nodup) {layers : List (List P)}
    (hlayered : Layered (Seen parameters constraints) (· ∈ parameters) 0 layers)
    (hclosed : Closed parameters constraints) :
    InOrder parameters constraints layers ↔
      ∀ p q, Depends parameters constraints p q → Shorter (Seen parameters constraints) q p := by
  have hplace : ∀ p ∈ parameters,
      ∃ (i : ℕ) (layer : List P), layers[i]? = some layer ∧ p ∈ layer := by
    intro p hp
    obtain ⟨layer, hlayer, hmem⟩ :=
      List.mem_flatten.mp (hlayered.mem_flatten.mpr ⟨hp, trivial⟩)
    obtain ⟨i, hi⟩ := mem_iff_getElem?.mp hlayer
    exact ⟨i, layer, hi, hmem⟩
  constructor
  · intro h p q hpq
    obtain ⟨i, layer, hi, hp⟩ := hplace p hpq.1
    obtain ⟨j, layer', hj, hq⟩ := hplace q (hclosed p q hpq)
    exact (hlayered.lt_iff hi hp hj hq).mp (h.earlier p q i j layer layer' hpq hi hp hj hq)
  · intro hshorter
    refine ⟨?_, hlayered.nil_notMem, fun p q i j layer layer' hpq hi hp hj hq =>
      (hlayered.lt_iff hi hp hj hq).mpr (hshorter p q hpq)⟩
    refine (perm_ext_iff_of_nodup hlayered.nodup_flatten hset).mpr fun p => ?_
    exact hlayered.mem_flatten.trans (and_iff_left trivial)

/-- The solver returns, and it has solved the parameters in order exactly when a cycle shows outside
arrays, or what a parameter mentions always has shorter chains of dependencies outside arrays. -/
theorem solvedInOrder_iff (fuel : ℕ) (parameters : List P)
    (constraints : P → List (ConstraintType P)) (hset : parameters.Nodup)
    (hclosed : Closed parameters constraints) (hfuel : parameters.length < fuel) :
    ∃ s, makeLayers fuel parameters constraints = .ok s ∧
      (SolvedInOrder parameters constraints s ↔
        (∃ p, TransGen (Seen parameters constraints) p p) ∨
          ∀ p q, Depends parameters constraints p q →
            Shorter (Seen parameters constraints) q p) := by
  obtain ⟨s, hs, hcycled, hlayered⟩ := makeLayers_ok hset hclosed hfuel
  refine ⟨s, hs, ?_⟩
  cases hflag : s.isCycled with
  | true =>
    obtain ⟨p, hp⟩ := hcycled hflag
    have hdepends : TransGen (Depends parameters constraints) p p :=
      TransGen.mono (fun _ _ h => Seen.depends h) p p hp
    exact iff_of_true ⟨iff_of_true hflag ⟨p, hdepends⟩, by simp [hflag]⟩ (.inl ⟨p, hp⟩)
  | false =>
    obtain ⟨hacyclic, hlayered⟩ := hlayered hflag
    have horder := inOrder_iff hset hlayered hclosed
    constructor
    · exact fun h => .inr (horder.mp (h.layered hflag))
    · rintro (⟨p, hp⟩ | hshorter)
      · exact absurd hp (hacyclic p)
      · refine ⟨iff_of_false (by simp [hflag]) fun ⟨p, hp⟩ => ?_, fun _ => horder.mpr hshorter⟩
        exact (shorter_of_trans hshorter hp).irrefl

end

/-! ### Two parameters -/

inductive Name where
  | T
  | U
deriving DecidableEq

/-- `where T : IEnumerable<U>`. -/
def plainConstraints : Name → List (ConstraintType Name)
  | .T => [.generic [.parameter .U]]
  | .U => []

/-- `where T : IEnumerable<U[]>`. -/
def arrayConstraints : Name → List (ConstraintType Name)
  | .T => [.generic [.array (.parameter .U)]]
  | .U => []

theorem closed_all (constraints : Name → List (ConstraintType Name)) :
    Closed [.T, .U] constraints := by
  rintro p (_ | _) -
  · simp
  · simp

theorem solvedInOrder_iff_plain :
    ∃ s, makeLayers 3 [.T, .U] plainConstraints = .ok s ∧
      (SolvedInOrder [.T, .U] plainConstraints s ↔
        (∃ p, TransGen (Seen [.T, .U] plainConstraints) p p) ∨
          ∀ p q, Depends [.T, .U] plainConstraints p q →
            Shorter (Seen [.T, .U] plainConstraints) q p) :=
  solvedInOrder_iff 3 [.T, .U] plainConstraints (by decide) (closed_all _) (by decide)

/-- Both parameters end up in one layer. -/
theorem not_solvedInOrder_array :
    [Name.T, .U].Nodup ∧ Closed [.T, .U] arrayConstraints ∧
      ∃ s, makeLayers 3 [.T, .U] arrayConstraints = .ok s ∧
        ¬ SolvedInOrder [.T, .U] arrayConstraints s := by
  refine ⟨by decide, closed_all _, ⟨[[.T, .U]], [(.T, 0), (.U, 0)], false⟩, rfl, fun h => ?_⟩
  have hdepends : Depends [.T, .U] arrayConstraints .T .U :=
    ⟨by simp, .generic [.array (.parameter .U)], by simp [arrayConstraints],
      .generic mem_cons_self (.array .parameter)⟩
  have hlt := (h.layered rfl).earlier .T .U 0 0 [.T, .U] [.T, .U] hdepends rfl (by simp) rfl
    (by simp)
  exact absurd hlt (Nat.lt_irrefl 0)

end VSharp.Core.GenericLayers
