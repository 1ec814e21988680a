import VSharp.Library.Pruning
import VSharp.Utils.Points

/-!
# Utils — RegionTree

`VSharp.Utils/RegionTree.fs`.  A region tree is a tree indexed by regions: all regions of one node
are disjoint, and the region of a parent includes those of its children (`Invariant`).  The keys
met from the root down at a point `p` are the *history* of `p` (`path`), newest first.

* `splitNode_spec`: splitting a tree by a region gives the histories of the points inside, with
  some filtered keys left out, and those of the points outside, unchanged.
* `write_history`: a write keeps the invariant, pushes its key on the history of every point of its
  region, and changes no other history.
* `append_history`: appending one tree to another composes the histories, whenever no write of the
  appending run hides a key that lives outside the written region (`Contained`).
-/

namespace VSharp
open PersistentDict
open Library (Drops Pruned)

/-- `IRegionTreeKey<'a>`. -/
class IRegionTreeKey (K : Type) where
  hides : K → K → Bool

/-- `regionTree<'key, 'reg>`. -/
inductive RegionTree (K R : Type) where
  | node (d : List (R × K × RegionTree K R))

namespace RegionTree
variable {K R P : Type}

/-- The dictionary of a node. -/
def entries : RegionTree K R → Pdict R (K × RegionTree K R)
  | .node d => d

@[simp] theorem entries_node (d : Pdict R (K × RegionTree K R)) : (node d).entries = d := rfl

def empty : RegionTree K R := .node []

def isEmpty (t : RegionTree K R) : Bool := t.entries.isEmpty

section
variable [DecidableEq R] [HashOrder R] [IRegion R]

mutual

/-- `RegionTree.splitNode`: the part of the tree completely covered by `reg`, without the keys that
`filterOut` takes away where they are met, and the part disjoint from `reg`. -/
def splitNode (filterOut : K → Bool) (reg : R) :
    RegionTree K R → Pdict R (K × RegionTree K R) × Pdict R (K × RegionTree K R)
  | .node d =>
    if d.isEmpty then ([], []) else
    match PersistentDict.tryFind d reg with
    | some (key, .node child) =>
      (if filterOut key then child else [(reg, key, .node child)], PersistentDict.remove reg d)
    | none =>
      -- `PersistentDict.groupBy makeGroup`, read at each of the four groups
      let preserved (c : RegionComparisonResult) := d.filter fun e =>
        !filterOut e.2.1 && decide (IRegion.compareTo reg e.1 = c)
      let filtered := (d.filter fun e => filterOut e.2.1).flatMap fun e => e.2.2.entries
      let included := PersistentDict.ofSeq (filtered ++ preserved .includes)
      let disjoint := PersistentDict.ofSeq (preserved .disjoint)
      let intersected := (splitChildren filterOut reg d).filter fun e =>
        !filterOut e.2.1 && decide (IRegion.compareTo reg e.1 = .intersects)
      intersected.foldl (fun acc e =>
          (PersistentDict.add (IRegion.intersect e.1 reg) (e.2.1, .node e.2.2.1) acc.1,
            PersistentDict.add (IRegion.subtract e.1 reg) (e.2.1, .node e.2.2.2) acc.2))
        (included, disjoint)
termination_by structural t => t

/-- The entries of a node, each with its subtree split. -/
def splitChildren (filterOut : K → Bool) (reg : R) :
    List (R × K × RegionTree K R) →
      List (R × K × Pdict R (K × RegionTree K R) × Pdict R (K × RegionTree K R))
  | [] => []
  | (reg', k, child) :: d =>
    (reg', k, splitNode filterOut reg child) :: splitChildren filterOut reg d
termination_by structural d => d

end

def localize (reg : R) (tree : RegionTree K R) : Pdict R (K × RegionTree K R) :=
  (splitNode (fun _ => false) reg tree).1

def localizeFilterHidden [IRegionTreeKey K] (reg : R) (key : K) (tree : RegionTree K R) :
    Pdict R (K × RegionTree K R) × Pdict R (K × RegionTree K R) :=
  splitNode (IRegionTreeKey.hides key) reg tree

omit [IRegion R] in
/-- `RegionTree.memset`, for regions that have not been written. -/
def memset (regionsAndKeys : List (R × K)) (tree : RegionTree K R) : RegionTree K R :=
  .node (regionsAndKeys.foldl (fun acc e => PersistentDict.add e.1 (e.2, .node []) acc)
    tree.entries)

def commonWrite (reg : R) (key : K) (tree : RegionTree K R) (filter : K → Bool) : RegionTree K R :=
  let split := splitNode filter reg tree
  .node (PersistentDict.add reg (key, .node split.1) split.2)

def write [IRegionTreeKey K] (reg : R) (key : K) (tree : RegionTree K R) : RegionTree K R :=
  commonWrite reg key tree (IRegionTreeKey.hides key)

end

mutual

/-- `RegionTree.foldr`: the subtrees of a node first, then the node, entry by entry. -/
def foldr {α : Type} (folder : R → K → α → α) (acc : α) : RegionTree K R → α
  | .node d => foldrEntries folder acc d
termination_by structural t => t

/-- `RegionTree.foldr` along the entries of a node. -/
def foldrEntries {α : Type} (folder : R → K → α → α) (acc : α) :
    List (R × K × RegionTree K R) → α
  | [] => acc
  | (reg, k, t) :: d => foldrEntries folder (folder reg k (foldr folder acc t)) d
termination_by structural d => d

end

mutual

/-- `RegionTree.foldl`: every node before its subtree, entry by entry. -/
def foldl {α : Type} (folder : α → R → K → α) (acc : α) : RegionTree K R → α
  | .node d => foldlEntries folder acc d
termination_by structural t => t

/-- `RegionTree.foldl` along the entries of a node. -/
def foldlEntries {α : Type} (folder : α → R → K → α) (acc : α) :
    List (R × K × RegionTree K R) → α
  | [] => acc
  | (reg, k, t) :: d => foldlEntries folder (foldl folder (folder acc reg k) t) d
termination_by structural d => d

end

def flatten (tree : RegionTree K R) : List (R × K) := foldr (fun reg k acc => (reg, k) :: acc) [] tree

/-- `RegionTree.append`: the appendix written over the base, oldest key first. -/
def append [DecidableEq R] [HashOrder R] [IRegion R] [IRegionTreeKey K]
    (baseTree appendix : RegionTree K R) : RegionTree K R :=
  foldr write baseTree appendix

/-! ### Histories and the invariant -/

section
variable [ExactRegion R P]
variable {l : List (R × K × RegionTree K R)} {e : R × K × RegionTree K R} {p : P}
  {d : Pdict R (K × RegionTree K R)} {t : RegionTree K R}

open ExactRegion (contains)

mutual

/-- The keys met from the root down at the nodes whose region contains `p`. -/
def path (p : P) : RegionTree K R → List K
  | .node d => pathEntries p d
termination_by structural t => t

/-- `path` along the entries of a node. -/
def pathEntries (p : P) : List (R × K × RegionTree K R) → List K
  | [] => []
  | (reg, k, t) :: d => (if contains reg p then k :: path p t else []) ++ pathEntries p d
termination_by structural d => d

end

/-- The regions of one node are disjoint; the region of a parent includes its children's. -/
inductive Invariant : RegionTree K R → Prop where
  | node {d : Pdict R (K × RegionTree K R)} (wf : PersistentDict.Wf d)
      (disjoint : ∀ e ∈ d, ∀ e' ∈ d, e.1 ≠ e'.1 → ExactRegion.Disjoint e.1 e'.1)
      (included : ∀ e ∈ d, ∀ e' ∈ e.2.2.entries, ExactRegion.Subset e'.1 e.1)
      (subtrees : ∀ e ∈ d, Invariant e.2.2) : Invariant (.node d)

theorem invariant_empty : Invariant (empty : RegionTree K R) :=
  .node wf_nil (by simp) (by simp) (by simp)

/-- Entries a node can be made of: two different ones are disjoint, and each holds a subtree that
keeps to its region.  Unlike the invariant, this does not depend on how the entries are listed. -/
structure Laid (l : List (R × K × RegionTree K R)) : Prop where
  disjoint : ∀ e ∈ l, ∀ e' ∈ l, e ≠ e' → ExactRegion.Disjoint e.1 e'.1
  included : ∀ e ∈ l, ∀ e' ∈ e.2.2.entries, ExactRegion.Subset e'.1 e.1
  subtrees : ∀ e ∈ l, Invariant e.2.2

theorem Invariant.wf (h : Invariant t) : PersistentDict.Wf t.entries := by
  cases h with
  | node wf _ _ _ => exact wf

theorem Invariant.laid (h : Invariant t) : Laid t.entries := by
  cases h with
  | node wf disjoint included subtrees =>
    refine ⟨fun e he e' he' hne => disjoint e he e' he' fun heq => hne ?_, included, subtrees⟩
    obtain ⟨r, v⟩ := e
    obtain ⟨r', v'⟩ := e'
    obtain rfl : r = r' := heq
    rw [wf.val_unique he he']

theorem Laid.invariant (h : Laid l) (wf : PersistentDict.Wf l) : Invariant (.node l) :=
  .node wf (fun e he e' he' hne => h.disjoint e he e' he' fun heq => hne (heq ▸ rfl))
    h.included h.subtrees

theorem Laid.mono {l' : List (R × K × RegionTree K R)} (h : Laid l) (hsub : l' ⊆ l) : Laid l' :=
  ⟨fun e he e' he' => h.disjoint e (hsub he) e' (hsub he'), fun e he => h.included e (hsub he),
    fun e he => h.subtrees e (hsub he)⟩

/-- Two laid entries that share a point are one entry. -/
theorem Laid.eq_of_contains (h : Laid l) {e' : R × K × RegionTree K R} (he : e ∈ l) (he' : e' ∈ l)
    (hp : contains e.1 p = true) (hp' : contains e'.1 p = true) : e = e' := by
  by_contra hne
  rw [h.disjoint e he e' he' hne p hp] at hp'
  cases hp'

/-- Replacing every entry by laid entries inside its region keeps the whole laid. -/
theorem Laid.flatMap (h : Laid l) {f : R × K × RegionTree K R → List (R × K × RegionTree K R)}
    (hf : ∀ o ∈ l, Laid (f o)) (hsub : ∀ o ∈ l, ∀ e ∈ f o, ExactRegion.Subset e.1 o.1) :
    Laid (l.flatMap f) := by
  refine ⟨fun e he e' he' hne => ?_, fun e he => ?_, fun e he => ?_⟩
  · obtain ⟨o, ho, he⟩ := List.mem_flatMap.mp he
    obtain ⟨o', ho', he'⟩ := List.mem_flatMap.mp he'
    by_cases hoo : o = o'
    · subst hoo
      exact (hf o ho).disjoint e he e' he' hne
    · exact (h.disjoint o ho o' ho' hoo).mono (hsub o ho e he) (hsub o' ho' e' he')
  · obtain ⟨o, ho, he⟩ := List.mem_flatMap.mp he
    exact (hf o ho).included e he
  · obtain ⟨o, ho, he⟩ := List.mem_flatMap.mp he
    exact (hf o ho).subtrees e he

/-! ### Reading a history -/

theorem pathEntries_nil (h : ∀ e ∈ l, contains e.1 p = false) : pathEntries p l = [] := by
  induction l with
  | nil => rfl
  | cons e l ih =>
    have he := h e List.mem_cons_self
    simp only [pathEntries, he, Bool.false_eq_true, if_false, List.nil_append]
    exact ih fun e' he' => h e' (List.mem_cons_of_mem _ he')

theorem pathEntries_of_mem (hl : Laid l) (hwf : PersistentDict.Wf l) (he : e ∈ l)
    (hp : contains e.1 p = true) : pathEntries p l = e.2.1 :: path p e.2.2 := by
  induction l with
  | nil => cases he
  | cons b l ih =>
    obtain ⟨hb, hwf'⟩ := List.nodup_cons.mp hwf
    by_cases hbp : contains b.1 p = true
    · obtain rfl := hl.eq_of_contains List.mem_cons_self he hbp hp
      have hrest : pathEntries p l = [] := pathEntries_nil fun e' he' => by
        by_contra hcon
        have := hl.eq_of_contains (List.mem_cons_of_mem _ he') List.mem_cons_self
          (by simpa using hcon) hbp
        exact hb (this ▸ List.mem_map_of_mem (f := Prod.fst) he')
      simp [pathEntries, hbp, hrest]
    · have he' : e ∈ l := (List.mem_cons.mp he).resolve_left fun h => hbp (h ▸ hp)
      have hl' := hl.mono (List.subset_cons_self b l)
      simpa [pathEntries, hbp] using ih hl' hwf' he'

theorem path_of_mem (h : Invariant (.node d)) (he : e ∈ d) (hp : contains e.1 p = true) :
    path p (.node d) = e.2.1 :: path p e.2.2 :=
  pathEntries_of_mem h.laid h.wf he hp

theorem path_nil (h : ∀ e ∈ d, contains e.1 p = false) : path p (.node d) = [] :=
  pathEntries_nil h

/-- The history at `p` only depends on the entries that contain `p`. -/
theorem path_congr {d' : Pdict R (K × RegionTree K R)} (h : Invariant (.node d))
    (h' : Invariant (.node d'))
    (hiff : ∀ e : R × K × RegionTree K R, contains e.1 p = true → (e ∈ d ↔ e ∈ d')) :
    path p (.node d) = path p (.node d') := by
  by_cases hex : ∃ e ∈ d, contains e.1 p = true
  · obtain ⟨e, he, hp⟩ := hex
    rw [path_of_mem h he hp, path_of_mem h' ((hiff e hp).mp he) hp]
  · have hno : ∀ e ∈ d, contains e.1 p = false := fun e he => by
      simpa using fun hp => hex ⟨e, he, hp⟩
    rw [path_nil hno, path_nil fun e he => ?_]
    by_contra hp
    have hp' : contains e.1 p = true := by simpa using hp
    exact hp (hno e ((hiff e hp').mpr he))

/-- The node built from laid entries has them all, as far as points can tell. -/
theorem Laid.invariant_ofSeq [DecidableEq R] [HashOrder R] (h : Laid l) :
    Invariant (.node (PersistentDict.ofSeq l)) :=
  (h.mono fun _ he => mem_of_mem_ofSeq he).invariant (wf_ofSeq l)

theorem Laid.mem_ofSeq [DecidableEq R] [HashOrder R] (h : Laid l) (hp : contains e.1 p = true) :
    e ∈ PersistentDict.ofSeq l ↔ e ∈ l := by
  refine ⟨mem_of_mem_ofSeq, fun he => ?_⟩
  exact mem_ofSeq_of_unique he fun b hb hbe =>
    h.eq_of_contains hb he (hbe ▸ hp) hp

/-! ### Splitting -/

section
variable [DecidableEq R] [HashOrder R]
variable {reg r : R} {d : Pdict R (K × RegionTree K R)} {k key : K} {t : RegionTree K R}
  {side : R → Prop} {inside : P → Prop} {rel : List K → List K → Prop} {filterOut : K → Bool}

/-- Every key that `filterOut` takes away when the tree is split by `reg` has its region inside
`reg`: at a node without the region itself, among the entries, and again below the entries that
`reg` cuts. -/
inductive Contained (filterOut : K → Bool) (reg : R) : RegionTree K R → Prop where
  | found {d : Pdict R (K × RegionTree K R)} (h : reg ∈ PersistentDict.keys d) :
      Contained filterOut reg (.node d)
  | grouped {d : Pdict R (K × RegionTree K R)}
      (hidden : ∀ e ∈ d, filterOut e.2.1 = true → ExactRegion.Subset e.1 reg)
      (cut : ∀ e ∈ d, filterOut e.2.1 = false → IRegion.compareTo reg e.1 = .intersects →
        Contained filterOut reg e.2.2) :
      Contained filterOut reg (.node d)

/-- What one entry of a node leaves in the included part. -/
def includedOf (filterOut : K → Bool) (reg : R) (o : R × K × RegionTree K R) :
    List (R × K × RegionTree K R) :=
  if filterOut o.2.1 then o.2.2.entries else
  match IRegion.compareTo reg o.1 with
  | .includes => [o]
  | .disjoint => []
  | .intersects => [(IRegion.intersect o.1 reg, o.2.1, .node (splitNode filterOut reg o.2.2).1)]

/-- What one entry of a node leaves in the disjoint part. -/
def disjointOf (filterOut : K → Bool) (reg : R) (o : R × K × RegionTree K R) :
    List (R × K × RegionTree K R) :=
  if filterOut o.2.1 then [] else
  match IRegion.compareTo reg o.1 with
  | .includes => []
  | .disjoint => [o]
  | .intersects => [(IRegion.subtract o.1 reg, o.2.1, .node (splitNode filterOut reg o.2.2).2)]

theorem splitChildren_eq (filterOut : K → Bool) (reg : R) (d : List (R × K × RegionTree K R)) :
    splitChildren filterOut reg d = d.map fun e => (e.1, e.2.1, splitNode filterOut reg e.2.2) := by
  induction d with
  | nil => rfl
  | cons e d ih => rw [splitChildren, ih, List.map_cons]

theorem foldl_add_pair {α ν : Type} (f g : α → R × ν) (l : List α) (d d' : Pdict R ν) :
    l.foldl (fun acc e => (PersistentDict.add (f e).1 (f e).2 acc.1,
      PersistentDict.add (g e).1 (g e).2 acc.2)) (d, d') =
    (PersistentDict.append d (l.map f), PersistentDict.append d' (l.map g)) := by
  induction l generalizing d d' with
  | nil => rfl
  | cons e l ih => rw [List.foldl_cons, ih]; rfl

/-- A node that does not hold the region itself is split entry by entry. -/
theorem splitNode_eq (filterOut : K → Bool) (h : PersistentDict.tryFind d reg = none) :
    ∃ s s', splitNode filterOut reg (.node d) = (PersistentDict.ofSeq s, PersistentDict.ofSeq s') ∧
      (∀ e, e ∈ s ↔ e ∈ d.flatMap (includedOf filterOut reg)) ∧
      ∀ e, e ∈ s' ↔ e ∈ d.flatMap (disjointOf filterOut reg) := by
  let preserved (c : RegionComparisonResult) (e : R × K × RegionTree K R) : Bool :=
    !filterOut e.2.1 && decide (IRegion.compareTo reg e.1 = c)
  let f (e : R × K × RegionTree K R) : R × K × RegionTree K R :=
    (IRegion.intersect e.1 reg, e.2.1, .node (splitNode filterOut reg e.2.2).1)
  let g (e : R × K × RegionTree K R) : R × K × RegionTree K R :=
    (IRegion.subtract e.1 reg, e.2.1, .node (splitNode filterOut reg e.2.2).2)
  refine ⟨((d.filter fun e => filterOut e.2.1).flatMap fun e => e.2.2.entries) ++
    d.filter (preserved .includes) ++ (d.filter (preserved .intersects)).map f,
    d.filter (preserved .disjoint) ++ (d.filter (preserved .intersects)).map g, ?_, ?_, ?_⟩
  · cases d with
    | nil => rfl
    | cons b d =>
      simp only [splitNode, List.isEmpty_cons, Bool.false_eq_true, if_false, h, splitChildren_eq,
        List.filter_map, List.foldl_map]
      rw [foldl_add_pair f g]
      simp only [PersistentDict.ofSeq, PersistentDict.append, List.foldl_append]
      rfl
  · intro e
    simp only [List.mem_append, List.mem_flatMap, List.mem_filter, List.mem_map, includedOf]
    constructor
    · rintro ((⟨o, ⟨ho, hf⟩, he⟩ | ⟨ho, hc⟩) | ⟨o, ⟨ho, hc⟩, rfl⟩)
      · exact ⟨o, ho, by simpa [hf] using he⟩
      · simp only [preserved, Bool.and_eq_true, Bool.not_eq_true', decide_eq_true_eq] at hc
        exact ⟨e, ho, by simp [hc.1, hc.2]⟩
      · simp only [preserved, Bool.and_eq_true, Bool.not_eq_true', decide_eq_true_eq] at hc
        exact ⟨o, ho, by simp [hc.1, hc.2, f]⟩
    · rintro ⟨o, ho, he⟩
      split at he
      · exact .inl (.inl ⟨o, ⟨ho, ‹_›⟩, he⟩)
      · rename_i hf
        split at he <;> rename_i hc
        · obtain rfl := List.mem_singleton.mp he
          exact .inl (.inr ⟨ho, by simp [preserved, hf, hc]⟩)
        · cases he
        · obtain rfl := List.mem_singleton.mp he
          exact .inr ⟨o, ⟨ho, by simp [preserved, hf, hc]⟩, rfl⟩
  · intro e
    simp only [List.mem_append, List.mem_flatMap, List.mem_filter, List.mem_map, disjointOf]
    constructor
    · rintro (⟨ho, hc⟩ | ⟨o, ⟨ho, hc⟩, rfl⟩)
      · simp only [preserved, Bool.and_eq_true, Bool.not_eq_true', decide_eq_true_eq] at hc
        exact ⟨e, ho, by simp [hc.1, hc.2]⟩
      · simp only [preserved, Bool.and_eq_true, Bool.not_eq_true', decide_eq_true_eq] at hc
        exact ⟨o, ho, by simp [hc.1, hc.2, g]⟩
    · rintro ⟨o, ho, he⟩
      split at he
      · cases he
      · rename_i hf
        split at he <;> rename_i hc
        · cases he
        · obtain rfl := List.mem_singleton.mp he
          exact .inl ⟨ho, by simp [preserved, hf, hc]⟩
        · obtain rfl := List.mem_singleton.mp he
          exact .inr ⟨o, ⟨ho, by simp [preserved, hf, hc]⟩, rfl⟩

/-- `d'` stands for the tree `t` on one side of a region: its entries come from entries of `t` and
lie on that side (`side`), and at the points of that side (`inside`) the histories are related. -/
structure Half (side : R → Prop) (inside : P → Prop) (rel : List K → List K → Prop)
    (t : RegionTree K R) (d' : Pdict R (K × RegionTree K R)) : Prop where
  invariant : Invariant (.node d')
  root : ∀ e ∈ d', ∃ o ∈ t.entries, ExactRegion.Subset e.1 o.1
  side : ∀ e ∈ d', side e.1
  path : ∀ p, inside p → rel (path p t) (path p (.node d'))

/-- The included half of a split: inside `reg` some filtered keys are gone from the histories. -/
def IncludedHalf (filterOut : K → Bool) (reg : R) :
    RegionTree K R → Pdict R (K × RegionTree K R) → Prop :=
  Half (ExactRegion.Subset · reg) (contains reg · = true) (Drops fun k => filterOut k = true)

/-- The disjoint half of a split: outside `reg` the histories are what they were. -/
def DisjointHalf (reg : R) : RegionTree K R → Pdict R (K × RegionTree K R) → Prop :=
  Half (ExactRegion.Disjoint · reg) (contains reg · = false) Eq

section

omit [DecidableEq R] [HashOrder R]

theorem invariant_singleton (h : Invariant t) (hsub : ∀ e ∈ t.entries, ExactRegion.Subset e.1 r) :
    Invariant (.node [(r, k, t)]) := by
  refine .node (wf_singleton _) ?_ ?_ ?_
  · intro e he e' he' hne
    rw [List.mem_singleton.mp he, List.mem_singleton.mp he'] at hne
    exact absurd rfl hne
  · intro e he
    rw [List.mem_singleton.mp he]
    exact hsub
  · intro e he
    rw [List.mem_singleton.mp he]
    exact h

theorem path_singleton (r : R) (k : K) (t : RegionTree K R) (p : P) :
    path p (.node [(r, k, t)]) = if contains r p then k :: path p t else [] := by
  simp [path, pathEntries]

/-- The half of a single entry that is left as it is. -/
theorem half_self (hrel : ∀ l, rel l l) (h : Invariant t)
    (hsub : ∀ e ∈ t.entries, ExactRegion.Subset e.1 r) (hside : side r) :
    Half side inside rel (.node [(r, k, t)]) [(r, k, t)] := by
  refine ⟨invariant_singleton h hsub, fun e he => ⟨e, he, .refl _⟩, fun e he => ?_, fun p _ => hrel _⟩
  rwa [List.mem_singleton.mp he]

/-- The half of a single entry that has no point there. -/
theorem half_nil (hrel : rel [] []) (hout : ∀ p, inside p → contains r p = false) :
    Half side inside rel (.node [(r, k, t)]) [] := by
  refine ⟨invariant_empty, fun e he => ?_, fun e he => ?_, fun p hp => ?_⟩
  · cases he
  · cases he
  · rw [path_singleton, hout p hp]
    exact hrel

/-- The half of a single entry that is cut: the entry shrinks to `r'`, its subtree to its half. -/
theorem half_cut (hnil : rel [] []) (hcons : ∀ k l l', rel l l' → rel (k :: l) (k :: l')) {r' : R}
    {d' : Pdict R (K × RegionTree K R)} (hsub : ∀ e ∈ t.entries, ExactRegion.Subset e.1 r)
    (hd' : Half side inside rel t d') (hr' : ExactRegion.Subset r' r) (hside : side r')
    (hmax : ∀ s, ExactRegion.Subset s r → side s → ExactRegion.Subset s r')
    (hin : ∀ p, inside p → contains r' p = contains r p) :
    Half side inside rel (.node [(r, k, t)]) [(r', k, .node d')] := by
  refine ⟨invariant_singleton hd'.invariant fun e he => ?_, fun e he => ?_, fun e he => ?_,
    fun p hp => ?_⟩
  · obtain ⟨o, ho, hs⟩ := hd'.root e he
    exact hmax e.1 (hs.trans (hsub o ho)) (hd'.side e he)
  · rw [List.mem_singleton.mp he]
    exact ⟨_, List.mem_singleton_self _, hr'⟩
  · rwa [List.mem_singleton.mp he]
  · rw [path_singleton, path_singleton, hin p hp]
    split
    · exact hcons k _ _ (hd'.path p hp)
    · exact hnil

end

/-- A node rebuilt from halves of its entries is a half of the node. -/
theorem Half.ofSeq (hnil : rel [] []) (hd : Invariant (.node d))
    {f : R × K × RegionTree K R → List (R × K × RegionTree K R)}
    (hf : ∀ o ∈ d, Half side inside rel (.node [o]) (f o)) {s : List (R × K × RegionTree K R)}
    (hs : ∀ e, e ∈ s ↔ e ∈ d.flatMap f) :
    Half side inside rel (.node d) (PersistentDict.ofSeq s) := by
  have hsub : ∀ o ∈ d, ∀ e ∈ f o, ExactRegion.Subset e.1 o.1 := fun o ho e he => by
    obtain ⟨o', ho', h⟩ := (hf o ho).root e he
    rwa [List.mem_singleton.mp ho'] at h
  have hlaid : Laid s := (hd.laid.flatMap (fun o ho => (hf o ho).invariant.laid) hsub).mono
    fun e he => (hs e).mp he
  have hmem : ∀ e ∈ PersistentDict.ofSeq s, ∃ o ∈ d, e ∈ f o :=
    fun e he => List.mem_flatMap.mp ((hs e).mp (mem_of_mem_ofSeq he))
  refine ⟨hlaid.invariant_ofSeq, fun e he => ?_, fun e he => ?_, fun p hp => ?_⟩
  · obtain ⟨o, ho, he⟩ := hmem e he
    exact ⟨o, ho, hsub o ho e he⟩
  · obtain ⟨o, ho, he⟩ := hmem e he
    exact (hf o ho).side e he
  · by_cases hex : ∃ o ∈ d, contains o.1 p = true
    · obtain ⟨o, ho, hpo⟩ := hex
      have hshare : RegionTree.path p (.node (PersistentDict.ofSeq s)) =
          RegionTree.path p (.node (f o)) := by
        refine path_congr hlaid.invariant_ofSeq (hf o ho).invariant fun e hpe => ?_
        rw [hlaid.mem_ofSeq hpe, hs, List.mem_flatMap]
        refine ⟨fun ⟨o', ho', he⟩ => ?_, fun he => ⟨o, ho, he⟩⟩
        rwa [hd.laid.eq_of_contains ho ho' hpo (hsub o' ho' e he p hpe)]
      have hrel := (hf o ho).path p hp
      rwa [path_singleton, hpo, if_pos rfl, ← path_of_mem hd ho hpo, ← hshare] at hrel
    · have hno : ∀ o ∈ d, contains o.1 p = false := fun o ho => by
        simpa using fun h => hex ⟨o, ho, h⟩
      have hno' : ∀ e ∈ PersistentDict.ofSeq s, contains e.1 p = false := fun e he => by
        obtain ⟨o, ho, he⟩ := hmem e he
        by_contra hpe
        exact hex ⟨o, ho, hsub o ho e he p (by simpa using hpe)⟩
      rw [path_nil hno, path_nil hno']
      exact hnil

section
variable (ht : Invariant t) (hsub : ∀ e ∈ t.entries, ExactRegion.Subset e.1 r)
  (hhid : filterOut k = true → ExactRegion.Subset r reg)

include ht hsub hhid

/-- One entry's share of the included part. -/
theorem includedOf_half (ih : filterOut k = false → IRegion.compareTo reg r = .intersects →
      IncludedHalf filterOut reg t (splitNode filterOut reg t).1) :
    IncludedHalf filterOut reg (.node [(r, k, t)]) (includedOf filterOut reg (r, k, t)) := by
  unfold includedOf
  cases hf : filterOut k with
  | true =>
    obtain ⟨d⟩ := t
    refine ⟨ht, fun e he => ⟨_, List.mem_singleton_self _, hsub e he⟩,
      fun e he => (hsub e he).trans (hhid hf), fun p _ => ?_⟩
    rw [path_singleton]
    split
    · exact .drop hf (.refl _ _)
    · next hp =>
        have hno : ∀ e ∈ d, contains e.1 p = false := fun e he => by
          simpa using fun h => hp (hsub e he p h)
        change Drops _ [] (path p (.node d))
        rw [path_nil hno]
        exact .nil
  | false =>
    simp only [Bool.false_eq_true, if_false]
    cases hc : IRegion.compareTo reg r with
    | includes => exact half_self (Drops.refl _) ht hsub (ExactRegion.compareTo_includes hc)
    | disjoint =>
      refine half_nil .nil fun p hp => ?_
      by_contra hpr
      rw [ExactRegion.compareTo_disjoint hc p (by simpa using hpr)] at hp
      cases hp
    | intersects =>
      refine half_cut .nil (fun k _ _ => .keep k) hsub (ih hf hc)
        (ExactRegion.intersect_subset_left _ _) (ExactRegion.intersect_subset_right _ _)
        (fun s hs hs' p hp => ?_) fun p hp => ?_
      · rw [ExactRegion.contains_intersect, hs p hp, hs' p hp, Bool.and_self]
      · rw [ExactRegion.contains_intersect, hp, Bool.and_true]

/-- One entry's share of the disjoint part. -/
theorem disjointOf_half (ih : filterOut k = false → IRegion.compareTo reg r = .intersects →
      DisjointHalf reg t (splitNode filterOut reg t).2) :
    DisjointHalf reg (.node [(r, k, t)]) (disjointOf filterOut reg (r, k, t)) := by
  have hout : ExactRegion.Subset r reg → ∀ p, contains reg p = false → contains r p = false :=
    fun h p hp => by simpa [hp] using fun hr => h p hr
  unfold disjointOf
  cases hf : filterOut k with
  | true => exact half_nil rfl (hout (hhid hf))
  | false =>
    simp only [Bool.false_eq_true, if_false]
    cases hc : IRegion.compareTo reg r with
    | includes => exact half_nil rfl (hout (ExactRegion.compareTo_includes hc))
    | disjoint => exact half_self (fun _ => rfl) ht hsub (ExactRegion.compareTo_disjoint hc)
    | intersects =>
      refine half_cut rfl (fun k _ _ h => h ▸ rfl) hsub (ih hf hc)
        (ExactRegion.subtract_subset _ _) (ExactRegion.subtract_disjoint _ _)
        (fun s hs hs' p hp => ?_) fun p hp => ?_
      · rw [ExactRegion.contains_subtract, hs p hp, hs' p hp]
        rfl
      · rw [ExactRegion.contains_subtract, hp, Bool.not_false, Bool.and_true]

end

omit [HashOrder R] in
/-- A node that holds `reg` itself: the subtree is all of the included part. -/
theorem splitNode_found (filterOut : K → Bool) {child : RegionTree K R} (hd : Invariant (.node d))
    (hm : (reg, key, child) ∈ d) :
    IncludedHalf filterOut reg (.node d)
        (if filterOut key then child.entries else [(reg, key, child)]) ∧
      DisjointHalf reg (.node d) (PersistentDict.remove reg d) := by
  have hlaid : Laid d := hd.laid
  have hsub := hlaid.included _ hm
  have hchild := hlaid.subtrees _ hm
  constructor
  · have hpath : ∀ p, contains reg p = true → path p (.node d) = key :: path p child :=
      fun p hp => path_of_mem hd hm hp
    obtain ⟨c⟩ := child
    split
    · next hf =>
        refine ⟨hchild, fun e he => ⟨_, hm, hsub e he⟩, hsub, fun p hp => ?_⟩
        rw [hpath p hp]
        exact .drop hf (.refl _ _)
    · refine ⟨invariant_singleton hchild hsub, fun e he => ⟨_, hm, ?_⟩, fun e he => ?_,
        fun p hp => ?_⟩
      · rw [List.mem_singleton.mp he]
        exact .refl _
      · rw [List.mem_singleton.mp he]
        exact .refl _
      · rw [hpath p hp, path_singleton, hp, if_pos rfl]
        exact .refl _ _
  · have hrest : Invariant (.node (PersistentDict.remove reg d)) :=
      (hlaid.mono fun _ he => (mem_remove.mp he).1).invariant (hd.wf.remove reg)
    refine ⟨hrest, fun e he => ⟨e, (mem_remove.mp he).1, .refl _⟩, fun e he => ?_,
      fun p hp => path_congr hd hrest fun e hpe => ?_⟩
    · obtain ⟨hed, hne⟩ := mem_remove.mp he
      exact hlaid.disjoint e hed _ hm fun heq => hne (heq ▸ rfl)
    · rw [mem_remove]
      exact ⟨fun he => ⟨he, fun heq => by rw [heq, hp] at hpe; cases hpe⟩, And.left⟩

/-- Splitting a tree, as long as no key it filters out lives outside `reg`. -/
theorem splitNode_spec (ht : Invariant t) (hc : Contained filterOut reg t) :
    IncludedHalf filterOut reg t (splitNode filterOut reg t).1 ∧
      DisjointHalf reg t (splitNode filterOut reg t).2 := by
  induction ht with
  | @node d wf disjoint included subtrees ih =>
    have hd : Invariant (.node d) := .node wf disjoint included subtrees
    cases hfind : PersistentDict.tryFind d reg with
    | some x =>
      obtain ⟨key, ⟨child⟩⟩ := x
      have hm := (tryFind_eq_some_iff wf).mp hfind
      have hne : d.isEmpty = false := by
        cases d with
        | nil => cases hm
        | cons => rfl
      simpa [splitNode, hne, hfind] using splitNode_found filterOut hd hm
    | none =>
      cases hc with
      | found h => exact absurd h (tryFind_eq_none_iff.mp hfind)
      | grouped hidden cut =>
        obtain ⟨s, s', heq, hs, hs'⟩ := splitNode_eq filterOut hfind
        rw [heq]
        constructor
        · refine Half.ofSeq .nil hd (fun o ho => ?_) hs
          exact includedOf_half (subtrees o ho) (included o ho) (hidden o ho)
            fun hf hi => (ih o ho (cut o ho hf hi)).1
        · refine Half.ofSeq rfl hd (fun o ho => ?_) hs'
          exact disjointOf_half (subtrees o ho) (included o ho) (hidden o ho)
            fun hf hi => (ih o ho (cut o ho hf hi)).2

/-- A write keeps the invariant, pushes its key on the history of every point of its region and
changes no other history, as long as it hides no key outside the region. -/
theorem write_of_contained [IRegionTreeKey K] (ht : Invariant t)
    (hc : Contained (IRegionTreeKey.hides key) reg t) :
    Invariant (write reg key t) ∧
    (∀ p, contains reg p = false → path p (write reg key t) = path p t) ∧
    ∀ p, contains reg p = true → ∃ l, path p (write reg key t) = key :: l ∧
      Drops (fun k => IRegionTreeKey.hides key k = true) (path p t) l := by
  obtain ⟨hinc, hdis⟩ := splitNode_spec ht hc
  generalize hsplit : splitNode (IRegionTreeKey.hides key) reg t = split at hinc hdis
  have hwrite : write reg key t =
      .node (PersistentDict.add reg (key, .node split.1) split.2) := by
    rw [← hsplit]
    rfl
  have hmem : ∀ e, e ∈ PersistentDict.add reg (key, RegionTree.node split.1) split.2 ↔
      e = (reg, key, .node split.1) ∨ e.1 ≠ reg ∧ e ∈ split.2 := fun e => mem_add
  have hlaid : Laid (PersistentDict.add reg (key, RegionTree.node split.1) split.2) := by
    have hl : Laid split.2 := hdis.invariant.laid
    refine ⟨fun e he e' he' hne => ?_, fun e he => ?_, fun e he => ?_⟩
    · rcases (hmem e).mp he with rfl | ⟨-, he⟩ <;> rcases (hmem e').mp he' with rfl | ⟨-, he'⟩
      · exact absurd rfl hne
      · exact (hdis.side e' he').symm
      · exact hdis.side e he
      · exact hl.disjoint e he e' he' hne
    · rcases (hmem e).mp he with rfl | ⟨-, he⟩
      · exact hinc.side
      · exact hl.included e he
    · rcases (hmem e).mp he with rfl | ⟨-, he⟩
      · exact hinc.invariant
      · exact hl.subtrees e he
  have hinv := hlaid.invariant (hdis.invariant.wf.add reg (key, .node split.1))
  rw [hwrite]
  refine ⟨hinv, fun p hp => ?_, fun p hp => ⟨path p (.node split.1), ?_, hinc.path p hp⟩⟩
  · rw [hdis.path p hp]
    refine path_congr hinv hdis.invariant fun e hpe => ?_
    have hne : e.1 ≠ reg := fun h => by
      rw [h, hp] at hpe
      cases hpe
    rw [hmem]
    exact ⟨fun h => (h.resolve_left fun h => hne (h ▸ rfl)).2, fun h => .inr ⟨hne, h⟩⟩
  · exact path_of_mem hinv ((hmem _).mpr (.inl rfl)) hp

end

/-! ### Flattening -/

mutual

theorem foldr_foldr {α : Type} (f : R → K → α → α) (acc : α) (l : List (R × K)) :
    ∀ t : RegionTree K R, foldr f (l.foldr (fun e acc => f e.1 e.2 acc) acc) t =
      (foldr (fun reg k acc => (reg, k) :: acc) l t).foldr (fun e acc => f e.1 e.2 acc) acc
  | .node d => foldrEntries_foldr f acc l d
termination_by structural t => t

theorem foldrEntries_foldr {α : Type} (f : R → K → α → α) (acc : α) (l : List (R × K)) :
    ∀ d : List (R × K × RegionTree K R),
      foldrEntries f (l.foldr (fun e acc => f e.1 e.2 acc) acc) d =
        (foldrEntries (fun reg k acc => (reg, k) :: acc) l d).foldr (fun e acc => f e.1 e.2 acc) acc
  | [] => rfl
  | (reg, k, t) :: d => by
      rw [foldrEntries, foldrEntries, foldr_foldr f acc l t]
      exact foldrEntries_foldr f acc ((reg, k) :: _) d
termination_by structural d => d

end

/-- Folding over a tree is folding over its flattening. -/
theorem foldr_eq_flatten {α : Type} (f : R → K → α → α) (acc : α) (t : RegionTree K R) :
    foldr f acc t = (flatten t).foldr (fun e acc => f e.1 e.2 acc) acc :=
  foldr_foldr f acc [] t

theorem flatten_cons (reg : R) (k : K) (t : RegionTree K R) (d : List (R × K × RegionTree K R)) :
    flatten (.node ((reg, k, t) :: d)) = flatten (.node d) ++ (reg, k) :: flatten t := by
  have h := foldr_eq_flatten (fun reg k acc => (reg, k) :: acc) ((reg, k) :: flatten t) (.node d)
  rw [List.foldr_cons_eq_append'] at h
  exact h

theorem mem_flatten_of_mem {d : List (R × K × RegionTree K R)} (he : e ∈ d) :
    (e.1, e.2.1) ∈ flatten (.node d) ∧ flatten e.2.2 ⊆ flatten (.node d) := by
  induction d with
  | nil => cases he
  | cons b d ih =>
    obtain ⟨r, k, t⟩ := b
    rw [flatten_cons]
    rcases List.mem_cons.mp he with rfl | he
    · exact ⟨by simp, fun x hx => by simp [hx]⟩
    · obtain ⟨h₁, h₂⟩ := ih he
      exact ⟨List.mem_append_left _ h₁, fun x hx => List.mem_append_left _ (h₂ hx)⟩

/-- The keys of the flattening that cover `p`, in order, are the history of `p`. -/
theorem flatten_history (ht : Invariant t) (p : P) :
    ((flatten t).filter fun e => contains e.1 p).map Prod.snd = path p t := by
  induction ht with
  | @node d wf disjoint included subtrees ih =>
    have hl : Laid d := (Invariant.node wf disjoint included subtrees).laid
    clear disjoint
    change _ = pathEntries p d
    induction d with
    | nil => rfl
    | cons e d ihd =>
      obtain ⟨reg, k, t⟩ := e
      have ihd := ihd (List.nodup_cons.mp wf).2
        (fun e he => included e (List.mem_cons_of_mem _ he))
        (fun e he => subtrees e (List.mem_cons_of_mem _ he))
        (fun e he => ih e (List.mem_cons_of_mem _ he)) (hl.mono (List.subset_cons_self _ _))
      have iht := ih _ List.mem_cons_self
      rw [flatten_cons, List.filter_append, List.map_append, ihd, List.filter_cons]
      by_cases hp : contains reg p = true
      · have hall := pathEntries_of_mem hl wf List.mem_cons_self hp
        rw [pathEntries, hp, if_pos rfl, List.append_right_eq_self] at hall
        rw [hall, pathEntries, hp, if_pos rfl, if_pos rfl, hall, List.map_cons, iht]
        simp
      · have hchild : path p t = [] := by
          obtain ⟨c⟩ := t
          refine path_nil fun e he => ?_
          simpa using fun h => hp (included _ List.mem_cons_self e he p h)
        rw [if_neg hp, iht, hchild, pathEntries, if_neg hp]
        simp

section
variable [DecidableEq R] [HashOrder R] [IRegionTreeKey K] {t : RegionTree K R}

omit [DecidableEq R] [HashOrder R] [IRegionTreeKey K] in
theorem Contained.of_flatten {filterOut : K → Bool} {reg : R} (ht : Invariant t)
    (h : ∀ e ∈ flatten t, filterOut e.2 = true → ExactRegion.Subset e.1 reg) :
    Contained filterOut reg t := by
  induction ht with
  | node wf disjoint included subtrees ih =>
    refine .grouped (fun e he => h _ (mem_flatten_of_mem he).1) fun e he _ _ => ih e he ?_
    exact fun x hx => h x ((mem_flatten_of_mem he).2 hx)

/-- A write gives every point its right history. -/
theorem write_history {reg : R} {key : K} {t : RegionTree K R} (ht : Invariant t)
    (hhides : ∀ e ∈ flatten t, IRegionTreeKey.hides key e.2 = true → ExactRegion.Subset e.1 reg) :
    Invariant (write reg key t) ∧
    (∀ p, contains reg p = false → path p (write reg key t) = path p t) ∧
    ∀ p, contains reg p = true → ∃ l, path p (write reg key t) = key :: l ∧
      Drops (fun k => IRegionTreeKey.hides key k = true) (path p t) l :=
  write_of_contained ht (.of_flatten ht hhides)

/-- Key `7` at every number and, below it, key `5` at `1`. -/
def sample : RegionTree ℕ (Points ℕ) :=
  .node [(.all, 7, .node [(.singleton 1, 5, .node [])])]

theorem sample_invariant : Invariant sample := by
  have hleaf : Invariant (.node [(Points.singleton 1, 5, .node [])] : RegionTree ℕ (Points ℕ)) :=
    invariant_singleton invariant_empty fun e he => by cases he
  exact invariant_singleton hleaf fun e _ p _ => rfl

/-- Key `5` written over `1` and `2`, for keys that hide their equals. -/
theorem write_history_sample :
    let key : IRegionTreeKey ℕ := ⟨fun k k' => k == k'⟩
    let reg : Points ℕ := ⟨PersistentSet.ofSeq [1, 2], false⟩
    (∀ e ∈ flatten sample, key.hides 5 e.2 = true → ExactRegion.Subset e.1 reg) ∧
    ∃ l, path 1 (write reg 5 sample) = 5 :: l ∧ Drops (fun k => key.hides 5 k = true) [7, 5] l := by
  intro key reg
  have h : ∀ e ∈ flatten sample, key.hides 5 e.2 = true → ExactRegion.Subset e.1 reg := by
    rintro e he h5 p hp
    rcases List.mem_pair.mp (show e ∈ [(Points.all, 7), (Points.singleton 1, 5)] from he) with
      rfl | rfl
    · cases h5
    · have hp : (decide (p ∈ [1]) != false) = true := hp
      obtain rfl : p = 1 := by simpa using hp
      rfl
  exact ⟨h, (write_history sample_invariant h).2.2 1 rfl⟩

/-- Every write of a run, made oldest first over `t`, hides only keys inside its own region. -/
def ContainedRun (t : RegionTree K R) : List (R × K) → Prop
  | [] => True
  | (reg, k) :: l => ContainedRun t l ∧
      Contained (IRegionTreeKey.hides k) reg (l.foldr (fun e acc => write e.1 e.2 acc) t)

/-- What a run of contained writes does to the histories. -/
theorem run_history (ht : Invariant t) {l : List (R × K)} (hl : ContainedRun t l) :
    Invariant (l.foldr (fun e acc => write e.1 e.2 acc) t) ∧ ∀ p,
      Pruned (fun k k' => IRegionTreeKey.hides k k' = true) []
        ((l.filter fun e => contains e.1 p).map Prod.snd ++ path p t)
        (path p (l.foldr (fun e acc => write e.1 e.2 acc) t)) := by
  induction l with
  | nil => exact ⟨ht, fun p => .refl _ _ _⟩
  | cons e l ih =>
    obtain ⟨reg, k⟩ := e
    obtain ⟨hrun, hc⟩ := hl
    obtain ⟨hinv, hpath⟩ := ih hrun
    obtain ⟨hinv', hout, hin⟩ := write_of_contained hinv hc
    refine ⟨hinv', fun p => ?_⟩
    cases hp : contains reg p with
    | false => simpa [hp, hout p hp] using hpath p
    | true =>
      obtain ⟨l', heq, hdrops⟩ := hin p hp
      simpa [hp, heq] using (hpath p).cons_drops hdrops

/-- Appending composes the histories when every write it makes is contained. -/
theorem append_history {base appendix : RegionTree K R} (hb : Invariant base)
    (ha : Invariant appendix) (hrun : ContainedRun base (flatten appendix)) (p : P) :
    Pruned (fun k k' => IRegionTreeKey.hides k k' = true) [] (path p appendix ++ path p base)
      (path p (append base appendix)) := by
  rw [append, foldr_eq_flatten, ← flatten_history ha p]
  exact (run_history hb hrun).2 p

end

end

end RegionTree

end VSharp
