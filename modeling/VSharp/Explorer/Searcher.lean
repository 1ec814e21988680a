import Mathlib.Data.List.AList
import VSharp.SILI.InstructionPointer

/-!
# Explorer — Searchers

The DFS and BFS searchers of `VSharp.Explorer/Searcher.fs`, `ExecutionTree.fs` and
`ExecutionTreeSearcher.fs`.

- `cilState` has reference equality: a `StateRef` is a reference to a state, with the fields of the
  state that never change;
- a node of an execution tree is the index of its record; the parent of a node is older than it;
- `assert` is left out: it is compiled into debug builds only.
-/

namespace VSharp.Explorer
open List

/-- A reference to a `cilState`. -/
structure StateRef (M : Type) where
  internalId : ℕ
  entryMethod : Option M
deriving DecidableEq, Repr

def StateRef.isIsolated {M : Type} (s : StateRef M) : Bool := s.entryMethod.isNone

/-! ### Lists of states -/

section
variable {σ : Type} [DecidableEq σ]

/-- `DFSSearcher`: `update`. -/
def dfsUpdate (states : List σ) (parent : σ) (newStates : List σ) : List σ :=
  if states.getLast? = some parent then
    if newStates.isEmpty then states else states.dropLast ++ newStates ++ [parent]
  else
    let wasParentRemoved := parent ∈ states
    let states := states.erase parent ++ newStates
    if wasParentRemoved then states ++ [parent] else states

/-- `BFSSearcher`: `update`. -/
def bfsUpdate (states : List σ) (parent : σ) (newStates : List σ) : List σ :=
  (if parent ∈ states then states.erase parent ++ [parent] else states) ++ newStates

variable {states : List σ} {parent : σ} {newStates : List σ}

theorem erase_append_singleton_perm (h : parent ∈ states) :
    (states.erase parent ++ [parent]).Perm states :=
  (perm_append_singleton _ _).trans (perm_cons_erase h).symm

omit [DecidableEq σ] in
theorem append_append_singleton_perm (parent : σ) (newStates l : List σ) :
    (l ++ newStates ++ [parent]).Perm (l ++ [parent] ++ newStates) := by
  rw [append_assoc, append_assoc]
  exact perm_append_comm.append_left l

theorem dfsUpdate_perm : (dfsUpdate states parent newStates).Perm (states ++ newStates) := by
  rw [dfsUpdate]
  split
  case isTrue hlast =>
    split
    case isTrue hempty => rw [List.isEmpty_iff.mp hempty, append_nil]
    case isFalse =>
      have hstates : states.dropLast ++ [parent] = states :=
        dropLast_append_getLast? parent hlast
      have hperm := append_append_singleton_perm parent newStates states.dropLast
      rwa [hstates] at hperm
  case isFalse =>
    dsimp only
    split
    case isTrue hmem =>
      exact (append_append_singleton_perm _ _ _).trans
        ((erase_append_singleton_perm hmem).append_right _)
    case isFalse hmem => rw [erase_of_not_mem hmem]

theorem bfsUpdate_perm : (bfsUpdate states parent newStates).Perm (states ++ newStates) := by
  rw [bfsUpdate]
  split
  case isTrue hmem => exact (erase_append_singleton_perm hmem).append_right _
  case isFalse => exact .refl _

end

/-! ### Execution trees -/

/-- `executionTreeNode`. -/
structure Node (σ : Type) where
  children : List ℕ
  parent : Option ℕ
  depth : ℕ
  states : List σ

structure ExecutionTree (σ : Type) where
  nodes : List (Node σ)
  stateToNode : AList fun _ : σ => ℕ

namespace ExecutionTree
variable {σ : Type} [DecidableEq σ]

/-- The constructor. -/
def create (initialState : σ) : ExecutionTree σ where
  nodes := [⟨[], none, 0, [initialState]⟩]
  stateToNode := AList.singleton initialState 0

variable (tree : ExecutionTree σ)

def states : List σ := tree.stateToNode.keys

/-- A node below another one, which holds one state. -/
def addNode (parentNode depth : ℕ) (state : σ) : ExecutionTree σ where
  nodes := (tree.nodes.modify parentNode fun n =>
    { n with children := n.children ++ [tree.nodes.length] }) ++
      [⟨[], some parentNode, depth, [state]⟩]
  stateToNode := tree.stateToNode.insert state tree.nodes.length

def addFork (parent : σ) (children : List σ) : ExecutionTree σ :=
  match tree.stateToNode.lookup parent with
  | none => tree
  | some parentNode =>
    let depth := (tree.nodes[parentNode]?.elim 0 Node.depth) + 1
    if children.isEmpty then
      { tree with nodes := tree.nodes.modify parentNode fun n => { n with depth } }
    else
      let tree := tree.addNode parentNode depth parent
      let tree := { tree with
        nodes := tree.nodes.modify parentNode fun n =>
          { n with states := n.states.erase parent } }
      children.foldl (fun tree child => tree.addNode parentNode depth child) tree

/-- `remove`: a node goes, and so do those above it that have no other child. -/
def removeNode : ℕ → List (Node σ) → ℕ → List (Node σ)
  | 0, nodes, _ => nodes
  | fuel + 1, nodes, node =>
    match nodes[node]?.bind Node.parent with
    | none => nodes
    | some parent =>
      let children := (nodes[parent]?.elim [] Node.children).erase node
      let nodes := nodes.modify parent fun n => { n with children }
      if children.isEmpty then removeNode fuel nodes parent else nodes

def remove (state : σ) : ExecutionTree σ :=
  match tree.stateToNode.lookup state with
  | none => tree
  | some node =>
    { nodes := removeNode tree.nodes.length tree.nodes node
      stateToNode := tree.stateToNode.erase state }

variable {tree}
variable {x state parent : σ} {children : List σ} {parentNode depth : ℕ}

omit [DecidableEq σ] in
theorem nodup_states : tree.states.Nodup := tree.stateToNode.keys_nodup

theorem mem_states_iff_lookup :
    x ∈ tree.states ↔ ∃ node, tree.stateToNode.lookup x = some node := by
  rw [← Option.isSome_iff_exists, AList.lookup_isSome]
  exact Iff.rfl

@[simp] theorem mem_states_addNode :
    x ∈ (tree.addNode parentNode depth state).states ↔ x = state ∨ x ∈ tree.states :=
  AList.mem_insert _

theorem mem_states_foldl_addNode :
    x ∈ (children.foldl (fun tree child => tree.addNode parentNode depth child) tree).states ↔
      x ∈ tree.states ∨ x ∈ children := by
  induction children generalizing tree with
  | nil => simp
  | cons child children ih =>
    rw [foldl_cons, ih, mem_states_addNode, mem_cons]
    tauto

/-- A fork adds the children, when it knows the parent. -/
theorem mem_states_addFork (h : parent ∈ tree.states) :
    x ∈ (tree.addFork parent children).states ↔ x ∈ tree.states ∨ x ∈ children := by
  obtain ⟨node, hnode⟩ := mem_states_iff_lookup.mp h
  rw [addFork, hnode]
  dsimp only
  split
  case isTrue hempty =>
    rw [List.isEmpty_iff.mp hempty]
    simp only [not_mem_nil, or_false]
    rfl
  case isFalse =>
    rw [mem_states_foldl_addNode]
    have hparent : x = parent ∨ x ∈ tree.states ↔ x ∈ tree.states := by
      rw [or_iff_right_of_imp]
      rintro rfl
      exact h
    exact or_congr_left ((AList.mem_insert _).trans hparent)

theorem addFork_of_not_mem (h : parent ∉ tree.states) : tree.addFork parent children = tree := by
  have hnone : tree.stateToNode.lookup parent = none := AList.lookup_eq_none.mpr h
  rw [addFork, hnone]

theorem mem_states_remove : x ∈ (tree.remove state).states ↔ x ∈ tree.states ∧ x ≠ state := by
  rw [remove]
  split
  case h_1 hnone =>
    have habsent : state ∉ tree.states := AList.lookup_eq_none.mp hnone
    constructor
    · intro hx
      refine ⟨hx, ?_⟩
      rintro rfl
      exact habsent hx
    · exact And.left
  case h_2 node hnode =>
    refine AList.mem_erase.trans ?_
    exact and_comm

end ExecutionTree

/-! ### Execution trees of methods -/

structure ExecutionTreeSearcher (M : Type) where
  trees : AList fun _ : M => ExecutionTree (StateRef M)
  methods : List M

namespace ExecutionTreeSearcher
variable {M : Type} [DecidableEq M]

/-- `getAllStates`. -/
def states (t : ExecutionTreeSearcher M) : List (StateRef M) :=
  t.trees.entries.flatMap fun e => e.2.states

/-- A method that has its first state. -/
def addMethod (t : ExecutionTreeSearcher M) (state : StateRef M) :
    Option (ExecutionTreeSearcher M) := do
  let method ← state.entryMethod
  if method ∈ t.methods then none
  else some {
    trees := t.trees.insert method (.create state)
    methods := t.methods ++ [method] }

/-- `init`, which takes one state of each method. -/
def init (initialStates : List (StateRef M)) : Option (ExecutionTreeSearcher M) :=
  initialStates.foldlM addMethod ⟨∅, []⟩

/-- `remove`.  The entry method of an isolated state throws. -/
def remove (t : ExecutionTreeSearcher M) (state : StateRef M) : ExecutionTreeSearcher M :=
  match state.entryMethod with
  | none => t
  | some entryMethod =>
    match t.trees.lookup entryMethod with
    | none => t
    | some tree =>
      let tree := tree.remove state
      if tree.states.length = 0 then
        { trees := t.trees.erase entryMethod, methods := t.methods.erase entryMethod }
      else { t with trees := t.trees.insert entryMethod tree }

def update (t : ExecutionTreeSearcher M) (parent : StateRef M) (newStates : List (StateRef M)) :
    ExecutionTreeSearcher M :=
  match parent.entryMethod with
  | none => t
  | some entryMethod =>
    match t.trees.lookup entryMethod with
    | none => t
    | some tree => { t with trees := t.trees.insert entryMethod (tree.addFork parent newStates) }

/-- The states of the tree of a method. -/
def statesOf (t : ExecutionTreeSearcher M) (m : M) : List (StateRef M) :=
  (t.trees.lookup m).elim [] ExecutionTree.states

/-- A tree holds states of its method. -/
def Keyed (t : ExecutionTreeSearcher M) : Prop :=
  ∀ m, ∀ x ∈ t.statesOf m, x.entryMethod = some m

variable {t : ExecutionTreeSearcher M} {x state parent : StateRef M} {newStates : List (StateRef M)}
  {m m' : M}

theorem mem_states : x ∈ t.states ↔ ∃ m, x ∈ t.statesOf m := by
  rw [states, mem_flatMap]
  constructor
  · rintro ⟨⟨m, tree⟩, hmem, hx⟩
    have hlookup : t.trees.lookup m = some tree := AList.mem_lookup_iff.mpr hmem
    refine ⟨m, ?_⟩
    rwa [statesOf, hlookup]
  · rintro ⟨m, hx⟩
    rw [statesOf] at hx
    cases hlookup : t.trees.lookup m with
    | none =>
      rw [hlookup] at hx
      cases hx
    | some tree =>
      rw [hlookup] at hx
      exact ⟨⟨m, tree⟩, AList.mem_lookup_iff.mp hlookup, hx⟩

theorem Keyed.nodup_states (h : t.Keyed) : t.states.Nodup := by
  rw [states, nodup_flatMap]
  refine ⟨fun e _ => ExecutionTree.nodup_states, ?_⟩
  have hentry : ∀ e ∈ t.trees.entries, ∀ y ∈ e.2.states, y.entryMethod = some e.1 := by
    intro e he y hy
    have hlookup : t.trees.lookup e.1 = some e.2 := AList.mem_lookup_iff.mpr he
    refine h e.1 y ?_
    rwa [statesOf, hlookup]
  refine List.Pairwise.imp_of_mem (fun {e e'} he he' hne => ?_) t.trees.nodupKeys.pairwise_ne
  intro y hy hy'
  exact hne (Option.some.inj ((hentry e he y hy).symm.trans (hentry e' he' y hy')))

/-- A method's tree is replaced. -/
theorem statesOf_insert {tree : ExecutionTree (StateRef M)} {methods : List M} :
    statesOf ⟨t.trees.insert m' tree, methods⟩ m =
      if m = m' then tree.states else t.statesOf m := by
  rw [statesOf]
  split
  case isTrue heq =>
    rw [heq, AList.lookup_insert]
    rfl
  case isFalse hne =>
    rw [AList.lookup_insert_ne hne]
    rfl

theorem mem_statesOf_remove :
    x ∈ (t.remove state).statesOf m ↔
      x ∈ t.statesOf m ∧ (state.entryMethod = some m → x ≠ state) := by
  rw [remove]
  split
  case h_1 hnone => simp [hnone]
  case h_2 m' hm' =>
    rw [hm', Option.some.injEq]
    split
    case h_1 hlookup =>
      refine (and_iff_left_of_imp fun hx heq => ?_).symm
      rw [← heq, statesOf, hlookup] at hx
      cases hx
    case h_2 tree hlookup =>
      have htree : t.statesOf m' = tree.states := by rw [statesOf, hlookup]; rfl
      rcases eq_or_ne m m' with rfl | hne
      · simp only [htree, forall_const]
        rw [← ExecutionTree.mem_states_remove]
        split
        case isTrue hempty =>
          rw [length_eq_zero_iff.mp hempty, statesOf, AList.lookup_erase]
          rfl
        case isFalse => rw [statesOf_insert, if_pos rfl]
      · rw [and_iff_left fun heq => absurd heq.symm hne]
        dsimp only
        split
        case isTrue => rw [statesOf, AList.lookup_erase_ne hne]; rfl
        case isFalse => rw [statesOf_insert, if_neg hne]

theorem Keyed.remove (h : t.Keyed) : (t.remove state).Keyed :=
  fun m x hx => h m x (mem_statesOf_remove.mp hx).1

theorem Keyed.mem_states_remove (h : t.Keyed) :
    x ∈ (t.remove state).states ↔ x ∈ t.states ∧ x ≠ state := by
  simp only [mem_states, mem_statesOf_remove]
  constructor
  · rintro ⟨m, hx, hne⟩
    refine ⟨⟨m, hx⟩, ?_⟩
    rintro rfl
    exact hne (h m x hx) rfl
  · rintro ⟨⟨m, hx⟩, hne⟩
    exact ⟨m, hx, fun _ => hne⟩

theorem mem_statesOf_update (hparent : parent ∈ t.statesOf m) (h : parent.entryMethod = some m) :
    x ∈ (t.update parent newStates).statesOf m' ↔ x ∈ t.statesOf m' ∨ m' = m ∧ x ∈ newStates := by
  obtain ⟨tree, hlookup⟩ : ∃ tree, t.trees.lookup m = some tree := by
    rw [statesOf] at hparent
    cases hlookup : t.trees.lookup m with
    | none =>
      rw [hlookup] at hparent
      cases hparent
    | some tree => exact ⟨tree, rfl⟩
  have htree : t.statesOf m = tree.states := by rw [statesOf, hlookup]; rfl
  rw [htree] at hparent
  simp only [update, h, hlookup, statesOf_insert]
  split
  case isTrue heq => rw [heq, htree, ExecutionTree.mem_states_addFork hparent, and_iff_right rfl]
  case isFalse hne => rw [or_iff_left fun hx => hne hx.1]

/-- A parent that is not there takes its children with it. -/
theorem statesOf_update_of_not_mem (hparent : parent ∉ t.states) :
    (t.update parent newStates).statesOf m = t.statesOf m := by
  rw [update]
  split
  case h_1 => rfl
  case h_2 m' hm' =>
    split
    case h_1 => rfl
    case h_2 tree hlookup =>
      have htree : t.statesOf m' = tree.states := by rw [statesOf, hlookup]; rfl
      have habsent : parent ∉ tree.states := by
        rw [← htree]
        exact fun hmem => hparent (mem_states.mpr ⟨m', hmem⟩)
      rw [statesOf_insert, ExecutionTree.addFork_of_not_mem habsent]
      split
      case isTrue heq => rw [heq, htree]
      case isFalse => rfl

theorem Keyed.update (h : t.Keyed)
    (hcopies : ∀ x ∈ newStates, x.entryMethod = parent.entryMethod) :
    (t.update parent newStates).Keyed := by
  intro m x hx
  by_cases hparent : parent ∈ t.states
  · obtain ⟨m', hmem⟩ := mem_states.mp hparent
    rcases (mem_statesOf_update hmem (h m' parent hmem)).mp hx with hx | ⟨rfl, hx⟩
    · exact h m x hx
    · exact (hcopies x hx).trans (h m parent hmem)
  · rw [statesOf_update_of_not_mem hparent] at hx
    exact h m x hx

theorem Keyed.mem_states_update (h : t.Keyed) (hparent : parent ∈ t.states) :
    x ∈ (t.update parent newStates).states ↔ x ∈ t.states ∨ x ∈ newStates := by
  obtain ⟨m, hmem⟩ := mem_states.mp hparent
  simp only [mem_states, mem_statesOf_update hmem (h m parent hmem)]
  constructor
  · rintro ⟨m', hx | ⟨-, hx⟩⟩
    · exact .inl ⟨m', hx⟩
    · exact .inr hx
  · rintro (⟨m', hx⟩ | hx)
    · exact ⟨m', .inl hx⟩
    · exact ⟨m, .inr ⟨rfl, hx⟩⟩

theorem mem_states_update_of_not_mem (hparent : parent ∉ t.states) :
    x ∈ (t.update parent newStates).states ↔ x ∈ t.states := by
  simp only [mem_states, statesOf_update_of_not_mem hparent]

theorem Keyed.addMethod {t' : ExecutionTreeSearcher M} (h : t.Keyed)
    (hadd : t.addMethod state = some t') : t'.Keyed := by
  obtain ⟨method, hmethod, hinsert⟩ := Option.bind_eq_some_iff.mp hadd
  split at hinsert
  case isTrue => cases hinsert
  case isFalse =>
    cases hinsert
    intro m x hx
    rw [statesOf_insert] at hx
    split at hx
    case isTrue heq =>
      have hx : x = state := by simpa [ExecutionTree.create, ExecutionTree.states] using hx
      rw [hx, heq, hmethod]
    case isFalse => exact h m x hx

theorem keyed_of_init {initialStates : List (StateRef M)} (h : init initialStates = some t) :
    t.Keyed := by
  have hkeeps : ∀ (states : List (StateRef M)) (t₀ : ExecutionTreeSearcher M), t₀.Keyed →
      states.foldlM ExecutionTreeSearcher.addMethod t₀ = some t → t.Keyed := by
    intro states
    induction states with
    | nil =>
      intro t₀ hkeyed hfold
      cases hfold
      exact hkeyed
    | cons state states ih =>
      intro t₀ hkeyed hfold
      obtain ⟨t₁, hfirst, hrest⟩ := Option.bind_eq_some_iff.mp hfold
      exact ih t₁ (hkeyed.addMethod hfirst) hrest
  exact hkeeps initialStates ⟨∅, []⟩ (fun m x hx => by cases hx) h

end ExecutionTreeSearcher

/-! ### Forward searchers -/

/-- The searchers that are modelled. -/
inductive Searcher (M : Type) where
  | dfs (states : List (StateRef M))
  | bfs (states : List (StateRef M))
  | executionTree (t : ExecutionTreeSearcher M)

namespace Searcher
variable {M : Type} [DecidableEq M]
variable {searcher : Searcher M}

def states : Searcher M → List (StateRef M)
  | .dfs states | .bfs states => states
  | .executionTree t => t.states

def update (parent : StateRef M) (newStates : List (StateRef M)) : Searcher M → Searcher M
  | .dfs states => .dfs (dfsUpdate states parent newStates)
  | .bfs states => .bfs (bfsUpdate states parent newStates)
  | .executionTree t => .executionTree (t.update parent newStates)

def remove (state : StateRef M) : Searcher M → Searcher M
  | .dfs states => .dfs (states.erase state)
  | .bfs states => .bfs (states.erase state)
  | .executionTree t => .executionTree (t.remove state)

/-- The states are a set, and a tree holds states of its method. -/
def Holds : Searcher M → Prop
  | .dfs states | .bfs states => states.Nodup
  | .executionTree t => t.Keyed

theorem Holds.nodup (h : searcher.Holds) : searcher.states.Nodup := by
  cases searcher with
  | dfs states => exact h
  | bfs states => exact h
  | executionTree t => exact ExecutionTreeSearcher.Keyed.nodup_states h

theorem Holds.remove (h : searcher.Holds) (state : StateRef M) :
    (searcher.remove state).Holds := by
  cases searcher with
  | dfs states => exact List.Nodup.erase state h
  | bfs states => exact List.Nodup.erase state h
  | executionTree t => exact ExecutionTreeSearcher.Keyed.remove h

theorem Holds.mem_remove (h : searcher.Holds) {state x : StateRef M} :
    x ∈ (searcher.remove state).states ↔ x ∈ searcher.states ∧ x ≠ state := by
  cases searcher with
  | dfs states => exact (List.Nodup.mem_erase_iff h).trans and_comm
  | bfs states => exact (List.Nodup.mem_erase_iff h).trans and_comm
  | executionTree t => exact ExecutionTreeSearcher.Keyed.mem_states_remove h

/-- The searcher keeps its states in a list. -/
def isList : Searcher M → Bool
  | .dfs _ | .bfs _ => true
  | .executionTree _ => false

omit [DecidableEq M] in
theorem eq_executionTree (h : searcher.isList = false) :
    ∃ t, searcher = .executionTree t := by
  cases searcher with
  | dfs states => cases h
  | bfs states => cases h
  | executionTree t => exact ⟨t, rfl⟩

section
variable {searcher : Searcher M} (h : searcher.isList)
include h

theorem states_update_perm (parent : StateRef M) (newStates : List (StateRef M)) :
    (searcher.update parent newStates).states.Perm (searcher.states ++ newStates) := by
  cases searcher with
  | dfs states => exact dfsUpdate_perm
  | bfs states => exact bfsUpdate_perm
  | executionTree t => cases h

theorem states_remove (state : StateRef M) :
    (searcher.remove state).states = searcher.states.erase state := by
  cases searcher with
  | dfs states => rfl
  | bfs states => rfl
  | executionTree t => cases h

theorem isList_remove (state : StateRef M) : (searcher.remove state).isList := by
  cases searcher with
  | dfs states => rfl
  | bfs states => rfl
  | executionTree t => cases h

theorem isList_update (parent : StateRef M) (newStates : List (StateRef M)) :
    (searcher.update parent newStates).isList := by
  cases searcher with
  | dfs states => rfl
  | bfs states => rfl
  | executionTree t => cases h

theorem isList_foldl_remove (removed : List (StateRef M)) :
    (removed.foldl (fun searcher x => searcher.remove x) searcher).isList := by
  induction removed generalizing searcher with
  | nil => exact h
  | cons state removed ih => exact ih (isList_remove h state)

end

/-- Several states are removed, one after the other. -/
theorem Holds.foldl_remove (h : searcher.Holds) (removed : List (StateRef M)) :
    (removed.foldl (fun searcher x => searcher.remove x) searcher).Holds ∧
      ∀ x, x ∈ (removed.foldl (fun searcher x => searcher.remove x) searcher).states ↔
        x ∈ searcher.states ∧ x ∉ removed := by
  induction removed generalizing searcher with
  | nil => exact ⟨h, by simp⟩
  | cons state removed ih =>
    obtain ⟨hholds, hmem⟩ := ih (h.remove state)
    refine ⟨hholds, fun x => ?_⟩
    rw [foldl_cons, hmem, h.mem_remove, mem_cons]
    tauto

end Searcher

end VSharp.Explorer
