import VSharp.Explorer.Searcher

/-!
# Explorer — Execution trees

The random walk of `VSharp.Explorer/ExecutionTree.fs` from the root to a leaf, and why it always ends
at a state.

- `Under` goes from a node to those above it; parents never change.
- A node is `Alive` when a state that is held lies under it.
- A tree is `WellFormed` when its nodes list exactly those children that are alive, and the node of a
  state is a leaf with that state.
-/

namespace VSharp.Explorer
open List Option

namespace ExecutionTree
variable {σ : Type} [DecidableEq σ]

/-- `pick`: the state that is found, and how many random numbers were drawn. -/
def pick (nodes : List (Node σ)) (random : ℕ → ℕ) : ℕ → ℕ → ℕ → Option (σ × ℕ)
  | 0, _, _ => none
  | fuel + 1, drawn, current =>
    nodes[current]?.bind fun node =>
      let randomInt := random drawn
      if node.children.isEmpty then
        node.states[randomInt % node.states.length]?.map fun state => (state, drawn + 1)
      else
        node.children[randomInt % node.children.length]?.bind fun child =>
          pick nodes random fuel (drawn + 1) child

/-- `RandomPick`.  Nothing is returned where the walk fails. -/
def randomPick (tree : ExecutionTree σ) (random : ℕ → ℕ) (drawn : ℕ) :
    Option (Option σ × ℕ) :=
  if tree.states.isEmpty then some (none, drawn)
  else (pick tree.nodes random tree.nodes.length drawn 0).map fun r => (some r.1, r.2)

/-! ### Nodes -/

def parentOf (nodes : List (Node σ)) (n : ℕ) : Option ℕ := nodes[n]?.bind Node.parent

def childrenOf (nodes : List (Node σ)) (n : ℕ) : List ℕ := nodes[n]?.elim [] Node.children

/-- The second node is the first one or lies under it. -/
inductive Under (nodes : List (Node σ)) (i : ℕ) : ℕ → Prop where
  | refl : Under nodes i i
  | step {n p : ℕ} (hparent : parentOf nodes n = some p) (h : Under nodes i p) : Under nodes i n

/-- One of the given nodes lies under the node. -/
def Alive (nodes : List (Node σ)) (held : ℕ → Prop) (i : ℕ) : Prop := ∃ n, held n ∧ Under nodes i n

variable {nodes nodes' : List (Node σ)} {i n p c exc : ℕ} {held held' : ℕ → Prop}
variable {parentNode depth : ℕ}

section

omit [DecidableEq σ]

theorem parentOf_modify (f : Node σ → Node σ) (hf : ∀ node, (f node).parent = node.parent) :
    parentOf (nodes.modify p f) n = parentOf nodes n := by
  rw [parentOf, parentOf, getElem?_modify]
  cases nodes[n]? with
  | none => rfl
  | some node =>
    by_cases heq : p = n
    · simp [heq, hf]
    · simp [heq]

theorem childrenOf_modify {f : List ℕ → List ℕ} (hf : f [] = []) :
    childrenOf (nodes.modify p fun node => { node with children := f node.children }) n =
      if p = n then f (childrenOf nodes n) else childrenOf nodes n := by
  rw [childrenOf, childrenOf, getElem?_modify]
  cases nodes[n]? with
  | none => simp [hf]
  | some node =>
    by_cases heq : p = n
    · simp [heq]
    · simp [heq]

theorem childrenOf_modify_of_eq {f : Node σ → Node σ} (hf : ∀ node, (f node).children = node.children) :
    childrenOf (nodes.modify p f) n = childrenOf nodes n := by
  rw [childrenOf, childrenOf, getElem?_modify]
  cases nodes[n]? with
  | none => rfl
  | some node =>
    by_cases heq : p = n
    · simp [heq, hf]
    · simp [heq]

theorem Under.mono (hsame : ∀ n p, parentOf nodes n = some p → parentOf nodes' n = some p)
    (h : Under nodes i n) : Under nodes' i n := by
  induction h with
  | refl => exact .refl
  | step hparent _ ih => exact .step (hsame _ _ hparent) ih

theorem Under.trans (h : Under nodes i n) (h' : Under nodes n c) : Under nodes i c := by
  induction h' with
  | refl => exact h
  | step hparent _ ih => exact .step hparent ih

theorem Under.le (hlt : ∀ n p, parentOf nodes n = some p → p < n) (h : Under nodes i n) : i ≤ n := by
  induction h with
  | refl => exact Nat.le_refl i
  | step hparent _ ih => exact ih.trans (hlt _ _ hparent).le

/-- A node lies under another one through a child of that one. -/
theorem Under.exists_child (h : Under nodes i n) (hne : i ≠ n) :
    ∃ c, parentOf nodes c = some i ∧ Under nodes c n := by
  induction h with
  | refl => exact absurd rfl hne
  | @step n p hparent _ ih =>
    by_cases heq : i = p
    · subst heq
      exact ⟨n, hparent, .refl⟩
    · obtain ⟨c, hc, hunder⟩ := ih heq
      exact ⟨c, hc, .step hparent hunder⟩

theorem Under.eq_or_parent (h : Under nodes i n) : i = n ∨ ∃ p, parentOf nodes n = some p ∧
    Under nodes i p := by
  cases h with
  | refl => exact .inl rfl
  | step hparent h => exact .inr ⟨_, hparent, h⟩

theorem Alive.mono (h : Alive nodes held i) (hheld : ∀ n, held n → Alive nodes held' n) :
    Alive nodes held' i := by
  obtain ⟨n, hn, hunder⟩ := h
  obtain ⟨n', hn', hunder'⟩ := hheld n hn
  exact ⟨n', hn', hunder.trans hunder'⟩

end

/-! ### Removal -/

/-- Parents are older than their children, and a node lists exactly the children that are alive. -/
structure Pruned (nodes : List (Node σ)) (held : ℕ → Prop) : Prop where
  parent_lt : ∀ n p, parentOf nodes n = some p → p < n
  parent_of_mem : ∀ p c, c ∈ childrenOf nodes p → parentOf nodes c = some p
  nodup : ∀ p, (childrenOf nodes p).Nodup
  mem_iff : ∀ c p, parentOf nodes c = some p → (c ∈ childrenOf nodes p ↔ Alive nodes held c)
  leaf : ∀ n, held n → childrenOf nodes n = []

/-- What stays of the nodes when some leave the lists of children. -/
structure Trimmed (nodes nodes' : List (Node σ)) : Prop where
  length : nodes'.length = nodes.length
  parent : ∀ n, parentOf nodes' n = parentOf nodes n
  states : ∀ n : ℕ, nodes'[n]?.map Node.states = nodes[n]?.map Node.states

section

omit [DecidableEq σ]

theorem Trimmed.refl : Trimmed nodes nodes := ⟨rfl, fun _ => rfl, fun _ => rfl⟩

theorem Trimmed.trans {nodes'' : List (Node σ)} (h : Trimmed nodes nodes')
    (h' : Trimmed nodes' nodes'') : Trimmed nodes nodes'' where
  length := h'.length.trans h.length
  parent n := (h'.parent n).trans (h.parent n)
  states n := (h'.states n).trans (h.states n)

theorem Trimmed.under_iff (h : Trimmed nodes nodes') : Under nodes' i n ↔ Under nodes i n :=
  ⟨Under.mono fun n _ hp => (h.parent n).symm.trans hp,
    Under.mono fun n _ hp => (h.parent n).trans hp⟩

theorem Trimmed.alive_iff (h : Trimmed nodes nodes') : Alive nodes' held i ↔ Alive nodes held i := by
  simp only [Alive, h.under_iff]

theorem trimmed_modify (nodes : List (Node σ)) (p : ℕ) (f : List ℕ → List ℕ) :
    Trimmed nodes (nodes.modify p fun node => { node with children := f node.children }) where
  length := length_modify ..
  parent n := parentOf_modify _ fun _ => rfl
  states n := by
    rw [getElem?_modify]
    cases nodes[n]? with
    | none => rfl
    | some node =>
      by_cases heq : p = n
      · simp [heq]
      · simp [heq]

section
variable (h : Pruned nodes fun n => held n ∨ n = exc) (hexc : ¬ Alive nodes held exc)

include h hexc

/-- A node that holds nothing any more leaves the children of its parent. -/
theorem Pruned.erase (hparent : parentOf nodes exc = some p) :
    Pruned (nodes.modify p fun node => { node with children := node.children.erase exc })
      fun n => held n ∨ n = p ∧ (childrenOf nodes p).erase exc = [] := by
  set nodes' := nodes.modify p fun node => { node with children := node.children.erase exc }
  have htrim : Trimmed nodes nodes' := trimmed_modify nodes p (List.erase · exc)
  have hchildren : ∀ n, childrenOf nodes' n =
      if p = n then (childrenOf nodes n).erase exc else childrenOf nodes n :=
    fun n => childrenOf_modify (f := (List.erase · exc)) rfl
  have hmem : ∀ c q, parentOf nodes c = some q →
      (c ∈ childrenOf nodes' q ↔ c ∈ childrenOf nodes q ∧ c ≠ exc) := by
    intro c q hc
    rw [hchildren]
    split
    case isTrue => rw [(h.nodup q).mem_erase_iff, and_comm]
    case isFalse hne =>
      refine (and_iff_left ?_).symm
      rintro rfl
      exact hne (some.inj (hparent.symm.trans hc))
  have hlt : p < exc := h.parent_lt exc p hparent
  -- what was alive through the node is alive through its parent
  have halive : ∀ c, c ≠ exc →
      (Alive nodes (fun n => held n ∨ n = exc) c ↔ Alive nodes (fun n => held n ∨ n = p) c) := by
    intro c hne
    constructor
    · rintro ⟨n, hn | rfl, hunder⟩
      · exact ⟨n, .inl hn, hunder⟩
      · rcases hunder.eq_or_parent with rfl | ⟨q, hq, hunder⟩
        · exact absurd rfl hne
        · obtain rfl := some.inj (hparent.symm.trans hq)
          exact ⟨p, .inr rfl, hunder⟩
    · rintro ⟨n, hn | rfl, hunder⟩
      · exact ⟨n, .inl hn, hunder⟩
      · exact ⟨exc, .inr rfl, .step hparent hunder⟩
  have hsame : ∀ c, Alive nodes (fun n => held n ∨ n = p) c ↔
      Alive nodes (fun n => held n ∨ n = p ∧ (childrenOf nodes p).erase exc = []) c := by
    intro c
    by_cases hempty : (childrenOf nodes p).erase exc = []
    · simp only [hempty, and_true]
    · refine ⟨fun hc => hc.mono fun n hn => ?_, fun hc => hc.mono fun n hn => ?_⟩
      · rcases hn with hn | rfl
        · exact ⟨n, .inl hn, .refl⟩
        -- another child of the parent is alive, and it is no ancestor of the parent
        · obtain ⟨d, hd⟩ := exists_mem_of_ne_nil _ hempty
          have hd' := (h.nodup n).mem_erase_iff.mp hd
          have hdparent := h.parent_of_mem n d hd'.2
          obtain ⟨m, hm, hunder⟩ := (halive d hd'.1).mp ((h.mem_iff d n hdparent).mp hd'.2)
          rcases hm with hm | rfl
          · exact ⟨m, .inl hm, .trans (.step hdparent .refl) hunder⟩
          · exact absurd (hunder.le h.parent_lt) (Nat.not_le.mpr (h.parent_lt d m hdparent))
      · exact ⟨n, hn.imp_right And.left, .refl⟩
  refine ⟨fun n q hq => ?_, fun q c hc => ?_, fun q => ?_, fun c q hq => ?_, fun n hn => ?_⟩
  · exact h.parent_lt n q ((htrim.parent n).symm.trans hq)
  · rw [htrim.parent]
    rw [hchildren] at hc
    split at hc
    case isTrue => exact h.parent_of_mem q c (mem_of_mem_erase hc)
    case isFalse => exact h.parent_of_mem q c hc
  · rw [hchildren]
    split
    case isTrue => exact (h.nodup q).erase exc
    case isFalse => exact h.nodup q
  · rw [htrim.parent] at hq
    rw [hmem c q hq, h.mem_iff c q hq, htrim.alive_iff, ← hsame]
    constructor
    · rintro ⟨hc, hne⟩
      exact (halive c hne).mp hc
    · intro hc
      have hne : c ≠ exc := by
        rintro rfl
        obtain ⟨n, hn | rfl, hunder⟩ := hc
        · exact hexc ⟨n, hn, hunder⟩
        · exact absurd (hunder.le h.parent_lt) (Nat.not_le.mpr hlt)
      exact ⟨(halive c hne).mpr hc, hne⟩
  · rw [hchildren]
    rcases hn with hn | ⟨rfl, hempty⟩
    · split
      case isTrue => rw [h.leaf n (.inl hn)]; rfl
      case isFalse => exact h.leaf n (.inl hn)
    · rw [if_pos rfl, hempty]

/-- `remove` takes away the nodes that hold nothing any more. -/
theorem removeNode_pruned {fuel : ℕ} (hfuel : exc < fuel) :
    Pruned (removeNode fuel nodes exc) held ∧ Trimmed nodes (removeNode fuel nodes exc) := by
  induction fuel generalizing nodes exc with
  | zero => cases hfuel
  | succ fuel ih =>
    rw [removeNode]
    split
    case h_1 hnone =>
      refine ⟨⟨h.parent_lt, h.parent_of_mem, h.nodup, fun c p hc => ?_,
        fun n hn => h.leaf n (.inl hn)⟩, .refl⟩
      rw [h.mem_iff c p hc]
      constructor
      · rintro ⟨n, hn | rfl, hunder⟩
        · exact ⟨n, hn, hunder⟩
        · rcases hunder.eq_or_parent with rfl | ⟨q, hq, -⟩
          · exact absurd (hnone.symm.trans hc) (by simp)
          · exact absurd (hnone.symm.trans hq) (by simp)
      · exact fun hc => hc.mono fun n hn => ⟨n, .inl hn, .refl⟩
    case h_2 p hparent =>
      have hpruned := h.erase hexc hparent
      have htrim : Trimmed nodes (nodes.modify p fun node =>
          { node with children := node.children.erase exc }) := trimmed_modify nodes p (List.erase · exc)
      have hmodify : (nodes.modify p fun n =>
          { n with children := (childrenOf nodes p).erase exc }) =
          nodes.modify p fun node => { node with children := node.children.erase exc } := by
        refine ext_getElem? fun k => ?_
        rw [getElem?_modify, getElem?_modify]
        by_cases hk : p = k
        · subst hk
          cases hnode : nodes[p]? with
          | none => rfl
          | some node => simp [childrenOf, hnode]
        · simp [hk]
      change Pruned (if ((childrenOf nodes p).erase exc).isEmpty then
          removeNode fuel (nodes.modify p fun n =>
            { n with children := (childrenOf nodes p).erase exc }) p
        else nodes.modify p fun n => { n with children := (childrenOf nodes p).erase exc }) held ∧
        Trimmed nodes (if ((childrenOf nodes p).erase exc).isEmpty then
          removeNode fuel (nodes.modify p fun n =>
            { n with children := (childrenOf nodes p).erase exc }) p
        else nodes.modify p fun n => { n with children := (childrenOf nodes p).erase exc })
      rw [hmodify]
      split
      case isTrue hempty =>
        have hempty : (childrenOf nodes p).erase exc = [] := List.isEmpty_iff.mp hempty
        simp only [hempty, and_true] at hpruned
        have hdead : ¬ Alive (nodes.modify p fun node =>
            { node with children := node.children.erase exc }) held p := by
          rintro ⟨n, hn, hunder⟩
          by_cases heq : p = n
          · subst heq
            -- the node of a state that is held has no children
            have hleaf := h.leaf p (.inl hn)
            have hmem := (h.mem_iff exc p hparent).mpr ⟨exc, .inr rfl, .refl⟩
            rw [hleaf] at hmem
            cases hmem
          · obtain ⟨c, hc, hunder⟩ := hunder.exists_child heq
            have hmem := (hpruned.mem_iff c p hc).mpr ⟨n, .inl hn, hunder⟩
            rw [hpruned.leaf p (.inr rfl)] at hmem
            cases hmem
        obtain ⟨hpruned', htrim'⟩ := ih hpruned hdead (by have := h.parent_lt exc p hparent; omega)
        exact ⟨hpruned', htrim.trans htrim'⟩
      case isFalse hne =>
        have hne : (childrenOf nodes p).erase exc ≠ [] := fun hnil =>
          hne (List.isEmpty_iff.mpr hnil)
        simp only [hne, and_false, or_false] at hpruned
        exact ⟨hpruned, htrim⟩

end

end

/-! ### Forks -/

section

omit [DecidableEq σ]

variable {node : Node σ}

theorem parentOf_append : parentOf (nodes ++ [node]) n =
    if n = nodes.length then node.parent else parentOf nodes n := by
  rw [parentOf, parentOf, getElem?_append]
  split
  case isTrue hlt => rw [if_neg (Nat.ne_of_lt hlt)]
  case isFalse hge =>
    split
    case isTrue heq => simp [heq]
    case isFalse hne =>
      rw [getElem?_eq_none (by simp; omega), getElem?_eq_none (by omega)]

theorem childrenOf_append : childrenOf (nodes ++ [node]) n =
    if n = nodes.length then node.children else childrenOf nodes n := by
  rw [childrenOf, childrenOf, getElem?_append]
  split
  case isTrue hlt => rw [if_neg (Nat.ne_of_lt hlt)]
  case isFalse hge =>
    split
    case isTrue heq => simp [heq]
    case isFalse hne =>
      rw [getElem?_eq_none (by simp; omega), getElem?_eq_none (by omega)]

theorem lt_of_parentOf (h : parentOf nodes n = some p) : n < nodes.length := by
  by_contra hge
  rw [parentOf, getElem?_eq_none (Nat.not_lt.mp hge)] at h
  cases h

end

omit [DecidableEq σ] in
/-- A new child of a node, which holds what the node may have held. -/
theorem Pruned.append {states : List σ} (h : Pruned nodes held) (hlt : parentNode < nodes.length)
    (halive : Alive nodes held parentNode) (hbound : ∀ n, held n → n < nodes.length)
    (hheld : ∀ n, held' n ↔ n = nodes.length ∨ held n ∧ n ≠ parentNode) :
    Pruned ((nodes.modify parentNode fun n => { n with children := n.children ++ [nodes.length] }) ++
      [⟨[], some parentNode, depth, states⟩]) held' := by
  set nodes' := (nodes.modify parentNode fun n =>
    { n with children := n.children ++ [nodes.length] }) ++ [⟨[], some parentNode, depth, states⟩]
  have hlength : (nodes.modify parentNode fun n =>
      { n with children := n.children ++ [nodes.length] }).length = nodes.length :=
    length_modify ..
  have hparent : ∀ n, parentOf nodes' n =
      if n = nodes.length then some parentNode else parentOf nodes n := by
    intro n
    have hold := (trimmed_modify nodes parentNode (· ++ [nodes.length])).parent n
    rw [parentOf_append, hlength]
    split
    case isTrue => rfl
    case isFalse => exact hold
  have hchild : ∀ p c, c ∈ childrenOf nodes' p ↔
      c ∈ childrenOf nodes p ∨ c = nodes.length ∧ p = parentNode := by
    intro p c
    rw [childrenOf_append, hlength]
    split
    case isTrue heq =>
      have hnone : childrenOf nodes p = [] := by
        rw [childrenOf, getElem?_eq_none heq.ge]
        rfl
      rw [hnone]
      simp
      omega
    case isFalse hne =>
      rw [childrenOf, getElem?_modify, childrenOf]
      by_cases hp : parentNode = p
      · subst hp
        obtain ⟨node, hnode⟩ : ∃ node, nodes[parentNode]? = some node :=
          ⟨_, getElem?_eq_getElem hlt⟩
        simp [hnode]
      · simp [hp, Ne.symm hp]
  have hnodup : ∀ p, (childrenOf nodes' p).Nodup := by
    intro p
    rw [childrenOf_append, hlength]
    split
    case isTrue => exact .nil
    case isFalse =>
      rw [childrenOf, getElem?_modify]
      by_cases hp : parentNode = p
      · subst hp
        obtain ⟨node, hnode⟩ : ∃ node, nodes[parentNode]? = some node :=
          ⟨_, getElem?_eq_getElem hlt⟩
        have hold : node.children.Nodup := by
          have hold := h.nodup parentNode
          rwa [childrenOf, hnode] at hold
        have hfresh : nodes.length ∉ node.children := by
          intro hmem
          have hmem : nodes.length ∈ childrenOf nodes parentNode := by rwa [childrenOf, hnode]
          exact absurd (lt_of_parentOf (h.parent_of_mem _ _ hmem)) (Nat.lt_irrefl _)
        simpa [hnode] using hold.concat hfresh
      · have hold := h.nodup p
        rw [childrenOf] at hold
        simpa [hp] using hold
  have hunder : ∀ i n, n < nodes.length → (Under nodes' i n ↔ Under nodes i n) := by
    intro i n hn
    constructor
    · intro hunder
      induction hunder with
      | refl => exact .refl
      | step hq _ ih =>
        rw [hparent, if_neg (Nat.ne_of_lt hn)] at hq
        exact .step hq (ih (lt_trans (h.parent_lt _ _ hq) hn))
    · refine Under.mono fun n p hp => ?_
      rw [hparent, if_neg (Nat.ne_of_lt (lt_of_parentOf hp)), hp]
  have halive' : ∀ c, c < nodes.length → (Alive nodes' held' c ↔ Alive nodes held c) := by
    intro c hc
    constructor
    · rintro ⟨n, hn, hcn⟩
      rcases (hheld n).mp hn with rfl | ⟨hn, -⟩
      -- below the new node there is only its parent
      · rcases hcn.eq_or_parent with heq | ⟨q, hq, hcq⟩
        · omega
        · rw [hparent, if_pos rfl] at hq
          obtain rfl := some.inj hq
          obtain ⟨m, hm, hunder'⟩ := halive
          exact ⟨m, hm, ((hunder c parentNode hlt).mp hcq).trans hunder'⟩
      · exact ⟨n, hn, (hunder c n (hbound n hn)).mp hcn⟩
    · rintro ⟨n, hn, hcn⟩
      have hcn' := (hunder c n (hbound n hn)).mpr hcn
      by_cases heq : n = parentNode
      · subst heq
        refine ⟨nodes.length, (hheld _).mpr (.inl rfl), .step ?_ hcn'⟩
        rw [hparent, if_pos rfl]
      · exact ⟨n, (hheld n).mpr (.inr ⟨hn, heq⟩), hcn'⟩
  refine ⟨fun n p hp => ?_, fun p c hc => ?_, hnodup, fun c p hp => ?_, fun n hn => ?_⟩
  · rw [hparent] at hp
    split at hp
    case isTrue heq =>
      obtain rfl := some.inj hp
      omega
    case isFalse => exact h.parent_lt n p hp
  · rcases (hchild p c).mp hc with hc | ⟨rfl, rfl⟩
    · have hold := h.parent_of_mem p c hc
      rw [hparent, if_neg (Nat.ne_of_lt (lt_of_parentOf hold)), hold]
    · rw [hparent, if_pos rfl]
  · rw [hchild]
    rw [hparent] at hp
    split at hp
    case isTrue heq =>
      obtain rfl := some.inj hp
      subst heq
      refine iff_of_true (.inr ⟨rfl, rfl⟩) ⟨_, (hheld _).mpr (.inl rfl), .refl⟩
    case isFalse hne =>
      rw [halive' c (lt_of_parentOf hp), ← h.mem_iff c p hp]
      exact or_iff_left fun hc => hne hc.1
  · refine eq_nil_iff_forall_not_mem.mpr fun c hc => ?_
    rcases (hchild n c).mp hc with hc | ⟨rfl, rfl⟩
    · rcases (hheld n).mp hn with rfl | ⟨hn, -⟩
      · rw [childrenOf, getElem?_eq_none (Nat.le_refl _)] at hc
        cases hc
      · rw [h.leaf n hn] at hc
        cases hc
    · rcases (hheld n).mp hn with heq | ⟨-, hne⟩
      · omega
      · exact hne rfl

/-! ### Well-formed trees -/

/-- The node holds a state. -/
def holds (tree : ExecutionTree σ) (n : ℕ) : Prop := ∃ s, tree.stateToNode.lookup s = some n

structure WellFormed (tree : ExecutionTree σ) : Prop where
  pruned : Pruned tree.nodes tree.holds
  state_eq : ∀ s n, tree.stateToNode.lookup s = some n → tree.nodes[n]?.map Node.states = some [s]
  root : ∀ n, n < tree.nodes.length → parentOf tree.nodes n = none → n = 0

variable {tree : ExecutionTree σ} {parent state : σ} {children : List σ}

theorem WellFormed.lt_length (h : tree.WellFormed) (hn : tree.holds n) : n < tree.nodes.length := by
  obtain ⟨s, hs⟩ := hn
  by_contra hge
  have hnone := h.state_eq s n hs
  rw [getElem?_eq_none (Nat.not_lt.mp hge)] at hnone
  cases hnone

theorem WellFormed.state_inj (h : tree.WellFormed) {s s' : σ}
    (hs : tree.stateToNode.lookup s = some n) (hs' : tree.stateToNode.lookup s' = some n) :
    s = s' := by
  have heq := (h.state_eq s n hs).symm.trans (h.state_eq s' n hs')
  simpa using heq

/-- Every node lies under the root. -/
theorem WellFormed.under_root (h : tree.WellFormed) (hn : n < tree.nodes.length) :
    Under tree.nodes 0 n := by
  induction n using Nat.strong_induction_on with
  | _ n ih =>
    cases hparent : parentOf tree.nodes n with
    | none => rw [h.root n hn hparent]; exact .refl
    | some p =>
      have hlt := h.pruned.parent_lt n p hparent
      exact .step hparent (ih p hlt (hlt.trans hn))

theorem wellFormed_create (s : σ) : (create s).WellFormed := by
  have hlookup : ∀ s' n, (create s).stateToNode.lookup s' = some n ↔ s' = s ∧ n = 0 := by
    intro s' n
    have hsingle : (create s).stateToNode = (∅ : AList fun _ : σ => ℕ).insert s 0 := rfl
    rw [hsingle]
    by_cases heq : s' = s
    · subst heq
      rw [AList.lookup_insert]
      simp [eq_comm]
    · rw [AList.lookup_insert_ne heq]
      simp [heq]
  have hchildren : ∀ n, childrenOf (create s).nodes n = [] := by
    intro n
    cases n with
    | zero => rfl
    | succ n => rfl
  have hparent : ∀ n, parentOf (create s).nodes n = none := by
    intro n
    cases n with
    | zero => rfl
    | succ n => rfl
  refine ⟨⟨fun n p hp => ?_, fun p c hc => ?_, fun p => ?_, fun c p hp => ?_, fun n _ => hchildren n⟩,
    fun s' n hs => ?_, fun n hn _ => ?_⟩
  · rw [hparent] at hp; cases hp
  · rw [hchildren] at hc; cases hc
  · rw [hchildren]; exact .nil
  · rw [hparent] at hp; cases hp
  · obtain ⟨rfl, rfl⟩ := (hlookup s' n).mp hs
    rfl
  · exact Nat.lt_one_iff.mp hn

section
variable (h : tree.WellFormed)

include h

/-- A node gets a child with a state that it held itself, or that is new. -/
theorem WellFormed.addNode (halive : Alive tree.nodes tree.holds parentNode)
    (hlt : parentNode < tree.nodes.length)
    (hstate : ∀ n, tree.stateToNode.lookup state = some n → n = parentNode)
    (hparent : ∀ s, tree.stateToNode.lookup s = some parentNode → s = state) :
    (tree.addNode parentNode depth state).WellFormed := by
  have hlookup : ∀ s n, (tree.addNode parentNode depth state).stateToNode.lookup s = some n ↔
      s = state ∧ n = tree.nodes.length ∨ s ≠ state ∧ tree.stateToNode.lookup s = some n := by
    intro s n
    rw [ExecutionTree.addNode]
    by_cases heq : s = state
    · subst heq
      rw [AList.lookup_insert]
      simp [eq_comm]
    · rw [AList.lookup_insert_ne heq]
      simp [heq]
  refine ⟨h.pruned.append hlt halive (fun n hn => h.lt_length hn) fun n => ?_, fun s n hs => ?_,
    fun n hn hroot => ?_⟩
  · simp only [holds, hlookup]
    constructor
    · rintro ⟨s, ⟨-, hn⟩ | ⟨hne, hs⟩⟩
      · exact .inl hn
      · refine .inr ⟨⟨s, hs⟩, ?_⟩
        rintro rfl
        exact hne (hparent s hs)
    · rintro (hn | ⟨⟨s, hs⟩, hne⟩)
      · exact ⟨state, .inl ⟨rfl, hn⟩⟩
      · refine ⟨s, .inr ⟨?_, hs⟩⟩
        rintro rfl
        exact hne (hstate n hs)
  · have hlength : (tree.nodes.modify parentNode fun n =>
        { n with children := n.children ++ [tree.nodes.length] }).length = tree.nodes.length :=
      length_modify ..
    rw [ExecutionTree.addNode]
    dsimp only
    rcases (hlookup s n).mp hs with ⟨rfl, rfl⟩ | ⟨-, hs⟩
    · rw [getElem?_append_right hlength.le, hlength]
      simp
    · have hn := h.lt_length ⟨s, hs⟩
      rw [getElem?_append_left (by rw [hlength]; exact hn), ← h.state_eq s n hs]
      exact (trimmed_modify tree.nodes parentNode (· ++ [tree.nodes.length])).states n
  · rw [ExecutionTree.addNode] at hn hroot
    dsimp only at hn hroot
    rw [parentOf_append, length_modify] at hroot
    split at hroot
    case isTrue => cases hroot
    case isFalse hne =>
      have hold := (trimmed_modify tree.nodes parentNode (· ++ [tree.nodes.length])).parent n
      simp only [length_append, length_modify, length_singleton] at hn
      exact h.root n (by omega) (hold.symm.trans hroot)

/-- Nodes that hold no state may change what does not show in the tree. -/
theorem WellFormed.modify {f : Node σ → Node σ} (hparent : ∀ node, (f node).parent = node.parent)
    (hchildren : ∀ node, (f node).children = node.children)
    (hstates : tree.holds p → ∀ node, (f node).states = node.states) :
    WellFormed { tree with nodes := tree.nodes.modify p f } := by
  have hsame : ∀ n, parentOf (tree.nodes.modify p f) n = parentOf tree.nodes n :=
    fun n => parentOf_modify f hparent
  have hunder : ∀ i n, Under (tree.nodes.modify p f) i n ↔ Under tree.nodes i n := fun i n =>
    ⟨Under.mono fun n _ hp => (hsame n).symm.trans hp, Under.mono fun n _ hp => (hsame n).trans hp⟩
  have hlist : ∀ n, childrenOf (tree.nodes.modify p f) n = childrenOf tree.nodes n :=
    fun n => childrenOf_modify_of_eq hchildren
  refine ⟨⟨fun n q hq => ?_, fun q c hc => ?_, fun q => ?_, fun c q hq => ?_, fun n hn => ?_⟩,
    fun s n hs => ?_, fun n hn hroot => ?_⟩
  · exact h.pruned.parent_lt n q ((hsame n).symm.trans hq)
  · rw [hlist] at hc
    exact (hsame c).trans (h.pruned.parent_of_mem q c hc)
  · rw [hlist]
    exact h.pruned.nodup q
  · rw [hlist, h.pruned.mem_iff c q ((hsame c).symm.trans hq)]
    simp only [Alive, hunder]
    exact Iff.rfl
  · rw [hlist]
    exact h.pruned.leaf n hn
  · have hold := h.state_eq s n hs
    dsimp only
    rw [getElem?_modify]
    cases hnode : tree.nodes[n]? with
    | none => rw [hnode] at hold; cases hold
    | some node =>
      rw [hnode] at hold
      by_cases heq : p = n
      · subst heq
        simpa [hstates ⟨s, hs⟩ node] using hold
      · simpa [heq] using hold
  · rw [length_modify] at hn
    exact h.root n hn ((hsame n).symm.trans hroot)

theorem WellFormed.addChildren
    (halive : Alive tree.nodes tree.holds parentNode) (hlt : parentNode < tree.nodes.length)
    (hparent : ¬ tree.holds parentNode) (hfresh : ∀ x ∈ children, x ∉ tree.states)
    (hnodup : children.Nodup) :
    (children.foldl (fun tree child => tree.addNode parentNode depth child) tree).WellFormed := by
  induction children generalizing tree with
  | nil => exact h
  | cons child children ih =>
    obtain ⟨hchild, hnodup⟩ := nodup_cons.mp hnodup
    have hnew : tree.stateToNode.lookup child = none :=
      AList.lookup_eq_none.mpr (hfresh child mem_cons_self)
    have hadd : (tree.addNode parentNode depth child).WellFormed := by
      refine h.addNode halive hlt (fun n hn => ?_) fun s hs => absurd ⟨s, hs⟩ hparent
      rw [hnew] at hn
      cases hn
    have hlength : tree.nodes.length < (tree.addNode parentNode depth child).nodes.length := by
      simp [ExecutionTree.addNode]
    have hheld : (tree.addNode parentNode depth child).holds tree.nodes.length :=
      ⟨child, AList.lookup_insert _⟩
    have hunder : parentOf (tree.addNode parentNode depth child).nodes tree.nodes.length =
        some parentNode := by
      rw [ExecutionTree.addNode, parentOf_append, length_modify, if_pos rfl]
    refine ih hadd ⟨_, hheld, .step hunder .refl⟩ (hlt.trans hlength) ?_ (fun x hx => ?_) hnodup
    · rintro ⟨s, hs⟩
      have hs : (tree.stateToNode.insert child tree.nodes.length).lookup s = some parentNode := hs
      rcases eq_or_ne s child with rfl | hne
      · rw [AList.lookup_insert] at hs
        have := some.inj hs
        omega
      · rw [AList.lookup_insert_ne hne] at hs
        exact hparent ⟨s, hs⟩
    · rw [mem_states_addNode]
      rintro (rfl | hmem)
      · exact hchild hx
      · exact hfresh x (mem_cons_of_mem _ hx) hmem

theorem WellFormed.addFork (hparent : parent ∈ tree.states)
    (hfresh : ∀ x ∈ children, x ∉ tree.states) (hnodup : children.Nodup) :
    (tree.addFork parent children).WellFormed := by
  obtain ⟨parentNode, hnode⟩ := mem_states_iff_lookup.mp hparent
  rw [ExecutionTree.addFork, hnode]
  dsimp only
  split
  case isTrue => exact h.modify (fun _ => rfl) (fun _ => rfl) fun _ _ => rfl
  case isFalse =>
    have hlt := h.lt_length ⟨parent, hnode⟩
    set depth := (tree.nodes[parentNode]?.elim 0 Node.depth) + 1
    have hadd : (tree.addNode parentNode depth parent).WellFormed := by
      refine h.addNode ⟨parentNode, ⟨parent, hnode⟩, .refl⟩ hlt (fun n hn => ?_) fun s hs =>
        h.state_inj hs hnode
      exact some.inj (hn.symm.trans hnode)
    have hmoved : ¬ (tree.addNode parentNode depth parent).holds parentNode := by
      rintro ⟨s, hs⟩
      have hs : (tree.stateToNode.insert parent tree.nodes.length).lookup s = some parentNode := hs
      rcases eq_or_ne s parent with rfl | hne
      · rw [AList.lookup_insert] at hs
        have := some.inj hs
        omega
      · rw [AList.lookup_insert_ne hne] at hs
        exact hne (h.state_inj hs hnode)
    have hheld : (tree.addNode parentNode depth parent).holds tree.nodes.length :=
      ⟨parent, AList.lookup_insert _⟩
    have hunder : parentOf (tree.addNode parentNode depth parent).nodes tree.nodes.length =
        some parentNode := by
      rw [ExecutionTree.addNode, parentOf_append, length_modify, if_pos rfl]
    have hmodify := hadd.modify (p := parentNode)
      (f := fun n => { n with states := n.states.erase parent }) (fun _ => rfl) (fun _ => rfl)
      fun hholds => absurd hholds hmoved
    refine hmodify.addChildren ?_ ?_ hmoved (fun x hx => ?_) hnodup
    · have hkept : parentOf ((tree.addNode parentNode depth parent).nodes.modify parentNode
          fun n => { n with states := n.states.erase parent }) tree.nodes.length = _ :=
        parentOf_modify _ fun _ => rfl
      exact ⟨tree.nodes.length, hheld, .step (hkept.trans hunder) .refl⟩
    · rw [length_modify]
      simp only [ExecutionTree.addNode, length_append, length_modify]
      omega
    · intro hmem
      have hmem : x ∈ (tree.addNode parentNode depth parent).states := hmem
      rcases mem_states_addNode.mp hmem with rfl | hmem
      · exact hfresh x hx hparent
      · exact hfresh x hx hmem

theorem WellFormed.remove : (tree.remove state).WellFormed := by
  rw [ExecutionTree.remove]
  split
  case h_1 => exact h
  case h_2 node hnode =>
    set held : ℕ → Prop := fun n => ∃ s, (tree.stateToNode.erase state).lookup s = some n
    have hlookup : ∀ s n, (tree.stateToNode.erase state).lookup s = some n ↔
        s ≠ state ∧ tree.stateToNode.lookup s = some n := by
      intro s n
      rcases eq_or_ne s state with rfl | hne
      · simp
      · rw [AList.lookup_erase_ne hne]
        simp [hne]
    have hheld : tree.holds = fun n => held n ∨ n = node := by
      refine funext fun n => propext ?_
      simp only [holds, held, hlookup]
      constructor
      · rintro ⟨s, hs⟩
        rcases eq_or_ne s state with rfl | hne
        · exact .inr (some.inj (hs.symm.trans hnode))
        · exact .inl ⟨s, hne, hs⟩
      · rintro (⟨s, -, hs⟩ | rfl)
        · exact ⟨s, hs⟩
        · exact ⟨state, hnode⟩
    have hdead : ¬ Alive tree.nodes held node := by
      rintro ⟨n, ⟨s, hs⟩, hunder⟩
      obtain ⟨hne, hs⟩ := (hlookup s n).mp hs
      by_cases heq : node = n
      · subst heq
        exact hne (h.state_inj hs hnode)
      · obtain ⟨c, hc, hunder⟩ := hunder.exists_child heq
        have hmem := (h.pruned.mem_iff c node hc).mpr ⟨n, ⟨s, hs⟩, hunder⟩
        rw [h.pruned.leaf node ⟨state, hnode⟩] at hmem
        cases hmem
    obtain ⟨hpruned, htrim⟩ := removeNode_pruned (hheld ▸ h.pruned) hdead (h.lt_length ⟨state, hnode⟩)
    refine ⟨hpruned, fun s n hs => ?_, fun n hn hroot => ?_⟩
    · exact (htrim.states n).trans (h.state_eq s n ((hlookup s n).mp hs).2)
    · exact h.root n (htrim.length ▸ hn) ((htrim.parent n).symm.trans hroot)

/-! ### The walk -/

/-- From a node that is alive the walk comes to a state. -/
theorem WellFormed.exists_pick (random : ℕ → ℕ) (fuel drawn : ℕ)
    (hi : Alive tree.nodes tree.holds i) (hfuel : tree.nodes.length ≤ fuel + i) :
    ∃ s drawn', pick tree.nodes random fuel drawn i = some (s, drawn') ∧ s ∈ tree.states := by
  obtain ⟨n, hn, hunder⟩ := hi
  have hlt := (hunder.le h.pruned.parent_lt).trans_lt (h.lt_length hn)
  induction fuel generalizing i n drawn with
  | zero => omega
  | succ fuel ih =>
    obtain ⟨node, hnode⟩ : ∃ node, tree.nodes[i]? = some node := ⟨_, getElem?_eq_getElem hlt⟩
    have hchildren : childrenOf tree.nodes i = node.children := by rw [childrenOf, hnode]; rfl
    rw [pick, hnode, bind_some]
    dsimp only
    split
    case isTrue hempty =>
      have hempty : childrenOf tree.nodes i = [] := hchildren.trans (List.isEmpty_iff.mp hempty)
      obtain rfl : i = n := by
        by_contra hne
        obtain ⟨c, hc, hunder⟩ := hunder.exists_child hne
        have hmem := (h.pruned.mem_iff c i hc).mpr ⟨n, hn, hunder⟩
        rw [hempty] at hmem
        cases hmem
      obtain ⟨s, hs⟩ := hn
      have hstates : node.states = [s] := by simpa [hnode] using h.state_eq s i hs
      refine ⟨s, drawn + 1, ?_, mem_states_iff_lookup.mpr ⟨i, hs⟩⟩
      simp [hstates, Nat.mod_one]
    case isFalse hne =>
      have hpos : 0 < node.children.length := by
        rw [length_pos_iff]
        exact fun hnil => hne (List.isEmpty_iff.mpr hnil)
      have hindex := Nat.mod_lt (random drawn) hpos
      rw [getElem?_eq_getElem hindex, bind_some]
      set child := node.children[random drawn % node.children.length]
      have hmem : child ∈ childrenOf tree.nodes i := hchildren ▸ getElem_mem hindex
      have hparent := h.pruned.parent_of_mem i child hmem
      obtain ⟨m, hm, hunder⟩ := (h.pruned.mem_iff child i hparent).mp hmem
      have hafter := h.pruned.parent_lt child i hparent
      have hbound := (hunder.le h.pruned.parent_lt).trans_lt (h.lt_length hm)
      exact ih (drawn + 1) (by omega) m hm hunder hbound

/-- A tree that has a state finds one. -/
theorem WellFormed.exists_randomPick (random : ℕ → ℕ) (drawn : ℕ) :
    ∃ r drawn', tree.randomPick random drawn = some (r, drawn') ∧
      (∀ x, r = some x → x ∈ tree.states) ∧ (r = none → tree.states = []) := by
  rw [randomPick]
  split
  case isTrue hempty =>
    exact ⟨none, drawn, rfl, fun x hx => by simp at hx, fun _ => List.isEmpty_iff.mp hempty⟩
  case isFalse hne =>
    have hne : tree.states ≠ [] := fun hnil => hne (List.isEmpty_iff.mpr hnil)
    obtain ⟨s, hs⟩ := exists_mem_of_ne_nil _ hne
    obtain ⟨n, hn⟩ := mem_states_iff_lookup.mp hs
    have hroot := h.under_root (h.lt_length ⟨s, hn⟩)
    obtain ⟨x, drawn', hpick, hx⟩ := h.exists_pick random tree.nodes.length drawn
      ⟨n, ⟨s, hn⟩, hroot⟩ (Nat.le_refl _)
    refine ⟨some x, drawn', by rw [hpick]; rfl, fun y hy => ?_, fun hnone => by simp at hnone⟩
    obtain rfl := some.inj hy
    exact hx

end

end ExecutionTree

end VSharp.Explorer
