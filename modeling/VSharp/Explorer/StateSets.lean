import VSharp.Explorer.ForwardSearchers

/-!
# Explorer — Searchers as sets of states

What a forward searcher is for: it holds a set of states, `Update` adds states to it, `Remove` takes
one away, and `Pick` finds a member.

- `Simulates` says that the state of a searcher stands for a set, and goes on doing so.
- `Built` are the searchers that are built from those of `VSharp.Explorer`.
- `Follows` compares a searcher with the set through a sequence of operations.
-/

namespace VSharp.Explorer
open Utils List Option

variable {M : Type} {S : Set (StateRef M)}

/-- At most one state of each entry method. -/
def EntryDistinct (initialStates : List (StateRef M)) : Prop :=
  (∀ s ∈ initialStates, s.isIsolated = false) ∧ (initialStates.map StateRef.entryMethod).Nodup

/-- New states of a parent. -/
def Fresh (S : Set (StateRef M)) (parent : StateRef M) (newStates : List (StateRef M)) : Prop :=
  newStates.Nodup ∧ ∀ x ∈ newStates, x ∉ S ∧ x.entryMethod = parent.entryMethod

/-- What `Pick` may answer; without a selector every state is suitable. -/
def Picks (S : Set (StateRef M)) (selector : StateRef M → Bool) (r : Option (StateRef M)) : Prop :=
  (∀ x, r = some x → x ∈ S ∧ selector x = true) ∧ (r = none → ∀ x ∈ S, selector x = false)

namespace ForwardSearcher

/-- The states of a searcher that stand for a set of states. -/
structure Simulates (searcher : ForwardSearcher M)
    (holds : searcher.State → Set (StateRef M) → Prop) : Prop where
  init : ∀ initialStates, EntryDistinct initialStates →
    ∃ st, searcher.init initialStates = some st ∧ holds st {x | x ∈ initialStates}
  states : ∀ st S, holds st S → ∀ x, x ∈ searcher.states st ↔ x ∈ S
  update : ∀ st S parent newStates, holds st S → parent ∈ S → Fresh S parent newStates →
    ∃ st', searcher.update parent newStates st = some st' ∧ holds st' (S ∪ {x | x ∈ newStates})
  pick : ∀ st S, holds st S →
    ∃ r st', searcher.pick st = some (r, st') ∧ holds st' S ∧ Picks S (fun _ => true) r
  pickSelected : ∀ st S selector, holds st S →
    ∃ r st', searcher.pickSelected selector st = some (r, st') ∧ holds st' S ∧ Picks S selector r
  remove : ∀ st S x, holds st S → x.isIsolated = false →
    ∃ st', searcher.remove x st = some st' ∧ holds st' (S \ {x})

/-- The searcher implements a set of states. -/
def Implements (searcher : ForwardSearcher M) : Prop := ∃ holds, searcher.Simulates holds

end ForwardSearcher

/-- Finding a state among those of a list. -/
theorem picks_of_find {l : List (StateRef M)} (h : ∀ x, x ∈ l ↔ x ∈ S)
    (selector : StateRef M → Bool) : Picks S selector (l.find? selector) := by
  refine ⟨fun x hx => ⟨(h x).mp (mem_of_find?_eq_some hx), find?_some hx⟩, ?_⟩
  intro hnone x hx
  exact Bool.eq_false_iff.mpr (find?_eq_none.mp hnone x ((h x).mpr hx))

theorem picks_of_mem {r : Option (StateRef M)} (hmem : ∀ x, r = some x → x ∈ S)
    (hnone : r = none → ∀ x, x ∉ S) : Picks S (fun _ => true) r :=
  ⟨fun x hx => ⟨hmem x hx, rfl⟩, fun hr x hx => absurd hx (hnone hr x)⟩

/-! ### Lists -/

/-- A list without duplicates that has the elements of a set. -/
def Lists {σ : Type} (l : List σ) (S : Set σ) : Prop := l.Nodup ∧ ∀ x, x ∈ l ↔ x ∈ S

section
variable {S : Set (StateRef M)} {l l' newStates : List (StateRef M)} {parent x : StateRef M}

section
variable (h : Lists l S)

include h

theorem Lists.append (hfresh : Fresh S parent newStates) (hperm : l'.Perm (l ++ newStates)) :
    Lists l' (S ∪ {x | x ∈ newStates}) := by
  refine ⟨hperm.nodup_iff.mpr ?_, fun x => ?_⟩
  · rw [nodup_append]
    refine ⟨h.1, hfresh.1, fun y hy z hz heq => ?_⟩
    exact (hfresh.2 z hz).1 (heq ▸ (h.2 y).mp hy)
  · rw [hperm.mem_iff, mem_append, h.2 x]
    exact Iff.rfl

theorem Lists.erase [DecidableEq M] : Lists (l.erase x) (S \ {x}) := by
  refine ⟨h.1.erase x, fun y => ?_⟩
  rw [h.1.mem_erase_iff, h.2 y, Set.mem_sdiff, Set.mem_singleton_iff, and_comm]

theorem Lists.picks_head : Picks S (fun _ => true) l.head? :=
  picks_of_mem (fun x hx => (h.2 x).mp (mem_of_head? hx)) fun hnone x hx => by
    rw [← h.2 x, head?_eq_none_iff.mp hnone] at hx
    cases hx

theorem Lists.picks_getLast : Picks S (fun _ => true) l.getLast? :=
  picks_of_mem (fun x hx => (h.2 x).mp (mem_of_getLast? hx)) fun hnone x hx => by
    rw [← h.2 x, getLast?_eq_none_iff.mp hnone] at hx
    cases hx

theorem Lists.picks_reverse (selector : StateRef M → Bool) :
    Picks S selector (l.reverse.find? selector) :=
  picks_of_find (fun x => mem_reverse.trans (h.2 x)) selector

end

theorem EntryDistinct.nodup (h : EntryDistinct l) : l.Nodup := List.Nodup.of_map _ h.2

theorem EntryDistinct.lists (h : EntryDistinct l) : Lists l {x | x ∈ l} :=
  ⟨h.nodup, fun _ => Iff.rfl⟩

end

variable [DecidableEq M]

theorem dfsSearcher_implements : (dfsSearcher M).Implements := by
  refine ⟨Lists, ⟨fun l h => ⟨l, rfl, h.lists⟩, fun l S h => h.2, ?_, ?_, ?_, ?_⟩⟩
  · intro l S parent newStates h _ hfresh
    exact ⟨_, rfl, h.append hfresh dfsUpdate_perm⟩
  · exact fun l S h => ⟨_, l, rfl, h, h.picks_getLast⟩
  · exact fun l S selector h => ⟨_, l, rfl, h, h.picks_reverse selector⟩
  · exact fun l S x h _ => ⟨_, rfl, h.erase⟩

theorem bfsSearcher_implements : (bfsSearcher M).Implements := by
  refine ⟨Lists, ⟨fun l h => ⟨l, rfl, h.lists⟩, fun l S h => h.2, ?_, ?_, ?_, ?_⟩⟩
  · intro l S parent newStates h _ hfresh
    exact ⟨_, rfl, h.append hfresh bfsUpdate_perm⟩
  · exact fun l S h => ⟨_, l, rfl, h, h.picks_head⟩
  · exact fun l S selector h => ⟨_, l, rfl, h, picks_of_find h.2 selector⟩
  · exact fun l S x h _ => ⟨_, rfl, h.erase⟩

theorem orderBy_perm {σ : Type} (getWeight : σ → Option ℕ) (l : List σ) :
    (orderBy getWeight l).Perm l := perm_insertionSort _ l

theorem sortedSearcher_implements (getWeight : ℕ → StateRef M → Option ℕ) :
    (sortedSearcher getWeight).Implements := by
  refine ⟨fun s => Lists s.1, ⟨fun l h => ⟨_, rfl, ?_⟩, fun s S h => h.2, ?_, ?_, ?_, ?_⟩⟩
  · have hperm := orderBy_perm (getWeight 0) l
    exact ⟨hperm.nodup_iff.mpr h.nodup, fun x => hperm.mem_iff⟩
  · intro s S parent newStates h _ hfresh
    exact ⟨_, rfl, h.append hfresh (orderBy_perm _ _)⟩
  · exact fun s S h => ⟨_, s, rfl, h, h.picks_getLast⟩
  · exact fun s S selector h => ⟨_, s, rfl, h, h.picks_reverse selector⟩
  · exact fun s S x h _ => ⟨_, rfl, h.erase⟩

/-! ### Weights -/

namespace WeightedSearcher
variable {σ : Type} [DecidableEq σ] {optionWeight : σ → Option ℕ}
  {storage : BidictionaryPriorityQueue σ} {states : List σ} {s : σ}

theorem exists_addAll (hweight : ∀ s, (optionWeight s).isSome) (h : storage.Consistent)
    (hnodup : states.Nodup) (hfresh : ∀ s ∈ states, s ∉ storage.toSeq) :
    ∃ storage', addAll optionWeight states storage = some storage' ∧ storage'.Consistent ∧
      ∀ x, x ∈ storage'.toSeq ↔ x ∈ storage.toSeq ∨ x ∈ states := by
  induction states generalizing storage with
  | nil => exact ⟨storage, rfl, h, by simp⟩
  | cons s states ih =>
    obtain ⟨hs, hnodup⟩ := nodup_cons.mp hnodup
    obtain ⟨w, hw⟩ := isSome_iff_exists.mp (hweight s)
    obtain ⟨storage₁, hinsert, h₁, hmem₁⟩ := h.insert (hfresh s mem_cons_self) w
    have hfresh₁ : ∀ x ∈ states, x ∉ storage₁.toSeq := by
      intro x hx hmem
      rcases (hmem₁ x).mp hmem with rfl | hmem
      · exact hs hx
      · exact hfresh x (mem_cons_of_mem _ hx) hmem
    obtain ⟨storage', hadd, h', hmem'⟩ := ih h₁ hnodup hfresh₁
    refine ⟨storage', ?_, h', fun x => ?_⟩
    · have hfirst : add optionWeight s storage = some (true, storage₁) := by
        rw [add, hw]
        dsimp only
        rw [hinsert, map_some]
      rw [addAll, foldlM_cons, hfirst]
      exact hadd
    · rw [hmem', hmem₁, mem_cons]
      tauto

theorem exists_update {parent : σ} (hweight : ∀ s, (optionWeight s).isSome) (h : storage.Consistent)
    (hparent : parent ∈ storage.toSeq) (hnodup : states.Nodup)
    (hfresh : ∀ s ∈ states, s ∉ storage.toSeq) :
    ∃ storage', update optionWeight parent states storage = some storage' ∧ storage'.Consistent ∧
      ∀ x, x ∈ storage'.toSeq ↔ x ∈ storage.toSeq ∨ x ∈ states := by
  obtain ⟨w, hw⟩ := isSome_iff_exists.mp (hweight parent)
  obtain ⟨storage₁, hupdate, h₁, hmem₁⟩ := h.update hparent w
  have hfirst : updateState optionWeight parent storage = some (true, storage₁) := by
    have hcontains := BidictionaryPriorityQueue.contains_iff.mpr hparent
    rw [updateState, if_pos hcontains, hw]
    dsimp only
    rw [hupdate, map_some]
  obtain ⟨storage', hadd, h', hmem'⟩ :=
    exists_addAll hweight h₁ hnodup fun s hs hmem => hfresh s hs ((hmem₁ s).mp hmem)
  refine ⟨storage', ?_, h', fun x => ?_⟩
  · rw [update, hfirst, bind_some, hadd]
  · rw [hmem', hmem₁]

end WeightedSearcher

theorem weightedSearcher_implements (weight : ℕ → StateRef M → Option ℕ)
    (hweight : ∀ n s, (weight n s).isSome) : (weightedSearcher weight).Implements := by
  refine ⟨fun s S => s.1.Consistent ∧ ∀ x, x ∈ s.1.toSeq ↔ x ∈ S,
    ⟨?_, fun s S h => h.2, ?_, ?_, ?_, ?_⟩⟩
  · intro l hl
    obtain ⟨storage, hadd, h, hmem⟩ := WeightedSearcher.exists_addAll (hweight 0)
      (BidictionaryPriorityQueue.consistent_empty (α := StateRef M)) hl.nodup fun s _ hs => by
        cases hs
    refine ⟨(storage, 1), ?_, h, fun x => ?_⟩
    · exact congrArg (Option.map fun storage => (storage, 1)) hadd
    · rw [hmem]
      exact or_iff_right fun hx => by cases hx
  · rintro ⟨storage, n⟩ S parent newStates ⟨h, hS⟩ hparent hfresh
    obtain ⟨storage', hupdate, h', hmem⟩ := WeightedSearcher.exists_update (hweight n) h
      ((hS parent).mpr hparent) hfresh.1 fun s hs hmem => (hfresh.2 s hs).1 ((hS s).mp hmem)
    refine ⟨(storage', n + 1), ?_, h', fun x => ?_⟩
    · exact congrArg (Option.map fun storage => (storage, n + 1)) hupdate
    · rw [hmem, hS]
      exact Iff.rfl
  · rintro s S ⟨h, hS⟩
    obtain ⟨r, hchoose, hmem, hnone⟩ := h.choose
    refine ⟨r, s, ?_, ⟨h, hS⟩, picks_of_mem (fun x hx => (hS x).mp (hmem x hx)) ?_⟩
    · exact congrArg (Option.map fun r => (r, s)) hchoose
    · exact fun hr x hx => hnone hr x ((hS x).mpr hx)
  · rintro s S selector ⟨h, hS⟩
    obtain ⟨hmem, hnone⟩ := h.chooseWithSelector selector
    refine ⟨_, s, rfl, ⟨h, hS⟩, fun x hx => ?_, fun hr x hx => hnone hr x ((hS x).mpr hx)⟩
    exact (hmem x hx).imp_left (hS x).mp
  · rintro ⟨storage, n⟩ S x ⟨h, hS⟩ _
    by_cases hx : x ∈ storage.toSeq
    · obtain ⟨storage', hremove, h', hmem⟩ := h.remove hx
      refine ⟨(storage', n), ?_, h', fun y => ?_⟩
      · have hcontains := BidictionaryPriorityQueue.contains_iff.mpr hx
        exact (if_pos hcontains).trans (congrArg (Option.map fun storage => (storage, n)) hremove)
      · rw [hmem, hS]
        exact Iff.rfl
    · refine ⟨(storage, n), ?_, h, fun y => ?_⟩
      · exact if_neg fun hcontains => hx (BidictionaryPriorityQueue.contains_iff.mp hcontains)
      · rw [hS, Set.mem_sdiff, Set.mem_singleton_iff]
        refine (and_iff_left_of_imp ?_).symm
        rintro hy rfl
        exact hx ((hS y).mpr hy)

/-! ### Trees -/

namespace ExecutionTreeSearcher

/-- The trees hold states of their methods, each has one, and their methods are listed. -/
structure Sound (t : ExecutionTreeSearcher M) : Prop where
  keyed : t.Keyed
  wellFormed : ∀ m tree, t.trees.lookup m = some tree → tree.WellFormed
  ne_nil : ∀ m tree, t.trees.lookup m = some tree → tree.states ≠ []
  nodup : t.methods.Nodup
  mem_methods : ∀ m, m ∈ t.methods ↔ m ∈ t.trees

variable {t t' : ExecutionTreeSearcher M} {state parent : StateRef M}
  {newStates : List (StateRef M)} {tree : ExecutionTree (StateRef M)} {m : M}

theorem statesOf_of_lookup (h : t.trees.lookup m = some tree) : t.statesOf m = tree.states := by
  rw [statesOf, h]
  rfl

/-- The method gets a tree. -/
theorem Sound.insert {methods : List M} (h : t.Sound)
    (hkeyed : Keyed ⟨t.trees.insert m tree, methods⟩) (htree : tree.WellFormed)
    (hne : tree.states ≠ []) (hnodup : methods.Nodup)
    (hmethods : ∀ m', m' ∈ methods ↔ m' = m ∨ m' ∈ t.methods) :
    Sound ⟨t.trees.insert m tree, methods⟩ := by
  have hlookup : ∀ m' tree', (t.trees.insert m tree).lookup m' = some tree' →
      tree' = tree ∨ t.trees.lookup m' = some tree' := by
    intro m' tree' hm'
    rcases eq_or_ne m' m with rfl | hm
    · rw [AList.lookup_insert] at hm'
      exact .inl (some.inj hm').symm
    · rw [AList.lookup_insert_ne hm] at hm'
      exact .inr hm'
  refine ⟨hkeyed, fun m' tree' hm' => ?_, fun m' tree' hm' => ?_, hnodup, fun m' => ?_⟩
  · rcases hlookup m' tree' hm' with rfl | hm'
    · exact htree
    · exact h.wellFormed m' tree' hm'
  · rcases hlookup m' tree' hm' with rfl | hm'
    · exact hne
    · exact h.ne_nil m' tree' hm'
  · rw [hmethods, h.mem_methods, AList.mem_insert]

theorem exists_addMethod (h : t.Sound) {method : M} (hmethod : state.entryMethod = some method)
    (hnew : method ∉ t.methods) :
    ∃ t', t.addMethod state = some t' ∧ t'.Sound ∧
      (∀ x, x ∈ t'.states ↔ x ∈ t.states ∨ x = state) ∧
      ∀ m, m ∈ t'.methods ↔ m ∈ t.methods ∨ m = method := by
  have hadd : t.addMethod state =
      some ⟨t.trees.insert method (.create state), t.methods ++ [method]⟩ := by
    rw [addMethod, hmethod, bind_eq_bind, bind_some, if_neg hnew]
  have hcreate : (ExecutionTree.create state).states = [state] := rfl
  refine ⟨_, hadd, ?_, fun x => ?_, fun m => by simp⟩
  · refine h.insert (h.keyed.addMethod hadd) (ExecutionTree.wellFormed_create state) (by simp [hcreate])
      (concat_eq_append ▸ h.nodup.concat hnew) fun m => ?_
    simp [or_comm]
  · have hnone : t.statesOf method = [] := by
      have habsent : method ∉ t.trees := fun hmem => hnew ((h.mem_methods method).mpr hmem)
      rw [statesOf, AList.lookup_eq_none.mpr habsent]
      rfl
    simp only [mem_states, statesOf_insert]
    constructor
    · rintro ⟨m, hx⟩
      split at hx
      case isTrue => exact .inr (mem_singleton.mp (hcreate ▸ hx))
      case isFalse => exact .inl ⟨m, hx⟩
    · rintro (⟨m, hx⟩ | rfl)
      · refine ⟨m, ?_⟩
        split
        case isTrue heq =>
          rw [heq, hnone] at hx
          cases hx
        case isFalse => exact hx
      · refine ⟨method, ?_⟩
        rw [if_pos rfl, hcreate]
        exact mem_singleton_self x

theorem exists_init {initialStates : List (StateRef M)} (h : EntryDistinct initialStates) :
    ∃ t, init initialStates = some t ∧ t.Sound ∧ ∀ x, x ∈ t.states ↔ x ∈ initialStates := by
  have hadd : ∀ (l : List (StateRef M)) (t : ExecutionTreeSearcher M), t.Sound → EntryDistinct l →
      (∀ s ∈ l, ∀ m ∈ t.methods, s.entryMethod ≠ some m) →
      ∃ t', l.foldlM ExecutionTreeSearcher.addMethod t = some t' ∧ t'.Sound ∧
        ∀ x, x ∈ t'.states ↔ x ∈ t.states ∨ x ∈ l := by
    intro l
    induction l with
    | nil => exact fun t ht _ _ => ⟨t, rfl, ht, by simp⟩
    | cons s l ih =>
      intro t ht hl hnew
      obtain ⟨m, hm⟩ : ∃ m, s.entryMethod = some m := by
        have hs := hl.1 s mem_cons_self
        rw [StateRef.isIsolated] at hs
        exact isSome_iff_exists.mp (by simpa using hs)
      have hdistinct := nodup_cons.mp hl.2
      have hfresh : m ∉ t.methods := fun hmem => hnew s mem_cons_self m hmem hm
      obtain ⟨t₁, hfirst, ht₁, hstates₁, hmethods₁⟩ := exists_addMethod ht hm hfresh
      obtain ⟨t', hrest, ht', hstates⟩ := ih t₁ ht₁
        ⟨fun x hx => hl.1 x (mem_cons_of_mem _ hx), hdistinct.2⟩ fun x hx m' hm' heq => by
          rcases (hmethods₁ m').mp hm' with hm' | rfl
          · exact hnew x (mem_cons_of_mem _ hx) m' hm' heq
          · refine hdistinct.1 (mem_map.mpr ⟨x, hx, heq.trans hm.symm⟩)
      refine ⟨t', ?_, ht', fun x => ?_⟩
      · rw [foldlM_cons, hfirst]
        exact hrest
      · rw [hstates, hstates₁, mem_cons]
        tauto
  have hempty : Sound (⟨∅, []⟩ : ExecutionTreeSearcher M) := by
    refine ⟨fun m x hx => ?_, fun m tree hm => ?_, fun m tree hm => ?_, nodup_nil, fun m => ?_⟩
    · cases hx
    · cases hm
    · cases hm
    · simp
  obtain ⟨t, hinit, ht, hstates⟩ := hadd initialStates ⟨∅, []⟩ hempty h fun s _ m hm => by cases hm
  refine ⟨t, hinit, ht, fun x => ?_⟩
  rw [hstates]
  exact or_iff_right fun hx => by cases hx

theorem Sound.remove (h : t.Sound) : (t.remove state).Sound := by
  have hkeyed : (t.remove state).Keyed := h.keyed.remove
  rw [ExecutionTreeSearcher.remove] at hkeyed ⊢
  split
  case h_1 => exact h
  case h_2 m hm =>
    rw [hm] at hkeyed
    dsimp only at hkeyed
    split
    case h_1 => exact h
    case h_2 tree htree =>
      rw [htree] at hkeyed
      dsimp only at hkeyed ⊢
      have hmem : m ∈ t.methods :=
        (h.mem_methods m).mpr (AList.lookup_isSome.mp (htree ▸ rfl))
      split
      case isTrue hempty =>
        rw [if_pos hempty] at hkeyed
        have hlookup : ∀ m' tree', (t.trees.erase m).lookup m' = some tree' →
            t.trees.lookup m' = some tree' := by
          intro m' tree' hm'
          rcases eq_or_ne m' m with rfl | hne
          · rw [AList.lookup_erase] at hm'
            cases hm'
          · rwa [AList.lookup_erase_ne hne] at hm'
        refine ⟨hkeyed, fun m' tree' hm' => h.wellFormed m' tree' (hlookup m' tree' hm'),
          fun m' tree' hm' => h.ne_nil m' tree' (hlookup m' tree' hm'), h.nodup.erase m,
          fun m' => ?_⟩
        rw [h.nodup.mem_erase_iff, AList.mem_erase, h.mem_methods]
      case isFalse hne =>
        rw [if_neg hne] at hkeyed
        refine h.insert hkeyed (h.wellFormed m tree htree).remove ?_ h.nodup fun m' => ?_
        · exact fun hnil => hne (length_eq_zero_iff.mpr hnil)
        · exact (or_iff_right_of_imp fun heq => heq ▸ hmem).symm

theorem Sound.update (h : t.Sound) (hparent : parent ∈ t.states)
    (hfresh : Fresh {x | x ∈ t.states} parent newStates) : (t.update parent newStates).Sound := by
  have hkeyed : (t.update parent newStates).Keyed :=
    h.keyed.update fun x hx => (hfresh.2 x hx).2
  obtain ⟨m, hmem⟩ := mem_states.mp hparent
  have hm := h.keyed m parent hmem
  obtain ⟨tree, htree⟩ : ∃ tree, t.trees.lookup m = some tree := by
    rw [statesOf] at hmem
    cases hlookup : t.trees.lookup m with
    | none => rw [hlookup] at hmem; cases hmem
    | some tree => exact ⟨tree, rfl⟩
  rw [statesOf_of_lookup htree] at hmem
  have hmethod : m ∈ t.methods := (h.mem_methods m).mpr (AList.lookup_isSome.mp (htree ▸ rfl))
  have hupdate : t.update parent newStates =
      { t with trees := t.trees.insert m (tree.addFork parent newStates) } := by
    rw [ExecutionTreeSearcher.update, hm]
    dsimp only
    rw [htree]
  rw [hupdate] at hkeyed ⊢
  refine h.insert hkeyed ((h.wellFormed m tree htree).addFork hmem (fun x hx hxt => ?_) hfresh.1) ?_
    h.nodup fun m' => (or_iff_right_of_imp fun heq => heq ▸ hmethod).symm
  · refine (hfresh.2 x hx).1 (mem_states.mpr ⟨m, ?_⟩)
    rwa [statesOf_of_lookup htree]
  · refine ne_nil_of_mem (a := parent) ?_
    exact (ExecutionTree.mem_states_addFork hmem).mpr (.inl hmem)

theorem Sound.exists_pick (h : t.Sound) (random : ℕ → ℕ) (drawn : ℕ) :
    ∃ r drawn', pick random (t, drawn) = some (r, t, drawn') ∧
      Picks {x | x ∈ t.states} (fun _ => true) r := by
  rw [pick]
  split
  case isTrue hpos =>
    have hindex := Nat.mod_lt (random drawn) hpos
    set method := t.methods[random drawn % t.methods.length]
    have hmem : method ∈ t.trees := (h.mem_methods method).mp (getElem_mem hindex)
    obtain ⟨tree, htree⟩ := isSome_iff_exists.mp (AList.lookup_isSome.mpr hmem)
    obtain ⟨r, drawn', hpick, hr, hnone⟩ :=
      (h.wellFormed method tree htree).exists_randomPick random (drawn + 1)
    refine ⟨r, drawn', ?_, picks_of_mem (fun x hx => ?_) fun hr' => ?_⟩
    · simp only [getElem?_eq_getElem hindex, bind_eq_bind, bind_some]
      change ((t.trees.lookup method).bind _) = _
      rw [htree, bind_some, hpick, bind_some]
    · refine mem_states.mpr ⟨method, ?_⟩
      rw [statesOf_of_lookup htree]
      exact hr x hx
    · exact absurd (hnone hr') (h.ne_nil method tree htree)
  case isFalse hzero =>
    refine ⟨none, drawn, rfl, picks_of_mem (fun x hx => by simp at hx) fun _ x hx => ?_⟩
    have hnil : t.methods = [] := length_eq_zero_iff.mp (Nat.eq_zero_of_not_pos hzero)
    obtain ⟨m, hmem⟩ := mem_states.mp hx
    rw [statesOf] at hmem
    cases hlookup : t.trees.lookup m with
    | none => rw [hlookup] at hmem; cases hmem
    | some tree =>
      have hm := (h.mem_methods m).mpr (AList.lookup_isSome.mp (hlookup ▸ rfl))
      rw [hnil] at hm
      cases hm

omit [DecidableEq M] in
theorem exists_tryFindSuitable {trees : List (ExecutionTree (StateRef M))}
    (hne : ∀ tree ∈ trees, tree.states ≠ []) (selector : StateRef M → Bool) :
    ∃ r, tryFindSuitable selector trees = some r ∧ ∀ tree, r = some tree → tree ∈ trees := by
  induction trees with
  | nil => exact ⟨none, rfl, fun tree htree => by cases htree⟩
  | cons tree trees ih =>
    obtain ⟨r, hr, hmem⟩ := ih fun tree htree => hne tree (mem_cons_of_mem _ htree)
    obtain ⟨s, states, hstates⟩ := exists_cons_of_ne_nil (hne tree mem_cons_self)
    rw [tryFindSuitable, hstates, head?_cons, bind_some]
    split
    case isTrue => exact ⟨some tree, rfl, fun tree' htree => by cases htree; exact mem_cons_self⟩
    case isFalse => exact ⟨r, hr, fun tree htree => mem_cons_of_mem _ (hmem tree htree)⟩

theorem Sound.exists_pickWithSelector (h : t.Sound) (random : ℕ → ℕ) (drawn : ℕ)
    (selector : StateRef M → Bool) :
    ∃ r drawn', pickWithSelector random selector (t, drawn) = some (r, t, drawn') ∧
      Picks {x | x ∈ t.states} selector r := by
  have hentry : ∀ tree ∈ t.trees.entries.map Sigma.snd, ∃ m, t.trees.lookup m = some tree := by
    intro tree htree
    obtain ⟨e, he, rfl⟩ := mem_map.mp htree
    exact ⟨e.1, AList.mem_lookup_iff.mpr he⟩
  have hne : ∀ tree ∈ t.trees.entries.map Sigma.snd, tree.states ≠ [] := by
    intro tree htree
    obtain ⟨m, hm⟩ := hentry tree htree
    exact h.ne_nil m tree hm
  obtain ⟨suitable, hfind, hsuitable⟩ := exists_tryFindSuitable hne selector
  obtain ⟨picked, drawn', hpick, hpicked⟩ : ∃ picked drawn',
      (suitable.elim (some (none, drawn)) fun tree => tree.randomPick random drawn) =
        some (picked, drawn') ∧ ∀ x, picked = some x → x ∈ t.states := by
    cases suitable with
    | none => exact ⟨none, drawn, rfl, fun x hx => by cases hx⟩
    | some tree =>
      obtain ⟨m, hm⟩ := hentry tree (hsuitable tree rfl)
      obtain ⟨r, drawn', hpick, hr, -⟩ := (h.wellFormed m tree hm).exists_randomPick random drawn
      refine ⟨r, drawn', hpick, fun x hx => mem_states.mpr ⟨m, ?_⟩⟩
      rw [statesOf_of_lookup hm]
      exact hr x hx
  have hcode : pickWithSelector random selector (t, drawn) =
      if picked.any selector then some (picked, t, drawn')
      else some (t.states.find? selector, t, drawn') := by
    rw [pickWithSelector, hfind]
    simp only [bind_eq_bind, bind_some, hpick]
  rw [hcode]
  split
  case isTrue hany =>
    obtain ⟨x, rfl, hx⟩ := (any_eq_true _ _).mp hany
    refine ⟨_, drawn', rfl, fun y hy => ⟨hpicked y hy, ?_⟩, fun hr => ?_⟩
    · obtain rfl := some.inj hy
      exact hx
    · cases hr
  case isFalse => exact ⟨_, drawn', rfl, picks_of_find (fun x => Iff.rfl) selector⟩

end ExecutionTreeSearcher

theorem executionTreeSearcher_implements (random : ℕ → ℕ) :
    (executionTreeSearcher random : ForwardSearcher M).Implements := by
  refine ⟨fun s S => s.1.Sound ∧ ∀ x, x ∈ s.1.states ↔ x ∈ S, ⟨?_, fun s S h => h.2, ?_, ?_, ?_, ?_⟩⟩
  · intro l hl
    obtain ⟨t, hinit, ht, hmem⟩ := ExecutionTreeSearcher.exists_init hl
    exact ⟨(t, 0), congrArg (Option.map fun t => (t, 0)) hinit, ht, hmem⟩
  · rintro ⟨t, drawn⟩ S parent newStates ⟨ht, hS⟩ hparent hfresh
    have hmem : parent ∈ t.states := (hS parent).mpr hparent
    have hfresh' : Fresh {x | x ∈ t.states} parent newStates :=
      ⟨hfresh.1, fun x hx => ⟨fun hxt => (hfresh.2 x hx).1 ((hS x).mp hxt), (hfresh.2 x hx).2⟩⟩
    obtain ⟨m, hm⟩ := ExecutionTreeSearcher.mem_states.mp hmem
    have hisolated : ¬ parent.isIsolated = true := by
      rw [StateRef.isIsolated, ht.keyed m parent hm]
      exact Bool.false_ne_true
    refine ⟨(t.update parent newStates, drawn), if_neg hisolated, ht.update hmem hfresh', fun x => ?_⟩
    rw [ht.keyed.mem_states_update hmem, hS]
    exact Iff.rfl
  · rintro ⟨t, drawn⟩ S ⟨ht, hS⟩
    obtain ⟨r, drawn', hpick, hpicks⟩ := ht.exists_pick random drawn
    have hset : {x | x ∈ t.states} = S := Set.ext hS
    exact ⟨r, (t, drawn'), hpick, ⟨ht, hS⟩, hset ▸ hpicks⟩
  · rintro ⟨t, drawn⟩ S selector ⟨ht, hS⟩
    obtain ⟨r, drawn', hpick, hpicks⟩ := ht.exists_pickWithSelector random drawn selector
    have hset : {x | x ∈ t.states} = S := Set.ext hS
    exact ⟨r, (t, drawn'), hpick, ⟨ht, hS⟩, hset ▸ hpicks⟩
  · rintro ⟨t, drawn⟩ S x ⟨ht, hS⟩ hx
    have hisolated : ¬ x.isIsolated = true := by simp [hx]
    refine ⟨(t.remove x, drawn), if_neg hisolated, ht.remove, fun y => ?_⟩
    rw [ht.keyed.mem_states_remove, hS]
    exact Iff.rfl

/-! ### Interleaving -/

theorem sequence_eq {n : ℕ} {α : Fin n → Type} {f : ∀ i, Option (α i)} {g : ∀ i, α i}
    (h : ∀ i, f i = some (g i)) : sequence f = some g := by
  have hsome : ∀ i, (f i).isSome := fun i => by rw [h i]; rfl
  rw [sequence, dif_pos hsome]
  exact congrArg some (funext fun i => get_of_eq_some _ (h i))

namespace InterleavedSearcher
variable {searchers : List (ForwardSearcher M × ℕ)}
  {holds : ∀ i : Fin searchers.length, (searchers.get i).1.State → Set (StateRef M) → Prop}
  {s : States searchers} {S : Set (StateRef M)}

section

omit [DecidableEq M]

/-- There is a searcher whose turn it is. -/
theorem exists_currentSearcher (hne : searchers ≠ []) (hsteps : ∀ e ∈ searchers, 1 ≤ e.2)
    (moves : ℕ) : ∃ i, currentSearcher searchers moves = some i := by
  have hround : round searchers ≠ [] := by
    have hpos : 0 < searchers.length := length_pos_iff.mpr hne
    refine ne_nil_of_mem (a := ⟨0, hpos⟩) (mem_flatMap.mpr ⟨⟨0, hpos⟩, by simp, ?_⟩)
    rw [mem_replicate]
    exact ⟨Nat.one_le_iff_ne_zero.mp (hsteps _ (get_mem ..)), rfl⟩
  have hindex := Nat.mod_lt moves (length_pos_iff.mpr hround)
  exact ⟨_, getElem?_eq_getElem hindex⟩

section
variable (h : ∀ i, (searchers.get i).1.Simulates (holds i))

include h

/-- One searcher is asked; the others stay as they are. -/
theorem exists_pickInternal (hs : ∀ i, holds i (s i) S) (selectorOpt : Option (StateRef M → Bool))
    (i : Fin searchers.length) :
    ∃ r s', pickInternal selectorOpt i s = some (r, s') ∧ (∀ i, holds i (s' i) S) ∧
      Picks S (selectorOpt.getD fun _ => true) r := by
  have hupdate : ∀ st, holds i st S → ∀ j, holds j (Function.update s i st j) S := by
    intro st hst j
    rcases eq_or_ne j i with rfl | hne
    · rwa [Function.update_self]
    · rw [Function.update_of_ne hne]
      exact hs j
  cases selectorOpt with
  | none =>
    obtain ⟨r, st, hpick, hst, hr⟩ := (h i).pick (s i) S (hs i)
    refine ⟨r, Function.update s i st, ?_, hupdate st hst, hr⟩
    exact congrArg (Option.map fun r => (r.1, Function.update s i r.2)) hpick
  | some selector =>
    obtain ⟨r, st, hpick, hst, hr⟩ := (h i).pickSelected (s i) S selector (hs i)
    refine ⟨r, Function.update s i st, ?_, hupdate st hst, hr⟩
    exact congrArg (Option.map fun r => (r.1, Function.update s i r.2)) hpick

theorem exists_tryPick
    (selectorOpt : Option (StateRef M → Bool)) (rest : List (Fin searchers.length))
    (hs : ∀ i, holds i (s i) S) (hnone : Picks S (selectorOpt.getD fun _ => true) none) :
    ∃ r s', tryPick selectorOpt rest s = some (r, s') ∧ (∀ i, holds i (s' i) S) ∧
      Picks S (selectorOpt.getD fun _ => true) r := by
  induction rest generalizing s with
  | nil => exact ⟨none, s, rfl, hs, hnone⟩
  | cons i rest ih =>
    obtain ⟨r, s', hpick, hs', hr⟩ := exists_pickInternal h hs selectorOpt i
    rw [tryPick, hpick, bind_some]
    cases r with
    | none => exact ih hs'
    | some x => exact ⟨some x, s', rfl, hs', hr⟩

theorem exists_pick (hne : searchers ≠ [])
    (hsteps : ∀ e ∈ searchers, 1 ≤ e.2) (hs : ∀ i, holds i (s i) S)
    (selectorOpt : Option (StateRef M → Bool)) (moves : ℕ) :
    ∃ r s' moves', pick selectorOpt (s, moves) = some (r, s', moves') ∧ (∀ i, holds i (s' i) S) ∧
      Picks S (selectorOpt.getD fun _ => true) r := by
  obtain ⟨i, hi⟩ := exists_currentSearcher hne hsteps moves
  obtain ⟨r, s₁, hpick, hs₁, hr⟩ := exists_pickInternal h hs selectorOpt i
  rw [pick]
  simp only [hi, hpick, bind_eq_bind, bind_some]
  cases r with
  | some x => exact ⟨some x, s₁, moves + 1, rfl, hs₁, hr⟩
  | none =>
    -- what the first one does not find, no other one finds
    obtain ⟨r, s₂, htry, hs₂, hr⟩ := exists_tryPick h selectorOpt
      ((List.finRange _).filter (· ≠ i)) hs₁ hr
    refine ⟨r, s₂, moves + 1, ?_, hs₂, hr⟩
    simp only [htry, map_some]

end

end

end InterleavedSearcher

theorem interleavedSearcher_implements {searchers : List (ForwardSearcher M × ℕ)}
    (hne : searchers ≠ []) (hsteps : ∀ e ∈ searchers, 1 ≤ e.2)
    (h : ∀ e ∈ searchers, e.1.Implements) : (interleavedSearcher searchers).Implements := by
  choose holds hholds using fun i : Fin searchers.length => h (searchers.get i) (get_mem ..)
  refine ⟨fun s S => ∀ i, holds i (s.1 i) S, ⟨?_, ?_, ?_, ?_, ?_, ?_⟩⟩
  · intro l hl
    choose s hinit hs using fun i => (hholds i).init l hl
    exact ⟨(s, 0), congrArg (Option.map fun s => (s, 0)) (sequence_eq hinit), hs⟩
  · rintro ⟨s, moves⟩ S hs x
    change x ∈ List.eraseDups _ ↔ x ∈ S
    rw [mem_eraseDups, mem_flatMap]
    have hpos : 0 < searchers.length := length_pos_iff.mpr hne
    constructor
    · rintro ⟨i, -, hx⟩
      exact ((hholds i).states _ _ (hs i) x).mp hx
    · exact fun hx => ⟨⟨0, hpos⟩, by simp, ((hholds _).states _ _ (hs _) x).mpr hx⟩
  · rintro ⟨s, moves⟩ S parent newStates hs hparent hfresh
    choose s' hupdate hs' using fun i =>
      (hholds i).update (s i) S parent newStates (hs i) hparent hfresh
    exact ⟨(s', moves), congrArg (Option.map fun s => (s, moves)) (sequence_eq hupdate), hs'⟩
  · rintro ⟨s, moves⟩ S hs
    obtain ⟨r, s', moves', hpick, hs', hr⟩ :=
      InterleavedSearcher.exists_pick hholds hne hsteps hs none moves
    exact ⟨r, (s', moves'), hpick, hs', hr⟩
  · rintro ⟨s, moves⟩ S selector hs
    obtain ⟨r, s', moves', hpick, hs', hr⟩ :=
      InterleavedSearcher.exists_pick hholds hne hsteps hs (some selector) moves
    exact ⟨r, (s', moves'), hpick, hs', hr⟩
  · rintro ⟨s, moves⟩ S x hs hx
    choose s' hremove hs' using fun i => (hholds i).remove (s i) S x (hs i) hx
    exact ⟨(s', moves), congrArg (Option.map fun s => (s, moves)) (sequence_eq hremove), hs'⟩

/-! ### Sequences of operations -/

/-- The searchers that are built from those of the explorer. -/
inductive Built : ForwardSearcher M → Prop where
  | dfs : Built (dfsSearcher M)
  | bfs : Built (bfsSearcher M)
  | sorted (getWeight : ℕ → StateRef M → Option ℕ) : Built (sortedSearcher getWeight)
  | weighted (weight : ℕ → StateRef M → Option ℕ) (h : ∀ n s, (weight n s).isSome) :
      Built (weightedSearcher weight)
  | executionTree (random : ℕ → ℕ) : Built (executionTreeSearcher random)
  | interleaved (searchers : List (ForwardSearcher M × ℕ)) (hne : searchers ≠ [])
      (hsteps : ∀ e ∈ searchers, 1 ≤ e.2) (h : ∀ e ∈ searchers, Built e.1) :
      Built (interleavedSearcher searchers)

theorem Built.implements {searcher : ForwardSearcher M} (h : Built searcher) :
    searcher.Implements := by
  induction h with
  | dfs => exact dfsSearcher_implements
  | bfs => exact bfsSearcher_implements
  | sorted getWeight => exact sortedSearcher_implements getWeight
  | weighted weight h => exact weightedSearcher_implements weight h
  | executionTree random => exact executionTreeSearcher_implements random
  | interleaved searchers hne hsteps _ ih => exact interleavedSearcher_implements hne hsteps ih

inductive Operation (M : Type) where
  | update (parent : StateRef M) (newStates : List (StateRef M))
  | pick
  | pickSelected (selector : StateRef M → Bool)
  | remove (state : StateRef M)

namespace Operation

/-- What the operation does to the set of states. -/
def after (S : Set (StateRef M)) : Operation M → Set (StateRef M)
  | .update _ newStates => S ∪ {x | x ∈ newStates}
  | .remove state => S \ {state}
  | _ => S

/-- The operations that a caller may perform: the parent is held, and its new states are new. -/
def Allowed (S : Set (StateRef M)) : Operation M → Prop
  | .update parent newStates => parent ∈ S ∧ Fresh S parent newStates
  | .remove state => state.isIsolated = false
  | _ => True

/-- The answer that the operation must give. -/
def Answers (S : Set (StateRef M)) (r : Option (StateRef M)) : Operation M → Prop
  | .pick => Picks S (fun _ => true) r
  | .pickSelected selector => Picks S selector r
  | _ => r = none

end Operation

namespace ForwardSearcher

/-- The operation of a searcher. -/
def perform (searcher : ForwardSearcher M) :
    Operation M → searcher.State → Option (Option (StateRef M) × searcher.State)
  | .update parent newStates, st => (searcher.update parent newStates st).map fun st => (none, st)
  | .pick, st => searcher.pick st
  | .pickSelected selector, st => searcher.pickSelected selector st
  | .remove state, st => (searcher.remove state st).map fun st => (none, st)

/-- Through the operations the searcher does what the set does. -/
def Follows (searcher : ForwardSearcher M) :
    List (Operation M) → searcher.State → Set (StateRef M) → Prop
  | [], st, S => ∀ x, x ∈ searcher.states st ↔ x ∈ S
  | op :: ops, st, S => (∀ x, x ∈ searcher.states st ↔ x ∈ S) ∧ (op.Allowed S →
      ∃ r st', searcher.perform op st = some (r, st') ∧ op.Answers S r ∧
        searcher.Follows ops st' (op.after S))

variable {searcher : ForwardSearcher M} {holds : searcher.State → Set (StateRef M) → Prop}
  {st : searcher.State} {S : Set (StateRef M)}

omit [DecidableEq M] in
/-- One operation. -/
theorem Simulates.perform (h : searcher.Simulates holds) (hst : holds st S) {op : Operation M}
    (hop : op.Allowed S) :
    ∃ r st', searcher.perform op st = some (r, st') ∧ op.Answers S r ∧ holds st' (op.after S) := by
  cases op with
  | update parent newStates =>
    obtain ⟨st', hupdate, hst'⟩ := h.update st S parent newStates hst hop.1 hop.2
    exact ⟨none, st', congrArg (Option.map fun st => (none, st)) hupdate, rfl, hst'⟩
  | pick =>
    obtain ⟨r, st', hpick, hst', hr⟩ := h.pick st S hst
    exact ⟨r, st', hpick, hr, hst'⟩
  | pickSelected selector =>
    obtain ⟨r, st', hpick, hst', hr⟩ := h.pickSelected st S selector hst
    exact ⟨r, st', hpick, hr, hst'⟩
  | remove state =>
    obtain ⟨st', hremove, hst'⟩ := h.remove st S state hst hop
    exact ⟨none, st', congrArg (Option.map fun st => (none, st)) hremove, rfl, hst'⟩

omit [DecidableEq M] in
theorem Simulates.follows (h : searcher.Simulates holds) (ops : List (Operation M))
    (hst : holds st S) : searcher.Follows ops st S := by
  induction ops generalizing st S with
  | nil => exact h.states st S hst
  | cons op ops ih =>
    refine ⟨h.states st S hst, fun hop => ?_⟩
    obtain ⟨r, st', hperform, hr, hst'⟩ := h.perform hst hop
    exact ⟨r, st', hperform, hr, ih hst'⟩

/-- Every forward searcher that is built from those of the explorer is a set of states. -/
theorem built_follows (searcher : ForwardSearcher M) (h : Built searcher)
    (initialStates : List (StateRef M)) (hinit : EntryDistinct initialStates) :
    ∃ st, searcher.init initialStates = some st ∧
      ∀ ops, searcher.Follows ops st {x | x ∈ initialStates} := by
  obtain ⟨holds, hholds⟩ := h.implements
  obtain ⟨st, hst, hset⟩ := hholds.init initialStates hinit
  exact ⟨st, hst, fun ops => hholds.follows ops hset⟩

/-- Two turns of a tree searcher and one of a BFS searcher, over the states of two methods. -/
theorem interleaved_follows :
    let first : StateRef Bool := ⟨0, some true⟩
    let second : StateRef Bool := ⟨1, some false⟩
    let searcher : ForwardSearcher Bool :=
      interleavedSearcher [(executionTreeSearcher id, 2), (bfsSearcher Bool, 1)]
    ∃ st, searcher.init [first, second] = some st ∧
      ∀ ops, searcher.Follows ops st {x | x ∈ [first, second]} := by
  refine built_follows _ (.interleaved _ (by simp) (by simp) fun e he => ?_) _ ⟨?_, ?_⟩
  · simp only [mem_cons, not_mem_nil, or_false] at he
    rcases he with rfl | rfl
    · exact .executionTree id
    · exact .bfs
  · simp [StateRef.isIsolated]
  · decide

end ForwardSearcher

end VSharp.Explorer
