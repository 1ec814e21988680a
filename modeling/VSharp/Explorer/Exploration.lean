import VSharp.Explorer.Forward

/-!
# Explorer — Exploration

Runs of `SVMExplorer.Forward` with a searcher that keeps its states in a list: in each turn a state
is picked, and an instruction of it is executed.  The searcher holds the live states; breadth-first
it takes them in turn, and depth-first it leaves those below as they are until all above are gone.
-/

namespace VSharp.Explorer
open List
variable {M S : Type}

/-- The state that is picked, and what its instruction leads to. -/
structure Turn (M S : Type) where
  state : StateRef M
  heap : StateRef M → ExploredState M S
  outcome : Outcome heap

/-- The live states after the turn. -/
def Turn.after (t : Turn M S) (pool : Set (StateRef M)) : Set (StateRef M) :=
  {x | x ∈ pool ∧ x ≠ t.state ∨ x ∈ t.outcome.live}

variable [DecidableEq M]

/-- A run from `start` on; `Picks` says which state is picked from a list. -/
inductive Explores (reportFails : StateRef M → Bool)
    (Picks : List (StateRef M) → StateRef M → Prop) (start : Searcher M) :
    List (Turn M S) → Searcher M → Prop where
  | start : Explores reportFails Picks start [] start
  | turn {turns : List (Turn M S)} {searcher : Searcher M} {t : Turn M S}
      (h : Explores reportFails Picks start turns searcher)
      (hpick : Picks searcher.states t.state) (hwhole : t.state.isIsolated = false)
      (hcopies : t.outcome.CopiesOf t.state searcher.states) :
      Explores reportFails Picks start (turns ++ [t])
        (forward reportFails searcher t.state t.outcome)

/-! ### One turn -/

section
variable {searcher : Searcher M} {s : StateRef M}

/-- An update puts what it adds behind the other states. -/
theorem Searcher.update_append (hlist : searcher.isList) (hnodup : searcher.states.Nodup)
    (newStates : List (StateRef M)) :
    ∃ rest, (searcher.update s newStates).states = searcher.states.erase s ++ rest := by
  cases searcher with
  | dfs states =>
    change ∃ rest, dfsUpdate states s newStates = states.erase s ++ rest
    rw [dfsUpdate]
    split
    case isTrue hlast =>
      obtain ⟨l, rfl⟩ := getLast?_eq_some_iff.mp hlast
      have hs : s ∉ l := fun hs => disjoint_of_nodup_append hnodup hs mem_cons_self
      rw [erase_append_right _ hs, erase_cons_head, append_nil, dropLast_concat]
      split
      · exact ⟨_, rfl⟩
      · exact ⟨_, append_assoc _ _ _⟩
    case isFalse =>
      dsimp only
      split
      · exact ⟨_, append_assoc _ _ _⟩
      · exact ⟨_, rfl⟩
  | bfs states =>
    change ∃ rest, bfsUpdate states s newStates = states.erase s ++ rest
    rw [bfsUpdate]
    split
    case isTrue => exact ⟨_, append_assoc _ _ _⟩
    case isFalse hs => exact ⟨_, by rw [erase_of_not_mem hs]⟩
  | executionTree t => cases hlist

theorem Searcher.erase_foldl_remove (hlist : searcher.isList) (hnodup : searcher.states.Nodup)
    {l : List (StateRef M)} (h : ∀ x ∈ l, x ≠ s → x ∉ searcher.states) :
    (l.foldl (fun searcher x => searcher.remove x) searcher).states.erase s =
      searcher.states.erase s := by
  induction l generalizing searcher with
  | nil => rfl
  | cons x l ih =>
    have hstates := states_remove hlist x
    rw [foldl_cons, ih (isList_remove hlist x) (hstates ▸ hnodup.erase x)
      fun y hy hne hmem => h y (mem_cons_of_mem _ hy) hne
        (mem_of_mem_erase (hstates ▸ hmem)), hstates]
    by_cases hx : x = s
    · rw [hx, erase_of_not_mem hnodup.not_mem_erase]
    · rw [erase_of_not_mem (h x mem_cons_self hx)]

variable (reportFails : StateRef M → Bool) {heap : StateRef M → ExploredState M S}
  {o : Outcome heap}

/-- A turn leaves the other states as they are, and puts the live ones behind them. -/
theorem forward_isList (hlist : searcher.isList) (hnodup : searcher.states.Nodup)
    (hs : s ∈ searcher.states) (hwhole : s.isIsolated = false)
    (hcopies : o.CopiesOf s searcher.states) :
    (forward reportFails searcher s o).isList ∧
      Exact (forward reportFails searcher s o) searcher.states s o ∧
      ∃ rest, (forward reportFails searcher s o).states = searcher.states.erase s ++ rest := by
  have hholds : searcher.Holds := by
    cases searcher with
    | dfs states => exact hnodup
    | bfs states => exact hnodup
    | executionTree t => cases hlist
  have hexact : Exact (forward reportFails searcher s o) searcher.states s o :=
    (forward_exact_iff searcher hholds hs hwhole hcopies).mpr (keeps_of_isList hlist)
  have hheld := Searcher.isList_foldl_remove hlist (o.removed reportFails)
  have herase := Searcher.erase_foldl_remove (s := s) (l := o.removed reportFails) hlist hnodup
    fun x hx hne => hcopies.fresh x (Outcome.mem_all_or_reported_of_mem_removed hx) hne
  obtain ⟨rest, hrest⟩ := Searcher.update_append (s := s) hheld
    (hholds.foldl_remove (o.removed reportFails)).1.nodup (o.newStates s).1
  have hupdated := Searcher.isList_update hheld s (o.newStates s).1
  refine ⟨?_, hexact, ?_⟩
  · rw [forward_eq (hcopies.not_isolated hwhole) hwhole]
    dsimp only
    split
    · exact Searcher.isList_remove hupdated s
    · exact hupdated
  · rw [forward_eq (hcopies.not_isolated hwhole) hwhole]
    dsimp only
    rw [herase] at hrest
    split
    · refine ⟨rest.erase s, ?_⟩
      rw [Searcher.states_remove hupdated, hrest, erase_append_right _ hnodup.not_mem_erase]
    · exact ⟨rest, hrest⟩

end

/-! ### Runs -/

section
variable {reportFails : StateRef M → Bool} {start held : Searcher M} {turns : List (Turn M S)}

/-- Whatever is picked, the states that are held are the live ones, each once. -/
theorem explores_pool (hlist : start.isList) (hnodup : start.states.Nodup)
    (h : Explores reportFails (fun states s => s ∈ states) start turns held) :
    held.states.Nodup ∧
      ∀ x, x ∈ held.states ↔
        x ∈ turns.foldl (fun pool t => t.after pool) {x | x ∈ start.states} := by
  suffices hall : held.isList ∧ held.states.Nodup ∧ ∀ x, x ∈ held.states ↔
      x ∈ turns.foldl (fun pool t => t.after pool) {x | x ∈ start.states} from hall.2
  induction h with
  | start => exact ⟨hlist, hnodup, fun _ => Iff.rfl⟩
  | @turn turns searcher t h hpick hwhole hcopies ih =>
    obtain ⟨hlist, hnodup, hmem⟩ := ih
    obtain ⟨hlist', hexact, -⟩ := forward_isList reportFails hlist hnodup hpick hwhole hcopies
    refine ⟨hlist', hexact.nodup, fun x => ?_⟩
    rw [hexact.mem, hmem, foldl_append]
    rfl

/-- The states are taken in the order in which they are held, and what comes is held behind them. -/
theorem bfs_in_turn {states : List (StateRef M)} (hnodup : states.Nodup)
    (h : Explores reportFails (fun states s => states.head? = some s) (.bfs states) turns held) :
    states <+: turns.map Turn.state ++ held.states := by
  suffices hall : held.isList ∧ held.states.Nodup ∧
      states <+: turns.map Turn.state ++ held.states from hall.2.2
  induction h with
  | start => exact ⟨rfl, hnodup, prefix_refl _⟩
  | @turn turns searcher t h hpick hwhole hcopies ih =>
    obtain ⟨hlist, hnodup, hprefix⟩ := ih
    obtain ⟨hlist', hexact, rest, hrest⟩ := forward_isList reportFails hlist hnodup
      (mem_of_head? hpick) hwhole hcopies
    -- The state leaves the front of the list, and `rest` is added at its end.
    obtain ⟨tail, htail⟩ := head?_eq_some_iff.mp hpick
    refine ⟨hlist', hexact.nodup, hprefix.trans ⟨rest, ?_⟩⟩
    rw [hrest, htail, erase_cons_head, map_append, append_assoc, append_assoc]
    rfl

/-- The states below are taken only when all above them are gone. -/
theorem dfs_stack {below above : List (StateRef M)} (hnodup : (below ++ above).Nodup)
    (h : Explores reportFails (fun states s => states.getLast? = some s) (.dfs (below ++ above))
      turns held)
    (hbelow : ∀ t ∈ turns, t.state ∉ below) :
    below <+: held.states ∧ ∀ s ∈ below, held.states.getLast? = some s → held.states = below := by
  suffices hall : held.isList ∧ held.states.Nodup ∧ below <+: held.states by
    obtain ⟨-, hnodup, above, habove⟩ := hall
    refine ⟨⟨above, habove⟩, fun s hs hlast => ?_⟩
    rw [← habove] at hnodup hlast ⊢
    cases hempty : above.getLast? with
    | none => rw [getLast?_eq_none_iff.mp hempty, append_nil]
    | some s' =>
      rw [getLast?_append, hempty] at hlast
      obtain rfl := Option.some.inj hlast
      exact absurd (mem_of_getLast? hempty) (disjoint_of_nodup_append hnodup hs)
  induction h with
  | start => exact ⟨rfl, hnodup, prefix_append _ _⟩
  | @turn turns searcher t h hpick hwhole hcopies ih =>
    obtain ⟨hlist, hnodup, above, habove⟩ := ih fun t ht =>
      hbelow t (mem_append_left _ ht)
    obtain ⟨hlist', hexact, rest, hrest⟩ := forward_isList reportFails hlist hnodup
      (mem_of_getLast? hpick) hwhole hcopies
    refine ⟨hlist', hexact.nodup, above.erase t.state ++ rest, ?_⟩
    -- The state that is taken stands above, so the states below are not erased.
    have hnew := hbelow t (mem_append_right _ mem_cons_self)
    rw [hrest, ← habove, erase_append_right _ hnew, append_assoc]

end

/-! ### Three turns -/

def numbered (n : ℕ) : StateRef Unit := ⟨n, some ()⟩

theorem marked_nil : ∀ x ∈ ([] : List (StateRef Unit)), runningState.errorReported :=
  forall_mem_nil _

/-- The state is picked, and its instruction returns the others. -/
def turnOf (n : ℕ) (results : List ℕ) : Turn Unit Unit :=
  ⟨numbered n, fun _ => runningState, .ofStates _ (results.map numbered) [] marked_nil⟩

def afterTurns (start : Searcher Unit) (turns : List (Turn Unit Unit)) : Searcher Unit :=
  turns.foldl (fun searcher t => forward (fun _ => false) searcher t.state t.outcome) start

/-- A guarded call of `0` returns it after its copy; then `2` ends, and the copy branches. -/
theorem explores_pool_turns :
    let start : Searcher Unit := .dfs [numbered 2, numbered 0]
    let turns := [turnOf 0 [1, 0], turnOf 2 [], turnOf 1 [1, 3]]
    {x | x ∈ (afterTurns start turns).states} =
      turns.foldl (fun pool t => t.after pool) {x | x ∈ start.states} := by
  intro start turns
  have hrun : Explores (fun _ => false) (fun states s => s ∈ states) start turns
      (afterTurns start turns) := by
    refine .turn (.turn (.turn .start ?_ rfl ?_) ?_ rfl ?_) ?_ rfl ?_
    all_goals first | decide | exact ⟨by decide, by decide, by decide⟩
  exact Set.ext (explores_pool rfl (by decide) hrun).2

theorem bfs_in_turn_turns :
    let states := [numbered 0, numbered 2]
    let turns := [turnOf 0 [1, 0], turnOf 2 [], turnOf 1 [1, 3]]
    states <+: turns.map Turn.state ++ (afterTurns (.bfs states) turns).states := by
  intro states turns
  have hrun : Explores (fun _ => false) (fun states s => states.head? = some s) (.bfs states) turns
      (afterTurns (.bfs states) turns) := by
    refine .turn (.turn (.turn .start ?_ rfl ?_) ?_ rfl ?_) ?_ rfl ?_
    all_goals first | decide | exact ⟨by decide, by decide, by decide⟩
  exact bfs_in_turn (by decide) hrun

theorem dfs_stack_turns :
    let below := [numbered 2]
    let turns := [turnOf 0 [1, 0], turnOf 0 [], turnOf 1 []]
    let held := (afterTurns (.dfs (below ++ [numbered 0])) turns).states
    below <+: held ∧ ∀ s ∈ below, held.getLast? = some s → held = below := by
  intro below turns held
  have hrun : Explores (fun _ => false) (fun states s => states.getLast? = some s)
      (.dfs (below ++ [numbered 0])) turns (afterTurns (.dfs (below ++ [numbered 0])) turns) := by
    refine .turn (.turn (.turn .start ?_ rfl ?_) ?_ rfl ?_) ?_ rfl ?_
    all_goals first | decide | exact ⟨by decide, by decide, by decide⟩
  exact dfs_stack (by decide) hrun (by decide)

end VSharp.Explorer
