import VSharp.Explorer.Searcher

/-!
# Explorer — Forward

`SVMExplorer.Forward` of `VSharp.Explorer/Explorer.fs`: one instruction of a state that the searcher
has picked.

- `heap` says what the states are after the instruction;
- `reportFails` says for which states a test cannot be generated: `state2test` throws an
  `InsufficientInformationException`, which `reportState` turns into an incomplete state;
- the error reporter is also called while the instruction is executed; it marks the state it is
  given as one whose error is reported.
-/

namespace VSharp.Explorer
open SILI List

/-- `cilState`, as far as the explorer is concerned. -/
structure ExploredState (M S : Type) extends CilState M S where
  errorReported : Bool
  iie : Bool

namespace ExploredState
variable {M S : Type} (s : ExploredState M S)

def isUnhandledExceptionOrError : Bool :=
  match s.exceptionsRegister.head? with
  | some (.unhandled ..) => true
  | _ => s.errorReported

def isStoppedByException : Bool :=
  match s.ipStack.head? with
  | some (.searchingForHandler (some []) [] [] []) => true
  | _ => false

def hasRuntimeExceptionOrError : Bool :=
  s.errorReported ||
    match s.exceptionsRegister.head? with
    | some (.unhandled _ isRuntime _) => isRuntime
    | _ => false

def isExecutable : Bool :=
  match s.ipStack with
  | [.exit _] => false
  | _ => true

/-- The exception of the state is looking for its handler; a state whose error was reported is not
executed any more. -/
def isLookingForHandler : Bool := !s.errorReported && !s.isStoppedByException

end ExploredState

variable {M S : Type}

/-- The result of `ExecuteOneInstruction`, and the states whose errors were reported meanwhile. -/
structure Outcome (heap : StateRef M → ExploredState M S) where
  goodStates : List (StateRef M)
  iieStates : List (StateRef M)
  errors : List (StateRef M)
  reported : List (StateRef M)
  good : ∀ x ∈ goodStates, (heap x).isUnhandledExceptionOrError = false
  errored : ∀ x ∈ errors, (heap x).isUnhandledExceptionOrError
  marked : ∀ x ∈ reported, (heap x).errorReported

namespace Outcome
variable {heap : StateRef M → ExploredState M S}

/-- `ExecuteAllInstructionsWhile (always false)`, when `MakeStep` returns the states. -/
def ofStates (heap : StateRef M → ExploredState M S) (allStates reported : List (StateRef M))
    (marked : ∀ x ∈ reported, (heap x).errorReported) : Outcome heap where
  goodStates :=
    (allStates.filter fun x => !(heap x).isUnhandledExceptionOrError).filter fun x => !(heap x).iie
  iieStates :=
    (allStates.filter fun x => !(heap x).isUnhandledExceptionOrError).filter fun x => (heap x).iie
  errors := allStates.filter fun x => (heap x).isUnhandledExceptionOrError
  reported
  good x hx := by simpa using of_mem_filter (mem_of_mem_filter hx)
  errored x hx := (mem_filter.mp hx).2
  marked

variable (o : Outcome heap)

def all : List (StateRef M) := o.goodStates ++ o.iieStates ++ o.errors

/-- The states that are not at the exit of their entry method. -/
def executable : List (StateRef M) := o.goodStates.filter fun x => (heap x).isExecutable

/-- The states with an exception that is looking for its handler. -/
def looking : List (StateRef M) := o.errors.filter fun x => (heap x).isLookingForHandler

/-- The live states. -/
def live : List (StateRef M) := o.executable ++ o.looking

/-- The state occurs once at most; the others are fresh copies of it. -/
structure CopiesOf (s : StateRef M) (states : List (StateRef M)) : Prop where
  nodup : o.all.Nodup
  entryMethod : ∀ x ∈ o.all ++ o.reported, x.entryMethod = s.entryMethod
  fresh : ∀ x ∈ o.all ++ o.reported, x ≠ s → x ∉ states

end Outcome

/-! ### The step -/

section
variable [DecidableEq M] {heap : StateRef M → ExploredState M S}
  (reportFails : StateRef M → Bool)

def reportStateIncomplete (searcher : Searcher M) (state : StateRef M) : Searcher M :=
  searcher.remove state

def reportState (searcher : Searcher M) (state : StateRef M) : Searcher M :=
  if reportFails state then reportStateIncomplete searcher state else searcher

/-- `UpdateStates` of the bidirectional searcher. -/
def updateStates (searcher : Searcher M) (parent : StateRef M) (children : List (StateRef M)) :
    Searcher M :=
  if parent.isIsolated then searcher else searcher.update parent children

/-- The new states, and whether the state that was executed is stopped. -/
def newStates (s : StateRef M) (goodStates iieStates errors : List (StateRef M)) :
    List (StateRef M) × Bool :=
  if goodStates.head? = some s then (goodStates.tail ++ iieStates ++ errors, false)
  else if iieStates.head? = some s then (goodStates ++ iieStates.tail ++ errors, false)
  else if errors.head? = some s then (goodStates ++ iieStates ++ errors.tail, false)
  else (goodStates ++ iieStates ++ errors, true)

def forward (searcher : Searcher M) (s : StateRef M) (o : Outcome heap) : Searcher M :=
  let searcher := o.reported.foldl (reportState reportFails) searcher
  let (goodStates, toReportFinished) :=
    o.goodStates.partition fun s => (heap s).isExecutable || s.isIsolated
  let searcher := toReportFinished.foldl (reportState reportFails) searcher
  let (errors, _) := o.errors.partition fun s => !(heap s).errorReported
  let (errors, toReportExceptions) :=
    errors.partition fun s => s.isIsolated || !(heap s).isStoppedByException
  let (runtimeExceptions, userExceptions) :=
    toReportExceptions.partition fun s => (heap s).hasRuntimeExceptionOrError
  let searcher := runtimeExceptions.foldl (reportState reportFails) searcher
  let searcher := userExceptions.foldl (reportState reportFails) searcher
  let (iieStates, toReportIIE) := o.iieStates.partition StateRef.isIsolated
  let searcher := toReportIIE.foldl reportStateIncomplete searcher
  let (newStates, sIsStopped) := newStates s goodStates iieStates errors
  let searcher := updateStates searcher s newStates
  if sIsStopped then searcher.remove s else searcher

/-- The states that are removed before the searcher is updated, in this order. -/
def Outcome.removed (o : Outcome heap) : List (StateRef M) :=
  let stopped := (o.errors.filter fun x => !(heap x).errorReported).filter fun x =>
    (heap x).isStoppedByException
  o.reported.filter reportFails ++
    (o.goodStates.filter fun x => !(heap x).isExecutable).filter reportFails ++
    (stopped.filter fun x => (heap x).hasRuntimeExceptionOrError).filter reportFails ++
    (stopped.filter fun x => !(heap x).hasRuntimeExceptionOrError).filter reportFails ++
    o.iieStates

/-- The state is the first of the live states of its list. -/
def Outcome.Leads (o : Outcome heap) (s : StateRef M) : Prop :=
  o.executable.head? = some s ∨ o.looking.head? = some s

/-- The searcher holds the other states and the live ones, each once. -/
structure Exact (searcher : Searcher M) (states : List (StateRef M)) (s : StateRef M)
    (o : Outcome heap) : Prop where
  nodup : searcher.states.Nodup
  mem : ∀ x, x ∈ searcher.states ↔ x ∈ states ∧ x ≠ s ∨ x ∈ o.live

/-- Trees forget a live state that comes after another one, and the new states of a parent that was
removed before. -/
def Keeps (searcher : Searcher M) (s : StateRef M) (o : Outcome heap) : Prop :=
  match searcher with
  | .dfs _ | .bfs _ => True
  | .executionTree _ =>
    (s ∈ o.live → o.Leads s) ∧ (s ∈ o.removed reportFails → o.live = [])

end

/-! ### What the step amounts to -/

section
variable [DecidableEq M] {heap : StateRef M → ExploredState M S}
  {reportFails : StateRef M → Bool}

theorem foldl_reportState (l : List (StateRef M)) (searcher : Searcher M) :
    l.foldl (reportState reportFails) searcher =
      (l.filter reportFails).foldl (fun searcher x => searcher.remove x) searcher := by
  induction l generalizing searcher with
  | nil => rfl
  | cons x l ih =>
    rw [foldl_cons, ih, reportState, filter_cons]
    split
    case isTrue h => rfl
    case isFalse h => rfl

/-- The new states, when no state is isolated. -/
def Outcome.newStates (o : Outcome heap) (s : StateRef M) : List (StateRef M) × Bool :=
  if o.executable.head? = some s then (o.executable.tail ++ o.looking, false)
  else if o.looking.head? = some s then (o.executable ++ o.looking.tail, false)
  else (o.live, true)

theorem forward_eq {searcher : Searcher M} {s : StateRef M} {o : Outcome heap}
    (h : ∀ x ∈ o.all, x.isIsolated = false) (hs : s.isIsolated = false) :
    forward reportFails searcher s o =
      let removed := (o.removed reportFails).foldl (fun searcher x => searcher.remove x) searcher
      let updated := removed.update s (o.newStates s).1
      if (o.newStates s).2 then updated.remove s else updated := by
  have hgood : ∀ x ∈ o.goodStates, x.isIsolated = false := fun x hx =>
    h x (mem_append_left _ (mem_append_left _ hx))
  have hiie : ∀ x ∈ o.iieStates, x.isIsolated = false := fun x hx =>
    h x (mem_append_left _ (mem_append_right _ hx))
  have herrors : ∀ x ∈ o.errors.filter fun x => !(heap x).errorReported, x.isIsolated = false :=
    fun x hx => h x (mem_append_right _ (mem_of_mem_filter hx))
  have hexecutable : (o.goodStates.filter fun x => (heap x).isExecutable || x.isIsolated) =
      o.executable :=
    filter_congr fun x hx => by rw [hgood x hx, Bool.or_false]
  have hfinished : (o.goodStates.filter (not ∘ fun x => (heap x).isExecutable || x.isIsolated)) =
      o.goodStates.filter fun x => !(heap x).isExecutable :=
    filter_congr fun x hx => by simp [hgood x hx]
  have hlooking : ((o.errors.filter fun x => !(heap x).errorReported).filter fun x =>
      x.isIsolated || !(heap x).isStoppedByException) = o.looking := by
    rw [filter_filter]
    exact filter_congr fun x hx => by
      rw [h x (mem_append_right _ hx), Bool.false_or, Bool.and_comm]
      rfl
  have hstopped : ((o.errors.filter fun x => !(heap x).errorReported).filter
      (not ∘ fun x => x.isIsolated || !(heap x).isStoppedByException)) =
      (o.errors.filter fun x => !(heap x).errorReported).filter fun x =>
        (heap x).isStoppedByException :=
    filter_congr fun x hx => by simp [herrors x hx]
  have hkept : o.iieStates.filter StateRef.isIsolated = [] :=
    filter_eq_nil_iff.mpr fun x hx => by simp [hiie x hx]
  have hincomplete : o.iieStates.filter (not ∘ StateRef.isIsolated) = o.iieStates :=
    filter_eq_self.mpr fun x hx => by simp [hiie x hx]
  have hnew : newStates s o.executable [] o.looking = o.newStates s := by
    simp [newStates, Outcome.newStates, Outcome.live]
  simp only [forward, partition_eq_filter_filter, hexecutable, hfinished, hlooking, hstopped,
    hkept, hincomplete, hnew, foldl_reportState, updateStates, hs, Bool.false_eq_true, if_false,
    Outcome.removed, foldl_append]
  rfl

end

/-! ### Which states are kept -/

namespace Outcome
variable {heap : StateRef M → ExploredState M S} {o : Outcome heap} {s x : StateRef M}

theorem mem_executable : x ∈ o.executable ↔ x ∈ o.goodStates ∧ (heap x).isExecutable :=
  mem_filter

theorem mem_looking : x ∈ o.looking ↔ x ∈ o.errors ∧ (heap x).isLookingForHandler :=
  mem_filter

theorem mem_all_of_mem_live (h : x ∈ o.live) : x ∈ o.all := by
  rcases mem_append.mp h with h | h
  · exact mem_append_left _ (mem_append_left _ (mem_executable.mp h).1)
  · exact mem_append_right _ (mem_looking.mp h).1

theorem nodup_live (h : o.all.Nodup) : o.live.Nodup := by
  refine List.Nodup.sublist ?_ h
  exact (filter_sublist.trans (sublist_append_left _ _)).append filter_sublist

theorem not_errorReported_of_mem_live (h : x ∈ o.live) : (heap x).errorReported = false := by
  rcases mem_append.mp h with h | h
  · have hgood := o.good x (mem_executable.mp h).1
    rw [ExploredState.isUnhandledExceptionOrError] at hgood
    split at hgood
    · cases hgood
    · exact hgood
  · have hlooking := (mem_looking.mp h).2
    rw [ExploredState.isLookingForHandler, Bool.and_eq_true, Bool.not_eq_true'] at hlooking
    exact hlooking.1

variable {reportFails : StateRef M → Bool}

/-- A state that is removed was reported, or is one of the results. -/
theorem mem_of_mem_removed (h : x ∈ o.removed reportFails) :
    x ∈ o.reported ∨ (x ∈ o.goodStates ∧ (heap x).isExecutable = false) ∨
      (x ∈ o.errors ∧ (heap x).isStoppedByException) ∨ x ∈ o.iieStates := by
  simp only [removed, mem_append, mem_filter, Bool.not_eq_true'] at h
  tauto

theorem mem_all_or_reported_of_mem_removed (h : x ∈ o.removed reportFails) :
    x ∈ o.all ++ o.reported := by
  simp only [all, mem_append]
  have hmem := mem_of_mem_removed h
  tauto

/-- No live state is removed. -/
theorem not_mem_removed_of_mem_live (hnodup : o.all.Nodup) (h : x ∈ o.live) :
    x ∉ o.removed reportFails := by
  intro hremoved
  rw [all, nodup_append', nodup_append'] at hnodup
  obtain ⟨⟨-, -, hgoodIie⟩, -, hdisjoint⟩ := hnodup
  rcases mem_of_mem_removed hremoved with hmem | ⟨hmem, hnot⟩ | ⟨hmem, hstopped⟩ | hmem
  · have hmarked := o.marked x hmem
    rw [not_errorReported_of_mem_live h] at hmarked
    cases hmarked
  · rcases mem_append.mp h with h | h
    · rw [(mem_executable.mp h).2] at hnot
      cases hnot
    · exact hdisjoint (mem_append_left _ hmem) (mem_looking.mp h).1
  · rcases mem_append.mp h with h | h
    · exact hdisjoint (mem_append_left _ (mem_executable.mp h).1) hmem
    · have hlooking := (mem_looking.mp h).2
      rw [ExploredState.isLookingForHandler, hstopped, Bool.not_true, Bool.and_false] at hlooking
      cases hlooking
  · rcases mem_append.mp h with h | h
    · exact hgoodIie (mem_executable.mp h).1 hmem
    · exact hdisjoint (mem_append_right _ hmem) (mem_looking.mp h).1

theorem mem_live_of_leads (h : o.Leads s) : s ∈ o.live := by
  rcases h with h | h
  · exact mem_append_left _ (mem_of_head? h)
  · exact mem_append_right _ (mem_of_head? h)

variable [DecidableEq M]

/-- A state that leads is not among the new states. -/
theorem newStates_of_leads (h : o.Leads s) :
    (s :: (o.newStates s).1).Perm o.live ∧ (o.newStates s).2 = false := by
  rw [newStates]
  split
  case isTrue hhead =>
    obtain ⟨rest, hrest⟩ := head?_eq_some_iff.mp hhead
    exact ⟨by rw [live, hrest]; exact .refl _, rfl⟩
  case isFalse hhead =>
    have hlooking := h.resolve_left hhead
    obtain ⟨rest, hrest⟩ := head?_eq_some_iff.mp hlooking
    rw [if_pos hlooking]
    refine ⟨?_, rfl⟩
    rw [live, hrest]
    exact perm_middle.symm

theorem newStates_of_not_leads (h : ¬ o.Leads s) : o.newStates s = (o.live, true) := by
  rw [Leads, not_or] at h
  rw [newStates, if_neg h.1, if_neg h.2]

end Outcome

section
variable [DecidableEq M] {heap : StateRef M → ExploredState M S} {o : Outcome heap}
  {reportFails : StateRef M → Bool} {s x : StateRef M} {states : List (StateRef M)}

section
variable (h : o.CopiesOf s states)

include h

omit [DecidableEq M] in
/-- Of the states that the searcher held, only the one that was executed can be removed. -/
theorem Outcome.CopiesOf.mem_others (reportFails : StateRef M → Bool) :
    (x ∈ states ∧ x ∉ o.removed reportFails) ∧ x ≠ s ↔ x ∈ states ∧ x ≠ s := by
  constructor
  · rintro ⟨⟨hx, -⟩, hne⟩
    exact ⟨hx, hne⟩
  · rintro ⟨hx, hne⟩
    refine ⟨⟨hx, fun hremoved => ?_⟩, hne⟩
    exact h.fresh x (Outcome.mem_all_or_reported_of_mem_removed hremoved) hne hx

omit [DecidableEq M] in
theorem Outcome.CopiesOf.not_isolated (hs : s.isIsolated = false) :
    ∀ x ∈ o.all, x.isIsolated = false := by
  intro x hx
  rw [StateRef.isIsolated, h.entryMethod x (mem_append_left _ hx)]
  exact hs

theorem Outcome.CopiesOf.eq_of_mem_live (hlive : x ∈ o.live) (hx : x ∈ states) : x = s := by
  by_contra hne
  exact h.fresh x (mem_append_left _ (Outcome.mem_all_of_mem_live hlive)) hne hx

theorem Outcome.CopiesOf.entryMethod_newStates :
    ∀ x ∈ (o.newStates s).1, x.entryMethod = s.entryMethod := by
  intro x hx
  refine h.entryMethod x (mem_append_left _ (Outcome.mem_all_of_mem_live ?_))
  by_cases hleads : o.Leads s
  · exact (Outcome.newStates_of_leads hleads).1.mem_iff.mp (mem_cons_of_mem _ hx)
  · rwa [Outcome.newStates_of_not_leads hleads] at hx

end

/-- A list of states: what is added and removed balances, wherever the state stands. -/
theorem final_perm {held updated : List (StateRef M)} (hnodup : o.all.Nodup)
    (hs : s ∈ held ↔ s ∉ o.removed reportFails)
    (hperm : updated.Perm (held ++ (o.newStates s).1)) :
    (if (o.newStates s).2 then updated.erase s else updated).Perm (held.erase s ++ o.live) := by
  by_cases hleads : o.Leads s
  · obtain ⟨hnew, hstopped⟩ := Outcome.newStates_of_leads hleads
    have hmem : s ∈ held :=
      hs.mpr (Outcome.not_mem_removed_of_mem_live hnodup (Outcome.mem_live_of_leads hleads))
    rw [hstopped, if_neg Bool.false_ne_true]
    have hheld := (perm_cons_erase hmem).append_right (o.newStates s).1
    exact (hperm.trans hheld).trans (perm_middle.symm.trans (hnew.append_left _))
  · rw [Outcome.newStates_of_not_leads hleads] at hperm ⊢
    rw [if_pos rfl]
    refine (hperm.erase s).trans ?_
    by_cases hmem : s ∈ held
    · rw [erase_append_left _ hmem]
    · -- a state that was removed before is not live
      have hremoved : s ∈ o.removed reportFails := by
        rwa [hs, not_not] at hmem
      have hlive : s ∉ o.live := fun hlive =>
        Outcome.not_mem_removed_of_mem_live hnodup hlive hremoved
      rw [erase_append_right _ hmem, erase_of_not_mem hlive, erase_of_not_mem hmem]

theorem exact_of_perm {held final : List (StateRef M)} (hcopies : o.CopiesOf s states)
    (hnodup : held.Nodup) (hheld : ∀ x, x ∈ held ↔ x ∈ states ∧ x ∉ o.removed reportFails)
    (hperm : final.Perm (held.erase s ++ o.live)) :
    final.Nodup ∧ ∀ x, x ∈ final ↔ x ∈ states ∧ x ≠ s ∨ x ∈ o.live := by
  have hmem : ∀ x, x ∈ held.erase s ↔ x ∈ states ∧ x ≠ s := by
    intro x
    rw [hnodup.mem_erase_iff, and_comm, hheld, hcopies.mem_others reportFails]
  constructor
  · rw [hperm.nodup_iff, nodup_append']
    refine ⟨hnodup.erase s, Outcome.nodup_live hcopies.nodup, ?_⟩
    intro x hx hlive
    obtain ⟨hx, hne⟩ := (hmem x).mp hx
    exact hne (hcopies.eq_of_mem_live hlive hx)
  · intro x
    rw [hperm.mem_iff, mem_append, hmem]

/-- A tree: what is added under a parent that is there stays, unless it is the parent. -/
theorem tree_exact_iff {t : ExecutionTreeSearcher M} (hkeyed : t.Keyed)
    (hcopies : o.CopiesOf s states) (hs : s ∈ states)
    (hmem : ∀ x, x ∈ t.states ↔ x ∈ states ∧ x ∉ o.removed reportFails) :
    (∀ x, x ∈ (if (o.newStates s).2 then (t.update s (o.newStates s).1).remove s
        else t.update s (o.newStates s).1).states ↔ x ∈ states ∧ x ≠ s ∨ x ∈ o.live) ↔
      (s ∈ o.live → o.Leads s) ∧ (s ∈ o.removed reportFails → o.live = []) := by
  have hentry := hcopies.entryMethod_newStates
  by_cases hleads : o.Leads s
  · have hlive := Outcome.mem_live_of_leads hleads
    have hkept : s ∉ o.removed reportFails :=
      Outcome.not_mem_removed_of_mem_live hcopies.nodup hlive
    obtain ⟨hnew, hstopped⟩ := Outcome.newStates_of_leads hleads
    rw [hstopped, if_neg Bool.false_ne_true]
    refine iff_of_true (fun x => ?_) ⟨fun _ => hleads, fun hremoved => absurd hremoved hkept⟩
    rw [hkeyed.mem_states_update ((hmem s).mpr ⟨hs, hkept⟩), hmem, ← hnew.mem_iff, mem_cons,
      ← hcopies.mem_others reportFails]
    rcases eq_or_ne x s with rfl | hne
    · simp [hs, hkept]
    · simp [hne]
  · rw [Outcome.newStates_of_not_leads hleads] at hentry ⊢
    rw [if_pos rfl]
    simp only [(hkeyed.update hentry).mem_states_remove]
    by_cases hremoved : s ∈ o.removed reportFails
    · -- the parent is not in the tree any more
      have habsent : s ∉ t.states := fun hmem' => ((hmem s).mp hmem').2 hremoved
      have hdead : s ∉ o.live := fun hlive =>
        Outcome.not_mem_removed_of_mem_live hcopies.nodup hlive hremoved
      simp only [ExecutionTreeSearcher.mem_states_update_of_not_mem habsent, hmem,
        hcopies.mem_others reportFails]
      constructor
      · intro h
        refine ⟨fun hlive => absurd hlive hdead, fun _ => eq_nil_iff_forall_not_mem.mpr ?_⟩
        intro x hlive
        obtain ⟨hx, hne⟩ := (h x).mpr (.inr hlive)
        exact hne (hcopies.eq_of_mem_live hlive hx)
      · rintro ⟨-, hnone⟩ x
        simp [hnone hremoved]
    · have hpresent : s ∈ t.states := (hmem s).mpr ⟨hs, hremoved⟩
      simp only [hkeyed.mem_states_update hpresent, hmem, or_and_right,
        hcopies.mem_others reportFails]
      constructor
      · intro h
        refine ⟨fun hlive => ?_, fun hmem' => absurd hmem' hremoved⟩
        rcases (h s).mpr (.inr hlive) with ⟨-, hne⟩ | ⟨-, hne⟩
        · exact absurd rfl hne
        · exact absurd rfl hne
      · rintro ⟨hlive, -⟩ x
        refine or_congr_right (and_iff_left_of_imp ?_)
        rintro hx rfl
        exact hleads (hlive hx)

end

/-! ### The step on each searcher -/

section
variable [DecidableEq M] {heap : StateRef M → ExploredState M S}
  {reportFails : StateRef M → Bool}
variable {s : StateRef M} {o : Outcome heap} {states : List (StateRef M)}

theorem foldl_remove_executionTree (removed : List (StateRef M)) (t : ExecutionTreeSearcher M) :
    removed.foldl (fun searcher x => searcher.remove x) (Searcher.executionTree t) =
      .executionTree (removed.foldl ExecutionTreeSearcher.remove t) := by
  induction removed generalizing t with
  | nil => rfl
  | cons x removed ih => exact ih (t.remove x)

omit [DecidableEq M] in
theorem keeps_of_isList {searcher : Searcher M} (h : searcher.isList) :
    Keeps reportFails searcher s o := by
  cases searcher with
  | dfs states => trivial
  | bfs states => trivial
  | executionTree t => cases h

theorem exact_of_isList {held : Searcher M} (hlist : held.isList) (hholds : held.Holds)
    (hcopies : o.CopiesOf s states) (hs : s ∈ states)
    (hmem : ∀ x, x ∈ held.states ↔ x ∈ states ∧ x ∉ o.removed reportFails) :
    Exact (if (o.newStates s).2 then (held.update s (o.newStates s).1).remove s
      else held.update s (o.newStates s).1) states s o := by
  have hupdated := Searcher.states_update_perm hlist s (o.newStates s).1
  have hremove := Searcher.states_remove (Searcher.isList_update hlist s (o.newStates s).1) s
  have hperm := final_perm hcopies.nodup ((hmem s).trans (and_iff_right hs)) hupdated
  rw [← hremove, ← apply_ite Searcher.states] at hperm
  obtain ⟨hnodup, hfinal⟩ := exact_of_perm hcopies hholds.nodup hmem hperm
  exact ⟨hnodup, hfinal⟩

theorem exact_executionTree_iff {t : ExecutionTreeSearcher M} (hkeyed : t.Keyed)
    (hcopies : o.CopiesOf s states) (hs : s ∈ states)
    (hmem : ∀ x, x ∈ t.states ↔ x ∈ states ∧ x ∉ o.removed reportFails) :
    Exact (if (o.newStates s).2 then
        ((Searcher.executionTree t).update s (o.newStates s).1).remove s
      else (Searcher.executionTree t).update s (o.newStates s).1) states s o ↔
      (s ∈ o.live → o.Leads s) ∧ (s ∈ o.removed reportFails → o.live = []) := by
  rw [← tree_exact_iff hkeyed hcopies hs hmem]
  have hupdated := hkeyed.update (hcopies.entryMethod_newStates)
  cases (o.newStates s).2 with
  | false =>
    exact ⟨Exact.mem, fun h => ⟨hupdated.nodup_states, h⟩⟩
  | true =>
    exact ⟨Exact.mem, fun h => ⟨hupdated.remove.nodup_states, h⟩⟩

/-- A step keeps exactly the live states, but for the two ways in which trees forget some. -/
theorem forward_exact_iff (searcher : Searcher M) (hholds : searcher.Holds) {s : StateRef M}
    (hs : s ∈ searcher.states) (hisolated : s.isIsolated = false) {o : Outcome heap}
    (hcopies : o.CopiesOf s searcher.states) :
    Exact (forward reportFails searcher s o) searcher.states s o ↔
      Keeps reportFails searcher s o := by
  rw [forward_eq (hcopies.not_isolated hisolated) hisolated]
  obtain ⟨hremoved, hmem⟩ := hholds.foldl_remove (o.removed reportFails)
  dsimp only
  cases hlist : searcher.isList with
  | true =>
    refine iff_of_true ?_ (keeps_of_isList hlist)
    exact exact_of_isList (Searcher.isList_foldl_remove hlist _) hremoved hcopies hs hmem
  | false =>
    obtain ⟨t, rfl⟩ := Searcher.eq_executionTree hlist
    rw [foldl_remove_executionTree] at hremoved hmem ⊢
    exact exact_executionTree_iff hremoved hcopies hs hmem

end

/-! ### A guarded call -/

/-- A state in the middle of its entry method. -/
def runningState : ExploredState Unit Unit where
  ipStack := [.instruction 1 ()]
  exceptionsRegister := [.noException]
  filterResult := none
  memory := ()
  errorReported := false
  iie := false

/-- The state of a guarded call, and its copy for the first branch. -/
def original : StateRef Unit := ⟨0, some ()⟩

@[inherit_doc original]
def copy : StateRef Unit := ⟨1, some ()⟩

/-- A guarded call returns the original state last. -/
def guardedCall : Outcome fun _ => runningState :=
  Outcome.ofStates _ [copy, original] [] (by simp)

/-- A branch returns it first. -/
def branch : Outcome fun _ => runningState :=
  Outcome.ofStates _ [original, copy] [] (by simp)

theorem guardedCall_copiesOf : guardedCall.CopiesOf original [original] where
  nodup := by decide
  entryMethod := by decide
  fresh := by decide

/-- The tree of a method that has only started. -/
def startedTree : ExecutionTreeSearcher Unit := ⟨AList.singleton () (.create original), [()]⟩

theorem startedTree_keyed : startedTree.Keyed :=
  ExecutionTreeSearcher.keyed_of_init
    (show ExecutionTreeSearcher.init [original] = some startedTree from rfl)

theorem guardedCall_dfs_branch_tree_exact :
    Exact (forward (fun _ => false) (.dfs [original]) original guardedCall) [original] original
      guardedCall ∧
      Exact (forward (fun _ => false) (.executionTree startedTree) original branch)
        startedTree.states original branch := by
  constructor
  · exact (forward_exact_iff (.dfs [original]) (nodup_singleton _) mem_cons_self rfl
      guardedCall_copiesOf).mpr trivial
  · have hcopies : branch.CopiesOf original startedTree.states :=
      ⟨by decide, by decide, by decide⟩
    exact (forward_exact_iff (.executionTree startedTree) startedTree_keyed mem_cons_self rfl
      hcopies).mpr ⟨fun _ => .inl rfl, fun hremoved => absurd hremoved (by decide)⟩

theorem guardedCall_tree_not_exact :
    (Searcher.executionTree startedTree).Holds ∧ startedTree.states = [original] ∧
      guardedCall.CopiesOf original startedTree.states ∧ original ∈ guardedCall.live ∧
      ¬ Exact (forward (fun _ => false) (.executionTree startedTree) original guardedCall)
        startedTree.states original guardedCall := by
  have hlive : original ∈ guardedCall.live := by decide
  refine ⟨startedTree_keyed, rfl, guardedCall_copiesOf, hlive, fun h => ?_⟩
  have hlost : original ∉
      (forward (fun _ => false) (.executionTree startedTree) original guardedCall).states := by
    decide
  exact hlost ((h.mem original).mpr (.inr hlive))

end VSharp.Explorer
