import VSharp.IL.ILRewriter

/-!
# IL — AnalysisCache

What `analyseMethod` answers, and what `eventsCache` has to hold for the answer to be right.  A
method reaches the methods it calls, skipped ones apart, and so on (`Reaches`); a query on `m` is
right when it is true exactly if no reached method has a failing event (`Harmless`).

A cached result is right for its method (`Right`) when its events are events of reached methods and
each event that is not among them is nearer to one of its dependencies than to the method itself
(`Covers`).  From caches that are right every answer is right.  A search keeps the caches right as
long as it drops no callee (`DropsNothing`): whenever it asks for a callee of `x`, the callee had not
been checked before `x` was entered.  A callee checked before that contributes nothing and yet is
struck from the dependencies of `x`.

* `analyseMethod_right`: after any run of queries that drop nothing, each query is answered as with
  empty caches.
* `analyseMethod_drops_event`: a diamond, where the search drops a callee and a later query is
  answered wrongly.
-/

namespace VSharp.ILRewriter
open List
variable {M F : Type} [DecidableEq M] [DecidableEq F]

section
variable (program : Program M F) (skipPredicate : M → Bool)

/-- The events of the body of `m`. -/
def ownEvents (m : M) : List (AnalysisEvent M F) := (analyseBody m (program m)).events

/-- The body of `m` calls `d`, and `d` is not skipped. -/
def Calls (m d : M) : Prop :=
  d ∈ (analyseBody m (program m)).dependencies ∧ skipPredicate d = false

/-- `m` reaches the methods it calls, directly or not, and itself. -/
def Reaches : M → M → Prop := Relation.ReflTransGen (Calls program skipPredicate)

/-- No reached method has an event that fails. -/
def Harmless (failPredicate : AnalysisEvent M F → Bool) (m : M) : Prop :=
  ∀ x, Reaches program skipPredicate m x → ∀ e ∈ ownEvents program x, failPredicate e = false

/-- `m` meets the event `e` after at most `n` calls. -/
inductive Near : ℕ → M → AnalysisEvent M F → Prop where
  | own {n : ℕ} {m : M} {e : AnalysisEvent M F} (h : e ∈ ownEvents program m) : Near n m e
  | call {n : ℕ} {m d : M} {e : AnalysisEvent M F} (h : Calls program skipPredicate m d)
      (t : Near n d e) : Near (n + 1) m e

/-- Each event that `m` meets is recorded, or met in fewer calls from a dependency. -/
def Covers (r : AnalyseResult M F) (m : M) : Prop :=
  ∀ n e, Near program skipPredicate n m e → e ∈ r.events ∨
    ∃ d ∈ r.dependencies, skipPredicate d = false ∧ ∃ k < n, Near program skipPredicate k d e

/-- `r` says of `m` what the caches need to know. -/
structure Right (m : M) (r : AnalyseResult M F) : Prop where
  method_eq : r.method = m
  events_reached : ∀ e ∈ r.events, ∃ x, Reaches program skipPredicate m x ∧ e ∈ ownEvents program x
  dependencies_reached :
    ∀ d ∈ r.dependencies, skipPredicate d = false → Reaches program skipPredicate m d
  covers : Covers program skipPredicate r m

end

variable {program : Program M F} {skipPredicate : M → Bool}
variable {m : M} {e : AnalysisEvent M F}

theorem Near.reached {n : ℕ} (h : Near program skipPredicate n m e) :
    ∃ x, Reaches program skipPredicate m x ∧ e ∈ ownEvents program x := by
  induction h with
  | own h => exact ⟨_, .refl, h⟩
  | call h _ ih =>
    obtain ⟨x, hx, he⟩ := ih
    exact ⟨x, .head h hx, he⟩

theorem Reaches.near {x : M} (h : Reaches program skipPredicate m x)
    (he : e ∈ ownEvents program x) : ∃ n, Near program skipPredicate n m e := by
  induction h using Relation.ReflTransGen.head_induction_on with
  | refl => exact ⟨0, .own he⟩
  | head h _ ih =>
    obtain ⟨n, hn⟩ := ih
    exact ⟨n + 1, .call h hn⟩

/-- The analysis of a body is right for its method. -/
theorem right_analyseBody (m : M) :
    Right program skipPredicate m (analyseBody m (program m)) where
  method_eq := analyseBody_method m _
  events_reached e he := ⟨m, .refl, he⟩
  dependencies_reached d hd hskip := .single ⟨hd, hskip⟩
  covers n e h := by
    cases h with
    | own h => exact .inl h
    | @call k _ d _ h t => exact .inr ⟨d, h.1, h.2, k, Nat.lt_succ_self k, t⟩

/-- Every entry of the cache is right for its method. -/
def CacheRight (program : Program M F) (skipPredicate : M → Bool)
    (eventsCache : M → Option (AnalyseResult M F)) : Prop :=
  ∀ m r, eventsCache m = some r → Right program skipPredicate m r

theorem CacheRight.lookup {eventsCache : M → Option (AnalyseResult M F)}
    (h : CacheRight program skipPredicate eventsCache) (m : M) :
    Right program skipPredicate m (lookup program eventsCache m) := by
  unfold ILRewriter.lookup
  cases hm : eventsCache m with
  | none => exact right_analyseBody m
  | some r => exact h m r hm

theorem CacheRight.store {st : SearchState M F} {r : AnalyseResult M F}
    (h : CacheRight program skipPredicate st.eventsCache) (hr : Right program skipPredicate m r) :
    CacheRight program skipPredicate (st.store m r).eventsCache := by
  intro y r' hy
  rw [SearchState.store_eventsCache] at hy
  by_cases hym : y = m
  · subst hym
    rw [Function.update_self] at hy
    cases hy
    exact hr
  · rw [Function.update_of_ne hym] at hy
    exact h y r' hy

/-! ### The search ends -/

section
variable [Fintype M]

/-- The methods that are not checked yet. -/
def unchecked (st : SearchState M F) : Finset M :=
  Finset.univ.filter fun m => m ∉ st.checkedMethods

omit [DecidableEq F] in
theorem unchecked_card_le {st st' : SearchState M F}
    (h : st.checkedMethods ⊆ st'.checkedMethods) :
    (unchecked st').card ≤ (unchecked st).card := by
  refine Finset.card_le_card fun m hm => ?_
  simp only [unchecked, Finset.mem_filter, Finset.mem_univ, true_and] at hm ⊢
  exact fun hst => hm (h hst)

omit [DecidableEq F] in
theorem unchecked_card_enter {st : SearchState M F} (h : m ∉ st.checkedMethods) :
    (unchecked (st.enter m)).card < (unchecked st).card := by
  refine Finset.card_lt_card ⟨fun y hy => ?_, fun hsub => ?_⟩
  · simp only [unchecked, Finset.mem_filter, Finset.mem_univ, true_and] at hy ⊢
    exact fun hst => hy (SearchState.mem_enter.mpr (.inl hst))
  · have hm : m ∈ unchecked (st.enter m) := hsub (by simpa [unchecked] using h)
    simp [unchecked] at hm

theorem checkDependencies_total (skipPredicate : M → Bool)
    {callee : SearchState M F → M → Option (CheckResult M F × SearchState M F)} {depth : ℕ}
    (hcallee : ∀ st m, (unchecked st).card < depth →
      ∃ r st', callee st m = some (r, st') ∧ st.checkedMethods ⊆ st'.checkedMethods)
    (acc : CheckResult M F) (deps : List M) (st : SearchState M F)
    (hst : (unchecked st).card < depth) :
    ∃ r st', checkDependencies callee skipPredicate acc deps st = some (r, st') ∧
      st.checkedMethods ⊆ st'.checkedMethods := by
  induction deps generalizing acc st with
  | nil => exact ⟨acc, st, rfl, List.Subset.refl _⟩
  | cons d deps ih =>
    rw [checkDependencies]
    split
    case isTrue =>
      obtain ⟨r, st', hr, hsub⟩ := hcallee st d hst
      rw [hr]
      obtain ⟨r', st'', hr', hsub'⟩ :=
        ih (acc.union r) st' ((unchecked_card_le hsub).trans_lt hst)
      exact ⟨r', st'', hr', List.Subset.trans hsub hsub'⟩
    case isFalse => exact ih acc st hst

/-- A search that may nest more calls than there are methods left to check returns. -/
theorem checkCallee_total (program : Program M F) (failPredicate : AnalysisEvent M F → Bool)
    (skipPredicate : M → Bool) (depth : ℕ) (st : SearchState M F) (m : M)
    (hst : (unchecked st).card < depth) :
    ∃ r st', checkCallee program failPredicate skipPredicate depth st m = some (r, st') ∧
      st.checkedMethods ⊆ st'.checkedMethods := by
  induction depth generalizing st m with
  | zero => cases hst
  | succ depth ih =>
    have henter : st.checkedMethods ⊆ (st.enter m).checkedMethods :=
      fun y hy => SearchState.mem_enter.mpr (.inl hy)
    rw [checkCallee]
    split
    case isTrue => exact ⟨_, _, rfl, List.Subset.refl _⟩
    case isFalse hm =>
      have hleft := unchecked_card_enter hm
      obtain ⟨r, st', hr, hsub⟩ := checkDependencies_total skipPredicate ih
        ⟨true, lookup program st.eventsCache m⟩
        (lookup program st.eventsCache m).dependencies (st.enter m) (by omega)
      simp only [hr]
      split
      case isTrue =>
        split
        case isTrue => exact ⟨_, _, rfl, henter⟩
        case isFalse => exact ⟨_, _, rfl, List.Subset.trans henter hsub⟩
      case isFalse => exact ⟨_, _, rfl, henter⟩

end

/-! ### The answer of one query -/

section
variable {failPredicate : AnalysisEvent M F → Bool}

/-- The entries of methods that are not checked yet are those from before the query. -/
def Untouched (before : M → Option (AnalyseResult M F)) (st : SearchState M F) : Prop :=
  ∀ y, y ∉ st.checkedMethods → st.eventsCache y = before y

/-- The events found for `y` pass, and the callees found for it are checked. -/
def Searched (program : Program M F) (failPredicate : AnalysisEvent M F → Bool)
    (skipPredicate : M → Bool) (before : M → Option (AnalyseResult M F)) (checked : List M)
    (y : M) : Prop :=
  (∀ e ∈ (lookup program before y).events, failPredicate e = false) ∧
    ∀ d ∈ (lookup program before y).dependencies, skipPredicate d = false → d ∈ checked

/-- What a call for `m` that returns has done. -/
structure Returned (program : Program M F) (failPredicate : AnalysisEvent M F → Bool)
    (skipPredicate : M → Bool) (before : M → Option (AnalyseResult M F)) (st : SearchState M F)
    (m : M) (success : Bool) (st' : SearchState M F) : Prop where
  untouched : Untouched before st'
  grows : st.checkedMethods ⊆ st'.checkedMethods
  self : m ∈ st'.checkedMethods
  searched : success = true → ∀ y ∈ st'.checkedMethods, y ∉ st.checkedMethods →
    Searched program failPredicate skipPredicate before st'.checkedMethods y
  failed : success = false → ¬ Harmless program skipPredicate failPredicate m

/-- What the loop over the dependencies of `x` has done, those in `done` being behind it. -/
structure Looping (program : Program M F) (failPredicate : AnalysisEvent M F → Bool)
    (skipPredicate : M → Bool) (before : M → Option (AnalyseResult M F)) (entered : List M)
    (x : M) (done : List M) (success : Bool) (st : SearchState M F) : Prop where
  untouched : Untouched before st
  grows : entered ⊆ st.checkedMethods
  self : x ∈ st.checkedMethods
  searched : success = true → ∀ y ∈ st.checkedMethods, y ∉ entered → y ≠ x →
    Searched program failPredicate skipPredicate before st.checkedMethods y
  checked : success = true → ∀ d ∈ done, skipPredicate d = false → d ∈ st.checkedMethods
  failed : success = false → ¬ Harmless program skipPredicate failPredicate x

variable {before : M → Option (AnalyseResult M F)} {checked checked' : List M}
variable {m d x : M} {st st' : SearchState M F} {success : Bool}
variable {r : AnalyseResult M F} {entered done : List M}

theorem Searched.mono {y : M}
    (h : Searched program failPredicate skipPredicate before checked y)
    (hsub : checked ⊆ checked') :
    Searched program failPredicate skipPredicate before checked' y :=
  ⟨h.1, fun d hd hskip => hsub (h.2 d hd hskip)⟩

theorem Harmless.of_reaches (h : Harmless program skipPredicate failPredicate m)
    (hd : Reaches program skipPredicate m d) : Harmless program skipPredicate failPredicate d :=
  fun x hx => h x (hd.trans hx)

/-- A right result with a failing event comes from a reached method with one. -/
theorem Right.not_harmless (h : Right program skipPredicate m r)
    (hfail : checkEvents r.events failPredicate = false) :
    ¬ Harmless program skipPredicate failPredicate m := by
  intro hm
  have hpass : checkEvents r.events failPredicate = true := by
    rw [checkEvents_eq_true]
    intro e he
    obtain ⟨x, hx, hex⟩ := h.events_reached e he
    exact hm x hx e hex
  rw [hfail] at hpass
  cases hpass

theorem looping_start (hst : Untouched before st) :
    Looping program failPredicate skipPredicate before st.checkedMethods x [] true
      (st.enter x) where
  untouched y hy := hst y fun h => hy (SearchState.mem_enter.mpr (.inl h))
  grows y hy := SearchState.mem_enter.mpr (.inl hy)
  self := SearchState.mem_enter.mpr (.inr rfl)
  searched _ y hy hent hne := by
    rcases SearchState.mem_enter.mp hy with h | h
    · exact absurd h hent
    · exact absurd h hne
  checked _ d hd := by cases hd
  failed h := by cases h

theorem Looping.skip
    (h : Looping program failPredicate skipPredicate before entered x done success st)
    (hd : success = true → skipPredicate d = true) :
    Looping program failPredicate skipPredicate before entered x (done ++ [d]) success st :=
  { h with
    checked := by
      intro hs y hy hskip
      rcases mem_append.mp hy with hy | hy
      · exact h.checked hs y hy hskip
      · rw [mem_singleton.mp hy, hd hs] at hskip
        cases hskip }

theorem Looping.call (h : Looping program failPredicate skipPredicate before entered x done true st)
    (hd : Reaches program skipPredicate x d)
    (hr : Returned program failPredicate skipPredicate before st d success st') :
    Looping program failPredicate skipPredicate before entered x (done ++ [d]) success st' where
  untouched := hr.untouched
  grows := List.Subset.trans h.grows hr.grows
  self := hr.grows h.self
  searched hs y hy hent hne := by
    by_cases hyst : y ∈ st.checkedMethods
    · exact (h.searched rfl y hyst hent hne).mono hr.grows
    · exact hr.searched hs y hy hyst
  checked hs y hy hskip := by
    rcases mem_append.mp hy with hy | hy
    · exact hr.grows (h.checked rfl y hy hskip)
    · rw [mem_singleton.mp hy]
      exact hr.self
  failed hs hx := hr.failed hs (hx.of_reaches hd)

/-- A loop over all the dependencies of `x`, then the result of `x` stored. -/
theorem Looping.finish (hpass : checkEvents (lookup program before x).events failPredicate = true)
    (h : Looping program failPredicate skipPredicate before st.checkedMethods x
      (lookup program before x).dependencies success st') :
    Returned program failPredicate skipPredicate before st x success (st'.store x r) where
  untouched y hy := by
    have hne : y ≠ x := fun heq => hy (heq ▸ h.self)
    rw [SearchState.store_eventsCache, Function.update_of_ne hne]
    exact h.untouched y hy
  grows := h.grows
  self := h.self
  searched hs y hy hst := by
    by_cases hyx : y = x
    · subst hyx
      exact ⟨checkEvents_eq_true.mp hpass, h.checked hs⟩
    · exact h.searched hs y hy hst hyx
  failed := h.failed

/-- The loop over the dependencies, when every call returns as `Returned` says. -/
theorem looping_dependencies
    {callee : SearchState M F → M → Option (CheckResult M F × SearchState M F)}
    (hbefore : CacheRight program skipPredicate before)
    (hcallee : ∀ st m r st', Untouched before st → callee st m = some (r, st') →
      Returned program failPredicate skipPredicate before st m r.success st')
    {r : CheckResult M F} (hst : Untouched before st)
    (h : checkDependencies callee skipPredicate ⟨true, lookup program before x⟩
      (lookup program before x).dependencies (st.enter x) = some (r, st')) :
    Looping program failPredicate skipPredicate before st.checkedMethods x
      (lookup program before x).dependencies r.success st' := by
  have hrun := checkDependencies_inv
    (Q := fun done acc st₁ => Looping program failPredicate skipPredicate before
      st.checkedMethods x done acc.success st₁) ?_ ?_ h (looping_start hst)
  · simpa using hrun
  · intro done acc st₁ d r st₂ hd hQ hs hskip hcall
    rw [hs] at hQ
    have hreach := (hbefore.lookup x).dependencies_reached d hd hskip
    have hret := hcallee st₁ d r st₂ hQ.untouched hcall
    rw [CheckResult.union, hs, Bool.true_and]
    exact hQ.call hreach hret
  · intro done acc st₁ d hQ hd
    exact hQ.skip hd

theorem Untouched.lookup_eq (h : Untouched before st) (hm : m ∉ st.checkedMethods) :
    lookup program st.eventsCache m = lookup program before m := by
  rw [lookup, lookup, h m hm]

section
variable (hbefore : CacheRight program skipPredicate before)

include hbefore

/-- The lookups of one query all read the cache from before it. -/
theorem checkCallee_returned (depth : ℕ)
    {r : CheckResult M F} (hst : Untouched before st)
    (h : checkCallee program failPredicate skipPredicate depth st m = some (r, st')) :
    Returned program failPredicate skipPredicate before st m r.success st' := by
  induction depth generalizing st m r st' with
  | zero => cases h
  | succ depth ih =>
    obtain ⟨hm, rfl, rfl⟩ | ⟨hm, hfail, rfl, rfl⟩ | ⟨hm, hpass, hdeps, rfl, rfl⟩ |
      ⟨hm, hpass, st₁, hrun, rfl⟩ := checkCallee_cases h
    · exact ⟨hst, List.Subset.refl _, hm, fun _ y hy hyn => absurd hy hyn, nofun⟩
    · rw [hst.lookup_eq hm] at hfail
      have hstart : Looping program failPredicate skipPredicate before st.checkedMethods m [] true
          (st.enter m) := looping_start hst
      exact ⟨hstart.untouched, hstart.grows, hstart.self, nofun,
        fun _ => (hbefore.lookup m).not_harmless hfail⟩
    · rw [hst.lookup_eq hm] at hpass hdeps
      have hstart : Looping program failPredicate skipPredicate before st.checkedMethods m
          (lookup program before m).dependencies true (st.enter m) := by
        rw [hdeps]
        exact looping_start hst
      have hret := hstart.finish (r := lookup program before m) hpass
      exact ⟨hstart.untouched, hret.grows, hret.self, hret.searched, hret.failed⟩
    · rw [hst.lookup_eq hm] at hpass hrun
      exact (looping_dependencies hbefore (fun _ _ _ _ => ih) hst hrun).finish hpass

/-- A set of searched methods that holds its own callees meets no failing event. -/
theorem harmless_of_searched
    (h : ∀ y ∈ checked, Searched program failPredicate skipPredicate before checked y)
    (hm : m ∈ checked) : Harmless program skipPredicate failPredicate m := by
  intro x hx e he
  obtain ⟨n, hn⟩ := hx.near he
  -- an event not found at `m` itself is nearer to one of the callees, which are searched as well
  induction n using Nat.strong_induction_on generalizing m x with
  | _ n ih =>
    rcases (hbefore.lookup m).covers n e hn with hev | ⟨d, hd, hskip, k, hk, hnear⟩
    · exact (h m hm).1 e hev
    · obtain ⟨x', hx', he'⟩ := hnear.reached
      exact ih k hk ((h m hm).2 d hd hskip) x' hx' he' hnear

/-- From a right cache, a query returns the right answer. -/
theorem analyseMethod_of_cacheRight [Fintype M] (m : M) (failPredicate : AnalysisEvent M F → Bool) :
    ∃ answer after, analyseMethod program before m failPredicate skipPredicate =
        some (answer, after) ∧
      (answer = true ↔ Harmless program skipPredicate failPredicate m) := by
  have hst : Untouched before (⟨before, []⟩ : SearchState M F) := fun _ _ => rfl
  rw [analyseMethod]
  split
  case isFalse hfail =>
    have hnot := (hbefore.lookup m).not_harmless (Bool.eq_false_of_not_eq_true hfail)
    exact ⟨false, before, rfl, by simpa using hnot⟩
  case isTrue hpass =>
    split
    case isTrue hc =>
      have hdeps := List.isEmpty_iff.mp hc
      have hsearched : ∀ y ∈ [m],
          Searched program failPredicate skipPredicate before [m] y := by
        intro y hy
        rw [mem_singleton.mp hy]
        exact ⟨checkEvents_eq_true.mp hpass, by simp [hdeps]⟩
      have hm := harmless_of_searched hbefore hsearched mem_cons_self
      exact ⟨true, before, rfl, by simpa using hm⟩
    case isFalse =>
      have hleft : (unchecked (SearchState.enter (⟨before, []⟩ : SearchState M F) m)).card <
          Fintype.card M :=
        (unchecked_card_enter (not_mem_nil)).trans_le (Finset.card_le_univ _)
      obtain ⟨r, st', hrun, -⟩ := checkDependencies_total skipPredicate
        (checkCallee_total program failPredicate skipPredicate (Fintype.card M)) ⟨true, lookup program before m⟩
        (lookup program before m).dependencies _ hleft
      have hret := (looping_dependencies hbefore
        (fun _ _ _ _ => checkCallee_returned hbefore (Fintype.card M)) hst hrun).finish
        (r := r.analyseResult) hpass
      refine ⟨r.success, _, by rw [hrun], fun hs => ?_, fun hm => ?_⟩
      · exact harmless_of_searched hbefore (fun y hy => hret.searched hs y hy not_mem_nil) hret.self
      · by_contra hs
        exact hret.failed (Bool.eq_false_of_not_eq_true hs) hm

end

end

/-! ### Searches that drop no callee -/

section
variable {a b : AnalyseResult M F} {st st' : SearchState M F} {x : M} {entered : List M}
variable {d m : M} {r : CheckResult M F} {failPredicate : AnalysisEvent M F → Bool}

/-- Whenever the loop asks for a callee, the callee is not among the methods `entered` before the
loop's own method, and the search of the callee drops nothing either. -/
def dependenciesDropNothing
    (checkCallee : SearchState M F → M → Option (CheckResult M F × SearchState M F))
    (calleeDropsNothing : SearchState M F → M → Bool) (skipPredicate : M → Bool)
    (entered : List M) : CheckResult M F → List M → SearchState M F → Bool
  | _, [], _ => true
  | resultAcc, method :: methods, st =>
    if resultAcc.success && !skipPredicate method then
      decide (method ∉ entered) && calleeDropsNothing st method &&
        match checkCallee st method with
        | none => true
        | some (calleeResult, st') =>
          dependenciesDropNothing checkCallee calleeDropsNothing skipPredicate entered
            (resultAcc.union calleeResult) methods st'
    else
      dependenciesDropNothing checkCallee calleeDropsNothing skipPredicate entered resultAcc
        methods st

/-- The search of `m` drops nothing. -/
def calleeDropsNothing (program : Program M F) (failPredicate : AnalysisEvent M F → Bool)
    (skipPredicate : M → Bool) : ℕ → SearchState M F → M → Bool
  | 0, _, _ => true
  | depth + 1, st, m =>
    let result := lookup program st.eventsCache m
    if m ∉ st.checkedMethods ∧ checkEvents result.events failPredicate = true then
      dependenciesDropNothing (checkCallee program failPredicate skipPredicate depth)
        (calleeDropsNothing program failPredicate skipPredicate depth) skipPredicate
        st.checkedMethods ⟨true, result⟩ result.dependencies (st.enter m)
    else true

/-- The search of a query drops nothing. -/
def DropsNothing [Fintype M] (program : Program M F) (skipPredicate : M → Bool)
    (eventsCache : M → Option (AnalyseResult M F)) (m : M)
    (failPredicate : AnalysisEvent M F → Bool) : Prop :=
  let result := lookup program eventsCache m
  checkEvents result.events failPredicate = true →
    dependenciesDropNothing (checkCallee program failPredicate skipPredicate (Fintype.card M))
      (calleeDropsNothing program failPredicate skipPredicate (Fintype.card M)) skipPredicate []
      ⟨true, result⟩ result.dependencies (SearchState.enter ⟨eventsCache, []⟩ m) = true

instance [Fintype M] (eventsCache : M → Option (AnalyseResult M F)) (m : M)
    (failPredicate : AnalysisEvent M F → Bool) :
    Decidable (DropsNothing program skipPredicate eventsCache m failPredicate) :=
  inferInstanceAs (Decidable (_ → _ = true))

/-- A union covers what its parts cover: the two methods it strikes from the dependencies are
covered themselves. -/
theorem covers_union (ha : Covers program skipPredicate a a.method)
    (hb : Covers program skipPredicate a b.method ∨ Covers program skipPredicate b b.method)
    {y : M} (hy : Covers program skipPredicate a y ∨ Covers program skipPredicate b y) :
    Covers program skipPredicate (a.union b) y := by
  intro n
  induction n using Nat.strong_induction_on generalizing y with
  | _ n ih =>
    intro e hn
    have hfound : (e ∈ a.events ∨ e ∈ b.events) ∨
        ∃ d, (d ∈ a.dependencies ∨ d ∈ b.dependencies) ∧ skipPredicate d = false ∧
          ∃ k < n, Near program skipPredicate k d e := by
      rcases hy with hy | hy
      · rcases hy n e hn with he | ⟨d, hd, hrest⟩
        · exact .inl (.inl he)
        · exact .inr ⟨d, .inl hd, hrest⟩
      · rcases hy n e hn with he | ⟨d, hd, hrest⟩
        · exact .inl (.inr he)
        · exact .inr ⟨d, .inr hd, hrest⟩
    rcases hfound with he | ⟨d, hd, hskip, k, hk, hnear⟩
    · exact .inl (AnalyseResult.mem_union_events.mpr he)
    by_cases hstruck : d = a.method ∨ d = b.method
    · have hdcov : Covers program skipPredicate a d ∨ Covers program skipPredicate b d := by
        rcases hstruck with rfl | rfl
        · exact .inl ha
        · exact hb
      rcases ih k hk hdcov e hnear with he | ⟨d', hd', hskip', k', hk', hnear'⟩
      · exact .inl he
      · exact .inr ⟨d', hd', hskip', k', hk'.trans hk, hnear'⟩
    · rw [not_or] at hstruck
      exact .inr ⟨d, AnalyseResult.mem_union_dependencies.mpr ⟨hd, hstruck⟩, hskip, k, hk, hnear⟩

/-- What the search has gathered for `x`: the caches are right, and so is the result, which covers
every method checked since `x` was entered. -/
structure Gathers (program : Program M F) (skipPredicate : M → Bool) (entered : List M) (x : M)
    (r : AnalyseResult M F) (st : SearchState M F) : Prop where
  cacheRight : CacheRight program skipPredicate st.eventsCache
  right : Right program skipPredicate x r
  covers : ∀ y ∈ st.checkedMethods, y ∉ entered → Covers program skipPredicate r y

theorem gathers_enter (h : CacheRight program skipPredicate st.eventsCache) :
    Gathers program skipPredicate st.checkedMethods x (lookup program st.eventsCache x)
      (st.enter x) where
  cacheRight := h
  right := h.lookup x
  covers y hy hent := by
    rcases SearchState.mem_enter.mp hy with hy | rfl
    · exact absurd hy hent
    · exact (h.lookup y).covers

theorem Gathers.store {r : AnalyseResult M F} (h : Gathers program skipPredicate entered x r st) :
    Gathers program skipPredicate entered x r (st.store x r) :=
  { h with cacheRight := h.cacheRight.store h.right }

theorem Right.union (ha : Right program skipPredicate x a)
    (hreach : Reaches program skipPredicate x b.method)
    (hev : ∀ e ∈ b.events, ∃ y, Reaches program skipPredicate b.method y ∧ e ∈ ownEvents program y)
    (hdeps : ∀ d ∈ b.dependencies, skipPredicate d = false →
      Reaches program skipPredicate b.method d)
    (hb : Covers program skipPredicate a b.method ∨ Covers program skipPredicate b b.method) :
    Right program skipPredicate x (a.union b) where
  method_eq := ha.method_eq
  events_reached e he := by
    rcases AnalyseResult.mem_union_events.mp he with he | he
    · exact ha.events_reached e he
    · obtain ⟨y, hy, hey⟩ := hev e he
      exact ⟨y, hreach.trans hy, hey⟩
  dependencies_reached d hd hskip := by
    rcases (AnalyseResult.mem_union_dependencies.mp hd).1 with hd | hd
    · exact ha.dependencies_reached d hd hskip
    · exact hreach.trans (hdeps d hd hskip)
  covers := covers_union (ha.method_eq ▸ ha.covers) hb (.inl ha.covers)

/-- A callee checked since `x` was entered adds nothing, and is covered all the same. -/
theorem Gathers.union_empty (h : Gathers program skipPredicate entered x a st)
    (hreach : Reaches program skipPredicate x d) (hd : d ∈ st.checkedMethods) (hent : d ∉ entered) :
    Gathers program skipPredicate entered x (a.union (.empty d)) st where
  cacheRight := h.cacheRight
  right := h.right.union hreach nofun nofun (.inl (h.covers d hd hent))
  covers y hy hyent :=
    covers_union (h.right.method_eq.symm ▸ h.right.covers) (.inl (h.covers d hd hent))
      (.inl (h.covers y hy hyent))

/-- A callee checked just now adds what was gathered for it. -/
theorem Gathers.union (h : Gathers program skipPredicate entered x a st)
    (hreach : Reaches program skipPredicate x d)
    (hb : Gathers program skipPredicate st.checkedMethods d b st') :
    Gathers program skipPredicate entered x (a.union b) st' where
  cacheRight := hb.cacheRight
  right := by
    obtain ⟨rfl, hev, hdeps, hcov⟩ := hb.right
    exact h.right.union hreach hev hdeps (.inr hcov)
  covers y hy hyent := by
    have hbcov : Covers program skipPredicate b b.method :=
      hb.right.method_eq.symm ▸ hb.right.covers
    refine covers_union (h.right.method_eq.symm ▸ h.right.covers) (.inr hbcov) ?_
    by_cases hyst : y ∈ st.checkedMethods
    · exact .inl (h.covers y hyst hyent)
    · exact .inr (hb.covers y hy hyst)

theorem checkDependencies_gathers
    {callee : SearchState M F → M → Option (CheckResult M F × SearchState M F)}
    {calleeDrops : SearchState M F → M → Bool}
    (hcallee : ∀ st m r st', CacheRight program skipPredicate st.eventsCache →
      calleeDrops st m = true → callee st m = some (r, st') →
      (m ∈ st.checkedMethods ∧ r = .empty m ∧ st' = st) ∨
        Gathers program skipPredicate st.checkedMethods m r.analyseResult st') {deps : List M}
    {acc : CheckResult M F}
    (hreach : ∀ d ∈ deps, skipPredicate d = false → Reaches program skipPredicate x d)
    (hacc : Gathers program skipPredicate entered x acc.analyseResult st)
    (hdrop : dependenciesDropNothing callee calleeDrops skipPredicate entered acc deps st = true)
    (h : checkDependencies callee skipPredicate acc deps st = some (r, st')) :
    Gathers program skipPredicate entered x r.analyseResult st' := by
  induction deps generalizing acc st with
  | nil =>
    cases h
    exact hacc
  | cons d deps ih =>
    have hrest : ∀ d' ∈ deps, skipPredicate d' = false → Reaches program skipPredicate x d' :=
      fun d' hd' => hreach d' (mem_cons_of_mem _ hd')
    rw [checkDependencies] at h
    rw [dependenciesDropNothing] at hdrop
    split at h
    case isFalse hgo =>
      rw [if_neg hgo] at hdrop
      exact ih hrest hacc hdrop h
    case isTrue hgo =>
      rw [if_pos hgo] at hdrop
      simp only [Bool.and_eq_true, Bool.not_eq_true', decide_eq_true_eq] at hgo hdrop
      obtain ⟨⟨hent, hdropd⟩, hdrop⟩ := hdrop
      have hd := hreach d mem_cons_self hgo.2
      split at h
      case h_1 => cases h
      case h_2 r₁ st₁ hr₁ =>
        rw [hr₁] at hdrop
        refine ih hrest ?_ hdrop h
        rcases hcallee st d r₁ st₁ hacc.cacheRight hdropd hr₁ with
          ⟨hchecked, rfl, rfl⟩ | hgathers
        · exact hacc.union_empty hd hchecked hent
        · exact hacc.union hd hgathers

theorem checkCallee_gathers (depth : ℕ) (hst : CacheRight program skipPredicate st.eventsCache)
    (hdrop : calleeDropsNothing program failPredicate skipPredicate depth st m = true)
    (h : checkCallee program failPredicate skipPredicate depth st m = some (r, st')) :
    (m ∈ st.checkedMethods ∧ r = .empty m ∧ st' = st) ∨
      Gathers program skipPredicate st.checkedMethods m r.analyseResult st' := by
  induction depth generalizing st m r st' with
  | zero => cases h
  | succ depth ih =>
    obtain ⟨hm, rfl, rfl⟩ | ⟨hm, -, rfl, rfl⟩ | ⟨hm, -, -, rfl, rfl⟩ |
      ⟨hm, hpass, st₁, hrun, rfl⟩ := checkCallee_cases h
    · exact .inl ⟨hm, rfl, rfl⟩
    · exact .inr (gathers_enter hst)
    · exact .inr (gathers_enter hst)
    · simp only [calleeDropsNothing, hm, hpass, not_false_eq_true, and_self, if_true] at hdrop
      have hgathers := checkDependencies_gathers (fun _ _ _ _ => ih)
        (hst.lookup m).dependencies_reached (gathers_enter hst) hdrop hrun
      exact .inr hgathers.store

/-- A query that drops nothing leaves a right cache right. -/
theorem cacheRight_analyseMethod [Fintype M] {before after : M → Option (AnalyseResult M F)}
    {answer : Bool} (hbefore : CacheRight program skipPredicate before)
    (hdrop : DropsNothing program skipPredicate before m failPredicate)
    (h : analyseMethod program before m failPredicate skipPredicate = some (answer, after)) :
    CacheRight program skipPredicate after := by
  rw [analyseMethod] at h
  split at h
  case isFalse =>
    cases h
    exact hbefore
  case isTrue hpass =>
    split at h
    case isTrue =>
      cases h
      exact hbefore
    case isFalse =>
      split at h
      case h_1 => cases h
      case h_2 r st hrun =>
        cases h
        have hst : CacheRight program skipPredicate
            (⟨before, []⟩ : SearchState M F).eventsCache := hbefore
        have hgathers := checkDependencies_gathers
          (fun _ _ _ _ => checkCallee_gathers (Fintype.card M))
          (hbefore.lookup m).dependencies_reached (gathers_enter hst) (hdrop hpass) hrun
        exact hgathers.store.cacheRight

end

/-! ### Runs of queries -/

section
variable [Fintype M]

/-- The caches that queries which drop nothing can leave behind. -/
inductive Reached (program : Program M F) (skipPredicate : M → Bool) :
    (M → Option (AnalyseResult M F)) → Prop where
  | empty : Reached program skipPredicate fun _ => none
  | query {before after : M → Option (AnalyseResult M F)} {m : M}
      {failPredicate : AnalysisEvent M F → Bool} {answer : Bool}
      (h : Reached program skipPredicate before)
      (hdrop : DropsNothing program skipPredicate before m failPredicate)
      (hquery : analyseMethod program before m failPredicate skipPredicate = some (answer, after)) :
      Reached program skipPredicate after

theorem Reached.cacheRight {eventsCache : M → Option (AnalyseResult M F)}
    (h : Reached program skipPredicate eventsCache) :
    CacheRight program skipPredicate eventsCache := by
  induction h with
  | empty => exact nofun
  | query _ hdrop hquery ih => exact cacheRight_analyseMethod ih hdrop hquery

/-- After queries that drop nothing every query is answered, as the graph says and as with empty
caches. -/
theorem analyseMethod_right {eventsCache : M → Option (AnalyseResult M F)}
    (h : Reached program skipPredicate eventsCache) (m : M)
    (failPredicate : AnalysisEvent M F → Bool) :
    ∃ answer after fresh,
      analyseMethod program eventsCache m failPredicate skipPredicate = some (answer, after) ∧
      analyseMethod program (fun _ => none) m failPredicate skipPredicate = some (answer, fresh) ∧
      (answer = true ↔ Harmless program skipPredicate failPredicate m) := by
  obtain ⟨answer, after, hquery, hanswer⟩ :=
    analyseMethod_of_cacheRight h.cacheRight m failPredicate
  have hempty : CacheRight program skipPredicate fun _ => none := Reached.empty.cacheRight
  obtain ⟨answer', fresh, hfresh, hanswer'⟩ := analyseMethod_of_cacheRight hempty m failPredicate
  have heq : answer' = answer := Bool.eq_iff_iff.mpr (hanswer'.trans hanswer.symm)
  exact ⟨answer, after, fresh, hquery, heq ▸ hfresh, hanswer⟩

end

/-! ### A callee of two methods

`0` calls `1` and `2`, and `1` calls `2`, which reads a static field.  When `0` calls `1` first, the
search of `1` meets `2` itself and nothing is dropped.  When `0` calls `2` first, the search of `1`
finds `2` checked already and stores a result for `1` without the field and without `2`. -/

/-- The shared callee, called last. -/
def sharedLast : Program (Fin 3) Unit
  | 0 => [.call 1, .call 2]
  | 1 => [.call 2]
  | 2 => [.ldsfld ()]

/-- The shared callee, called first. -/
def sharedFirst : Program (Fin 3) Unit
  | 0 => [.call 2, .call 1]
  | 1 => [.call 2]
  | 2 => [.ldsfld ()]

theorem analyseMethod_right_sharedLast :
    ∃ eventsCache, Reached sharedLast (fun _ => false) eventsCache ∧ eventsCache 1 ≠ none ∧
      ∃ answer after fresh,
        analyseMethod sharedLast eventsCache 1 (CanCallConcrete.failPredicate [()])
          (fun _ => false) = some (answer, after) ∧
        analyseMethod sharedLast (fun _ => none) 1 (CanCallConcrete.failPredicate [()])
          (fun _ => false) = some (answer, fresh) ∧
        (answer = true ↔ Harmless sharedLast (fun _ => false)
          (CanCallConcrete.failPredicate [()]) 1) := by
  have hdrop : DropsNothing sharedLast (fun _ => false) (fun _ => none) 0
      (CanCallConcrete.failPredicate []) := by decide
  have hrun : ∃ eventsCache, Reached sharedLast (fun _ => false) eventsCache ∧
      eventsCache 1 ≠ none := ⟨_, .query .empty hdrop rfl, by decide⟩
  obtain ⟨eventsCache, hreached, hcached⟩ := hrun
  exact ⟨eventsCache, hreached, hcached, analyseMethod_right hreached 1 _⟩

/-- With no field changed, `0` may be called; then the field is changed, and `1` is answered to be
harmless although it reaches the read. -/
theorem analyseMethod_drops_event :
    ∃ before after,
      analyseMethod sharedFirst (fun _ => none) 0 (CanCallConcrete.failPredicate [])
        (fun _ => false) = some (true, before) ∧
      analyseMethod sharedFirst before 1 (CanCallConcrete.failPredicate [()])
        (fun _ => false) = some (true, after) ∧
      ¬ Harmless sharedFirst (fun _ => false) (CanCallConcrete.failPredicate [()]) 1 := by
  refine ⟨_, _, rfl, rfl, fun h => ?_⟩
  have hcall : Calls sharedFirst (fun _ => false) 1 2 := ⟨by decide, rfl⟩
  have hpass := h 2 (.single hcall) (.ldsfld ()) (by decide)
  cases hpass

end VSharp.ILRewriter
