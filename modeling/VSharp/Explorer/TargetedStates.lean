import VSharp.Explorer.GuidedSearcher
import VSharp.Library.Results

/-!
# Explorer — Targeted states

Targets of states against searchers of targets.  The operations of `GuidedSearcher` are followed on
the weights that the searchers hold and on the targets of the states, each as a function
(`Shows`).  After every operation a state of the base searcher has a target exactly when the
searcher of the target holds it; and an `Update` settles the targets that are reached exactly when
none is, since the handling of reached targets waits for a set that only it fills
(`guided_targets`).

- `Holds`: a queue has the weights of a function.
- `standing`: the weights in the searcher of a target after its `Update`.
- `aimed`: the target that a stuck state is given.
-/

namespace VSharp.Explorer
open Utils PersistentDict Library List Option Function

section
variable {S T : Type} [DecidableEq S] [DecidableEq T]

/-! ### One searcher -/

/-- The queue holds the states that have a weight, with that weight. -/
structure Holds (q : BidictionaryPriorityQueue S) (w : S → Option ℕ) : Prop where
  consistent : q.Consistent
  weight : ∀ s, q.tryGetPriority s = w s

section
variable {q : BidictionaryPriorityQueue S} {w weight : S → Option ℕ} {s parent : S}
variable {newStates : List S} {A : S → List T} {t : T} {p : S → Prop}

theorem Holds.mem_iff (h : Holds q w) : s ∈ q.toSeq ↔ (w s).isSome = true := by
  rw [← h.weight, BidictionaryPriorityQueue.isSome_tryGetPriority]

theorem holds_empty : Holds (.empty : BidictionaryPriorityQueue S) fun _ => none :=
  ⟨BidictionaryPriorityQueue.consistent_empty,
    fun _ => BidictionaryPriorityQueue.tryGetPriority_empty⟩

theorem Holds.add (h : Holds q w) (weight : S → Option ℕ) (hfresh : w s = none) :
    ∃ q', WeightedSearcher.add weight s q = some ((weight s).isSome, q') ∧
      Holds q' (Function.update w s (weight s)) := by
  have hnot : s ∉ q.toSeq := by rw [h.mem_iff, hfresh]; exact Bool.false_ne_true
  rw [WeightedSearcher.add]
  cases hweight : weight s with
  | none => exact ⟨q, rfl, h.consistent, fun x => by rw [← hfresh, update_eq_self, h.weight]⟩
  | some p =>
    obtain ⟨q', hq', hconsistent, -⟩ := h.consistent.insert hnot p
    refine ⟨q', by simp only [hq', map_some, isSome_some], hconsistent, fun x => ?_⟩
    rw [BidictionaryPriorityQueue.tryGetPriority_insert hq', h.weight, update_apply]

theorem Holds.updateState (h : Holds q w) (weight : S → Option ℕ) (s : S) :
    ∃ r, WeightedSearcher.updateState weight s q = some r ∧
      Holds r.2 (if (w s).isSome = true then Function.update w s (weight s) else w) := by
  rw [WeightedSearcher.updateState]
  split
  case isTrue hcontains =>
    have hmem := BidictionaryPriorityQueue.contains_iff.mp hcontains
    rw [if_pos (h.mem_iff.mp hmem)]
    cases hweight : weight s with
    | none =>
      obtain ⟨q', hq', hconsistent, -⟩ := h.consistent.remove hmem
      refine ⟨(false, q'), by simp only [hq', map_some], hconsistent, fun x => ?_⟩
      rw [BidictionaryPriorityQueue.tryGetPriority_remove hq', h.weight, update_apply]
    | some p =>
      obtain ⟨q', hq', hconsistent, -⟩ := h.consistent.update hmem p
      refine ⟨(true, q'), by simp only [hq', map_some], hconsistent, fun x => ?_⟩
      rw [BidictionaryPriorityQueue.tryGetPriority_update hq', h.weight, update_apply]
  case isFalse hcontains =>
    have hnot := mt (h.mem_iff (s := s)).mpr (mt BidictionaryPriorityQueue.contains_iff.mpr hcontains)
    exact ⟨(false, q), rfl, by rwa [if_neg hnot]⟩

theorem Holds.remove (h : Holds q w) (s : S) :
    ∃ q', TargetedSearcher.remove s q = some q' ∧ Holds q' (Function.update w s none) := by
  rw [TargetedSearcher.remove]
  split
  case isTrue hcontains =>
    obtain ⟨q', hq', hconsistent, -⟩ :=
      h.consistent.remove (BidictionaryPriorityQueue.contains_iff.mp hcontains)
    refine ⟨q', hq', hconsistent, fun x => ?_⟩
    rw [BidictionaryPriorityQueue.tryGetPriority_remove hq', h.weight, update_apply]
  case isFalse hcontains =>
    have hnot := mt (h.mem_iff (s := s)).mpr (mt BidictionaryPriorityQueue.contains_iff.mpr hcontains)
    have hnone : w s = none := by simpa using hnot
    exact ⟨q, rfl, h.consistent, fun x => by rw [← hnone, update_eq_self, h.weight]⟩

/-- The target leaves the states that do not satisfy `p`. -/
def unaim (t : T) (p : S → Prop) [DecidablePred p] (A : S → List T) (s : S) : List T :=
  if p s then A s else (A s).filter (· ≠ t)

omit [DecidableEq S] in
theorem mem_unaim [DecidablePred p] {t' : T} : t' ∈ unaim t p A s ↔ t' ∈ A s ∧ (t' = t → p s) := by
  rw [unaim]
  split
  case isTrue hp => exact ⟨fun ht' => ⟨ht', fun _ => hp⟩, And.left⟩
  case isFalse hp =>
    rw [mem_filter, decide_eq_true_eq]
    exact and_congr_right fun _ => ⟨fun hne heq => absurd heq hne, fun himp heq => hp (himp heq)⟩

omit [DecidableEq S] in
theorem filter_unaim [DecidablePred p] {f f' : T → Bool}
    (h : ∀ t', f' t' = true ↔ (t' = t → p s) ∧ f t' = true) :
    (unaim t p A s).filter f = (A s).filter f' := by
  rw [unaim]
  split
  case isTrue hp =>
    refine filter_congr fun t' _ => Bool.eq_iff_iff.mpr ?_
    rw [h, and_iff_right fun _ => hp]
  case isFalse hp =>
    rw [List.filter_filter]
    refine filter_congr fun t' _ => Bool.eq_iff_iff.mpr ?_
    rw [h, Bool.and_eq_true, decide_eq_true_eq, and_comm]
    exact and_congr_left fun _ => ⟨fun hne heq => absurd heq hne, fun himp heq => hp (himp heq)⟩

theorem removeTarget_eq : removeTarget A s t = unaim t (· ≠ s) A := by
  funext x
  rw [removeTarget, update_apply, unaim, ite_not]
  exact ite_congr rfl (fun hx => by rw [hx]) fun _ => rfl

section

omit [DecidableEq S]

variable {p p' : S → Prop}

theorem unaim_unaim [DecidablePred p] [DecidablePred p'] :
    unaim t p' (unaim t p A) = unaim t (fun s => p s ∧ p' s) A := by
  funext x
  simp only [unaim]
  by_cases hp : p x <;> by_cases hp' : p' x <;> simp [hp, hp']

theorem unaim_congr [DecidablePred p] [DecidablePred p'] (h : ∀ s, p s ↔ p' s) :
    unaim t p A = unaim t p' A := by
  funext x
  exact if_congr (h x) rfl rfl

theorem unaim_of_forall [DecidablePred p] (h : ∀ s, p s) : unaim t p A = A :=
  funext fun s => if_pos (h s)

end

/-- `Insert` takes the target away where there is no weight. -/
theorem insertedTargets_eq (weight : S → Option ℕ) (s : S) :
    (if (weight s).isSome then A else removeTarget A s t) =
      unaim t (fun x => x = s → weight x ≠ none) A := by
  split
  case isTrue hsome =>
    exact (unaim_of_forall fun x hx => by
      rw [hx]
      exact isSome_iff_ne_none.mp hsome).symm
  case isFalse hnone =>
    rw [removeTarget_eq]
    refine unaim_congr fun x => ⟨fun hx hxs => absurd hxs hx, fun hx hxs => ?_⟩
    exact hnone (isSome_iff_ne_none.mpr (hxs ▸ hx hxs))

theorem Holds.insertAll (h : Holds q w) (weight : S → Option ℕ) (t : T) (hnodup : newStates.Nodup)
    (hfresh : ∀ s ∈ newStates, w s = none) (b : Bool) :
    ∃ r, TargetedSearcher.insertAll weight t newStates (b, q, A) = some r ∧
      Holds r.2.1 (fun s => if s ∈ newStates then weight s else w s) ∧
      r.2.2 = unaim t (fun s => s ∈ newStates → weight s ≠ none) A := by
  induction newStates generalizing q w A b with
  | nil => exact ⟨_, rfl, by simpa using h, (unaim_of_forall fun s hs => by cases hs).symm⟩
  | cons s l ih =>
    obtain ⟨hs, hl⟩ := nodup_cons.mp hnodup
    obtain ⟨q', hq', h'⟩ := h.add weight (hfresh s mem_cons_self)
    have hl' : ∀ x ∈ l, Function.update w s (weight s) x = none := fun x hx => by
      rw [update_apply, if_neg (fun hxs : x = s => hs (hxs ▸ hx))]
      exact hfresh x (mem_cons_of_mem _ hx)
    obtain ⟨r, hr, hheld, htargets⟩ := ih (A := if (weight s).isSome then A else
      removeTarget A s t) h' hl hl' ((weight s).isSome || b)
    refine ⟨r, ?_, ?_, ?_⟩
    · rw [TargetedSearcher.insertAll, foldlM_cons, TargetedSearcher.insert, hq']
      exact hr
    · refine ⟨hheld.consistent, fun x => (hheld.weight x).trans ?_⟩
      rw [update_apply]
      by_cases hx : x = s
      · subst hx
        simp [hs]
      · simp [hx]
    · rw [htargets]
      rw [insertedTargets_eq, unaim_unaim]
      refine unaim_congr fun x => ?_
      simp only [mem_cons]
      tauto

theorem removeUnheld_eq (h : Holds q w) (states : List S) :
    TargetedSearcher.removeUnheld t q states A = unaim t (fun s => s ∈ states → w s ≠ none) A := by
  induction states generalizing A with
  | nil => exact (unaim_of_forall fun s hs => by cases hs).symm
  | cons s l ih =>
    have hhead : (if q.tryGetPriority s = none then removeTarget A s t else A) =
        unaim t (fun x => x = s → w x ≠ none) A := by
      rw [h.weight]
      split
      case isTrue hnone =>
        rw [removeTarget_eq]
        exact unaim_congr fun x => ⟨fun hx hxs => absurd hxs hx, fun hx hxs =>
          hx hxs (hxs ▸ hnone)⟩
      case isFalse hsome => exact (unaim_of_forall fun x hx => hx ▸ hsome).symm
    rw [TargetedSearcher.removeUnheld, foldl_cons, hhead]
    refine (ih (A := unaim t (fun x => x = s → w x ≠ none) A)).trans ?_
    rw [unaim_unaim]
    refine unaim_congr fun x => ?_
    simp only [mem_cons]
    tauto

/-- The weights in a searcher after its `Update`. -/
def standing (weight : S → Option ℕ) (isBasicBlockStart : S → Bool) (parent : S)
    (newStates : List S) (w : S → Option ℕ) (s : S) : Option ℕ :=
  if s ∈ newStates then weight s
  else if s = parent ∧ isBasicBlockStart parent = true ∧ (w parent).isSome = true then weight s
  else w s

theorem Holds.update (h : Holds q w) (weight : S → Option ℕ) (A : S → List T) (t : T)
    (hnodup : newStates.Nodup)
    (hfresh : ∀ s ∈ newStates, w s = none) (hparent : parent ∉ newStates)
    (isBasicBlockStart : S → Bool) :
    ∃ r, TargetedSearcher.update weight t isBasicBlockStart parent newStates q A = some r ∧
      Holds r.2.1 (standing weight isBasicBlockStart parent newStates w) ∧
      r.2.2 = unaim t (fun s => s ∈ parent :: newStates →
        standing weight isBasicBlockStart parent newStates w s ≠ none) A := by
  have hmoved : ∃ r₀, TargetedSearcher.updateParent weight isBasicBlockStart parent q = some r₀ ∧
      Holds r₀.2 fun s => if s = parent ∧ isBasicBlockStart parent = true ∧
        (w parent).isSome = true then weight s else w s := by
    rw [TargetedSearcher.updateParent]
    split
    case isTrue hstart =>
      obtain ⟨r₀, hr₀, h₀⟩ := h.updateState weight parent
      refine ⟨r₀, hr₀, h₀.consistent, fun s => (h₀.weight s).trans ?_⟩
      split
      case isTrue hheld =>
        rw [update_apply]
        by_cases hs : s = parent
        · rw [if_pos hs, if_pos ⟨hs, hstart, hheld⟩, hs]
        · rw [if_neg hs, if_neg fun hand => hs hand.1]
      case isFalse hheld => rw [if_neg fun hand => hheld hand.2.2]
    case isFalse hstart =>
      refine ⟨(false, q), rfl, h.consistent, fun s => (h.weight s).trans ?_⟩
      rw [if_neg fun hand => hstart hand.2.1]
  obtain ⟨r₀, hr₀, h₀⟩ := hmoved
  have hfresh₀ : ∀ s ∈ newStates, (if s = parent ∧ isBasicBlockStart parent = true ∧
      (w parent).isSome = true then weight s else w s) = none := fun s hs => by
    rw [if_neg fun hand : s = parent ∧ _ => hparent (hand.1 ▸ hs)]
    exact hfresh s hs
  obtain ⟨r, hr, hheld, htargets⟩ := h₀.insertAll (A := A) weight t hnodup hfresh₀ r₀.1
  refine ⟨(r.1, r.2.1, TargetedSearcher.removeUnheld t r.2.1 (parent :: newStates) r.2.2), ?_,
    hheld, ?_⟩
  · rw [TargetedSearcher.update, hr₀, bind_eq_bind, bind_some, hr]
    rfl
  · rw [removeUnheld_eq hheld, htargets, unaim_unaim]
    refine unaim_congr fun s => ⟨And.right, fun hs => ⟨fun hnew => ?_, hs⟩⟩
    have hstanding := hs (mem_cons_of_mem _ hnew)
    rwa [standing, if_pos hnew] at hstanding

end

/-! ### All searchers -/

variable {B : BaseSearcher S} {g : GuidedSearcher B T} {b : B.State} {W : T → S → Option ℕ}
variable {A : S → List T} {env : Surroundings S T} {parent s : S} {newStates : List S} {t : T}
variable {targets : List T} {A' : S → List T}

/-- The searchers hold the weights, and the states have the targets. -/
structure Shows (g : GuidedSearcher B T) (b : B.State) (W : T → S → Option ℕ) (A : S → List T) :
    Prop where
  base : g.baseSearcher = b
  wf : Wf g.targetedSearchers
  held : ∀ t, Holds (g.getTargetedSearcher t) (W t)
  targets : g.targets = A

omit [DecidableEq S] in
theorem getTargetedSearcher_put (r : BidictionaryPriorityQueue S × (S → List T)) (t' : T) :
    (g.put t r).getTargetedSearcher t' = if t' = t then r.1 else g.getTargetedSearcher t' := by
  rw [GuidedSearcher.getTargetedSearcher, GuidedSearcher.put, Dictionary.tryFind_set]
  split <;> rfl

namespace Shows

section
variable (h : Shows g b W A)

include h

theorem put {r : BidictionaryPriorityQueue S × (S → List T)}
    {w : S → Option ℕ} (hheld : Holds r.1 w) : Shows (g.put t r) b (Function.update W t w) r.2 where
  base := h.base
  wf := Dictionary.wf_set h.wf t r.1
  held t' := by
    rw [getTargetedSearcher_put]
    split
    case isTrue ht => rwa [ht, update_self]
    case isFalse ht =>
      rw [update_of_ne ht]
      exact h.held t'
  targets := rfl

theorem insertInTargetedSearcher (env : Surroundings S T)
    (hfresh : W t s = none) :
    ∃ r, GuidedSearcher.insertInTargetedSearcher env g s t = some r ∧
      r.1 = (env.weight t s).isSome ∧
      Shows r.2 b (Function.update W t (Function.update (W t) s (env.weight t s)))
        (if (env.weight t s).isSome then A else removeTarget A s t) := by
  obtain ⟨q, hq, hheld⟩ := (h.held t).add (env.weight t) hfresh
  refine ⟨((env.weight t s).isSome,
    g.put t (q, if (env.weight t s).isSome then A else removeTarget A s t)), ?_, rfl, h.put hheld⟩
  rw [GuidedSearcher.insertInTargetedSearcher, TargetedSearcher.insert, hq, h.targets]
  rfl

/-- The searcher of a target that holds nothing may go. -/
theorem deleteTargetedSearcher (hempty : W t = fun _ => none) :
    Shows (g.deleteTargetedSearcher t) b W A where
  base := h.base
  wf := h.wf.remove t
  held t' := by
    rw [GuidedSearcher.getTargetedSearcher, GuidedSearcher.deleteTargetedSearcher,
      Dictionary.tryFind_remove]
    split
    case isTrue ht => rw [ht, hempty]; exact holds_empty
    case isFalse => exact h.held t'
  targets := by
    have hnil : (g.getTargetedSearcher t).toSeq = [] := by
      refine eq_nil_iff_forall_not_mem.mpr fun x hx => ?_
      rw [(h.held t).mem_iff, hempty] at hx
      exact Bool.false_ne_true hx
    rw [GuidedSearcher.deleteTargetedSearcher, hnil]
    exact h.targets

theorem deleteAll {l : List T} (hempty : ∀ t ∈ l, W t = fun _ => none) :
    Shows (l.foldl GuidedSearcher.deleteTargetedSearcher g) b W A := by
  induction l generalizing g with
  | nil => exact h
  | cons t l ih =>
    exact ih (h.deleteTargetedSearcher (hempty t mem_cons_self))
      fun t' ht' => hempty t' (mem_cons_of_mem t ht')

theorem remove (s : S) :
    ∃ g', g.remove s = some g' ∧
      Shows g' (B.remove s b) (fun t => Function.update (W t) s none) A := by
  have hentries : ∀ e ∈ g.targetedSearchers, ∃ e',
      (TargetedSearcher.remove s e.2).map (fun storage => (e.1, storage)) = some e' ∧
        (e.1 = e'.1 ∧ Holds e'.2 (Function.update (W e.1) s none)) := by
    intro e he
    have hq := h.held e.1
    rw [GuidedSearcher.getTargetedSearcher, (tryFind_eq_some_iff h.wf).mpr he, getD_some] at hq
    obtain ⟨q', hq', hheld⟩ := Holds.remove hq s
    exact ⟨(e.1, q'), by rw [hq']; rfl, rfl, hheld⟩
  obtain ⟨d, hd, hall⟩ := mapM_some hentries
  have hkeys : keys d = keys g.targetedSearchers :=
    Dictionary.keys_forall₂ (R := fun _ _ => True) (hall.imp fun _ _ he => ⟨he.1, trivial⟩)
  refine ⟨⟨B.remove s g.baseSearcher, d, g.targets⟩, by rw [GuidedSearcher.remove, hd]; rfl,
    congrArg _ h.base, ?_, fun t => ?_, h.targets⟩
  · rw [Wf, hkeys]
    exact h.wf
  · rw [GuidedSearcher.getTargetedSearcher]
    cases hfind : tryFind d t with
    | none =>
      have hq := h.held t
      rw [tryFind_eq_none_iff, hkeys, ← tryFind_eq_none_iff] at hfind
      rw [GuidedSearcher.getTargetedSearcher, hfind, getD_none] at hq
      have hnone : W t = fun _ => none := funext fun x =>
        (hq.weight x).symm.trans BidictionaryPriorityQueue.tryGetPriority_empty
      rw [hnone, update_eq_self]
      exact holds_empty
    | some q =>
      obtain ⟨e, he, heq, hheld⟩ := forall₂_mem_right hall (Dictionary.mem_of_tryFind hfind)
      obtain rfl : e.1 = t := heq
      exact hheld

end

end Shows

/-! ### Updates -/

/-- The weights after `updateTargetedSearchers` of the given targets. -/
def updatedWeights (env : Surroundings S T) (parent : S) (newStates : List S)
    (W : T → S → Option ℕ) (targets : List T) (t : T) : S → Option ℕ :=
  if t ∈ targets then
    standing (env.weight t) env.isBasicBlockStart parent newStates (W t)
  else W t

/-- The targets that are left after it. -/
def updatedTargets (env : Surroundings S T) (parent : S) (newStates : List S)
    (W : T → S → Option ℕ) (targets : List T) (A : S → List T) (s : S) : List T :=
  (A s).filter fun t => t ∈ targets → s ∈ parent :: newStates →
    standing (env.weight t) env.isBasicBlockStart parent newStates (W t) s ≠ none

theorem updatedWeights_cons (ht : t ∉ targets) :
    updatedWeights env parent newStates
      (Function.update W t (standing (env.weight t) env.isBasicBlockStart parent newStates (W t)))
      targets = updatedWeights env parent newStates W (t :: targets) := by
  funext t'
  by_cases htt' : t' = t
  · subst htt'
    rw [updatedWeights, if_neg ht, update_self, updatedWeights, if_pos mem_cons_self]
  · simp only [updatedWeights, mem_cons, htt', false_or, update_of_ne htt']

theorem updatedTargets_cons (ht : t ∉ targets) :
    updatedTargets env parent newStates
      (Function.update W t (standing (env.weight t) env.isBasicBlockStart parent newStates (W t)))
      targets (unaim t (fun s => s ∈ parent :: newStates →
        standing (env.weight t) env.isBasicBlockStart parent newStates (W t) s ≠ none) A) =
      updatedTargets env parent newStates W (t :: targets) A := by
  funext s
  refine filter_unaim fun t' => ?_
  simp only [decide_eq_true_eq]
  by_cases htt' : t' = t
  · subst htt'
    exact ⟨fun hall => ⟨fun _ => hall mem_cons_self, fun hmem => absurd hmem ht⟩,
      fun hand _ => hand.1 rfl⟩
  · rw [update_of_ne htt', mem_cons, or_iff_right htt']
    exact (and_iff_right fun heq => absurd heq htt').symm

namespace Shows

theorem updateTargetedSearcher (h : Shows g b W A) (env : Surroundings S T) (entry : T × List S)
    (hentry : entry.1 ∈ A parent) (hnodup : newStates.Nodup) (hparent : parent ∉ newStates)
    (hfresh : ∀ s ∈ newStates, W entry.1 s = none) :
    ∃ g', GuidedSearcher.updateTargetedSearcher env parent newStates (g, []) entry =
        some (g', []) ∧
      Shows g' b (Function.update W entry.1
          (standing (env.weight entry.1) env.isBasicBlockStart parent newStates (W entry.1)))
        (unaim entry.1 (fun s => s ∈ parent :: newStates →
          standing (env.weight entry.1) env.isBasicBlockStart parent newStates (W entry.1) s ≠ none)
          A) := by
  obtain ⟨r, hr, hheld, htargets⟩ := (h.held entry.1).update (env.weight entry.1) A
    entry.1 hnodup hfresh hparent env.isBasicBlockStart
  refine ⟨g.put entry.1 r.2, ?_, htargets ▸ h.put hheld⟩
  rw [GuidedSearcher.updateTargetedSearcher, GuidedSearcher.updateOrInsert, h.targets,
    if_pos hentry, hr]
  rfl

theorem foldTargets (h : Shows g b W A) (env : Surroundings S T) {entries : List (T × List S)}
    (hentries : (entries.map Prod.fst).Nodup) (hmem : ∀ e ∈ entries, e.1 ∈ A parent)
    (hnodup : newStates.Nodup) (hparent : parent ∉ newStates)
    (hfresh : ∀ t, ∀ s ∈ newStates, t ∈ entries.map Prod.fst → W t s = none) :
    ∃ g', entries.foldlM (GuidedSearcher.updateTargetedSearcher env parent newStates) (g, []) =
        some (g', []) ∧
      Shows g' b (updatedWeights env parent newStates W (entries.map Prod.fst))
        (updatedTargets env parent newStates W (entries.map Prod.fst) A) := by
  induction entries generalizing g W A with
  | nil =>
    refine ⟨g, rfl, h.base, h.wf, fun t => ?_, h.targets.trans (funext fun s => ?_)⟩
    · simpa [updatedWeights] using h.held t
    · simp [updatedTargets]
  | cons e entries ih =>
    obtain ⟨he, hrest⟩ := nodup_cons.mp hentries
    obtain ⟨g₁, hg₁, h₁⟩ := h.updateTargetedSearcher env e
      (hmem e mem_cons_self) hnodup hparent
      fun s hs => hfresh e.1 s hs mem_cons_self
    have hne {t : T} (ht : t ∈ entries.map Prod.fst) : t ≠ e.1 := fun heq => he (heq ▸ ht)
    obtain ⟨g', hg', h'⟩ := ih h₁ hrest
      (fun e' he' => mem_unaim.mpr ⟨hmem e' (mem_cons_of_mem e he'),
        fun heq => absurd heq (hne (List.mem_map_of_mem he'))⟩)
      fun t s hs ht => by
        rw [update_of_ne (hne ht)]
        exact hfresh t s hs (mem_cons_of_mem _ ht)
    refine ⟨g', ?_, ?_⟩
    · rw [foldlM_cons, hg₁]
      exact hg'
    · rwa [updatedWeights_cons he, updatedTargets_cons he] at h'

theorem updateTargetedSearchers (h : Shows g b W A) (env : Surroundings S T)
    (hnodup : newStates.Nodup) (hparent : parent ∉ newStates) (hfresh : ∀ t, ∀ s ∈ newStates, W t s = none)
    (hinherit : ∀ s ∈ newStates, A s = A parent) :
    ∃ g', g.updateTargetedSearchers env parent newStates = some g' ∧
      Shows g' b (updatedWeights env parent newStates W (A parent))
        (updatedTargets env parent newStates W (A parent) A) := by
  have hkeys : (g.cilStatesByTarget parent newStates).map Prod.fst =
      HashSet.unionWith [] (A parent ++ newStates.flatMap A) := by
    rw [GuidedSearcher.cilStatesByTarget, h.targets, List.map_map]
    exact List.map_id _
  have hmem (t : T) : t ∈ (g.cilStatesByTarget parent newStates).map Prod.fst ↔ t ∈ A parent := by
    rw [hkeys, HashSet.mem_unionWith, mem_append, mem_flatMap]
    constructor
    · rintro (hnil | hold | ⟨s, hs, ht⟩)
      · cases hnil
      · exact hold
      · exact hinherit s hs ▸ ht
    · exact fun ht => .inr (.inl ht)
  obtain ⟨g', hg', h'⟩ := h.foldTargets env
    (by rw [hkeys]; exact HashSet.nodup_unionWith nodup_nil _)
    (fun e he => (hmem e.1).mp (List.mem_map_of_mem he)) hnodup hparent
    fun t s hs _ => hfresh t s hs
  refine ⟨g', by rw [GuidedSearcher.updateTargetedSearchers, hg']; rfl, h'.base, h'.wf,
    fun t => ?_, h'.targets.trans (funext fun s => ?_)⟩
  · have hheld := h'.held t
    rwa [updatedWeights, if_congr (hmem t) rfl rfl] at hheld
  · refine filter_congr fun t _ => decide_eq_decide.mpr ?_
    rw [hmem]

end Shows

/-! ### Stuck states -/

/-- The target that a stuck state gets. -/
def aimed (env : Surroundings S T) (A : S → List T) (s : S) : Option T :=
  if ((A s).isEmpty && env.isStuck s) = true then
    (env.calculateTarget s).filter fun t => (env.weight t s).isSome
  else none

/-- The targets of a state after `updateStuck`. -/
def settledTargets (env : Surroundings S T) (A : S → List T) (s : S) : List T :=
  if ((A s).isEmpty && env.isStuck s) = true then (aimed env A s).toList else A s

/-- The weights of a state after `updateStuck`. -/
def settledWeights (env : Surroundings S T) (A : S → List T) (W : T → S → Option ℕ) (t : T)
    (s : S) : Option ℕ :=
  if aimed env A s = some t then env.weight t s else W t s

section

omit [DecidableEq S]

omit [DecidableEq T] in
theorem aimed_congr (h : A' s = A s) : aimed env A' s = aimed env A s := by
  rw [aimed, aimed, h]

omit [DecidableEq T] in
theorem settledTargets_congr (h : A' s = A s) :
    settledTargets env A' s = settledTargets env A s := by
  rw [settledTargets, settledTargets, aimed_congr h, h]

theorem settledWeights_congr {W' : T → S → Option ℕ} (h : A' s = A s) (hw : W' t s = W t s) :
    settledWeights env A' W' t s = settledWeights env A W t s := by
  rw [settledWeights, settledWeights, aimed_congr h, hw]

section
omit [DecidableEq T]

theorem aimed_eq_some : aimed env A s = some t ↔
    (A s = [] ∧ env.isStuck s = true) ∧ env.calculateTarget s = some t ∧ env.weight t s ≠ none := by
  rw [aimed, ← isSome_iff_ne_none, ← List.isEmpty_iff, ← Bool.and_eq_true]
  split
  case isTrue hstuck => rw [filter_eq_some_iff, and_iff_right hstuck]
  case isFalse hstuck => exact ⟨nofun, fun hand => absurd hand.1 hstuck⟩

theorem mem_settledTargets : t ∈ settledTargets env A s ↔ aimed env A s = some t ∨ t ∈ A s := by
  rw [settledTargets]
  split
  case isTrue hstuck =>
    rw [Bool.and_eq_true, List.isEmpty_iff] at hstuck
    rw [mem_toList, hstuck.1, or_iff_left not_mem_nil]
  case isFalse hstuck => rw [aimed, if_neg hstuck, or_iff_right nofun]

theorem aimed_eq_none (h : t ∈ A s) : aimed env A s = none := by
  refine eq_none_iff_forall_ne_some.mpr fun t' ht' => ?_
  rw [(aimed_eq_some.mp ht').1.1] at h
  cases h

end

/-- The base searcher holds nothing new. -/
def Shrinks (b b' : B.State) : Prop :=
  (B.states b).Nodup → (B.states b').Nodup ∧ ∀ x ∈ B.states b', x ∈ B.states b

theorem Shrinks.refl (b : B.State) : Shrinks b b := fun h => ⟨h, fun _ hx => hx⟩

theorem Shrinks.trans {b b' b'' : B.State} (h : Shrinks b b') (h' : Shrinks b' b'') :
    Shrinks b b'' := fun hnodup =>
  ⟨(h' (h hnodup).1).1, fun x hx => (h hnodup).2 x ((h' (h hnodup).1).2 x hx)⟩

theorem shrinks_remove (s : S) (b : B.State) : Shrinks b (B.remove s b) := fun h =>
  ⟨B.nodup_remove h, fun _ hx => (B.mem_remove h hx).1⟩

end

namespace Shows

section
variable (h : Shows g b W A)

include h

theorem drop (s : S) (hnone : ∀ t, W t s = none) :
    ∃ g', g.drop s = some g' ∧ Shows g' (B.remove s b) W (clearTargets A s) := by
  obtain ⟨g', hg', h'⟩ := Shows.remove (g := { g with targets := clearTargets g.targets s })
    ⟨h.base, h.wf, h.held, rfl⟩ s
  refine ⟨g', hg', h'.base, h'.wf, fun t => ?_, by rw [h'.targets, h.targets]⟩
  have hheld := h'.held t
  rwa [← hnone t, update_eq_self] at hheld

theorem updateStuck (env : Surroundings S T) (s : S) (hnone : A s = [] → ∀ t, W t s = none) :
    ∃ g' b', GuidedSearcher.updateStuck env g s = some g' ∧ Shrinks b b' ∧
      Shows g' b' (fun t => Function.update (W t) s (settledWeights env A W t s))
        (Function.update A s (settledTargets env A s)) := by
  rw [GuidedSearcher.updateStuck, h.targets]
  split
  case isTrue hstuck =>
    have hnil : A s = [] := by
      rw [Bool.and_eq_true, List.isEmpty_iff] at hstuck
      exact hstuck.1
    have hnone := hnone hnil
    cases hcalculated : env.calculateTarget s with
    | none =>
      have haimed : aimed env A s = none := by rw [aimed, if_pos hstuck, hcalculated]; rfl
      obtain ⟨g', hg', h'⟩ := h.drop s hnone
      refine ⟨g', _, hg', shrinks_remove s b, h'.base, h'.wf, fun t => ?_, ?_⟩
      · rw [settledWeights, haimed, if_neg nofun, update_eq_self]
        exact h'.held t
      · rw [settledTargets, if_pos hstuck, haimed]
        exact h'.targets
    | some target =>
      have hadded : (addTarget A s target).2 = Function.update A s [target] := by
        rw [addTarget, hnil, if_neg not_mem_nil]
      obtain ⟨r, hr, hinserted, h₁⟩ := Shows.insertInTargetedSearcher
        (g := { g with targets := (addTarget A s target).2 })
        ⟨h.base, h.wf, h.held, rfl⟩ env (hnone target)
      have haimed : aimed env A s = if (env.weight target s).isSome then some target else none := by
        rw [aimed, if_pos hstuck, hcalculated, filter_some]
      simp only [hr, bind_some, hinserted]
      by_cases hweight : (env.weight target s).isSome = true
      · rw [if_pos hweight] at haimed h₁
        rw [if_pos hweight]
        refine ⟨r.2, b, rfl, .refl b, h₁.base, h₁.wf, fun t => ?_, ?_⟩
        · have hheld := h₁.held t
          rw [settledWeights, haimed]
          by_cases ht : t = target
          · subst ht
            rw [if_pos rfl]
            rwa [update_self] at hheld
          · rw [if_neg fun heq => ht (some.inj heq).symm, update_eq_self]
            rwa [update_of_ne ht] at hheld
        · rw [settledTargets, if_pos hstuck, haimed, h₁.targets, hadded]
          rfl
      · rw [if_neg hweight] at haimed h₁
        rw [if_neg hweight]
        have hsame : Function.update W target
            (Function.update (W target) s (env.weight target s)) = W := by
          rw [not_isSome_iff_eq_none.mp hweight, ← hnone target, update_eq_self, update_eq_self]
        obtain ⟨g', hg', h'⟩ := (hsame ▸ h₁).drop s hnone
        refine ⟨g', _, hg', shrinks_remove s b, h'.base, h'.wf, fun t => ?_, ?_⟩
        · rw [settledWeights, haimed, if_neg nofun, update_eq_self]
          exact h'.held t
        · rw [settledTargets, if_pos hstuck, haimed, h'.targets, hadded, removeTarget]
          exact (update_idem ..).trans (update_idem ..)
  case isFalse hstuck =>
    refine ⟨g, b, rfl, .refl b, h.base, h.wf, fun t => ?_, ?_⟩
    · rw [settledWeights, aimed, if_neg hstuck, if_neg nofun, update_eq_self]
      exact h.held t
    · rw [settledTargets, if_neg hstuck, update_eq_self]
      exact h.targets

theorem foldStuck (env : Surroundings S T) {l : List S} (hl : l.Nodup)
    (hnone : ∀ s ∈ l, A s = [] → ∀ t, W t s = none) :
    ∃ g' b', l.foldlM (GuidedSearcher.updateStuck env) g = some g' ∧ Shrinks b b' ∧
      Shows g' b' (fun t s => if s ∈ l then settledWeights env A W t s else W t s)
        (fun s => if s ∈ l then settledTargets env A s else A s) := by
  induction l generalizing g b W A with
  | nil => exact ⟨g, b, rfl, .refl b, by simpa using h⟩
  | cons s l ih =>
    obtain ⟨hs, hl⟩ := nodup_cons.mp hl
    obtain ⟨g₁, b₁, hg₁, hb₁, h₁⟩ := h.updateStuck env s (hnone s mem_cons_self)
    have hne {x : S} (hx : x ∈ l) : x ≠ s := fun heq => hs (heq ▸ hx)
    have hsame {x : S} (hx : x ∈ l) :
        Function.update A s (settledTargets env A s) x = A x := update_of_ne (hne hx) _ _
    obtain ⟨g', b', hg', hb', h'⟩ := ih h₁ hl fun x hx hnil t => by
      rw [update_of_ne (hne hx)]
      exact hnone x (mem_cons_of_mem s hx) (hsame hx ▸ hnil) t
    refine ⟨g', b', ?_, hb₁.trans hb', h'.base, h'.wf, fun t => ?_, h'.targets.trans ?_⟩
    · rw [foldlM_cons, hg₁]
      exact hg'
    · refine ⟨(h'.held t).consistent, fun x => ((h'.held t).weight x).trans ?_⟩
      by_cases hx : x ∈ l
      · rw [if_pos hx, if_pos (mem_cons_of_mem s hx)]
        exact settledWeights_congr (hsame hx) (update_of_ne (hne hx) _ _)
      · rw [if_neg hx, update_apply]
        simp only [mem_cons, hx, or_false]
        exact ite_congr rfl (fun heq => by rw [heq]) fun _ => rfl
    · funext x
      by_cases hx : x ∈ l
      · rw [if_pos hx, if_pos (mem_cons_of_mem s hx)]
        exact settledTargets_congr (hsame hx)
      · rw [if_neg hx, update_apply]
        simp only [mem_cons, hx, or_false]
        exact ite_congr rfl (fun heq => by rw [heq]) fun _ => rfl

theorem insertTargets (env : Surroundings S T) (s : S) (hnodup : targets.Nodup)
    (hfresh : ∀ t ∈ targets, W t s = none) :
    ∃ g', targets.foldlM (fun g target =>
        (GuidedSearcher.insertInTargetedSearcher env g s target).map Prod.snd) g = some g' ∧
      Shows g' b (fun t x => if x = s ∧ t ∈ targets then env.weight t x else W t x)
        (fun x => (A x).filter fun t => x = s → t ∈ targets → env.weight t x ≠ none) := by
  induction targets generalizing g W A with
  | nil => exact ⟨g, rfl, by simpa using h⟩
  | cons t targets ih =>
    obtain ⟨ht, hnodup⟩ := nodup_cons.mp hnodup
    obtain ⟨r, hr, -, h₁⟩ := h.insertInTargetedSearcher env (hfresh t mem_cons_self)
    have hne {t' : T} (ht' : t' ∈ targets) : t' ≠ t := fun heq => ht (heq ▸ ht')
    obtain ⟨g', hg', h'⟩ := ih h₁ hnodup fun t' ht' => by
      rw [update_of_ne (hne ht')]
      exact hfresh t' (mem_cons_of_mem t ht')
    refine ⟨g', ?_, h'.base, h'.wf, fun t' => ?_, h'.targets.trans (funext fun x => ?_)⟩
    · rw [foldlM_cons, hr]
      exact hg'
    · refine ⟨(h'.held t').consistent, fun x => ((h'.held t').weight x).trans ?_⟩
      by_cases ht' : t' = t
      · subst ht'
        rw [if_neg fun hand => ht hand.2, update_self, update_apply]
        simp only [mem_cons_self, and_true]
        exact ite_congr rfl (fun hx => by rw [hx]) fun _ => rfl
      · simp only [mem_cons, ht', false_or, update_of_ne ht']
    · rw [insertedTargets_eq]
      refine filter_unaim fun t' => ?_
      simp only [decide_eq_true_eq, mem_cons]
      constructor
      · exact fun hall => ⟨fun ht' hx => ht' ▸ hall hx (.inl ht'), fun hx ht' => hall hx (.inr ht')⟩
      · rintro ⟨hhead, hrest⟩ hx (ht' | ht')
        · exact ht' ▸ hhead ht' hx
        · exact hrest hx ht'

theorem insertStates (env : Surroundings S T) {states : List S} (hnodup : states.Nodup)
    (htargets : ∀ s ∈ states, (A s).Nodup) (hfresh : ∀ t, ∀ s ∈ states, W t s = none) :
    ∃ g', states.foldlM (fun g state => (g.targets state).foldlM (fun g target =>
        (GuidedSearcher.insertInTargetedSearcher env g state target).map Prod.snd) g) g = some g' ∧
      Shows g' b (fun t x => if x ∈ states ∧ t ∈ A x then env.weight t x else W t x)
        (fun x => (A x).filter fun t => x ∈ states → env.weight t x ≠ none) := by
  induction states generalizing g W A with
  | nil => exact ⟨g, rfl, by simpa using h⟩
  | cons s states ih =>
    obtain ⟨hs, hnodup⟩ := nodup_cons.mp hnodup
    obtain ⟨g₁, hg₁, h₁⟩ := h.insertTargets env s (htargets s mem_cons_self)
      fun t _ => hfresh t s mem_cons_self
    have hne {x : S} (hx : x ∈ states) : x ≠ s := fun heq => hs (heq ▸ hx)
    have hsame {x : S} (hx : x ≠ s) : ((A x).filter fun t =>
        x = s → t ∈ A s → env.weight t x ≠ none) = A x :=
      filter_eq_self.mpr fun t _ => decide_eq_true fun heq => absurd heq hx
    obtain ⟨g', hg', h'⟩ := ih h₁ hnodup
      (fun x hx => (htargets x (mem_cons_of_mem s hx)).filter _) fun t x hx => by
        rw [if_neg fun hand => hne hx hand.1]
        exact hfresh t x (mem_cons_of_mem s hx)
    refine ⟨g', ?_, h'.base, h'.wf, fun t => ?_, h'.targets.trans (funext fun x => ?_)⟩
    · rw [foldlM_cons, h.targets, hg₁]
      exact hg'
    · refine ⟨(h'.held t).consistent, fun x => ((h'.held t).weight x).trans ?_⟩
      by_cases hx : x = s
      · subst hx
        rw [if_neg fun hand => hs hand.1]
        simp only [true_and, mem_cons_self]
      · rw [hsame hx]
        simp only [hx, false_and, if_false, mem_cons, false_or]
    · by_cases hx : x = s
      · subst hx
        rw [List.filter_filter]
        refine filter_congr fun t ht => Bool.eq_iff_iff.mpr ?_
        simp only [Bool.and_eq_true, decide_eq_true_eq]
        exact ⟨fun hand _ => hand.2 trivial ht, fun hall => ⟨fun hmem => absurd hmem hs,
          fun _ _ => hall mem_cons_self⟩⟩
      · rw [hsame hx]
        simp only [mem_cons, hx, false_or]

theorem weightIn : g.weightIn = W := by
  funext t s
  rw [← (h.held t).weight, GuidedSearcher.getTargetedSearcher, GuidedSearcher.weightIn]
  cases tryFind g.targetedSearchers t with
  | none => exact BidictionaryPriorityQueue.tryGetPriority_empty.symm
  | some q => rfl

end

end Shows

/-! ### Invariant -/

/-- Targets and searchers agree on the states of the list. -/
structure InSync (states : List S) (W : T → S → Option ℕ) (A : S → List T) : Prop where
  targeted : ∀ t s, W t s ≠ none → t ∈ A s
  held : ∀ s ∈ states, ∀ t ∈ A s, W t s ≠ none

namespace InSync
variable {states : List S}

omit [DecidableEq S] [DecidableEq T] in
theorem subset (h : InSync states W A) {states' : List S} (hsub : ∀ s ∈ states', s ∈ states) :
    InSync states' W A :=
  ⟨h.targeted, fun s hs => h.held s (hsub s hs)⟩

/-- The states that take part in an update need not be held before. -/
theorem updated (h : InSync states W A) (env : Surroundings S T)
    (hinherit : ∀ s ∈ newStates, A s = A parent) :
    InSync (states ++ parent :: newStates)
      (updatedWeights env parent newStates W (A parent))
      (updatedTargets env parent newStates W (A parent) A) := by
  have hpart : ∀ s ∈ parent :: newStates, A s = A parent := by
    intro s hs
    rcases mem_cons.mp hs with rfl | hs
    · rfl
    · exact hinherit s hs
  have houter {s : S} (hs : s ∉ parent :: newStates) (t : T) :
      updatedWeights env parent newStates W (A parent) t s = W t s := by
    rw [mem_cons, not_or] at hs
    rw [updatedWeights]
    split
    case isTrue => rw [standing, if_neg hs.2, if_neg fun hand => hs.1 hand.1]
    case isFalse => rfl
  refine ⟨fun t s hne => ?_, fun s hs t ht => ?_⟩
  · rw [updatedTargets, mem_filter, decide_eq_true_eq]
    by_cases hs : s ∈ parent :: newStates
    · by_cases ht : t ∈ A parent
      · rw [updatedWeights, if_pos ht] at hne
        exact ⟨hpart s hs ▸ ht, fun _ _ => hne⟩
      · rw [updatedWeights, if_neg ht] at hne
        exact ⟨h.targeted t s hne, fun ht' => absurd ht' ht⟩
    · rw [houter hs] at hne
      exact ⟨h.targeted t s hne, fun _ hs' => absurd hs' hs⟩
  · rw [updatedTargets, mem_filter, decide_eq_true_eq] at ht
    by_cases hpartial : s ∈ parent :: newStates
    · have ht' : t ∈ A parent := hpart s hpartial ▸ ht.1
      rw [updatedWeights, if_pos ht']
      exact ht.2 ht' hpartial
    · rw [houter hpartial]
      exact h.held s ((mem_append.mp hs).resolve_right hpartial) t ht.1

theorem settled (h : InSync states W A) (env : Surroundings S T) (l : List S) :
    InSync states (fun t s => if s ∈ l then settledWeights env A W t s else W t s)
      (fun s => if s ∈ l then settledTargets env A s else A s) := by
  refine ⟨fun t s hne => ?_, fun s hs t ht => ?_⟩
  · split at hne
    case isTrue hl =>
      rw [if_pos hl, mem_settledTargets]
      rw [settledWeights] at hne
      split at hne
      case isTrue haimed => exact .inl haimed
      case isFalse => exact .inr (h.targeted t s hne)
    case isFalse hl =>
      rw [if_neg hl]
      exact h.targeted t s hne
  · split at ht
    case isTrue hl =>
      rw [if_pos hl, settledWeights]
      rcases mem_settledTargets.mp ht with haimed | ht
      · rw [if_pos haimed]
        exact (aimed_eq_some.mp haimed).2.2
      · rw [if_neg (by rw [aimed_eq_none ht]; exact nofun)]
        exact h.held s hs t ht
    case isFalse hl =>
      rw [if_neg hl]
      exact h.held s hs t ht

end InSync

/-- Targets and searchers agree after every operation. -/
structure Tracked (g : GuidedSearcher B T) : Prop where
  shows : Shows g g.baseSearcher g.weightIn g.targets
  nodup : (B.states g.baseSearcher).Nodup
  inSync : InSync (B.states g.baseSearcher) g.weightIn g.targets

theorem Shows.tracked (h : Shows g b W A) (hnodup : (B.states b).Nodup)
    (hsync : InSync (B.states b) W A) : Tracked g := by
  have hweight := h.weightIn
  obtain ⟨rfl, hwf, hheld, rfl⟩ := h
  subst hweight
  exact ⟨⟨rfl, hwf, hheld, rfl⟩, hnodup, hsync⟩

/-- No searcher holds the state. -/
def IsFresh (g : GuidedSearcher B T) (s : S) : Prop :=
  s ∉ B.states g.baseSearcher ∧ ∀ t, s ∉ (g.getTargetedSearcher t).toSeq

/-- The states that come in are new, and those of an update have the targets of their parent. -/
def FreshStates (g : GuidedSearcher B T) (op : Surroundings S T × GuidedOperation S T) : Prop :=
  match op.2 with
  | .init states =>
    (states.map Prod.fst).Nodup ∧ ∀ e ∈ states, IsFresh g e.1 ∧ e.2.Nodup
  | .update parent newStates =>
    (newStates.map Prod.fst).Nodup ∧ parent ∉ newStates.map Prod.fst ∧
      ∀ e ∈ newStates, IsFresh g e.1 ∧ e.2 = g.targets parent
  | .remove _ => True

namespace Tracked

section
variable (h : Tracked g) {states : List (S × List T)}

include h

theorem weightIn_eq_none (hs : IsFresh g s) (t : T) : g.weightIn t s = none := by
  have hnot := mt (h.shows.held t).mem_iff.mpr (hs.2 t)
  exact not_isSome_iff_eq_none.mp hnot

/-- New states come with their targets, and change nothing else. -/
theorem bring (hnodup : (states.map Prod.fst).Nodup) :
    ∃ A, Shows (g.bring states) g.baseSearcher g.weightIn A ∧ (∀ e ∈ states, A e.1 = e.2) ∧
      ∀ s ∉ states.map Prod.fst, A s = g.targets s := by
  refine ⟨_, ⟨h.shows.base, h.shows.wf, h.shows.held, rfl⟩, ?_⟩
  change (∀ e ∈ states, states.foldl (fun targets e => Function.update targets e.1 e.2) g.targets
    e.1 = e.2) ∧ ∀ s ∉ states.map Prod.fst,
      states.foldl (fun targets e => Function.update targets e.1 e.2) g.targets s = g.targets s
  generalize g.targets = A
  induction states generalizing A with
  | nil => exact ⟨nofun, fun _ _ => rfl⟩
  | cons e states ih =>
    obtain ⟨he, hnodup⟩ := nodup_cons.mp hnodup
    obtain ⟨hin, hout⟩ := ih hnodup (Function.update A e.1 e.2)
    refine ⟨fun e' he' => ?_, fun s hs => ?_⟩
    · rcases mem_cons.mp he' with rfl | he'
      · exact (hout e'.1 he).trans (update_self ..)
      · exact hin e' he'
    · rw [map_cons, mem_cons, not_or] at hs
      exact (hout s hs.2).trans (update_of_ne hs.1 _ _)

theorem init (hfresh : FreshStates g (env, .init states)) :
    ∃ g', (guidedSystem B T).step g (env, .init states) = some g' ∧ Tracked g' := by
  obtain ⟨A, h₁, hin, hout⟩ := h.bring hfresh.1
  have hnone (t : T) : ∀ s ∈ states.map Prod.fst, g.weightIn t s = none := by
    intro s hs
    obtain ⟨e, he, rfl⟩ := List.mem_map.mp hs
    exact h.weightIn_eq_none (hfresh.2 e he).1 t
  have htargets : ∀ s ∈ states.map Prod.fst, (A s).Nodup := by
    intro s hs
    obtain ⟨e, he, rfl⟩ := List.mem_map.mp hs
    exact hin e he ▸ (hfresh.2 e he).2
  have hnew : ∀ s ∈ states.map Prod.fst, s ∉ B.states g.baseSearcher := by
    intro s hs
    obtain ⟨e, he, rfl⟩ := List.mem_map.mp hs
    exact (hfresh.2 e he).1.1
  obtain ⟨g', hg', h'⟩ := Shows.insertStates
    (g := { g.bring states with
      baseSearcher := B.init (states.map Prod.fst) (g.bring states).baseSearcher })
    ⟨rfl, h₁.wf, h₁.held, h₁.targets⟩ env hfresh.1 htargets hnone
  refine ⟨g', hg', h'.tracked (B.nodup_init h.nodup hfresh.1 hnew) ⟨fun t s hne => ?_, ?_⟩⟩
  · rw [mem_filter, decide_eq_true_eq]
    split at hne
    case isTrue hnew => exact ⟨hnew.2, fun _ => hne⟩
    case isFalse =>
      have hs : s ∉ states.map Prod.fst := fun hs => hne (hnone t s hs)
      exact ⟨hout s hs ▸ h.inSync.targeted t s hne, fun hs' => absurd hs' hs⟩
  · intro s hs t ht
    rw [mem_filter, decide_eq_true_eq] at ht
    split
    case isTrue hnew => exact ht.2 hnew.1
    case isFalse hnot =>
      have hs' : s ∉ states.map Prod.fst := fun hs' => hnot ⟨hs', ht.1⟩
      exact h.inSync.held s ((B.mem_init hs).resolve_right hs') t (hout s hs' ▸ ht.1)

theorem remove (s : S) :
    ∃ g', (guidedSystem B T).step g (env, .remove s) = some g' ∧ Tracked g' := by
  obtain ⟨g', hg', h'⟩ := h.shows.remove s
  refine ⟨g', hg', h'.tracked (B.nodup_remove h.nodup) ⟨fun t x hne => ?_, fun x hx t ht => ?_⟩⟩
  · rw [update_apply] at hne
    split at hne
    case isTrue => exact absurd rfl hne
    case isFalse => exact h.inSync.targeted t x hne
  · have hmem := B.mem_remove h.nodup hx
    rw [update_of_ne hmem.2]
    exact h.inSync.held x hmem.1 t ht

/-- What an update makes of weights and targets. -/
theorem exists_update {newStates : List (S × List T)}
    (hfresh : FreshStates g (env, .update parent newStates)) :
    ∃ g' A, (guidedSystem B T).step g (env, .update parent newStates) = some g' ∧ Tracked g' ∧
      (∀ s ∈ parent :: newStates.map Prod.fst, A s = g.targets parent) ∧
      (∀ s ∈ parent :: newStates.map Prod.fst, g'.targets s = settledTargets env
        (updatedTargets env parent (newStates.map Prod.fst) g.weightIn (g.targets parent) A) s) ∧
      ∀ s ∈ parent :: newStates.map Prod.fst, ∀ t, g'.weightIn t s = settledWeights env
        (updatedTargets env parent (newStates.map Prod.fst) g.weightIn (g.targets parent) A)
        (updatedWeights env parent (newStates.map Prod.fst) g.weightIn (g.targets parent)) t s := by
  obtain ⟨hnodup, hparent, hnew⟩ := hfresh
  obtain ⟨A, h₁, hin, hout⟩ := h.bring hnodup
  have hnone (t : T) : ∀ s ∈ newStates.map Prod.fst, g.weightIn t s = none := by
    intro s hs
    obtain ⟨e, he, rfl⟩ := List.mem_map.mp hs
    exact h.weightIn_eq_none (hnew e he).1 t
  have hunheld : ∀ s ∈ newStates.map Prod.fst, s ∉ B.states g.baseSearcher := by
    intro s hs
    obtain ⟨e, he, rfl⟩ := List.mem_map.mp hs
    exact (hnew e he).1.1
  have hinherit : ∀ s ∈ newStates.map Prod.fst, A s = A parent := by
    intro s hs
    obtain ⟨e, he, rfl⟩ := List.mem_map.mp hs
    rw [hin e he, (hnew e he).2, hout parent hparent]
  have hold := hout parent hparent
  have hsync : InSync (B.states g.baseSearcher) g.weightIn A := by
    refine ⟨fun t s hne => ?_, fun s hs t ht => ?_⟩
    · exact hout s (fun hs => hne (hnone t s hs)) ▸ h.inSync.targeted t s hne
    · exact h.inSync.held s hs t (hout s (fun hs' => hunheld s hs' hs) ▸ ht)
  obtain ⟨g₂, hg₂, h₂⟩ := Shows.updateTargetedSearchers
    (g := { g.bring newStates with
      baseSearcher := B.update parent (newStates.map Prod.fst) (g.bring newStates).baseSearcher })
    ⟨rfl, h₁.wf, h₁.held, h₁.targets⟩ env hnodup hparent hnone hinherit
  have hsync₂ := hsync.updated env hinherit
  rw [hold] at h₂ hsync₂
  obtain ⟨g₃, b', hg₃, hb', h₃⟩ := h₂.foldStuck env
    (nodup_cons.mpr ⟨hparent, hnodup⟩) fun s _ hnil t =>
      by_contra fun hne => not_mem_nil (hnil ▸ hsync₂.targeted t s hne)
  have hbase := hb' (B.nodup_update h.nodup hnodup hunheld)
  have hsync₃ := (hsync₂.settled env (parent :: newStates.map Prod.fst)).subset
    fun s (hs : s ∈ B.states b') => mem_append.mpr
      ((B.mem_update (hbase.2 s hs)).imp_right (mem_cons_of_mem parent))
  have h₄ := h₃.deleteAll (l := g₃.targetsWithEmptySearchers) fun t ht => by
    have hempty := List.isEmpty_iff.mp (mem_filter.mp ht).2
    refine funext fun s => not_isSome_iff_eq_none.mp fun hsome => ?_
    exact not_mem_nil (hempty ▸ (h₃.held t).mem_iff.mpr hsome)
  refine ⟨_, A, ?_, h₄.tracked hbase.1 hsync₃, fun s hs => ?_, fun s hs => ?_, fun s hs t => ?_⟩
  · change GuidedSearcher.update env (g.bring newStates) parent (newStates.map Prod.fst) = _
    rw [GuidedSearcher.update, hg₂, bind_eq_bind, bind_some, hg₃]
    rfl
  · rcases mem_cons.mp hs with rfl | hs
    · exact hold
    · exact (hinherit s hs).trans hold
  · exact (congrFun h₄.targets s).trans (if_pos hs)
  · exact (congrFun (congrFun h₄.weightIn t) s).trans (if_pos hs)

/-- A step has a result, and keeps targets and searchers in agreement. -/
theorem exists_step {op : Surroundings S T × GuidedOperation S T}
    (hfresh : FreshStates g op) : ∃ g', (guidedSystem B T).step g op = some g' ∧ Tracked g' := by
  obtain ⟨env, op⟩ := op
  cases op with
  | init states => exact h.init hfresh
  | update parent newStates =>
    obtain ⟨g', A, hg', h', -⟩ := h.exists_update hfresh
    exact ⟨g', hg', h'⟩
  | remove s => exact h.remove s

end

theorem start (B : BaseSearcher S) : Tracked (guidedSystem B T).start where
  shows := ⟨rfl, wf_nil, fun _ => holds_empty, rfl⟩
  nodup := by
    rw [guidedSystem, B.states_empty]
    exact nodup_nil
  inSync := by
    refine ⟨fun _ _ hne => absurd rfl hne, fun s hs => ?_⟩
    rw [guidedSystem, B.states_empty] at hs
    cases hs

end Tracked

theorem tracked_of_reaches (h : (guidedSystem B T).Reaches FreshStates g) : Tracked g :=
  h.invariant (P := Tracked) (.start B) fun _ _ _ hg hfresh hstep => by
    obtain ⟨g', hg', h'⟩ := hg.exists_step hfresh
    exact some.inj (hg'.symm.trans hstep) ▸ h'

/-! ### Reached targets -/

/-- For each state that is held, its targets are the targets whose searchers hold it. -/
def TargetsHeld (g : GuidedSearcher B T) : Prop :=
  ∀ s ∈ B.states g.baseSearcher, ∀ t, t ∈ g.targets s ↔ s ∈ (g.getTargetedSearcher t).toSeq

/-- The weight of a state in the searcher of a target, when the reached targets are looked at. -/
def weightAtUpdate (env : Surroundings S T) (g : GuidedSearcher B T) (parent : S)
    (newStates : List S) (t : T) : S → Option ℕ :=
  standing (env.weight t) env.isBasicBlockStart parent newStates (g.weightIn t)

/-- No state of the update stands at a target that it has; one that stood at a target of the parent
has the return targets that it can reach. -/
def TargetsSettled (env : Surroundings S T) (g g' : GuidedSearcher B T) (parent : S)
    (newStates : List S) : Prop :=
  ∀ s ∈ parent :: newStates,
    (∀ t ∈ g'.targets s, g'.weightIn t s ≠ some 0) ∧
    ((∃ t ∈ g.targets parent, weightAtUpdate env g parent newStates t s = some 0) →
      ∀ r ∈ env.returnTargets s, (env.weight r s).isSome → r ∈ g'.targets s)

/-- No state of the update stands at a target of the parent, and no stuck state that can reach none
of them is given a target at which it stands. -/
def Unreached (env : Surroundings S T) (g : GuidedSearcher B T) (parent : S)
    (newStates : List S) : Prop :=
  ∀ s ∈ parent :: newStates,
    (∀ t ∈ g.targets parent, weightAtUpdate env g parent newStates t s ≠ some 0) ∧
    ((∀ t ∈ g.targets parent, weightAtUpdate env g parent newStates t s = none) →
      env.isStuck s = true → ∀ t, env.calculateTarget s = some t → env.weight t s ≠ some 0)

omit [DecidableEq S] in
/-- Where a state of an update stands, by what its targets and weights have become. -/
theorem ne_zero_iff {A₁ : S → List T} {W₁ : T → S → Option ℕ} {w : T → Option ℕ}
    (hA : ∀ t, t ∈ A₁ s ↔ t ∈ targets ∧ w t ≠ none) (hW : ∀ t ∈ targets, W₁ t s = w t) :
    (∀ t ∈ settledTargets env A₁ s, settledWeights env A₁ W₁ t s ≠ some 0) ↔
      (∀ t ∈ targets, w t ≠ some 0) ∧ ((∀ t ∈ targets, w t = none) → env.isStuck s = true →
        ∀ t, env.calculateTarget s = some t → env.weight t s ≠ some 0) := by
  constructor
  · refine fun hne => ⟨fun t ht hzero => ?_, fun hnone hstuck t hcalculated hzero => ?_⟩
    · have hmem : t ∈ A₁ s := (hA t).mpr ⟨ht, by rw [hzero]; exact nofun⟩
      refine hne t (mem_settledTargets.mpr (.inr hmem)) ?_
      rw [settledWeights, aimed_eq_none hmem, if_neg nofun, hW t ht, hzero]
    · have hnil : A₁ s = [] := eq_nil_iff_forall_not_mem.mpr fun t ht =>
        ((hA t).mp ht).2 (hnone t ((hA t).mp ht).1)
      have haimed : aimed env A₁ s = some t :=
        aimed_eq_some.mpr ⟨⟨hnil, hstuck⟩, hcalculated, by rw [hzero]; exact nofun⟩
      refine hne t (mem_settledTargets.mpr (.inl haimed)) ?_
      rw [settledWeights, if_pos haimed, hzero]
  · rintro ⟨htargets, hstuck⟩ t ht
    rcases mem_settledTargets.mp ht with haimed | hmem
    · obtain ⟨⟨hnil, hs⟩, hcalculated, -⟩ := aimed_eq_some.mp haimed
      rw [settledWeights, if_pos haimed]
      refine hstuck (fun t' ht' => by_contra fun hne => ?_) hs t hcalculated
      exact not_mem_nil (hnil ▸ (hA t').mpr ⟨ht', hne⟩)
    · rw [settledWeights, aimed_eq_none hmem, if_neg nofun, hW t ((hA t).mp hmem).1]
      exact htargets t ((hA t).mp hmem).1

/-- Targets and searchers agree after every operation; an update settles the targets that are
reached exactly when none is. -/
theorem guided_targets (h : (guidedSystem B T).Reaches FreshStates g) :
    TargetsHeld g ∧
      (∀ op, FreshStates g op → ∃ g', (guidedSystem B T).step g op = some g') ∧
      ∀ env parent newStates g', FreshStates g (env, .update parent newStates) →
        (guidedSystem B T).step g (env, .update parent newStates) = some g' →
        (TargetsSettled env g g' parent (newStates.map Prod.fst) ↔
          Unreached env g parent (newStates.map Prod.fst)) := by
  have htracked := tracked_of_reaches h
  refine ⟨fun s hs t => ?_, fun op hfresh => ?_, fun env parent newStates g' hfresh hstep => ?_⟩
  · rw [(htracked.shows.held t).mem_iff, isSome_iff_ne_none]
    exact ⟨htracked.inSync.held s hs t, htracked.inSync.targeted t s⟩
  · obtain ⟨g', hg', -⟩ := htracked.exists_step hfresh
    exact ⟨g', hg'⟩
  · obtain ⟨g'', A, hg'', -, hA, htargets, hweights⟩ := htracked.exists_update hfresh
    obtain rfl := some.inj (hg''.symm.trans hstep)
    refine forall₂_congr fun s hs => ?_
    have hmem (t : T) : t ∈ updatedTargets env parent (newStates.map Prod.fst) g.weightIn
        (g.targets parent) A s ↔ t ∈ g.targets parent ∧
          weightAtUpdate env g parent (newStates.map Prod.fst) t s ≠ none := by
      rw [updatedTargets, mem_filter, decide_eq_true_eq, hA s hs]
      exact and_congr_right fun ht => ⟨fun hall => hall ht hs, fun hne _ _ => hne⟩
    have hweight : ∀ t ∈ g.targets parent, updatedWeights env parent (newStates.map Prod.fst)
        g.weightIn (g.targets parent) t s =
          weightAtUpdate env g parent (newStates.map Prod.fst) t s :=
      fun t ht => congrFun (if_pos ht) s
    simp only [htargets s hs, hweights s hs]
    rw [ne_zero_iff hmem hweight]
    refine ⟨And.left, fun hunreached => ⟨hunreached, ?_⟩⟩
    rintro ⟨t, ht, hzero⟩
    exact absurd hzero (hunreached.1 t ht)

end

/-! ### A reached target -/

namespace SampleSearch

/-- Each state is at the given distance from target `7`, and can reach the return target `9`. -/
def surroundings (distance : ℕ) : Surroundings ℕ ℕ where
  weight t _ := some (if t = 7 then distance else 5)
  isBasicBlockStart _ := true
  isStuck _ := false
  calculateTarget _ := none
  returnTargets _ := [9]

abbrev Searcher := GuidedSearcher (dfsBase ℕ) ℕ

/-- State `0` comes with target `7`. -/
def initial : Surroundings ℕ ℕ × GuidedOperation ℕ ℕ := (surroundings 5, .init [(0, [7])])

theorem fresh_initial : FreshStates (guidedSystem (dfsBase ℕ) ℕ).start initial := by
  refine ⟨by decide, fun e he => ?_⟩
  obtain rfl := mem_singleton.mp he
  exact ⟨⟨nofun, fun t => nofun⟩, by decide⟩

theorem fresh_alone (g : Searcher) (env : Surroundings ℕ ℕ) :
    FreshStates g (env, .update 0 []) :=
  ⟨nodup_nil, not_mem_nil, nofun⟩

/-- State `0` comes with the targets `7` and `8`, and state `1` with target `8`. -/
def two : Surroundings ℕ ℕ × GuidedOperation ℕ ℕ := (surroundings 5, .init [(0, [7, 8]), (1, [8])])

theorem fresh_two : FreshStates (guidedSystem (dfsBase ℕ) ℕ).start two := by
  refine ⟨by decide, fun e he => ?_⟩
  rcases mem_pair.mp he with rfl | rfl <;> exact ⟨⟨nofun, fun t => nofun⟩, by decide⟩

/-- While no target is reached, an update with a new state leaves them. -/
theorem settled_new_state : ∃ g g' : Searcher, TargetsHeld g ∧
    (guidedSystem (dfsBase ℕ) ℕ).step g (surroundings 3, .update 0 [(2, [7, 8])]) = some g' ∧
      TargetsSettled (surroundings 3) g g' 0 [2] := by
  have hreaches := Library.System.Reaches.step .start fresh_two rfl
  have htracked := tracked_of_reaches hreaches
  obtain ⟨hheld, -, hiff⟩ := guided_targets hreaches
  refine ⟨_, _, hheld, rfl, (hiff _ 0 [(2, [7, 8])] _ ?_ rfl).mpr fun s hs => ?_⟩
  · refine ⟨by decide, by decide, fun e he => ?_⟩
    obtain rfl := mem_singleton.mp he
    refine ⟨⟨by decide, fun t hmem => ?_⟩, by decide⟩
    rw [(htracked.shows.held t).mem_iff, isSome_iff_ne_none] at hmem
    exact absurd (htracked.inSync.targeted t 2 hmem) not_mem_nil
  obtain rfl | rfl := mem_pair.mp hs
  · exact ⟨by decide, fun _ hstuck => by cases hstuck⟩
  · exact ⟨by decide, fun _ hstuck => by cases hstuck⟩

/-- The state reaches its target, keeps it, and gets no return target. -/
theorem reached_kept : ¬ ∀ g : Searcher, (guidedSystem (dfsBase ℕ) ℕ).Reaches FreshStates g →
    ∀ env parent newStates g', FreshStates g (env, .update parent newStates) →
      (guidedSystem (dfsBase ℕ) ℕ).step g (env, .update parent newStates) = some g' →
      TargetsSettled env g g' parent (newStates.map Prod.fst) := by
  intro hall
  have hsettled := hall _ (.step .start fresh_initial rfl) (surroundings 0) 0 [] _
    (fresh_alone _ _) rfl
  exact (hsettled 0 mem_cons_self).1 7 (by decide) (by decide)

end SampleSearch

end VSharp.Explorer
