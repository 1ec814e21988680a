import VSharp.Utils.Collections

/-!
# Explorer — Fair enumerators

`FairEnumerator` of `VSharp.Explorer/FairSearcher.fs`: values are yielded in turn, each for its
time, the ones whose time is over wait for the next round, and a value can be dropped.

- The clock is the sequence of its readings, and a stopwatch is the reading it was started at.
- The functions given to an enumerator have the times of the searcher and what else they change, the
  `rest`, passed along; `usedUp` notes that `shouldStop` has been true.
- An enumerator that is asked for a value keeps the values it has (`pick_ok`).
-/

namespace VSharp.Explorer
open List

/-- The mutable fields of an enumerator. -/
structure FairEnumerator (α : Type) where
  toExplore : List α
  remains : List α
  stopwatch : Option ℕ
deriving DecidableEq

/-- The times of the searcher, and the number of readings of the clock so far. -/
structure Times where
  totalTime : ℕ
  elapsedTime : ℕ
  readings : ℕ
  usedUp : Bool
deriving DecidableEq

namespace FairEnumerator

/-- An enumerator, with what its functions change. -/
structure Scene (α ρ : Type) where
  enumerator : FairEnumerator α
  rest : ρ
  times : Times

/-- The functions an enumerator is given; one that throws has no result. -/
structure Callbacks (α ρ : Type) where
  getElementTimeoutMs : FairEnumerator α → Times → Option ℕ
  shouldStop : FairEnumerator α → Times → Option Bool
  onRound : List α → Times → List α × Times
  onTimeout : α → ℕ → ρ → Times → Option (ρ × Times)

variable {α ρ : Type}

/-- `new FairEnumerator`. -/
def create (initialValues : List α) : FairEnumerator α := ⟨initialValues, [], none⟩

def count (e : FairEnumerator α) : ℕ := e.toExplore.length + e.remains.length

/-- `stopwatch.ElapsedMilliseconds`. -/
def elapsed (clock : ℕ → ℕ) (e : FairEnumerator α) (times : Times) : ℕ × Times :=
  match e.stopwatch with
  | none => (0, times)
  | some start => (clock times.readings - start, { times with readings := times.readings + 1 })

/-- `if not stopwatch.IsRunning then stopwatch.Start()`. -/
def start (clock : ℕ → ℕ) (scene : Scene α ρ) : Scene α ρ :=
  match scene.enumerator.stopwatch with
  | some _ => scene
  | none => { scene with
      enumerator := { scene.enumerator with stopwatch := some (clock scene.times.readings) }
      times := { scene.times with readings := scene.times.readings + 1 } }

variable [DecidableEq α] {e : FairEnumerator α}

def stopCurrent (clock : ℕ → ℕ) (onTimeout : α → ℕ → ρ → Times → Option (ρ × Times))
    (scene : Scene α ρ) : Option (ℕ × Scene α ρ) :=
  match scene.enumerator.toExplore with
  | [] => some (0, scene)
  | dequeued :: toExplore => do
      let (elapsed, times) := elapsed clock scene.enumerator scene.times
      let (rest, times) ← onTimeout dequeued elapsed scene.rest times
      let remains := HashSet.add scene.enumerator.remains dequeued
      return (elapsed, ⟨⟨toExplore, remains, none⟩, rest, times⟩)

def dropCurrent (clock : ℕ → ℕ) (e : FairEnumerator α) (times : Times) :
    ℕ × FairEnumerator α × Times :=
  match e.toExplore with
  | [] => (0, e, times)
  | _ :: toExplore =>
    let (elapsed, times) := elapsed clock e times
    (elapsed, { e with toExplore, stopwatch := none }, times)

/-- `pick`, with a bound on its recursion. -/
def pickLoop (clock : ℕ → ℕ) (callbacks : Callbacks α ρ) :
    ℕ → Scene α ρ → Option (Option α × Scene α ρ)
  | 0, _ => none
  | fuel + 1, scene =>
    let e := scene.enumerator
    if e.toExplore = [] ∧ e.remains = [] then some (none, scene)
    else do
      let stop ← callbacks.shouldStop e scene.times
      if stop then return (none, { scene with times := { scene.times with usedUp := true } })
      else match e.toExplore with
        | [] =>
          let (values, times) := callbacks.onRound e.remains scene.times
          pickLoop clock callbacks fuel
            { scene with enumerator := ⟨values, [], e.stopwatch⟩, times }
        | peeked :: _ => do
            let (elapsed, times) := elapsed clock e scene.times
            let timeout ← callbacks.getElementTimeoutMs e times
            if elapsed ≤ timeout then return (some peeked, start clock { scene with times })
            else do
              let (_, scene) ← stopCurrent clock callbacks.onTimeout { scene with times }
              pickLoop clock callbacks fuel scene

/-- `Pick`: a value out of time is followed by one whose stopwatch does not run yet. -/
def pick (clock : ℕ → ℕ) (callbacks : Callbacks α ρ) (scene : Scene α ρ) :
    Option (Option α × Scene α ρ) :=
  pickLoop clock callbacks 4 scene

/-! ### What `Pick` keeps -/

/-- The values an enumerator has. -/
def elements (e : FairEnumerator α) : List α := e.toExplore ++ e.remains

omit [DecidableEq α] in
theorem count_pos (h : e.elements ≠ []) : e.count ≠ 0 := by
  rw [count, ← length_append]
  exact fun hzero => h (length_eq_zero_iff.mp hzero)

/-- The functions of an enumerator do not throw, while `fine` holds of what they change, and a round
has all the values. -/
structure Callbacks.Sound (callbacks : Callbacks α ρ) (values : α → Prop) (fine : ρ → Prop) :
    Prop where
  timeout : ∀ (e : FairEnumerator α) (times : Times), e.elements ≠ [] →
    ∃ t, callbacks.getElementTimeoutMs e times = some t
  stop : ∀ (e : FairEnumerator α) (times : Times), e.elements ≠ [] →
    ∃ b, callbacks.shouldStop e times = some b
  round : ∀ l times, (callbacks.onRound l times).1.Perm l ∧
    (times.usedUp = true → (callbacks.onRound l times).2.usedUp = true)
  expire : ∀ a elapsed rest times, values a → fine rest →
    ∃ rest' times', callbacks.onTimeout a elapsed rest times = some (rest', times') ∧
      fine rest' ∧ (times.usedUp = true → times'.usedUp = true)

/-- The later scene has the same values. -/
structure KeepsValues (fine : ρ → Prop) (scene scene' : Scene α ρ) : Prop where
  perm : scene'.enumerator.elements.Perm scene.enumerator.elements
  fine : fine scene'.rest
  usedUp : scene.times.usedUp = true → scene'.times.usedUp = true

/-- `Pick` yields the value in front, or there is none or no time. -/
structure Yields (fine : ρ → Prop) (scene : Scene α ρ) (r : Option α) (scene' : Scene α ρ) : Prop
    extends KeepsValues fine scene scene' where
  front : ∀ a, r = some a → scene'.enumerator.toExplore.head? = some a
  exhausted : r = none → scene'.enumerator.elements = [] ∨ scene'.times.usedUp = true

variable {clock : ℕ → ℕ} {callbacks : Callbacks α ρ} {values : α → Prop} {fine : ρ → Prop}
  {scene scene' scene'' : Scene α ρ}

section

omit [DecidableEq α]

theorem KeepsValues.trans (h : KeepsValues fine scene scene')
    (h' : KeepsValues fine scene' scene'') : KeepsValues fine scene scene'' :=
  ⟨h'.perm.trans h.perm, h'.fine, h'.usedUp ∘ h.usedUp⟩

theorem elapsed_usedUp (e : FairEnumerator α) (times : Times) :
    (elapsed clock e times).2.usedUp = times.usedUp := by
  rw [elapsed]
  split
  · rfl
  · rfl

theorem start_keeps (clock : ℕ → ℕ) (hfine : fine scene.rest) :
    KeepsValues fine scene (start clock scene) ∧
      (start clock scene).enumerator.toExplore = scene.enumerator.toExplore := by
  rw [start]
  split
  · exact ⟨⟨.refl _, hfine, id⟩, rfl⟩
  · exact ⟨⟨.refl _, hfine, id⟩, rfl⟩

end

/-- The value in front goes to those that remain. -/
theorem stopCurrent_ok {onTimeout : α → ℕ → ρ → Times → Option (ρ × Times)}
    (hexpire : ∀ a elapsed rest times, values a → fine rest →
      ∃ rest' times', onTimeout a elapsed rest times = some (rest', times') ∧
        fine rest' ∧ (times.usedUp = true → times'.usedUp = true))
    (hvalues : ∀ a ∈ scene.enumerator.elements, values a)
    (hnodup : scene.enumerator.elements.Nodup) (hfine : fine scene.rest) :
    ∃ elapsed scene', stopCurrent clock onTimeout scene = some (elapsed, scene') ∧
      KeepsValues fine scene scene' ∧
      (scene.enumerator.toExplore ≠ [] → scene'.enumerator.stopwatch = none) := by
  rw [stopCurrent]
  split
  case h_1 hnil => exact ⟨0, scene, rfl, ⟨.refl _, hfine, id⟩, fun h => absurd hnil h⟩
  case h_2 dequeued toExplore hcons =>
    have helements : scene.enumerator.elements =
        dequeued :: (toExplore ++ scene.enumerator.remains) := by
      rw [elements, hcons]
      rfl
    rw [helements] at hnodup hvalues
    obtain ⟨rest', times', htimeout, hfine', hused⟩ := hexpire dequeued
      (elapsed clock scene.enumerator scene.times).1 scene.rest
      (elapsed clock scene.enumerator scene.times).2 (hvalues dequeued mem_cons_self) hfine
    have hfresh : dequeued ∉ scene.enumerator.remains := fun h =>
      (nodup_cons.mp hnodup).1 (mem_append_right _ h)
    refine ⟨(elapsed clock scene.enumerator scene.times).1,
      ⟨⟨toExplore, HashSet.add scene.enumerator.remains dequeued, none⟩, rest', times'⟩, ?_,
      ⟨?_, hfine', fun h => ?_⟩, fun _ => rfl⟩
    · dsimp only
      rw [htimeout]
      rfl
    · rw [helements, elements, HashSet.add, if_neg hfresh, ← append_assoc]
      exact perm_append_comm
    · exact hused ((elapsed_usedUp _ _).trans h)

/-- An upper bound of the passes `pick` takes. -/
def passes (e : FairEnumerator α) : ℕ :=
  (if e.stopwatch = none then 1 else 3) + (if e.toExplore = [] then 1 else 0)

/-- One pass: a value is yielded, or the enumerator comes closer to that. -/
theorem pickLoop_step (clock : ℕ → ℕ) (hsound : callbacks.Sound values fine) (fuel : ℕ)
    (hvalues : ∀ a ∈ scene.enumerator.elements, values a)
    (hnodup : scene.enumerator.elements.Nodup) (hfine : fine scene.rest) :
    (∃ r scene', pickLoop clock callbacks (fuel + 1) scene = some (r, scene') ∧
      Yields fine scene r scene') ∨
    ∃ scene', pickLoop clock callbacks (fuel + 1) scene = pickLoop clock callbacks fuel scene' ∧
      KeepsValues fine scene scene' ∧ passes scene'.enumerator < passes scene.enumerator := by
  rw [pickLoop]
  dsimp only
  by_cases hempty : scene.enumerator.toExplore = [] ∧ scene.enumerator.remains = []
  · refine .inl ⟨none, scene, if_pos hempty, ⟨⟨.refl _, hfine, id⟩, nofun, fun _ => .inl ?_⟩⟩
    rw [elements, hempty.1, hempty.2]
    rfl
  · have hne : scene.enumerator.elements ≠ [] := fun h => hempty (append_eq_nil_iff.mp h)
    obtain ⟨stop, hstop⟩ := hsound.stop scene.enumerator scene.times hne
    rw [if_neg hempty, hstop]
    cases stop with
    | true =>
      exact .inl ⟨none, _, rfl, ⟨⟨.refl _, hfine, fun _ => rfl⟩, nofun, fun _ => .inr rfl⟩⟩
    | false =>
      cases htoExplore : scene.enumerator.toExplore with
      | nil =>
        -- a new round
        obtain ⟨hperm, hused⟩ := hsound.round scene.enumerator.remains scene.times
        refine .inr ⟨{ scene with
          enumerator := ⟨(callbacks.onRound scene.enumerator.remains scene.times).1, [],
            scene.enumerator.stopwatch⟩
          times := (callbacks.onRound scene.enumerator.remains scene.times).2 }, ?_,
          ⟨?_, hfine, hused⟩, ?_⟩
        · simp
        · rw [elements, elements, htoExplore, append_nil]
          exact hperm
        · have hround : (callbacks.onRound scene.enumerator.remains scene.times).1 ≠ [] := by
            intro hnil
            rw [hnil] at hperm
            exact hempty ⟨htoExplore, nil_perm.mp hperm⟩
          rw [passes, passes, htoExplore, if_neg hround, if_pos rfl]
          exact Nat.lt_succ_self _
      | cons peeked toExplore =>
        obtain ⟨timeout, htimeout⟩ := hsound.timeout scene.enumerator
          (elapsed clock scene.enumerator scene.times).2 hne
        let read := { scene with times := (elapsed clock scene.enumerator scene.times).2 }
        have hread : KeepsValues fine scene read :=
          ⟨.refl _, hfine, fun h => (elapsed_usedUp _ _).trans h⟩
        by_cases hle : (elapsed clock scene.enumerator scene.times).1 ≤ timeout
        · obtain ⟨hkeeps, hfront⟩ := start_keeps clock hread.fine
          refine .inl ⟨some peeked, _, ?_, ⟨hread.trans hkeeps, fun a ha => ?_, nofun⟩⟩
          · simp [htimeout, hle]
            rfl
          · rw [hfront, htoExplore, ← ha]
            rfl
        · have hstopped : ∃ elapsed scene', stopCurrent clock callbacks.onTimeout read =
              some (elapsed, scene') ∧ KeepsValues fine read scene' ∧
              (read.enumerator.toExplore ≠ [] → scene'.enumerator.stopwatch = none) :=
            stopCurrent_ok hsound.expire hvalues hnodup hfine
          obtain ⟨_, scene', hstopped, hkeeps, hreset⟩ := hstopped
          refine .inr ⟨scene', ?_, hread.trans hkeeps, ?_⟩
          · simp [htimeout, hle]
            rw [hstopped]
            rfl
          · have hrunning : scene.enumerator.stopwatch ≠ none := by
              intro hnone
              rw [elapsed, hnone] at hle
              exact hle (Nat.zero_le _)
            have hnew := hreset (ne_nil_of_mem (htoExplore ▸ mem_cons_self))
            rw [passes, passes, hnew, if_pos rfl, if_neg hrunning]
            split
            · omega
            · omega

theorem pickLoop_ok (hsound : callbacks.Sound values fine) {fuel : ℕ}
    (hfuel : passes scene.enumerator ≤ fuel) (hvalues : ∀ a ∈ scene.enumerator.elements, values a)
    (hnodup : scene.enumerator.elements.Nodup) (hfine : fine scene.rest) :
    ∃ r scene', pickLoop clock callbacks fuel scene = some (r, scene') ∧
      Yields fine scene r scene' := by
  induction fuel generalizing scene with
  | zero =>
    have hpos : 0 < passes scene.enumerator := by
      rw [passes]
      split
      · omega
      · omega
    omega
  | succ fuel ih =>
    rcases pickLoop_step clock hsound fuel hvalues hnodup hfine with
      hdone | ⟨scene₁, hrun, hkeeps, hlt⟩
    · exact hdone
    · obtain ⟨r, scene', hpick, hyields⟩ := ih (by omega)
        (fun a ha => hvalues a (hkeeps.perm.mem_iff.mp ha)) (hkeeps.perm.nodup_iff.mpr hnodup)
        hkeeps.fine
      exact ⟨r, scene', hrun.trans hpick, ⟨hkeeps.trans hyields.toKeepsValues, hyields.front,
        hyields.exhausted⟩⟩

/-- `Pick` returns, and the values stay. -/
theorem pick_ok (hsound : callbacks.Sound values fine)
    (hvalues : ∀ a ∈ scene.enumerator.elements, values a)
    (hnodup : scene.enumerator.elements.Nodup) (hfine : fine scene.rest) :
    ∃ r scene', pick clock callbacks scene = some (r, scene') ∧ Yields fine scene r scene' := by
  refine pickLoop_ok hsound ?_ hvalues hnodup hfine
  rw [passes]
  split
  · split
    · omega
    · omega
  · split
    · omega
    · omega

omit [DecidableEq α] in
/-- `DropCurrent` takes the value in front away. -/
theorem dropCurrent_elements (clock : ℕ → ℕ) {a : α} (hfront : e.toExplore.head? = some a)
    (times : Times) :
    e.elements.Perm (a :: (dropCurrent clock e times).2.1.elements) ∧
      (dropCurrent clock e times).2.2.usedUp = times.usedUp := by
  rw [dropCurrent]
  cases hcons : e.toExplore with
  | nil => simp [hcons] at hfront
  | cons dequeued toExplore =>
    rw [hcons] at hfront
    cases hfront
    refine ⟨?_, elapsed_usedUp e times⟩
    rw [elements, hcons]
    exact .refl _

end FairEnumerator

end VSharp.Explorer
