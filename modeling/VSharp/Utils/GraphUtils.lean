import Mathlib.Algebra.Order.BigOperators.Group.Finset
import Mathlib.Data.List.AList
import VSharp.Library.Distances

/-!
# Utils — Distances with a cache

The breadth-first search of `VSharp.Utils/GraphUtils.fs` that uses the distances it finds in a cache,
and its caller in `VSharp.IL/CFG.fs`.

- a dictionary is an association list: its order is the order of enumeration;
- distances are natural numbers: a dictionary holds fewer entries than a `uint` counts, and no
  distance is greater;
- the loop ends because an assignment makes fewer keys be missing, or a distance smaller.
-/

namespace VSharp.Utils.GraphUtils
open Library.Distances List

variable {V : Type}

/-- `Dictionary<'t, uint>`. -/
abbrev Distances (V : Type) := AList fun _ : V => ℕ

/-- `distanceCache<'t>`. -/
abbrev DistanceCache (V : Type) := AList fun _ : V => Distances V

def infinity : ℕ := 2 ^ 32 - 1

variable [DecidableEq V]

/-- The assignment of both loops, if its test holds. -/
def improve (distances : Distances V) (vertex : V) (newDistance : ℕ) : Option (Distances V) :=
  match distances.lookup vertex with
  | none => some (distances.insert vertex newDistance)
  | some distance =>
    if newDistance < distance then some (distances.insert vertex newDistance) else none

/-- The loop over the distances that the cache holds for the current vertex. -/
def addCached (distanceToCurrent : ℕ) (distances : Distances V) : List (Sigma fun _ : V => ℕ) →
    Distances V
  | [] => distances
  | ⟨vertex, distanceFromCurrent⟩ :: cached =>
    let newDistance := distanceToCurrent + distanceFromCurrent
    addCached distanceToCurrent ((improve distances vertex newDistance).getD distances) cached

/-- The loop over the vertices next to the current one. -/
def addAdjacent (distanceToCurrent : ℕ) (distances : Distances V) (queue : List V) : List V →
    Distances V × List V
  | [] => (distances, queue)
  | adjacent :: rest =>
    match improve distances adjacent (distanceToCurrent + 1) with
    | some distances => addAdjacent distanceToCurrent distances (queue ++ [adjacent]) rest
    | none => addAdjacent distanceToCurrent distances queue rest

/-! ### Assignments -/

/-- How many keys a dictionary misses. -/
def missing [Fintype V] (distances : Distances V) : ℕ :=
  (Finset.univ.filter fun v => distances.lookup v = none).card

/-- The sum of the distances. -/
def total [Fintype V] (distances : Distances V) : ℕ :=
  ∑ v, (distances.lookup v).getD 0

section
variable {distances distances' : Distances V} {vertex : V} {n : ℕ}

theorem improve_spec (himprove : improve distances vertex n = some distances') :
    distances' = distances.insert vertex n ∧
      (distances.lookup vertex = none ∨ ∃ m, n < m ∧ distances.lookup vertex = some m) := by
  rw [improve] at himprove
  split at himprove
  case h_1 hnone => exact ⟨(Option.some.inj himprove).symm, .inl hnone⟩
  case h_2 m hm =>
    split at himprove
    case isTrue hlt => exact ⟨(Option.some.inj himprove).symm, .inr ⟨m, hlt, hm⟩⟩
    case isFalse => cases himprove

theorem improve_eq_none (himprove : improve distances vertex n = none) :
    Within (distances.lookup ·) vertex n := by
  rw [improve] at himprove
  split at himprove
  case h_1 => cases himprove
  case h_2 m hm =>
    split at himprove
    case isTrue => cases himprove
    case isFalse hle => exact ⟨m, not_lt.mp hle, hm⟩

/-! ### The loops end -/

section
variable [Fintype V]

/-- Fewer keys are missing, or as many, and the distances are smaller. -/
def Less (distances' distances : Distances V) : Prop :=
  missing distances' < missing distances ∨
    missing distances' = missing distances ∧ total distances' < total distances

theorem Less.trans {d₁ d₂ d₃ : Distances V} (h : Less d₁ d₂) (h' : Less d₂ d₃) : Less d₁ d₃ := by
  rcases h with h | ⟨heq, hlt⟩ <;> rcases h' with h' | ⟨heq', hlt'⟩
  · exact .inl (h.trans h')
  · exact .inl (heq' ▸ h)
  · exact .inl (heq ▸ h')
  · exact .inr ⟨heq.trans heq', hlt.trans hlt'⟩

theorem Less.lex (h : Less distances' distances) (k k' : ℕ) :
    Prod.Lex (· < ·) (Prod.Lex (· < ·) (· < ·)) (missing distances', total distances', k)
      (missing distances, total distances, k') := by
  rcases h with h | ⟨heq, h⟩
  · exact .left _ _ h
  · rw [heq]
    exact .right _ (.left _ _ h)

theorem improve_less (himprove : improve distances vertex n = some distances') :
    Less distances' distances := by
  obtain ⟨rfl, hold⟩ := improve_spec himprove
  rcases hold with hnone | ⟨m, hlt, hm⟩
  · refine .inl (Finset.card_lt_card (Finset.ssubset_iff_of_subset ?_ |>.mpr ⟨vertex, ?_, ?_⟩))
    · intro v hv
      rw [Finset.mem_filter] at hv ⊢
      by_cases hvertex : v = vertex
      · exact ⟨hv.1, hvertex ▸ hnone⟩
      · rwa [AList.lookup_insert_ne hvertex] at hv
    · simpa using hnone
    · simp
  · refine .inr ⟨congrArg Finset.card (Finset.filter_congr fun v _ => ?_), ?_⟩
    · by_cases hvertex : v = vertex
      · rw [hvertex, AList.lookup_insert, hm]
        simp
      · rw [AList.lookup_insert_ne hvertex]
    · refine Finset.sum_lt_sum (fun v _ => ?_) ⟨vertex, Finset.mem_univ _, ?_⟩
      · by_cases hvertex : v = vertex
        · rw [hvertex, AList.lookup_insert, hm]
          exact hlt.le
        · rw [AList.lookup_insert_ne hvertex]
      · rw [AList.lookup_insert, hm]
        exact hlt

theorem addCached_less (distanceToCurrent : ℕ) (distances : Distances V)
    (cached : List (Sigma fun _ : V => ℕ)) :
    addCached distanceToCurrent distances cached = distances ∨
      Less (addCached distanceToCurrent distances cached) distances := by
  induction cached generalizing distances with
  | nil => exact .inl rfl
  | cons entry cached ih =>
    rw [addCached]
    cases himprove : improve distances entry.1 (distanceToCurrent + entry.2) with
    | none => exact ih distances
    | some distances' =>
      have hless := improve_less himprove
      rcases ih distances' with heq | hlt
      · rw [Option.getD_some, heq]
        exact .inr hless
      · exact .inr (hlt.trans hless)

theorem addAdjacent_less (distanceToCurrent : ℕ) (distances : Distances V)
    (queue adjacent : List V) :
    addAdjacent distanceToCurrent distances queue adjacent = (distances, queue) ∨
      Less (addAdjacent distanceToCurrent distances queue adjacent).1 distances := by
  induction adjacent generalizing distances queue with
  | nil => exact .inl rfl
  | cons v adjacent ih =>
    rw [addAdjacent]
    cases himprove : improve distances v (distanceToCurrent + 1) with
    | none => exact ih distances queue
    | some distances' =>
      have hless := improve_less himprove
      rcases ih distances' (queue ++ [v]) with heq | hlt
      · dsimp only
        rw [heq]
        exact .inr hless
      · exact .inr (hlt.trans hless)

end

end

/-! ### The search -/

section
variable (outgoingEdges : V → List V) (distanceCache : DistanceCache V)

/-- The loop over the queue.  A vertex without a distance would raise. -/
def search [Fintype V] (currentDistances : Distances V) : List V → Option (Distances V)
  | [] => some currentDistances
  | currentVertex :: queue =>
    match currentDistances.lookup currentVertex with
    | none => none
    | some distanceToCurrent =>
      match distanceCache.lookup currentVertex with
      | some cached =>
        search (addCached distanceToCurrent currentDistances cached.entries) queue
      | none =>
        let next := addAdjacent distanceToCurrent currentDistances queue
          (outgoingEdges currentVertex)
        search next.1 next.2
termination_by queue => (missing currentDistances, total currentDistances, queue.length)
decreasing_by
  · rcases addCached_less distanceToCurrent currentDistances cached.entries with heq | hlt
    · rw [heq]
      simp [Prod.lex_def]
    · exact hlt.lex _ _
  · rcases addAdjacent_less distanceToCurrent currentDistances queue (outgoingEdges currentVertex)
      with heq | hlt
    · rw [heq]
      simp [Prod.lex_def]
    · exact hlt.lex _ _

def incrementalSourcedShortestDistanceBfs [Fintype V] (source : V) : Option (Distances V) :=
  search outgoingEdges distanceCache (AList.singleton source 0) [source]

end

/-! ### What the loops do -/

section
variable (d : ℕ) (distances : Distances V)

theorem improve_improves (vertex : V) (n : ℕ) : Improves (fun v m => v = vertex ∧ m = n)
    (distances.lookup ·) (((improve distances vertex n).getD distances).lookup ·) := by
  cases himprove : improve distances vertex n with
  | none =>
    exact ⟨.refl, fun v m hm => hm.1 ▸ hm.2 ▸ improve_eq_none himprove, fun v => .inl rfl⟩
  | some distances' =>
    obtain ⟨rfl, hold⟩ := improve_spec himprove
    constructor
    case below =>
      intro v m hm
      by_cases hv : v = vertex
      · subst hv
        rcases hold with hnone | ⟨m', hlt, hm'⟩
        · cases hnone.symm.trans hm
        · cases hm'.symm.trans hm
          exact ⟨n, hlt.le, AList.lookup_insert _⟩
      · exact ⟨m, le_rfl, (AList.lookup_insert_ne hv).trans hm⟩
    case within =>
      rintro v m ⟨rfl, rfl⟩
      exact ⟨m, le_rfl, AList.lookup_insert _⟩
    case old_or_new =>
      intro v
      by_cases hv : v = vertex
      · exact .inr ⟨n, ⟨hv, rfl⟩, hv ▸ AList.lookup_insert _⟩
      · exact .inl (AList.lookup_insert_ne hv)

theorem addCached_improves (cached : List (Sigma fun _ : V => ℕ)) :
    Improves (fun v n => ∃ m, ⟨v, m⟩ ∈ cached ∧ n = d + m) (distances.lookup ·)
      ((addCached d distances cached).lookup ·) := by
  induction cached generalizing distances with
  | nil => exact Improves.refl.congr fun v n => by simp
  | cons entry cached ih =>
    refine ((improve_improves distances entry.1 (d + entry.2)).trans (ih _)).congr fun v n => ?_
    constructor
    · rintro (⟨rfl, rfl⟩ | ⟨m, hm, rfl⟩)
      · exact ⟨entry.2, mem_cons_self, rfl⟩
      · exact ⟨m, mem_cons_of_mem _ hm, rfl⟩
    · rintro ⟨m, hm, rfl⟩
      rcases mem_cons.mp hm with rfl | hm
      · exact .inl ⟨rfl, rfl⟩
      · exact .inr ⟨m, hm, rfl⟩

/-- What is next is in the dictionary; what changes is in the queue. -/
theorem addAdjacent_spec (queue adjacent : List V) :
    let next := addAdjacent d distances queue adjacent
    Improves (fun v n => v ∈ adjacent ∧ n = d + 1) (distances.lookup ·) (next.1.lookup ·) ∧
      (∀ v ∈ queue, v ∈ next.2) ∧ (∀ v ∈ next.2, v ∈ queue ∨ v ∈ adjacent) ∧
      ∀ v, next.1.lookup v = distances.lookup v ∨ v ∈ next.2 := by
  induction adjacent generalizing distances queue with
  | nil =>
    exact ⟨Improves.refl.congr fun v n => by simp, fun v hv => hv, fun v hv => .inl hv,
      fun v => .inl rfl⟩
  | cons adj adjacent ih =>
    have hfirst := improve_improves distances adj (d + 1)
    have hpairs : ∀ v n, (v = adj ∧ n = d + 1 ∨ v ∈ adjacent ∧ n = d + 1) ↔
        v ∈ adj :: adjacent ∧ n = d + 1 := by
      intro v n
      rw [mem_cons, or_and_right]
    rw [addAdjacent]
    cases himprove : improve distances adj (d + 1) with
    | none =>
      obtain ⟨himproves, hqueue, hnew, hchanged⟩ := ih distances queue
      rw [himprove] at hfirst
      exact ⟨(hfirst.trans himproves).congr hpairs, hqueue,
        fun v hv => (hnew v hv).imp_right (.tail adj), hchanged⟩
    | some distances' =>
      obtain ⟨himproves, hqueue, hnew, hchanged⟩ := ih distances' (queue ++ [adj])
      rw [himprove] at hfirst
      refine ⟨(hfirst.trans himproves).congr hpairs, fun v hv => hqueue v (by simp [hv]),
        fun v hv => ?_, fun v => ?_⟩
      · have hmem := hnew v hv
        rw [mem_append, mem_singleton, or_assoc, ← mem_cons] at hmem
        exact hmem
      by_cases hv : v = adj
      · exact .inr (hqueue v (by simp [hv]))
      · refine (hchanged v).imp_left fun heq => heq.trans ?_
        rw [(improve_spec himprove).1, AList.lookup_insert_ne hv]

end

/-! ### What the search returns -/

section
variable {outgoingEdges : V → List V} {distanceCache : DistanceCache V} {source u : V}
  {distances : Distances V} {queue : List V} {d : ℕ}

/-- The edges of the graph. -/
def Edge (outgoingEdges : V → List V) (u v : V) : Prop := v ∈ outgoingEdges u

/-- A dictionary of exactly the shortest distances from a vertex. -/
def ExactFrom (outgoingEdges : V → List V) (source : V) (distances : Distances V) : Prop :=
  ∀ v n, distances.lookup v = some n ↔ IsDist (Edge outgoingEdges) source v n

/-- A cache of such dictionaries. -/
def ExactCache (outgoingEdges : V → List V) (distanceCache : DistanceCache V) : Prop :=
  ∀ u distances, distanceCache.lookup u = some distances → ExactFrom outgoingEdges u distances

/-- While the search runs, the vertices whose edges are not relaxed are in the queue. -/
structure Searches (outgoingEdges : V → List V) (source : V) (distances : Distances V)
    (queue : List V) : Prop where
  sound : Sound (Edge outgoingEdges) source (distances.lookup ·)
  start : Within (distances.lookup ·) source 0
  known : ∀ v ∈ queue, ∃ n, distances.lookup v = some n
  relaxed : ∀ v, v ∈ queue ∨ Relaxed (Edge outgoingEdges) (distances.lookup ·) v

theorem lookup_singleton (source v : V) : (AList.singleton source 0 : Distances V).lookup v
    = if v = source then some 0 else none := by
  have hinsert : (AList.singleton source 0 : Distances V) = AList.insert source 0 ∅ := rfl
  rw [hinsert]
  split
  case isTrue hv => rw [hv, AList.lookup_insert]
  case isFalse hv => rw [AList.lookup_insert_ne hv, AList.lookup_empty]

theorem Searches.first (source : V) :
    Searches outgoingEdges source (AList.singleton source 0) [source] := by
  constructor
  case sound =>
    intro v n hn
    replace hn := (lookup_singleton source v).symm.trans hn
    split at hn
    case isTrue hv => cases hn; exact hv ▸ .refl
    case isFalse => cases hn
  case start => exact ⟨0, le_rfl, (lookup_singleton source source).trans (if_pos rfl)⟩
  case known =>
    intro v hv
    exact ⟨0, (lookup_singleton source v).trans (if_pos (mem_singleton.mp hv))⟩
  case relaxed =>
    intro v
    by_cases hv : v = source
    · exact .inl (mem_singleton.mpr hv)
    · refine .inr fun n hn => ?_
      replace hn := (lookup_singleton source v).symm.trans hn
      rw [if_neg hv] at hn
      cases hn

/-- A cached vertex: an edge from a vertex whose distance comes from the cache is covered by what the
cache holds for the end of the edge. -/
theorem Searches.cached {cached : Distances V}
    (h : Searches outgoingEdges source distances (u :: queue)) (hu : distances.lookup u = some d)
    (hcached : ExactFrom outgoingEdges u cached) :
    Searches outgoingEdges source (addCached d distances cached.entries) queue := by
  have himproves : Improves (fun v n => ∃ m, IsDist (Edge outgoingEdges) u v m ∧ n = d + m)
      (distances.lookup ·) ((addCached d distances cached.entries).lookup ·) :=
    (addCached_improves d distances cached.entries).congr fun v n =>
      exists_congr fun m => and_congr_left' ((AList.mem_lookup_iff.symm).trans (hcached v m))
  have hrelaxed : ∀ v m, IsDist (Edge outgoingEdges) u v m → ∀ c, Edge outgoingEdges v c →
      Within ((addCached d distances cached.entries).lookup ·) c (d + m + 1) := by
    intro v m hm c hc
    obtain ⟨k, hk⟩ := (hm.walk.snoc hc).exists_isDist
    exact (himproves.within c (d + k) ⟨k, hk, rfl⟩).mono
      (Nat.add_le_add_left (hk.le (hm.walk.snoc hc)) d)
  constructor
  case sound =>
    refine h.sound.improves himproves ?_
    rintro v _ ⟨m, hm, rfl⟩
    exact (h.sound u d hu).trans hm.walk
  case start => exact h.start.below himproves.below
  case known =>
    intro v hv
    obtain ⟨n, hn⟩ := h.known v (.tail u hv)
    obtain ⟨m, -, hm⟩ := himproves.below v n hn
    exact ⟨m, hm⟩
  case relaxed =>
    intro v
    rcases himproves.old_or_new v with hold | ⟨_, ⟨m, hm, rfl⟩, hv⟩
    · rcases h.relaxed v with hmem | hv
      · rcases mem_cons.mp hmem with rfl | hmem
        · refine .inr fun n hn => ?_
          cases (hold.trans hu).symm.trans hn
          exact hrelaxed v 0 isDist_self
        · exact .inl hmem
      · exact .inr (hv.below himproves.below hold)
    · refine .inr fun n hn => ?_
      cases hv.symm.trans hn
      exact hrelaxed v m hm

/-- A vertex that is not cached: its edges are relaxed, and what changes is in the queue. -/
theorem Searches.adjacent (h : Searches outgoingEdges source distances (u :: queue))
    (hu : distances.lookup u = some d) : let next := addAdjacent d distances queue (outgoingEdges u)
    Searches outgoingEdges source next.1 next.2 := by
  intro next
  obtain ⟨himproves, hqueue, hnew, hchanged⟩ := addAdjacent_spec d distances queue (outgoingEdges u)
  constructor
  case sound =>
    refine h.sound.improves himproves ?_
    rintro v _ ⟨hv, rfl⟩
    exact (h.sound u d hu).snoc hv
  case start => exact h.start.below himproves.below
  case known =>
    intro v hv
    rcases hnew v hv with hmem | hmem
    · obtain ⟨n, hn⟩ := h.known v (.tail u hmem)
      obtain ⟨m, -, hm⟩ := himproves.below v n hn
      exact ⟨m, hm⟩
    · obtain ⟨m, -, hm⟩ := himproves.within v (d + 1) ⟨hmem, rfl⟩
      exact ⟨m, hm⟩
  case relaxed =>
    intro v
    rcases hchanged v with hold | hmem
    · rcases h.relaxed v with hmem | hv
      · rcases mem_cons.mp hmem with rfl | hmem
        · refine .inr fun n hn c hc => ?_
          cases (hold.trans hu).symm.trans hn
          exact himproves.within c (d + 1) ⟨hc, rfl⟩
        · exact .inl (hqueue v hmem)
      · exact .inr (hv.below himproves.below hold)
    · exact .inl hmem

/-- The search returns, and with all edges relaxed. -/
theorem search_exact [Fintype V] (hcache : ExactCache outgoingEdges distanceCache)
    (h : Searches outgoingEdges source distances queue) :
    ∃ result, search outgoingEdges distanceCache distances queue = some result ∧
      ExactFrom outgoingEdges source result := by
  induction distances, queue using search.induct outgoingEdges distanceCache with
  | case1 distances =>
    refine ⟨distances, by rw [search], fun v n => ?_⟩
    exact eq_some_iff_isDist h.sound h.start fun v =>
      (h.relaxed v).resolve_left not_mem_nil
  | case2 distances u queue hnone =>
    obtain ⟨n, hn⟩ := h.known u mem_cons_self
    cases hnone.symm.trans hn
  | case3 distances u queue d hd cached hcached ih =>
    rw [search, hd]
    simp only [hcached]
    exact ih (h.cached hd (hcache u cached hcached))
  | case4 distances u queue d hd hcached next ih =>
    rw [search, hd]
    simp only [hcached]
    exact ih (h.adjacent hd)

end

/-! ### The cache -/

section
variable (outgoingEdges : V → List V)

/-- `findDistanceFrom`: the distances, and the cache then. -/
def findDistanceFrom [Fintype V] (cfgDistanceFrom : DistanceCache V) (node : V) :
    Option (Distances V × DistanceCache V) :=
  match cfgDistanceFrom.lookup node with
  | some distances => some (distances, cfgDistanceFrom)
  | none => do
      let dist ← incrementalSourcedShortestDistanceBfs outgoingEdges cfgDistanceFrom node
      let distFromNode : Distances V :=
        ⟨dist.entries.filter fun i => i.2 ≠ infinity, dist.nodupKeys.sublist filter_sublist⟩
      some (distFromNode, cfgDistanceFrom.insert node distFromNode)

variable {outgoingEdges} [Fintype V] {distanceCache : DistanceCache V} {source : V}

omit [Fintype V] in
theorem ExactCache.insert {distances : Distances V} (hcache : ExactCache outgoingEdges distanceCache)
    (hexact : ExactFrom outgoingEdges source distances) :
    ExactCache outgoingEdges (distanceCache.insert source distances) := by
  intro u cached hu
  by_cases hsource : u = source
  · rw [hsource, AList.lookup_insert] at hu
    cases hu
    exact hsource ▸ hexact
  · rw [AList.lookup_insert_ne hsource] at hu
    exact hcache u cached hu

/-- The distances that `findDistanceFrom` keeps are all, as no distance is `infinity`. -/
theorem findDistanceFrom_exact (hcache : ExactCache outgoingEdges distanceCache)
    (hfinite : ∀ v, ¬ IsDist (Edge outgoingEdges) source v infinity) :
    ∃ distances cache, findDistanceFrom outgoingEdges distanceCache source
        = some (distances, cache) ∧
      ExactFrom outgoingEdges source distances ∧ ExactCache outgoingEdges cache := by
  rw [findDistanceFrom]
  cases hlookup : distanceCache.lookup source with
  | some distances => exact ⟨distances, distanceCache, rfl, hcache source distances hlookup, hcache⟩
  | none =>
    obtain ⟨dist, hdist, hexact⟩ := search_exact hcache (Searches.first source)
    have hkept : ExactFrom outgoingEdges source
        ⟨dist.entries.filter fun i => i.2 ≠ infinity, dist.nodupKeys.sublist filter_sublist⟩ := by
      intro v n
      rw [← hexact v n]
      refine AList.mem_lookup_iff.trans ?_
      rw [mem_filter, ← AList.mem_lookup_iff, Option.mem_def, and_iff_left_iff_imp]
      exact fun hn => decide_eq_true fun heq => hfinite v (heq ▸ (hexact v n).mp hn)
    rw [incrementalSourcedShortestDistanceBfs, hdist]
    exact ⟨_, _, rfl, hkept, hcache.insert hkept⟩

/-- From an exact cache, the search returns exactly the shortest distances from the source; with the
result the cache is exact again. -/
theorem distances_exact (source : V) (hcache : ExactCache outgoingEdges distanceCache) :
    ∃ result, incrementalSourcedShortestDistanceBfs outgoingEdges distanceCache source
        = some result ∧
      (∀ v n, result.lookup v = some n ↔ IsDist (Edge outgoingEdges) source v n) ∧
      ExactCache outgoingEdges (distanceCache.insert source result) ∧
      ((∀ v, ¬ IsDist (Edge outgoingEdges) source v infinity) →
        ∃ distances cache, findDistanceFrom outgoingEdges distanceCache source
            = some (distances, cache) ∧
          ExactFrom outgoingEdges source distances ∧ ExactCache outgoingEdges cache) := by
  obtain ⟨result, hresult, hexact⟩ := search_exact hcache (Searches.first source)
  exact ⟨result, hresult, hexact, hcache.insert hexact, findDistanceFrom_exact hcache⟩

end

/-- Three vertices in a ring: first the distances from one of them, and then those from another one,
with the first ones in the cache. -/
theorem distances_exact_ring : let ring (v : Fin 3) := [v + 1]
    ∃ cached result : Distances (Fin 3),
      incrementalSourcedShortestDistanceBfs ring ∅ 2 = some cached ∧
      incrementalSourcedShortestDistanceBfs ring (AList.insert 2 cached ∅) 0 = some result ∧
      ∀ v n, result.lookup v = some n ↔ IsDist (Edge ring) 0 v n := by
  intro ring
  have hempty : ExactCache ring ∅ := fun u distances hu => nomatch hu
  obtain ⟨cached, hcached, -, hcache, -⟩ := distances_exact 2 hempty
  obtain ⟨result, hresult, hexact, -⟩ := distances_exact 0 hcache
  exact ⟨cached, result, hcached, hresult, hexact⟩

end VSharp.Utils.GraphUtils
