import VSharp.Core.Terms
import VSharp.Utils.RegionTree

/-!
# Core — UpdateTree

`VSharp.SILI.Core/MemoryRegion.fs`, `updateTreeKey` and `UpdateTree`: the writes to a memory region,
kept in a region tree.  A record hides the records of its own key when its guard is true.

* `append_writes`: replaying one update tree over another composes their histories, as long as no
  write of the replay hides a record that lives outside the written region.
-/

namespace VSharp
open Library (Pruned)

/-- `updateTreeKey<'key, 'value>`. -/
structure UpdateTreeKey (κ ν : Type) where
  key : κ
  value : ν
  guard : Option Term
  time : VectorTime
deriving DecidableEq

namespace UpdateTreeKey
variable {κ ν : Type}

def termGuard (x : UpdateTreeKey κ ν) : Term := x.guard.getD Term.trueTerm

def hasTrueGuard (x : UpdateTreeKey κ ν) : Bool :=
  match x.guard with
  | some g => g.isTrue
  | none => true

def hasFalseGuard (x : UpdateTreeKey κ ν) : Bool :=
  match x.guard with
  | some g => g.isFalse
  | none => false

instance [DecidableEq κ] : IRegionTreeKey (UpdateTreeKey κ ν) where
  hides x y := decide (x.key = y.key) && x.hasTrueGuard

end UpdateTreeKey

/-- `updateTree<'key, 'value, 'reg>`. -/
abbrev UpdateTree (κ ν R : Type) := RegionTree (UpdateTreeKey κ ν) R

namespace RegionTree
variable {K R P : Type} [DecidableEq R] [HashOrder R] [IRegionTreeKey K]

/-- The tree that a run of writes, listed newest first, makes of the empty tree. -/
def written [IRegion R] (writes : List (R × K)) : RegionTree K R :=
  writes.foldr (fun e acc => write e.1 e.2 acc) empty

theorem invariant_written [ExactRegion R P] {writes : List (R × K)}
    (h : ContainedRun empty writes) : Invariant (written writes) :=
  (run_history invariant_empty h).1

end RegionTree

namespace UpdateTree
open RegionTree

variable {κ ν R P : Type} [DecidableEq κ] [DecidableEq R] [HashOrder R] [ExactRegion R P]

/-- Replaying the appendix over the base puts the history of the appendix in front of that of the
base; only records hidden by one in front of them are gone. -/
theorem append_writes {base appendix : List (R × UpdateTreeKey κ ν)}
    (hbase : ContainedRun empty base) (happendix : ContainedRun empty appendix)
    (hrun : ContainedRun (written base) (flatten (written appendix))) (p : P) :
    let history := path p (append (written base) (written appendix))
    Pruned (fun k k' => IRegionTreeKey.hides k k' = true) []
      (path p (written appendix) ++ path p (written base)) history ∧
    ∀ before k after, path p (written appendix) = before ++ k :: after →
      (∀ k' ∈ before, IRegionTreeKey.hides k' k = false) → k ∈ history := by
  intro history
  have h := append_history (invariant_written hbase) (invariant_written happendix) hrun p
  refine ⟨h, fun before k after heq hno => ?_⟩
  rw [heq, List.append_assoc, List.cons_append] at h
  exact h.mem_of_unrelated nofun fun b hb => by simp [hno b hb]

/-- The record of an unguarded write. -/
def unguarded (key value time : ℕ) : UpdateTreeKey ℕ ℕ := ⟨key, value, none, [(time : ℤ)]⟩

/-- A set of listed points. -/
def listed (l : List ℕ) : Points ℕ := ⟨PersistentSet.ofSeq l, false⟩

/-- A write at `1`, replayed over one at `1` and `2`. -/
theorem append_writes_sample :
    let base := [(listed [1, 2], unguarded 0 10 1)]
    let appendix := [(listed [1], unguarded 1 20 2)]
    Pruned (fun k k' => IRegionTreeKey.hides k k' = true) []
      [unguarded 1 20 2, unguarded 0 10 1] (path 1 (append (written base) (written appendix))) := by
  intro base appendix
  have hbase : ContainedRun empty base := ⟨trivial, .grouped nofun nofun⟩
  have happendix : ContainedRun empty appendix := ⟨trivial, .grouped nofun nofun⟩
  have hrun : ContainedRun (written base) (flatten (written appendix)) := by
    refine ⟨trivial, .grouped (fun e he h => ?_) fun e he _ _ => ?_⟩
    · obtain rfl := List.mem_singleton.mp he
      cases h
    · obtain rfl := List.mem_singleton.mp he
      exact .grouped nofun nofun
  exact (append_writes hbase happendix hrun 1).1

/-- Key `0` at `1` and `2`, key `1` over it at `1`, and key `1` again over both: the last write takes
away the first one of its key, and the record of key `0` is left in two pieces side by side.  The
replay writes the pieces one after the other, and the second piece hides the first. -/
theorem append_loses_piece :
    ¬ ∀ (base appendix : List (Points ℕ × UpdateTreeKey ℕ ℕ)) (p : ℕ),
      Pruned (fun k k' => IRegionTreeKey.hides k k' = true) []
        (path p (written appendix) ++ path p (written base))
        (path p (append (written base) (written appendix))) := by
  intro h
  let appendix : List (Points ℕ × UpdateTreeKey ℕ ℕ) :=
    [(listed [1, 2], unguarded 1 30 3), (listed [1], unguarded 1 20 2),
      (listed [1, 2], unguarded 0 10 1)]
  have hbefore : path 1 (written appendix) ++ path 1 (written ([] : List (Points ℕ × _))) =
      [unguarded 1 30 3] ++ unguarded 0 10 1 :: [] := by decide +kernel
  have hafter : path 1 (append (written []) (written appendix)) = [unguarded 1 30 3] := by
    decide +kernel
  have hpruned := h [] appendix 1
  rw [hbefore, hafter] at hpruned
  exact absurd (hpruned.mem_of_unrelated nofun (by decide)) (by decide)

end UpdateTree

end VSharp
