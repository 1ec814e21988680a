import VSharp.Utils.RegionTree

/-!
# Utils — RegionFilter

`VSharp.Utils/RegionTree.fs`, `RegionTree.filter`.  A node is asked to go when it is not disjoint
from the region, all keys above it satisfy the predicate, and its own does not (`Asked`).

* `filterRec_eq`: the flag that reports a change to the level above is set only where the level
  below reports one, and the lowest level never does; the tree comes back as it was.
* `filtered_iff`: a filter does what it is asked exactly where nothing is asked of it.
-/

namespace VSharp

namespace RegionTree
variable {K R P : Type}

section
variable [DecidableEq R] [HashOrder R] [IRegion R]

/-- One turn of the loop of `filterRec`, over an entry whose subtree has been filtered. -/
def filterStep (reg : R) (predicate : K → Bool) (acc : Bool × Pdict R (K × RegionTree K R))
    (e : R × K × Bool × RegionTree K R) : Bool × Pdict R (K × RegionTree K R) :=
  if IRegion.compareTo e.1 reg ≠ .disjoint then
    if predicate e.2.1 then
      match e.2.2 with
      | (true, t') => (true, PersistentDict.add e.1 (e.2.1, t') acc.2)
      | (false, _) => acc
    else
      -- `modified` is not set here
      (acc.1, PersistentDict.remove e.1 acc.2)
  else acc

mutual

/-- `RegionTree.filterRec`: whether the tree was modified, and the tree. -/
def filterRec (reg : R) (predicate : K → Bool) : RegionTree K R → Bool × RegionTree K R
  | .node d =>
    let walked := (filterChildren reg predicate d).foldl (filterStep reg predicate) (false, d)
    (walked.1, if walked.1 then .node walked.2 else .node d)
termination_by structural t => t

/-- The entries of a node, each with its subtree filtered. -/
def filterChildren (reg : R) (predicate : K → Bool) :
    List (R × K × RegionTree K R) → List (R × K × Bool × RegionTree K R)
  | [] => []
  | (reg', k, t) :: d => (reg', k, filterRec reg predicate t) :: filterChildren reg predicate d
termination_by structural d => d

end

def filter (reg : R) (predicate : K → Bool) (tree : RegionTree K R) : RegionTree K R :=
  (filterRec reg predicate tree).2

end

/-! ### What is asked -/

/-- The tree has a node with region `r` and key `k` under the nodes listed, the root first. -/
inductive At : RegionTree K R → List (R × K) → R → K → Prop where
  | here {d : Pdict R (K × RegionTree K R)} {r : R} {k : K} {t : RegionTree K R}
      (h : (r, k, t) ∈ d) : At (.node d) [] r k
  | under {d : Pdict R (K × RegionTree K R)} {r r' : R} {k k' : K} {t : RegionTree K R}
      {above : List (R × K)} (h : (r', k', t) ∈ d) (ht : At t above r k) :
      At (.node d) ((r', k') :: above) r k

/-- The filter is asked to remove the node with region `r` and key `k` under these nodes. -/
def Asked [IRegion R] (reg : R) (predicate : K → Bool) (above : List (R × K)) (r : R) (k : K) :
    Prop :=
  IRegion.compareTo r reg ≠ .disjoint ∧ (∀ a ∈ above, predicate a.2 = true) ∧ predicate k = false

/-- `t'` is `t` without the nodes asked to go and what is below them. -/
structure Filtered [IRegion R] (reg : R) (predicate : K → Bool) (t t' : RegionTree K R) : Prop where
  gone : ∀ above r k, At t' above r k → ¬ Asked reg predicate above r k
  kept : ∀ above r k, At t above r k →
    (∀ upper a lower, above ++ [(r, k)] = upper ++ a :: lower → ¬ Asked reg predicate upper a.1 a.2) →
    At t' above r k

/-! ### What is done -/

section
variable [DecidableEq R] [HashOrder R] [IRegion R]

/-- A turn over a subtree that reports no change reports none. -/
theorem filterStep_flag (reg : R) (predicate : K → Bool)
    {l : List (R × K × Bool × RegionTree K R)} (hl : ∀ e ∈ l, e.2.2.1 = false)
    {acc : Bool × Pdict R (K × RegionTree K R)} (hacc : acc.1 = false) :
    (l.foldl (filterStep reg predicate) acc).1 = false := by
  induction l generalizing acc with
  | nil => exact hacc
  | cons e l ih =>
    obtain ⟨he, hl⟩ := List.forall_mem_cons.mp hl
    refine ih hl ?_
    obtain ⟨r, k, modified, t⟩ := e
    obtain rfl : modified = false := he
    unfold filterStep
    split
    · split
      · exact hacc
      · exact hacc
    · exact hacc

mutual

/-- No level reports a change. -/
theorem filterRec_eq (reg : R) (predicate : K → Bool) :
    ∀ t : RegionTree K R, filterRec reg predicate t = (false, t)
  | .node d => by
      have hflag := filterStep_flag reg predicate (filterChildren_flag reg predicate d)
        (show (false, d).1 = false from rfl)
      simp only [filterRec, hflag, Bool.false_eq_true, if_false]

theorem filterChildren_flag (reg : R) (predicate : K → Bool) :
    ∀ d : List (R × K × RegionTree K R), ∀ e ∈ filterChildren reg predicate d, e.2.2.1 = false
  | [] => nofun
  | (reg', k, t) :: d => by
      rw [filterChildren]
      refine List.forall_mem_cons.mpr ⟨?_, filterChildren_flag reg predicate d⟩
      rw [filterRec_eq reg predicate t]

end

theorem filter_eq (reg : R) (predicate : K → Bool) (t : RegionTree K R) :
    filter reg predicate t = t := by
  rw [filter, filterRec_eq]

/-- A filter does what it is asked exactly where no node of the tree is asked to go. -/
theorem filtered_iff (reg : R) (predicate : K → Bool) (t : RegionTree K R) :
    Filtered reg predicate t (filter reg predicate t) ↔
      ∀ above r k, At t above r k → ¬ Asked reg predicate above r k := by
  rw [filter_eq]
  constructor
  · intro h
    exact h.gone
  · intro h
    exact ⟨h, fun _ _ _ hat _ => hat⟩

end

/-- Every key fails the predicate, and the node over all numbers stays. -/
theorem filter_keeps_sample :
    ¬ ∀ t : RegionTree ℕ (Points ℕ), Invariant t → ∀ (reg : Points ℕ) (predicate : ℕ → Bool),
      Filtered reg predicate t (filter reg predicate t) := by
  intro h
  have hroot : At (filter Points.all (fun _ => false) sample) [] Points.all 7 := by
    rw [filter_eq]
    exact .here (List.mem_singleton.mpr rfl)
  exact (h sample sample_invariant .all fun _ => false).gone [] .all 7 hroot
    ⟨by decide, by simp, rfl⟩

end RegionTree

end VSharp
