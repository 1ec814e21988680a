import VSharp.Core.Slices
import VSharp.Library.Boxes
import VSharp.Utils.ArrayIndices

/-!
# Utils — ArrayBoxes

`VSharp.Utils/Collections.fs`, `allIndicesViaLens` and `allIndicesViaBound`, in `int32` arithmetic.

Each lists a box (`Library.Boxes`).  The upper bound that `allIndicesViaLens` takes from a length is
`len - lb - 1`, where the last index is `lb + len - 1`, and `allIndicesViaBound` goes on with
`allIndicesViaLens` after the first dimension, its upper bounds in the place of lengths
(`allIndices_iff`).
-/

namespace VSharp.ArrayBoxes
open Library List

def allIndicesViaLens : List ℤ → List ℤ → List (List ℤ)
  | lb :: lbs, len :: lens =>
    let ub := int32 (int32 (len - lb) - 1)
    (intSpan lb ub).flatMap fun i => (allIndicesViaLens lbs lens).map (i :: ·)
  | _, _ => [[]]

def allIndicesViaBound : List ℤ → List ℤ → List (List ℤ)
  | lb :: lbs, ub :: lens =>
    (intSpan lb ub).flatMap fun i => (allIndicesViaLens lbs lens).map (i :: ·)
  | _, _ => [[]]

/-- The lists of indices of an array with these lengths. -/
def lensBox (lbs lens : List ℤ) : List (ℤ × ℤ) := (lbs.zip lens).map fun p => (p.1, p.1 + p.2 - 1)

/-- The box that `allIndicesViaLens` lists. -/
def listedBox (lbs lens : List ℤ) : List (ℤ × ℤ) :=
  (lbs.zip lens).map fun p => (p.1, int32 (p.2 - p.1 - 1))

variable (lbs lens ubs : List ℤ) (lb ub : ℤ)

theorem int32_sub_one (x : ℤ) : int32 (int32 x - 1) = int32 (x - 1) := by
  rw [int32, int32, int32, Int.sub_eq_add_neg, Int.bmod_add_bmod, ← Int.sub_eq_add_neg]

theorem allIndicesViaLens_eq : allIndicesViaLens lbs lens = listBox (listedBox lbs lens) := by
  induction lbs generalizing lens with
  | nil => rfl
  | cons lb lbs ih =>
    cases lens with
    | nil => rfl
    | cons len lens =>
      rw [allIndicesViaLens, ih, int32_sub_one]
      rfl

/-! ### Exactness -/

/-- The indices of an array are listed where every upper bound is the last index, which it is for the
lower bound `0`, or where there is no index and none is listed.  After the first dimension the
indices between bounds are listed where the upper bounds, taken for lengths, give themselves. -/
theorem allIndices_iff :
    (Enumerates (lensBox lbs lens) (allIndicesViaLens lbs lens) ↔
      (∀ p ∈ lbs.zip lens, int32 (p.2 - p.1 - 1) = p.1 + p.2 - 1) ∨
        (∃ p ∈ lbs.zip lens, p.2 ≤ 0) ∧ ∃ p ∈ lbs.zip lens, int32 (p.2 - p.1 - 1) < p.1) ∧
    (Enumerates ((lb :: lbs).zip (ub :: ubs)) (allIndicesViaBound (lb :: lbs) (ub :: ubs)) ↔
      (∀ p ∈ lbs.zip ubs, int32 (p.2 - p.1 - 1) = p.2) ∨
        (ub < lb ∨ ∃ p ∈ lbs.zip ubs, p.2 < p.1) ∧
          (ub < lb ∨ ∃ p ∈ lbs.zip ubs, int32 (p.2 - p.1 - 1) < p.1)) := by
  constructor
  · rw [allIndicesViaLens_eq, enumerates_listBox_iff]
    refine or_congr ?_ (and_congr ?_ ?_)
    · rw [lensBox, listedBox, map_inj_left]
      refine forall₂_congr fun p _ => ?_
      rw [Prod.mk.injEq]
      exact ⟨fun h => h.2.symm, fun h => ⟨rfl, h.symm⟩⟩
    · simp only [lensBox, mem_map, exists_exists_and_eq_and]
      exact exists_congr fun p => and_congr_right fun _ => by omega
    · simp only [listedBox, mem_map, exists_exists_and_eq_and]
  · have hlisted : allIndicesViaBound (lb :: lbs) (ub :: ubs) =
        listBox ((lb, ub) :: listedBox lbs ubs) := by
      rw [allIndicesViaBound, allIndicesViaLens_eq, listBox]
    rw [hlisted, enumerates_listBox_iff, zip_cons_cons, List.cons.injEq]
    refine or_congr ?_ (and_congr ?_ ?_)
    · have hself : lbs.zip ubs = (lbs.zip ubs).map id := (map_id _).symm
      rw [listedBox]
      nth_rewrite 1 [hself]
      rw [map_inj_left, and_iff_right rfl]
      refine forall₂_congr fun p _ => ?_
      rw [id, Prod.ext_iff]
      exact ⟨fun h => h.2.symm, fun h => ⟨rfl, h.symm⟩⟩
    · simp only [mem_cons, exists_eq_or_imp]
    · simp only [mem_cons, exists_eq_or_imp, listedBox, mem_map, exists_exists_and_eq_and]

/-- One element from index `1` on is not listed, and neither is a square from `1` to `2`. -/
theorem allIndices_misses :
    ¬ Enumerates (lensBox [1] [2]) (allIndicesViaLens [1] [2]) ∧
      ¬ Enumerates ([1, 1].zip [2, 2]) (allIndicesViaBound [1, 1] [2, 2]) := by
  constructor
  · intro h
    have hin : [2] ∈ allIndicesViaLens [1] [2] :=
      (h.mem_iff [2]).mpr (.cons (by decide) .nil)
    exact absurd hin (by decide)
  · intro h
    have hin : [1, 2] ∈ allIndicesViaBound [1, 1] [2, 2] :=
      (h.mem_iff [1, 2]).mpr (.cons (by decide) (.cons (by decide) .nil))
    exact absurd hin (by decide)

end VSharp.ArrayBoxes
