import Mathlib.Order.Lattice

/-!
# Utils — Sorted dictionaries

`SortedDictionary` of the collections, passed along as a value: the list of its entries, the least
key first.
-/

namespace VSharp.SortedDictionary
open List
variable {K V : Type} [LinearOrder K]

/-- The assignment to a key. -/
def set (k : K) (v : V) : List (K × V) → List (K × V)
  | [] => [(k, v)]
  | e :: d =>
    if k < e.1 then (k, v) :: e :: d
    else if k = e.1 then (k, v) :: d
    else e :: set k v d

/-- The keys ascend. -/
def Ascending (d : List (K × V)) : Prop := d.Pairwise fun e e' => e.1 < e'.1

variable {k j : K} {v : V} {d : List (K × V)}

theorem mem_keys_set : j ∈ (set k v d).map Prod.fst ↔ j = k ∨ j ∈ d.map Prod.fst := by
  induction d with
  | nil => simp [set]
  | cons e d ih =>
    rw [set]
    split
    case isTrue => simp
    case isFalse =>
      split
      case isTrue heq =>
        subst heq
        simp
      case isFalse =>
        rw [map_cons, mem_cons, ih, map_cons, mem_cons]
        exact or_left_comm

theorem Ascending.set (h : Ascending d) : Ascending (set k v d) := by
  induction d with
  | nil => exact pairwise_singleton _ _
  | cons e d ih =>
    obtain ⟨hfirst, hrest⟩ := pairwise_cons.mp h
    rw [SortedDictionary.set]
    split
    case isTrue hlt =>
      refine pairwise_cons.mpr ⟨fun e' he' => ?_, h⟩
      rcases mem_cons.mp he' with rfl | he'
      · exact hlt
      · exact lt_trans hlt (hfirst e' he')
    case isFalse hnot =>
      split
      case isTrue heq =>
        subst heq
        exact pairwise_cons.mpr ⟨hfirst, hrest⟩
      case isFalse hne =>
        refine pairwise_cons.mpr ⟨fun e' he' => ?_, ih hrest⟩
        rcases mem_keys_set.mp (mem_map_of_mem he') with hk | hd
        · rw [hk]
          exact lt_of_le_of_ne (le_of_not_gt hnot) (Ne.symm hne)
        · obtain ⟨e'', he'', heq⟩ := mem_map.mp hd
          exact heq ▸ hfirst e'' he''

/-- No key is there twice. -/
theorem Ascending.nodup (h : Ascending d) : (d.map Prod.fst).Nodup :=
  pairwise_map.mpr (h.imp ne_of_lt)

end VSharp.SortedDictionary
