import Mathlib.Algebra.Order.Ring.Int
import Mathlib.Data.List.Basic

/-!
# Library — Tilings

Lists of intervals that stand one after another without a gap.

- `Tiles offset size lo hi l`: the elements of `l`, taken as intervals from `offset` on of length
  `size`, fill `lo .. hi - 1` in their order;
- `Tiles.exists_mem`, `Tiles.pairwise`: every number of the whole is in one of them, and in no other.
-/

namespace VSharp.Library
open List
variable {α : Type*} {offset size : α → ℤ} {lo mid hi : ℤ} {l l' : List α}

/-- The intervals of the list fill the numbers from `lo` on to `hi`. -/
inductive Tiles (offset size : α → ℤ) : ℤ → ℤ → List α → Prop where
  | nil (lo : ℤ) : Tiles offset size lo lo []
  | cons {a : α} {lo hi : ℤ} {l : List α} (hlo : offset a = lo) (hsize : 0 < size a)
      (h : Tiles offset size (offset a + size a) hi l) : Tiles offset size lo hi (a :: l)

namespace Tiles

theorem append (h : Tiles offset size lo mid l) (h' : Tiles offset size mid hi l') :
    Tiles offset size lo hi (l ++ l') := by
  induction h with
  | nil => exact h'
  | cons hlo hsize _ ih => exact .cons hlo hsize (ih h')

section
variable (h : Tiles offset size lo hi l)

include h

theorem le : lo ≤ hi := by
  induction h with
  | nil => exact le_rfl
  | cons hlo hsize _ ih => omega

theorem bounds :
    ∀ a ∈ l, lo ≤ offset a ∧ 0 < size a ∧ offset a + size a ≤ hi := by
  induction h with
  | nil => exact nofun
  | cons hlo hsize h ih =>
    refine forall_mem_cons.mpr ⟨⟨hlo.ge, hsize, h.le⟩, fun b hb => ?_⟩
    obtain ⟨hb, hpos, hend⟩ := ih b hb
    exact ⟨by omega, hpos, hend⟩

theorem exists_mem {n : ℤ} (hn : lo ≤ n ∧ n < hi) :
    ∃ a ∈ l, offset a ≤ n ∧ n < offset a + size a := by
  induction h with
  | nil => omega
  | @cons a lo hi l hlo hsize h ih =>
    by_cases hin : n < offset a + size a
    · exact ⟨a, mem_cons_self, by omega, hin⟩
    · obtain ⟨b, hb, hbn⟩ := ih ⟨by omega, hn.2⟩
      exact ⟨b, mem_cons_of_mem _ hb, hbn⟩

theorem pairwise :
    l.Pairwise fun a b => offset a + size a ≤ offset b := by
  induction h with
  | nil => exact .nil
  | cons _ _ h ih => exact .cons (fun b hb => (h.bounds b hb).1) ih

/-- A number is in one of the intervals only. -/
theorem eq_of_mem {a b : α} (ha : a ∈ l) (hb : b ∈ l) {n : ℤ}
    (hna : offset a ≤ n ∧ n < offset a + size a) (hnb : offset b ≤ n ∧ n < offset b + size b) :
    a = b := by
  induction h with
  | nil => cases ha
  | cons _ _ h ih =>
    rcases mem_cons.mp ha with rfl | hal <;> rcases mem_cons.mp hb with rfl | hbl
    · rfl
    · have := (h.bounds b hbl).1
      omega
    · have := (h.bounds a hal).1
      omega
    · exact ih hal hbl

end

/-- Intervals of length one. -/
theorem units (f : ℕ → α) (hsize : ∀ i, size (f i) = 1) {lo : ℤ} (n : ℕ)
    (hoffset : ∀ i : ℕ, offset (f i) = lo + i) (k : ℕ) :
    Tiles offset size (lo + k) (lo + k + n) ((List.range' k n).map f) := by
  induction n generalizing k with
  | zero =>
    rw [Nat.cast_zero, Int.add_zero]
    exact .nil _
  | succ n ih =>
    rw [range'_succ, map_cons]
    refine .cons (hoffset k) (by rw [hsize]; decide) ?_
    have hrest := ih (k + 1)
    rw [hoffset, hsize]
    push_cast at hrest ⊢
    rwa [← Int.add_assoc, Int.add_right_comm _ 1 (n : ℤ), Int.add_assoc _ (n : ℤ)] at hrest

end Tiles

end VSharp.Library
