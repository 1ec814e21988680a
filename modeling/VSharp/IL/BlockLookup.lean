import Mathlib.Algebra.Order.Ring.Int
import Mathlib.Data.List.Basic
import Mathlib.Data.Nat.Find

/-!
# IL — Block lookup

`resolveBasicBlockIndex` of `VSharp.IL/CFG.fs`: the binary search of the basic block that an offset
is in, over the start offsets of the sorted blocks.  Indices are integers, and reading outside of
the list raises.
-/

namespace VSharp.BlockLookup

/-- `sortedOffsets[i].StartOffset`. -/
def startAt (starts : List ℕ) (i : ℤ) : Option ℕ := if i < 0 then none else starts[i.toNat]?

/-- There is no block at `i`, or it starts behind the offset. -/
def isRighter (starts : List ℕ) (offset : ℕ) (i : ℤ) : Option Bool :=
  if i ≥ starts.length then some true
  else (startAt starts i).map fun start => decide (start > offset)

def binSearch (starts : List ℕ) (offset : ℕ) (l r : ℤ) : Option ℤ :=
  if l ≥ r then some l
  else
    let mid := (l + r) / 2
    match startAt starts mid, isRighter starts offset (mid + 1) with
    | some midValue, some rightIsRighter =>
      let leftIsLefter := decide (midValue ≤ offset)
      if leftIsLefter && rightIsRighter then some mid
      else if !rightIsRighter then binSearch starts offset (mid + 1) r
      else binSearch starts offset l (mid - 1)
    | _, _ => none
termination_by (r - l).toNat
decreasing_by all_goals omega

def resolveBasicBlockIndex (starts : List ℕ) (offset : ℕ) : Option ℤ :=
  binSearch starts offset 0 (starts.length - 1)

/-- The last block that does not start behind the offset. -/
structure IsLast (starts : List ℕ) (offset i : ℕ) : Prop where
  start : ∃ start, starts[i]? = some start ∧ start ≤ offset
  behind : ∀ j start, i < j → starts[j]? = some start → offset < start

variable {starts : List ℕ} {offset i : ℕ}

theorem IsLast.lt (h : IsLast starts offset i) : i < starts.length := by
  obtain ⟨start, hstart, -⟩ := h.start
  exact (List.getElem?_eq_some_iff.mp hstart).1

/-- There is a last block if the first one does not start behind the offset. -/
theorem exists_isLast (hfirst : ∃ start, starts[0]? = some start ∧ start ≤ offset) :
    ∃ i, IsLast starts offset i := by
  obtain ⟨first, hfirst, hle⟩ := hfirst
  let P := fun i : ℕ => ∃ start, starts[i]? = some start ∧ start ≤ offset
  have hP {i : ℕ} (hi : P i) : i ≤ starts.length := by
    obtain ⟨start, hstart, -⟩ := hi
    exact Nat.le_of_lt (List.getElem?_eq_some_iff.mp hstart).1
  classical
  refine ⟨Nat.findGreatest P starts.length, ?_, fun j start hj hstart => ?_⟩
  · exact Nat.findGreatest_spec (P := P) (Nat.zero_le _) ⟨first, hfirst, hle⟩
  · by_contra hge
    have hPj : P j := ⟨start, hstart, Nat.not_lt.mp hge⟩
    exact absurd (Nat.le_findGreatest (hP hPj) hPj) (Nat.not_le.mpr hj)

theorem startAt_natCast (n : ℕ) : startAt starts n = starts[n]? := by
  rw [startAt, if_neg (by omega), Int.toNat_natCast]

/-- The starts grow. -/
theorem start_lt (hsorted : starts.Pairwise (· < ·)) {j k : ℕ} (hjk : j < k) {a b : ℕ}
    (ha : starts[j]? = some a) (hb : starts[k]? = some b) : a < b := by
  obtain ⟨hj, rfl⟩ := List.getElem?_eq_some_iff.mp ha
  obtain ⟨hk, rfl⟩ := List.getElem?_eq_some_iff.mp hb
  exact List.pairwise_iff_getElem.mp hsorted j k hj hk hjk

section
variable (h : IsLast starts offset i) (hsorted : starts.Pairwise (· < ·))

include h hsorted

/-- What starts at the offset or before it stands at the last such block or before it. -/
theorem IsLast.le_iff {j start : ℕ} (hj : starts[j]? = some start) : start ≤ offset ↔ j ≤ i := by
  obtain ⟨last, hlast, hle⟩ := h.start
  constructor
  · intro hstart
    by_contra hlt
    exact absurd (h.behind j start (Nat.not_le.mp hlt) hj) (Nat.not_lt.mpr hstart)
  · intro hji
    rcases Nat.lt_or_eq_of_le hji with hlt | rfl
    · exact Nat.le_of_lt (Nat.lt_of_lt_of_le (start_lt hsorted hlt hj hlast) hle)
    · rw [hlast] at hj
      exact Option.some.inj hj ▸ hle

theorem isRighter_eq (j : ℕ) :
    isRighter starts offset j = some (decide (i < j)) := by
  rw [isRighter]
  split
  case isTrue hge =>
    have hlt := h.lt
    rw [decide_eq_true (by omega)]
  case isFalse hlt =>
    have hj : j < starts.length := by omega
    have hget := List.getElem?_eq_getElem hj
    have hiff := h.le_iff hsorted hget
    rw [startAt_natCast, hget, Option.map_some]
    congr 1
    exact decide_eq_decide.mpr (by omega)

/-- What the search sees of the middle: whether it is at the last block or before it, and whether
the last block is not behind it. -/
theorem middle_eq {l r : ℤ} (hl : 0 ≤ l) (hlr : l < r) (hr : r < starts.length) :
    ∃ (m : ℕ) (midValue : ℕ), (l + r) / 2 = m ∧ startAt starts ((l + r) / 2) = some midValue ∧
      isRighter starts offset ((l + r) / 2 + 1) = some (decide (i < m + 1)) ∧
      decide (midValue ≤ offset) = decide (m ≤ i) := by
  obtain ⟨m, hm⟩ := Int.eq_ofNat_of_zero_le (show 0 ≤ (l + r) / 2 by omega)
  have hlt : m < starts.length := by omega
  have hget := List.getElem?_eq_getElem hlt
  refine ⟨m, starts[m], hm, ?_, ?_, decide_eq_decide.mpr (h.le_iff hsorted hget)⟩
  · rw [hm, startAt_natCast, hget]
  · rw [hm]
    exact isRighter_eq h hsorted (m + 1)

/-- The search finds the last block if it is between its ends. -/
theorem binSearch_eq (l r : ℤ) (hl : 0 ≤ l) (hli : l ≤ i) (hir : i ≤ r)
    (hr : r < starts.length) :
    binSearch starts offset l r = some (i : ℤ) := by
  rw [binSearch]
  split
  case isTrue hge => rw [show l = i by omega]
  case isFalse hlt =>
    obtain ⟨m, midValue, hm, hmid, hright, hleft⟩ := middle_eq h hsorted hl (by omega) hr
    dsimp only
    rw [hmid, hright]
    dsimp only
    rw [hleft]
    by_cases hmi : m ≤ i
    · by_cases him : i < m + 1
      · rw [decide_eq_true hmi, decide_eq_true him, hm, show m = i by omega]
        rfl
      · rw [decide_eq_true hmi, decide_eq_false him, Bool.true_and, if_neg Bool.false_ne_true,
          Bool.not_false, if_pos rfl]
        exact binSearch_eq _ r (by omega) (by omega) hir hr
    · rw [decide_eq_false hmi, decide_eq_true (show i < m + 1 by omega), Bool.false_and,
        if_neg Bool.false_ne_true, Bool.not_true, if_neg Bool.false_ne_true]
      exact binSearch_eq l _ hl hli (by omega) (by omega)
termination_by (r - l).toNat
decreasing_by all_goals omega

theorem resolveBasicBlockIndex_eq :
    resolveBasicBlockIndex starts offset = some (i : ℤ) := by
  have hlt := h.lt
  exact binSearch_eq h hsorted 0 _ (Int.le_refl 0) (by omega) (by omega) (by omega)

end

/-- The lookup never reads outside of the list and ends at the last block that does not start
behind the offset. -/
theorem resolveBasicBlockIndex_exact (first : ℕ) (rest : List ℕ) (offset : ℕ)
    (hsorted : (first :: rest).Pairwise (· < ·)) (hfirst : first ≤ offset) :
    ∃ i, IsLast (first :: rest) offset i ∧
      resolveBasicBlockIndex (first :: rest) offset = some (i : ℤ) := by
  obtain ⟨i, hi⟩ := exists_isLast ⟨first, List.getElem?_cons_zero, hfirst⟩
  exact ⟨i, hi, resolveBasicBlockIndex_eq hi hsorted⟩

theorem resolveBasicBlockIndex_exact_three :
    ∃ i, IsLast [0, 3, 7] 5 i ∧ resolveBasicBlockIndex [0, 3, 7] 5 = some (i : ℤ) :=
  resolveBasicBlockIndex_exact 0 [3, 7] 5 (by decide) (by decide)

end VSharp.BlockLookup
