import VSharp.Core.ArrayOffsets
import Mathlib.Tactic.Ring

/-!
# Core — UnsafeArrays

`GetAffectedIndices` of `VSharp.SILI.Core/Memory.fs`: the elements that an unsafe read or write at a
byte offset of an array goes through.  The terms are `int32` numbers.

* `getAffectedIndices_eq`: inside the block the elements are those from `offset / elementSize` on,
  `countToRead` of them, each with the window relative to its first byte;
* `countToRead_covers_iff`: they are one too few where the misalignment of the offset and the odd
  bytes of the view make up for more than an element;
* `affectedIndices_cover_iff`: so every byte of the window belongs to a returned element exactly
  where they do not, and the byte size of the array as an `int32` does not end before the window.
-/

namespace VSharp
open ILCalculator List

namespace UnsafeArrays
open MixedRadix ArrayOffsets

/-! ### The code -/

/-- An element with its window, the bytes of the view counted from those of the element. -/
structure AffectedIndex (τ : Type) where
  indices : List ℤ
  element : τ
  startByte : ℤ
  endByte : ℤ

def checkBlockBounds (blockSize startByte endByte : ℤ) : Bool :=
  !(startByte < 0 || startByte ≥ blockSize || endByte ≤ 0 || endByte > blockSize)

def countToRead (elementSize elementOffset viewSize : ℤ) : ℤ :=
  let viewEnd := int32 (elementOffset + viewSize)
  if viewEnd.tmod elementSize = 0 then viewEnd.tdiv elementSize
  -- if the offset in the element is positive, one more is needed
  else int32 (viewSize.tdiv elementSize + 1)

section
variable {τ : Type} (readArrayIndex : List ℤ → τ) (elementSize : ℤ) (lens lbs : List ℤ)
  (offset viewSize : ℤ)

/-- `getElement`, mapped along the list with the offset of the element as its state. -/
def getElements (firstElement : ℤ) : ℤ → List ℕ → Except Failure (List (AffectedIndex τ))
  | _, [] => .ok []
  | currentOffset, i :: is => do
      let linearIndex := add firstElement i .int32
      let indices ← delinearizeArrayIndex linearIndex lens lbs
      let startByte := sub offset currentOffset .int32
      let endByte := add startByte viewSize .int32
      let nextOffset := add currentOffset elementSize .int32
      let rest ← getElements firstElement nextOffset is
      .ok (⟨indices, readArrayIndex indices, startByte, endByte⟩ :: rest)

/-- `GetAffectedIndices`, of an array with these elements, lengths and lower bounds. -/
def getAffectedIndices : Except Failure (List (AffectedIndex τ)) :=
  let arraySize := lens.foldl (fun acc len => mul acc len .int32) elementSize
  if checkBlockBounds arraySize offset (add offset viewSize .int32) then do
    let firstElement ← div offset elementSize .int32
    let elementOffset ← rem offset elementSize .int32
    let count := countToRead elementSize elementOffset viewSize
    getElements readArrayIndex elementSize lens lbs offset viewSize firstElement
      (mul firstElement elementSize .int32) (List.range count.toNat)
  else .ok []

end

/-! ### The number of elements -/

section
variable {e k v : ℤ}

section
variable (he : 1 ≤ e) (hk : 0 ≤ k ∧ k < e) (hv : 1 ≤ v) (hkv : k + v < 2 ^ 31)

include he hk hv hkv

/-- The elements that the code counts, of a view of `v` bytes that starts `k` bytes inside one. -/
theorem countToRead_cases :
    countToRead e k v * e = k + v ∨ ¬e ∣ k + v ∧ countToRead e k v * e = v - v % e + e := by
  have hdiv : 0 ≤ v / e := Int.ediv_nonneg (by omega) (by omega)
  have hsplit := Int.ediv_mul_add_emod v e
  rw [countToRead, int32_eq (by omega), Int.tmod_eq_emod_of_nonneg (by omega),
    Int.tdiv_eq_ediv_of_nonneg (by omega), Int.tdiv_eq_ediv_of_nonneg (by omega)]
  split
  · next h => exact .inl (Int.ediv_mul_cancel (Int.dvd_of_emod_eq_zero h))
  · next h =>
      refine .inr ⟨fun hdvd => h (Int.emod_eq_zero_of_dvd hdvd), ?_⟩
      have hne : e ≠ 1 := by
        rintro rfl
        exact h (Int.emod_one _)
      have htwo : v / e * 2 ≤ v / e * e := Int.mul_le_mul_of_nonneg_left (by omega) hdiv
      have hmod := Int.emod_nonneg v (by omega : e ≠ 0)
      rw [int32_eq (by omega), Int.add_mul, Int.one_mul]
      omega

/-- The last element that is counted has a byte of the view. -/
theorem countToRead_mul_lt : countToRead e k v * e < k + v + e := by
  have hmod := Int.emod_nonneg v (by omega : e ≠ 0)
  rcases countToRead_cases he hk hv hkv with h | ⟨hndvd, h⟩
  · omega
  · by_contra hle
    -- otherwise nothing is left of the view, and it starts with an element
    have hzero : k = 0 ∧ v % e = 0 := by omega
    rw [hzero.1, Int.zero_add] at hndvd
    exact hndvd (Int.dvd_of_emod_eq_zero hzero.2)

theorem countToRead_covers_iff : k + v ≤ countToRead e k v * e ↔ k + v % e ≤ e := by
  have hmod := Int.emod_nonneg v (by omega : e ≠ 0)
  have hmod' := Int.emod_lt_of_pos v (by omega : 0 < e)
  have hlt := countToRead_mul_lt he hk hv hkv
  rcases countToRead_cases he hk hv hkv with h | ⟨hndvd, h⟩
  · refine iff_of_true h.ge ?_
    -- both counts are multiples of the size
    have hdvd : e ∣ k + v % e := by
      have hsum : k + v % e = countToRead e k v * e - v / e * e := by
        have hsplit := Int.ediv_mul_add_emod v e
        omega
      rw [hsum]
      exact Int.dvd_sub (Int.dvd_mul_left _ e) (Int.dvd_mul_left _ e)
    obtain ⟨c, hc⟩ := hdvd
    have hc2 : c < 2 := by
      by_contra hle
      have := Int.mul_le_mul_of_nonneg_left (not_lt.mp hle) (by omega : 0 ≤ e)
      omega
    have hle : e * c ≤ e * 1 := Int.mul_le_mul_of_nonneg_left (by omega) (by omega)
    omega
  · omega

end

end

/-! ### The elements -/

section
variable {τ : Type} (readArrayIndex : List ℤ → τ) {elementSize : ℤ} {lens lbs : List ℤ}
  {offset viewSize : ℤ}

/-- What is returned for the element with this linear index. -/
def elementAt (elementSize : ℤ) (lens lbs : List ℤ) (offset viewSize i : ℤ) :
    AffectedIndex τ :=
  let indices := indicesAt (digits lens i) lbs
  let startByte := offset - i * elementSize
  ⟨indices, readArrayIndex indices, startByte, startByte + viewSize⟩

section
variable (hrank : lens.length = lbs.length) (hlens : ∀ len ∈ lens, 1 ≤ len)
  (hprod : lens.prod < 2 ^ 31)

include hrank hlens hprod

theorem getElements_eq (he : 1 ≤ elementSize) (ho : 0 ≤ offset) (hv : 1 ≤ viewSize)
    (hov : offset + viewSize < 2 ^ 31) {first : ℤ} (hfirst : 0 ≤ first) (k i : ℕ)
    (h : ∀ j : ℕ, i ≤ j → j < i + k →
      (first + j) * elementSize < offset + viewSize ∧ first + j < lens.prod) :
    getElements readArrayIndex elementSize lens lbs offset viewSize first
      (int32 ((first + i) * elementSize)) (List.range' i k) =
    .ok ((List.range' i k).map fun j : ℕ =>
      elementAt readArrayIndex elementSize lens lbs offset viewSize (first + j)) := by
  induction k generalizing i with
  | zero => rfl
  | succ k ih =>
    obtain ⟨hlt, hin⟩ := h i le_rfl (by omega)
    have hpos : 0 ≤ (first + i) * elementSize := Int.mul_nonneg (by omega) (by omega)
    have hnext : (first + i) * elementSize + elementSize =
        (first + (i + 1 : ℕ)) * elementSize := by
      push_cast
      ring
    have hrest := ih (i + 1) fun j hj hj' => h j (by omega) (by omega)
    have hlinear : int32 (first + i) = first + i := int32_eq (by omega)
    have hcurrent : int32 ((first + i) * elementSize) = (first + i) * elementSize :=
      int32_eq (by omega)
    have hstart : int32 (offset - (first + i) * elementSize) =
        offset - (first + i) * elementSize := int32_eq (by omega)
    have hend : int32 (offset - (first + i) * elementSize + viewSize) =
        offset - (first + i) * elementSize + viewSize := int32_eq (by omega)
    rw [range'_succ, getElements]
    simp only [add_int32, sub_int32, hlinear, hcurrent, hstart, hend, hnext, hrest,
      delinearizeArrayIndex_eq hrank hlens hprod (by omega) hin, bind, Except.bind]
    rfl

/-- What is returned inside the block. -/
theorem getAffectedIndices_eq (he : 1 ≤ elementSize ∧ elementSize < 2 ^ 31) (ho : 0 ≤ offset)
    (hv : 1 ≤ viewSize) (hin : offset + viewSize ≤ elementSize * lens.prod)
    (hsize : offset + viewSize ≤ int32 (elementSize * lens.prod)) :
    getAffectedIndices readArrayIndex elementSize lens lbs offset viewSize =
      .ok ((List.range (countToRead elementSize (offset % elementSize) viewSize).toNat).map
        fun j : ℕ => elementAt readArrayIndex elementSize lens lbs offset viewSize
          (offset / elementSize + j)) := by
  have hlt : int32 (elementSize * lens.prod) < 2 ^ 31 :=
    Int.bmod_lt (x := elementSize * lens.prod) (m := 2 ^ 32) (by decide)
  have hmod : 0 ≤ offset % elementSize ∧ offset % elementSize < elementSize :=
    ⟨Int.emod_nonneg offset (by omega), Int.emod_lt_of_pos offset (by omega)⟩
  have hdiv : 0 ≤ offset / elementSize := Int.ediv_nonneg ho (by omega)
  have hsplit := Int.ediv_mul_add_emod offset elementSize
  have hmul : 0 ≤ offset / elementSize * elementSize := Int.mul_nonneg hdiv (by omega)
  have hcount := countToRead_mul_lt he.1 hmod hv (by omega)
  have hbounds : checkBlockBounds (int32 (elementSize * lens.prod)) offset (offset + viewSize) =
      true := by
    simp only [checkBlockBounds, Bool.not_eq_true', Bool.or_eq_false_iff, decide_eq_false_iff_not]
    omega
  have helements := getElements_eq readArrayIndex hrank hlens hprod he.1 ho hv (by omega) hdiv
    (countToRead elementSize (offset % elementSize) viewSize).toNat 0 fun j _ hj => by
      have hle : ((j : ℤ) + 1) * elementSize ≤
          countToRead elementSize (offset % elementSize) viewSize * elementSize :=
        Int.mul_le_mul_of_nonneg_right (by omega) (by omega)
      have hlast : (offset / elementSize + j) * elementSize < offset + viewSize := by
        rw [Int.add_mul, Int.one_mul] at hle
        rw [Int.add_mul]
        omega
      refine ⟨hlast, ?_⟩
      have hblock := hlast.trans_le hin
      rw [Int.mul_comm elementSize] at hblock
      exact Int.lt_of_mul_lt_mul_right hblock (by omega)
  simp only [Nat.cast_zero, Int.add_zero, ← range_eq_range'] at helements
  unfold getAffectedIndices
  dsimp only
  have hend : int32 (offset + viewSize) = offset + viewSize := int32_eq (by omega)
  rw [foldl_mul lens (int32_eq ⟨by omega, he.2⟩), add_int32, hend, if_pos hbounds,
    div_int32 ⟨ho, by omega⟩ ⟨by omega, he.2⟩, rem_int32 ⟨ho, by omega⟩ ⟨by omega, he.2⟩]
  simp only [bind, Except.bind, mul_int32]
  exact helements

end

/-- Outside the block nothing is returned. -/
theorem getAffectedIndices_outside (he : 1 ≤ elementSize ∧ elementSize < 2 ^ 31)
    (ho : 0 ≤ offset ∧ offset < 2 ^ 31) (hv : 1 ≤ viewSize ∧ viewSize < 2 ^ 31)
    (hsize : int32 (elementSize * lens.prod) < offset + viewSize) :
    getAffectedIndices readArrayIndex elementSize lens lbs offset viewSize = .ok [] := by
  have hend := Int.bmod_eq_self_sub_mul_bdiv (offset + viewSize) (2 ^ 32)
  have hlt : int32 (offset + viewSize) < 2 ^ 31 :=
    Int.bmod_lt (x := offset + viewSize) (m := 2 ^ 32) (by decide)
  have hge : -2 ^ 31 ≤ int32 (offset + viewSize) :=
    Int.le_bmod (x := offset + viewSize) (m := 2 ^ 32) (by decide)
  have hbounds : checkBlockBounds (int32 (elementSize * lens.prod)) offset
      (int32 (offset + viewSize)) = false := by
    simp only [checkBlockBounds, Bool.not_eq_false', Bool.or_eq_true, decide_eq_true_eq]
    simp only [int32] at hend hlt hge hsize ⊢
    omega
  unfold getAffectedIndices
  dsimp only
  rw [foldl_mul lens (int32_eq ⟨by omega, he.2⟩), add_int32, hbounds]
  rfl

/-- Every byte of the window belongs to a returned element, in whose window it lies, and every
returned element is one of the array. -/
structure CoversWindow (elementSize : ℤ) (lens lbs : List ℤ) (offset viewSize : ℤ)
    (affected : List (AffectedIndex τ)) : Prop where
  covered : ∀ b, offset ≤ b → b < offset + viewSize →
    ∃ i, i * elementSize ≤ b ∧ b < (i + 1) * elementSize ∧ ∃ a ∈ affected,
      delinearizeArrayIndex i lens lbs = .ok a.indices ∧
      a.startByte ≤ b - i * elementSize ∧ b - i * elementSize < a.endByte
  inside : ∀ a ∈ affected, InBounds lens lbs a.indices

/-- The elements from the first on, `count` of them, cover the window exactly if they reach its
end. -/
theorem coversWindow_iff (hrank : lens.length = lbs.length) (hlens : ∀ len ∈ lens, 1 ≤ len)
    (hprod : lens.prod < 2 ^ 31) (he : 1 ≤ elementSize) (ho : 0 ≤ offset) (hv : 1 ≤ viewSize)
    (hin : offset + viewSize ≤ elementSize * lens.prod) {count : ℤ}
    (hcount : count * elementSize < offset % elementSize + viewSize + elementSize) :
    CoversWindow elementSize lens lbs offset viewSize ((List.range count.toNat).map fun j : ℕ =>
      elementAt readArrayIndex elementSize lens lbs offset viewSize (offset / elementSize + j)) ↔
    offset % elementSize + viewSize ≤ count * elementSize := by
  have hdiv : 0 ≤ offset / elementSize := Int.ediv_nonneg ho (by omega)
  have hsplit := Int.ediv_mul_add_emod offset elementSize
  have hbelow (i b : ℤ) (hi : i * elementSize ≤ b) (hb : b < offset + viewSize) :
      i < lens.prod := by
    have hblock := (hi.trans_lt hb).trans_le hin
    rw [Int.mul_comm elementSize] at hblock
    exact Int.lt_of_mul_lt_mul_right hblock (by omega)
  have hreached (j : ℕ) (hj : j < count.toNat) :
      (offset / elementSize + j) * elementSize < offset + viewSize := by
    have hle : ((j : ℤ) + 1) * elementSize ≤ count * elementSize :=
      Int.mul_le_mul_of_nonneg_right (by omega) (by omega)
    rw [Int.add_mul, Int.one_mul] at hle
    rw [Int.add_mul]
    omega
  constructor
  · intro h
    obtain ⟨i, hib, hbi, a, ha, hindices, -, -⟩ :=
      h.covered (offset + viewSize - 1) (by omega) (by omega)
    obtain ⟨j, hj, rfl⟩ := mem_map.mp ha
    have hj := mem_range.mp hj
    have hpos : 0 ≤ i := by
      by_contra hneg
      have hle : (i + 1) * elementSize ≤ 0 * elementSize :=
        Int.mul_le_mul_of_nonneg_right (by omega) (by omega)
      omega
    -- only the last element has the last byte
    have hji : i = offset / elementSize + j := by
      have hj' := hbelow _ _ le_rfl (hreached j hj)
      refine delinearizeArrayIndex_inj hrank hlens hprod ⟨hpos, hbelow i _ hib (by omega)⟩
        ⟨by omega, hj'⟩ ?_
      rw [hindices, delinearizeArrayIndex_eq hrank hlens hprod (by omega) hj']
      rfl
    have hle : (i + 1) * elementSize ≤ (offset / elementSize + count) * elementSize :=
      Int.mul_le_mul_of_nonneg_right (by omega) (by omega)
    rw [Int.add_mul (offset / elementSize)] at hle
    omega
  · intro hreach
    refine ⟨fun b hb hb' => ?_, fun a ha => ?_⟩
    · have hmod := Int.ediv_mul_add_emod b elementSize
      have hmod' := Int.emod_nonneg b (by omega : elementSize ≠ 0)
      have hmod'' := Int.emod_lt_of_pos b (by omega : 0 < elementSize)
      have hfirst : offset / elementSize ≤ b / elementSize := Int.ediv_le_ediv (by omega) hb
      have hlast : b / elementSize < offset / elementSize + count := by
        refine Int.lt_of_mul_lt_mul_right (a := elementSize) ?_ (by omega)
        rw [Int.add_mul]
        omega
      refine ⟨b / elementSize, by omega, by rw [Int.add_mul, Int.one_mul]; omega, _,
        mem_map.mpr ⟨(b / elementSize - offset / elementSize).toNat,
          mem_range.mpr (by omega), rfl⟩, ?_⟩
      have hindex : offset / elementSize + ((b / elementSize - offset / elementSize).toNat : ℤ) =
          b / elementSize := by omega
      rw [hindex, delinearizeArrayIndex_eq hrank hlens hprod (by omega) (hbelow _ b (by omega) hb')]
      refine ⟨rfl, ?_, ?_⟩
      · show offset - b / elementSize * elementSize ≤ b - b / elementSize * elementSize
        omega
      · show b - b / elementSize * elementSize < offset - b / elementSize * elementSize + viewSize
        omega
    · obtain ⟨j, hj, rfl⟩ := mem_map.mp ha
      have hlt := hbelow _ _ le_rfl (hreached j (mem_range.mp hj))
      exact ⟨_, digits_spec hlens (by omega) hlt, rfl⟩

/-- The elements that are returned cover the window exactly if the array's size in bytes, as an
`int32`, does not end before it, and the misalignment of the offset with the odd bytes of the view
make no more than an element. -/
theorem affectedIndices_cover_iff (hrank : lens.length = lbs.length) (hlens : ∀ len ∈ lens, 0 ≤ len)
    (hprod : lens.prod < 2 ^ 31) (he : 1 ≤ elementSize ∧ elementSize < 2 ^ 31)
    (ho : 0 ≤ offset ∧ offset < 2 ^ 31) (hv : 1 ≤ viewSize ∧ viewSize < 2 ^ 31)
    (hin : offset + viewSize ≤ elementSize * lens.prod) :
    ∃ affected, getAffectedIndices readArrayIndex elementSize lens lbs offset viewSize =
        .ok affected ∧
      (CoversWindow elementSize lens lbs offset viewSize affected ↔
        offset + viewSize ≤ int32 (elementSize * lens.prod) ∧
          offset % elementSize + viewSize % elementSize ≤ elementSize) := by
  have hone : ∀ len ∈ lens, 1 ≤ len := fun len hlen => by
    have hne : len ≠ 0 := by
      rintro rfl
      rw [zero_dvd_iff.mp (dvd_prod hlen)] at hin
      omega
    have := hlens len hlen
    omega
  by_cases hsize : offset + viewSize ≤ int32 (elementSize * lens.prod)
  · have hmod : 0 ≤ offset % elementSize ∧ offset % elementSize < elementSize :=
      ⟨Int.emod_nonneg offset (by omega), Int.emod_lt_of_pos offset (by omega)⟩
    have hlt : int32 (elementSize * lens.prod) < 2 ^ 31 :=
      Int.bmod_lt (x := elementSize * lens.prod) (m := 2 ^ 32) (by decide)
    have hle : offset % elementSize ≤ offset := by
      have hsplit := Int.ediv_mul_add_emod offset elementSize
      have hdiv : 0 ≤ offset / elementSize := Int.ediv_nonneg ho.1 (by omega)
      have hmul : 0 ≤ offset / elementSize * elementSize := Int.mul_nonneg hdiv (by omega)
      omega
    refine ⟨_, getAffectedIndices_eq readArrayIndex hrank hone hprod he ho.1 hv.1 hin hsize, ?_⟩
    rw [coversWindow_iff readArrayIndex hrank hone hprod he.1 ho.1 hv.1 hin
        (countToRead_mul_lt he.1 hmod hv.1 (by omega)),
      countToRead_covers_iff he.1 hmod hv.1 (by omega)]
    exact (and_iff_right hsize).symm
  · refine ⟨[], getAffectedIndices_outside readArrayIndex he ho hv (not_le.mp hsize), ?_⟩
    refine iff_of_false (fun h => ?_) fun h => hsize h.1
    obtain ⟨-, -, -, a, ha, -⟩ := h.covered offset le_rfl (by omega)
    cases ha

end

/-- Two elements of four bytes, the second row of an array of two rows. -/
theorem affectedIndices_cover_row :
    ∃ affected, getAffectedIndices id 4 [2, 2] [0, 0] 8 8 = .ok affected ∧
      CoversWindow 4 [2, 2] [0, 0] 8 8 affected := by
  obtain ⟨affected, hrun, hcover⟩ := @affectedIndices_cover_iff _ id 4 [2, 2] [0, 0] 8 8 rfl
    (by decide) (by decide) (by decide) (by decide) (by decide) (by decide)
  exact ⟨affected, hrun, hcover.mpr (by decide)⟩

/-- Three bytes from the last byte of the first element on: only that element is returned. -/
theorem affectedIndices_misses_second :
    ¬ ∀ (readArrayIndex : List ℤ → List ℤ) (elementSize : ℤ) (lens lbs : List ℤ)
      (offset viewSize : ℤ), lens.length = lbs.length → (∀ len ∈ lens, 1 ≤ len) →
      elementSize * lens.prod < 2 ^ 31 → 1 ≤ elementSize → 0 ≤ offset → 1 ≤ viewSize →
      offset + viewSize ≤ elementSize * lens.prod →
      ∃ affected, getAffectedIndices readArrayIndex elementSize lens lbs offset viewSize =
        .ok affected ∧ CoversWindow elementSize lens lbs offset viewSize affected := by
  intro h
  obtain ⟨affected, hrun, hcover⟩ := h id 4 [4] [0] 3 3 rfl (by decide) (by decide) (by decide)
    (by decide) (by decide) (by decide)
  have hfirst : affected = [⟨[0], [0], 3, 6⟩] := (Except.ok.inj hrun).symm
  subst hfirst
  obtain ⟨i, hi, hi', a, ha, hindices, -⟩ := hcover.covered 4 (by decide) (by decide)
  obtain rfl := mem_singleton.mp ha
  obtain rfl : i = 1 := by omega
  revert hindices
  decide

end UnsafeArrays

end VSharp
