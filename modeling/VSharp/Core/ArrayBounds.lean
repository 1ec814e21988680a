import VSharp.Core.ArrayOffsets

/-!
# Core — ArrayBounds

When checking an index list against the lengths alone is checking it against the bounds of the
array, and keeps the linear offset of `linearizeArrayIndex` inside the array.

- `Inside`: the index of each dimension lies between its lower bound and its upper one;
- `lastOffset`: the linear offset of the last element, before it wraps;
- `lengthsDecide_iff`: the check is right for an array without elements, and for one whose lower
  bounds are zero and whose last element has an offset that fits.
-/

namespace VSharp

namespace ArrayOffsets
open MixedRadix

/-- The index list of an element, dimension by dimension. -/
inductive Inside : List ℤ → List ℤ → List ℤ → Prop where
  | nil : Inside [] [] []
  | cons {len lb index : ℤ} {lens lbs indices : List ℤ} (h : lb ≤ index ∧ index < lb + len)
      (hs : Inside lens lbs indices) : Inside (len :: lens) (lb :: lbs) (index :: indices)

/-- The offset that counts the last element. -/
def lastOffset (lens : List ℤ) : ℤ := offsetSum lens (lens.map (· - 1))

section
variable {lens lbs indices offsets : List ℤ}

theorem Inside.pos (h : Inside lens lbs indices) : ∀ len ∈ lens, 1 ≤ len := by
  induction h with
  | nil => exact nofun
  | cons h _ ih => exact List.forall_mem_cons.mpr ⟨by omega, ih⟩

/-- Without lower bounds the elements are the lists of digits. -/
theorem inside_iff_digits (hrank : lens.length = lbs.length) (hzero : ∀ lb ∈ lbs, lb = 0) :
    Inside lens lbs indices ↔ Digits lens indices := by
  induction lens generalizing lbs indices with
  | nil =>
    obtain rfl := List.eq_nil_of_length_eq_zero hrank.symm
    constructor <;> rintro ⟨⟩ <;> constructor
  | cons len lens ih =>
    cases lbs with
    | nil => cases hrank
    | cons lb lbs =>
      obtain ⟨rfl, hothers⟩ := List.forall_mem_cons.mp hzero
      have ih (indices : List ℤ) := @ih lbs indices (Nat.succ.inj hrank) hothers
      constructor
      · rintro (_ | ⟨h, hs⟩)
        exact .cons (by omega) ((ih _).mp hs)
      · rintro (_ | ⟨h, hs⟩)
        exact .cons (by omega) ((ih _).mpr hs)

/-- An element whose index list is no list of digits where a lower bound is not zero. -/
def probe (len lb : ℤ) : ℤ := if lb ≤ 0 then lb else max lb len

theorem inside_probe (hrank : lens.length = lbs.length) (hlens : ∀ len ∈ lens, 1 ≤ len) :
    Inside lens lbs (List.zipWith probe lens lbs) := by
  induction lens generalizing lbs with
  | nil =>
    obtain rfl := List.eq_nil_of_length_eq_zero hrank.symm
    exact .nil
  | cons len lens ih =>
    cases lbs with
    | nil => cases hrank
    | cons lb lbs =>
      obtain ⟨hlen, hlens⟩ := List.forall_mem_cons.mp hlens
      refine .cons ?_ (ih (Nat.succ.inj hrank) hlens)
      unfold probe
      split <;> omega

theorem zero_of_digits_probe (hrank : lens.length = lbs.length)
    (h : Digits lens (List.zipWith probe lens lbs)) : ∀ lb ∈ lbs, lb = 0 := by
  induction lens generalizing lbs with
  | nil =>
    obtain rfl := List.eq_nil_of_length_eq_zero hrank.symm
    exact nofun
  | cons len lens ih =>
    cases lbs with
    | nil => cases hrank
    | cons lb lbs =>
      rw [List.zipWith_cons_cons] at h
      obtain _ | ⟨h, hs⟩ := h
      refine List.forall_mem_cons.mpr ⟨?_, ih (Nat.succ.inj hrank) hs⟩
      unfold probe at h
      split at h <;> omega

/-! ### The offsets of the elements -/

theorem dropLast_prod_pos (hlens : ∀ len ∈ lens, 1 ≤ len) : 0 < lens.dropLast.prod :=
  prod_pos fun len hlen => hlens len (List.dropLast_subset lens hlen)

theorem offsetSum_nonneg (h : Digits lens offsets) : 0 ≤ offsetSum lens offsets := by
  induction h with
  | nil => exact Int.le_refl 0
  | @cons len offset lens offsets hd hds ih =>
    have hlens : ∀ l ∈ len :: lens, 1 ≤ l :=
      List.forall_mem_cons.mpr ⟨by omega, hds.one_le⟩
    exact Int.add_nonneg (Int.mul_nonneg hd.1 (dropLast_prod_pos hlens).le) ih

theorem offsetSum_le_last (h : Digits lens offsets) :
    offsetSum lens offsets ≤ lastOffset lens := by
  induction h with
  | nil => exact Int.le_refl 0
  | @cons len offset lens offsets hd hds ih =>
    have hlens : ∀ l ∈ len :: lens, 1 ≤ l :=
      List.forall_mem_cons.mpr ⟨by omega, hds.one_le⟩
    have hmul : offset * (len :: lens).dropLast.prod ≤ (len - 1) * (len :: lens).dropLast.prod :=
      Int.mul_le_mul_of_nonneg_right (by omega) (dropLast_prod_pos hlens).le
    exact Int.add_le_add hmul ih

section
variable (hlens : ∀ len ∈ lens, 1 ≤ len)

include hlens

theorem digits_zeros : Digits lens (lens.map fun _ => 0) := by
  induction lens with
  | nil => exact .nil
  | cons len lens ih =>
    obtain ⟨hlen, hlens⟩ := List.forall_mem_cons.mp hlens
    exact .cons ⟨Int.le_refl 0, hlen⟩ (ih hlens)

theorem digits_last : Digits lens (lens.map (· - 1)) := by
  induction lens with
  | nil => exact .nil
  | cons len lens ih =>
    obtain ⟨hlen, hlens⟩ := List.forall_mem_cons.mp hlens
    exact .cons ⟨Int.sub_nonneg_of_le hlen, Int.sub_one_lt_of_le (Int.le_refl len)⟩ (ih hlens)

/-- The offsets grow in steps: past a number there is one before the offsets wrap. -/
theorem exists_offset {n : ℤ}
    (hprod : lens.dropLast.prod < 2 ^ 32) (hn : n ≤ 2 ^ 31) (hlast : n ≤ lastOffset lens) :
    ∃ offsets, Digits lens offsets ∧ n ≤ offsetSum lens offsets ∧
      offsetSum lens offsets < 2 ^ 32 := by
  induction lens with
  | nil => exact ⟨[], .nil, hlast, by decide⟩
  | cons len lens ih =>
    obtain ⟨hlen, hrest⟩ := List.forall_mem_cons.mp hlens
    set w := (len :: lens).dropLast.prod with hw
    have hwpos : 0 < w := dropLast_prod_pos hlens
    have hle : lens.dropLast.prod ≤ w := by
      cases lens with
      | nil => exact Int.le_refl 1
      | cons len' lens =>
        rw [hw, List.dropLast_cons_cons, List.prod_cons]
        exact le_mul_of_one_le_left (dropLast_prod_pos hrest).le hlen
    by_cases hsmall : n ≤ lastOffset lens
    · obtain ⟨offsets, hd, hge, hlt⟩ := ih hrest (by omega) hsmall
      refine ⟨0 :: offsets, .cons ⟨Int.le_refl 0, by omega⟩ hd, ?_⟩
      rw [offsetSum, Int.zero_mul, Int.zero_add]
      exact ⟨hge, hlt⟩
    · have hall : lastOffset (len :: lens) = (len - 1) * w + lastOffset lens := rfl
      by_cases hstep : w ≤ 2 ^ 31
      · -- the least first digit with which the last of the others get there
        let q := (n - lastOffset lens + w - 1) / w
        have hq : q * w ≤ n - lastOffset lens + w - 1 := Int.ediv_mul_le _ hwpos.ne'
        have hq' : n - lastOffset lens + w - 1 < (q + 1) * w := by
          have := Int.lt_ediv_add_one_mul_self (n - lastOffset lens + w - 1) hwpos
          exact this
        have hq0 : 0 ≤ q := Int.ediv_nonneg (by omega) hwpos.le
        have hqlen : q < len := by
          by_contra hge
          have : len * w ≤ q * w := Int.mul_le_mul_of_nonneg_right (by omega) hwpos.le
          rw [Int.sub_mul, Int.one_mul] at hall
          omega
        refine ⟨q :: lens.map (· - 1), .cons ⟨hq0, hqlen⟩ (digits_last hrest), ?_⟩
        have hsum : offsetSum (len :: lens) (q :: lens.map (· - 1)) = q * w + lastOffset lens :=
          rfl
        rw [Int.add_mul, Int.one_mul] at hq'
        rw [hsum]
        omega
      · have htwo : 2 ≤ len := by
          by_contra hone
          obtain rfl : len = 1 := by omega
          rw [Int.sub_self, Int.zero_mul, Int.zero_add] at hall
          omega
        refine ⟨1 :: lens.map fun _ => 0, .cons ⟨Int.one_nonneg, by omega⟩ (digits_zeros hrest), ?_⟩
        rw [offsetSum, offsetSum_zeros (by simp), Int.one_mul, Int.add_zero]
        exact ⟨by omega, hprod⟩

end

theorem indicesAt_zeros (hrank : offsets.length = lbs.length) (hzero : ∀ lb ∈ lbs, lb = 0)
    (h : ∀ offset ∈ offsets, int32 offset = offset) : indicesAt offsets lbs = offsets := by
  induction offsets generalizing lbs with
  | nil => rfl
  | cons offset offsets ih =>
    cases lbs with
    | nil => cases hrank
    | cons lb lbs =>
      obtain ⟨rfl, hothers⟩ := List.forall_mem_cons.mp hzero
      obtain ⟨hoffset, hoffsets⟩ := List.forall_mem_cons.mp h
      rw [indicesAt, List.zipWith_cons_cons, Int.add_zero, hoffset]
      exact congrArg _ (ih (Nat.succ.inj hrank) hothers hoffsets)

theorem int32_of_digits (h : Digits lens offsets) (hlens : ∀ len ∈ lens, len < 2 ^ 31) :
    ∀ offset ∈ offsets, int32 offset = offset := by
  induction h with
  | nil => exact nofun
  | cons hd hds ih =>
    obtain ⟨hlen, hlens⟩ := List.forall_mem_cons.mp hlens
    exact List.forall_mem_cons.mpr ⟨int32_eq (by omega), ih hlens⟩

/-! ### The check -/

/-- Checking index lists against the lengths finds the elements, and their linear offsets are those
of an element. -/
def LengthsDecide (lens lbs : List ℤ) : Prop :=
  ∀ indices : List ℤ, indices.length = lens.length → (∀ index ∈ indices, int32 index = index) →
    (Digits lens indices ↔ Inside lens lbs indices) ∧
    (Digits lens indices → 0 ≤ linearizeArrayIndex lens lbs indices ∧
      linearizeArrayIndex lens lbs indices < lens.prod)

/-- The array has no element, or its lower bounds are zero and the offset of its last element
fits. -/
def PlainBounds (lens lbs : List ℤ) : Prop :=
  0 ∈ lens ∨ (∀ lb ∈ lbs, lb = 0) ∧ lastOffset lens < lens.prod ∧ lastOffset lens < 2 ^ 31

section
variable (hrank : lens.length = lbs.length)

include hrank

theorem linearizeArrayIndex_zeros (hzero : ∀ lb ∈ lbs, lb = 0) (hlt : ∀ len ∈ lens, len < 2 ^ 31)
    (h : Digits lens offsets) :
    linearizeArrayIndex lens lbs offsets = int32 (offsetSum lens offsets) := by
  have hlength := h.length_eq.trans hrank
  rw [← linearizeArrayIndex_eq hrank hlength, indicesAt_zeros hlength hzero (int32_of_digits h hlt)]

theorem lengthsDecide_of_plain (hlens : ∀ len ∈ lens, 0 ≤ len ∧ len < 2 ^ 31)
    (h : PlainBounds lens lbs) : LengthsDecide lens lbs := by
  intro indices _ _
  rcases h with hempty | ⟨hzero, hprod, hfits⟩
  · have hno : ¬ Digits lens indices := fun h => absurd (h.one_le 0 hempty) (by decide)
    have hno' : ¬ Inside lens lbs indices := fun h => absurd (h.pos 0 hempty) (by decide)
    exact ⟨iff_of_false hno hno', fun h => absurd h hno⟩
  · refine ⟨(inside_iff_digits hrank hzero).symm, fun h => ?_⟩
    have hnonneg := offsetSum_nonneg h
    have hle := offsetSum_le_last h
    rw [linearizeArrayIndex_zeros hrank hzero (fun len hlen => (hlens len hlen).2) h,
      int32_eq (by omega)]
    omega

/-- Checking the lengths is right exactly for an array with plain bounds. -/
theorem lengthsDecide_iff (hlens : ∀ len ∈ lens, 0 ≤ len ∧ len < 2 ^ 31)
    (hlbs : ∀ lb ∈ lbs, int32 lb = lb) (hprod : lens.prod < 2 ^ 32) :
    LengthsDecide lens lbs ↔ PlainBounds lens lbs := by
  refine ⟨fun h => ?_, lengthsDecide_of_plain hrank hlens⟩
  by_cases hempty : 0 ∈ lens
  · exact .inl hempty
  have hpos : ∀ len ∈ lens, 1 ≤ len := fun len hlen => by
    have hne : len ≠ 0 := fun heq => hempty (heq ▸ hlen)
    have := (hlens len hlen).1
    omega
  have hlt : ∀ len ∈ lens, len < 2 ^ 31 := fun len hlen => (hlens len hlen).2
  have hzero : ∀ lb ∈ lbs, lb = 0 := by
    have hprobe := inside_probe hrank hpos
    refine zero_of_digits_probe hrank ((h _ ?_ fun index hindex => ?_).1.mpr hprobe)
    · rw [List.length_zipWith, ← hrank, Nat.min_self]
    · obtain ⟨i, hi, rfl⟩ := List.getElem_of_mem hindex
      rw [List.length_zipWith] at hi
      have hlen := hlens _ (List.getElem_mem (l := lens) (by omega : i < lens.length))
      have hlb := hlbs _ (List.getElem_mem (l := lbs) (by omega : i < lbs.length))
      rw [List.getElem_zipWith, probe]
      split
      · exact hlb
      · rcases max_choice lbs[i] lens[i] with heq | heq <;> rw [heq]
        · exact hlb
        · exact int32_eq (by omega)
  refine .inr ⟨hzero, ?_⟩
  by_contra hbad
  have hdrop : lens.dropLast.prod < 2 ^ 32 := by
    cases hlast : lens.getLast? with
    | none =>
      rw [List.getLast?_eq_none_iff.mp hlast]
      decide
    | some last =>
      have hle := le_mul_of_one_le_right (dropLast_prod_pos hpos).le
        (hpos last (List.mem_of_getLast? hlast))
      rw [← prod_dropLast hlast] at hle
      omega
  obtain ⟨offsets, hd, hge, hwrap⟩ := exists_offset (n := min lens.prod (2 ^ 31)) hpos hdrop
    (min_le_right _ _) (by omega)
  obtain ⟨hnonneg, hbelow⟩ := (h offsets hd.length_eq (int32_of_digits hd hlt)).2 hd
  rw [linearizeArrayIndex_zeros hrank hzero hlt hd] at hnonneg hbelow
  by_cases hsmall : offsetSum lens offsets < 2 ^ 31
  · rw [int32_eq ⟨by omega, hsmall⟩] at hbelow
    omega
  · -- the offset has wrapped
    have hneg : int32 (offsetSum lens offsets) < 0 := by
      have hmod : offsetSum lens offsets % ((2 ^ 32 : ℕ) : ℤ) = offsetSum lens offsets :=
        Int.emod_eq_of_lt (by omega) hwrap
      rw [int32, Int.bmod_def, hmod, if_neg (by omega)]
      omega
    omega

end

end

end ArrayOffsets

end VSharp
