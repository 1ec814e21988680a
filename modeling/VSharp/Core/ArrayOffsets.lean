import VSharp.Core.Arithmetics
import VSharp.Core.Slices
import VSharp.Library.MixedRadix
import VSharp.Utils.ArrayIndices
import Mathlib.Algebra.BigOperators.Group.List.Lemmas
import Mathlib.Tactic.Linarith

/-!
# Core — ArrayOffsets

`delinearizeArrayIndex` and `linearizeArrayIndex` of `VSharp.SILI.Core/Memory.fs`.  The terms are
`int32` numbers; on these `add`, `sub`, `mul`, `div` and `rem` fold to what the IL calculator gives.

* `delinearizeArrayIndex_eq`: the index list of a linear index has its digits in the lengths as
  offsets, and is the one `Array.delinearizeArrayIndex` of the collections gives;
* `linearizeArrayIndex_eq`: an offset counts by the product of the lengths *from its own dimension
  on to the last but one*, where it should count by those after it;
* `shared_iff`: so the two are inverse exactly where every dimension but the last has length `1` or
  the length of the last.
-/

namespace VSharp
open BitVec ILCalculator

namespace ArrayOffsets
open MixedRadix

/-! ### The code -/

/-- `List.fold mul (makeNumber 1)`. -/
def lengthsProd (lens : List ℤ) : ℤ := lens.foldl (fun acc len => mul acc len .int32) 1

/-- `detachOne` along the lower bounds; the tail of an empty list of lengths raises. -/
def detach : List ℤ → ℤ → List ℤ → Except Failure (List ℤ)
  | [], _, _ => .ok []
  | _ :: _, _, [] => .error (.internal "The input list was empty.")
  | lb :: lbs, acc, _ :: lensTail => do
      let lensProd := lengthsProd lensTail
      let curOffset ← div acc lensProd .int32
      let curIndex := add curOffset lb .int32
      let rest ← rem acc lensProd .int32
      let indices ← detach lbs rest lensTail
      .ok (curIndex :: indices)

def delinearizeArrayIndex (ind : ℤ) (lens lbs : List ℤ) : Except Failure (List ℤ) :=
  detach lbs ind lens

/-- `attachOne`, for the dimension `i`; the lists are of one rank. -/
def attachOne (lens lbs indices : List ℤ) (acc : ℤ) (i : ℕ) : ℤ :=
  let length := indices.length - 1
  let relOffset := sub (indices.getD i 0) (lbs.getD i 0) .int32
  let prod (acc : ℤ) (j : ℕ) : ℤ := mul acc (lens.getD j 0) .int32
  -- over `[i .. length - 1]`
  let lensProd := (List.range' i (length - i)).foldl prod 1
  let absOffset := mul relOffset lensProd .int32
  add acc absOffset .int32

def linearizeArrayIndex (lens lbs indices : List ℤ) : ℤ :=
  (List.range indices.length).foldl (attachOne lens lbs indices) 0

/-! ### `int32` arithmetic -/

section
variable {x y : ℤ}

theorem add_int32 (x y : ℤ) : add x y .int32 = int32 (x + y) := by
  show (BitVec.ofInt 32 x + BitVec.ofInt 32 y).toInt = _
  simp [int32, toInt_add, toInt_ofInt]

theorem sub_int32 (x y : ℤ) : sub x y .int32 = int32 (x - y) := by
  show (BitVec.ofInt 32 x - BitVec.ofInt 32 y).toInt = _
  simp [int32, toInt_sub, toInt_ofInt]

theorem mul_int32 (x y : ℤ) : mul x y .int32 = int32 (x * y) := by
  show (BitVec.ofInt 32 x * BitVec.ofInt 32 y).toInt = _
  simp [int32, toInt_mul, toInt_ofInt]

theorem toInt_slot (h : 0 ≤ x ∧ x < 2 ^ 31) : (slot .int32 x).toInt = x :=
  toInt_ofInt_eq_self (w := 32) (by decide) (by omega) (by omega)

section
variable (hx : 0 ≤ x ∧ x < 2 ^ 31) (hy : 0 < y ∧ y < 2 ^ 31)

include hx hy

/-- Neither division raises on such numbers. -/
theorem signedDivision_eq
    (f : BitVec Ty.int32.width → BitVec Ty.int32.width → BitVec Ty.int32.width) :
    signedDivision x y .int32 f = .ok (f (slot .int32 x) (slot .int32 y)).toInt := by
  have hslot := toInt_slot hx
  have hslot' := toInt_slot ⟨hy.1.le, hy.2⟩
  have hzero : slot .int32 y ≠ 0 := fun h => by
    rw [h] at hslot'
    exact hy.1.ne hslot'
  have hmin : slot .int32 x ≠ BitVec.intMin _ := fun h => by
    rw [h] at hslot
    have hneg : x = -2 ^ 31 := hslot.symm.trans (by decide)
    omega
  unfold signedDivision
  rw [if_neg hzero, if_neg fun h => hmin h.1]
  rfl

theorem div_int32 : div x y .int32 = .ok (x / y) := by
  have hdiv : 0 ≤ x / y ∧ x / y ≤ x := ⟨Int.ediv_nonneg hx.1 hy.1.le, Int.ediv_le_self y hx.1⟩
  rw [div, signedDivision_eq hx hy, toInt_sdiv _ _, toInt_slot hx,
    toInt_slot ⟨hy.1.le, hy.2⟩, Int.tdiv_eq_ediv_of_nonneg hx.1]
  exact congrArg _ (int32_eq (by omega))

theorem rem_int32 : rem x y .int32 = .ok (x % y) := by
  rw [rem, signedDivision_eq hx hy, toInt_srem, toInt_slot hx,
    toInt_slot ⟨hy.1.le, hy.2⟩, Int.tmod_eq_emod_of_nonneg hx.1]

end

theorem foldl_mul (l : List ℤ) {a : ℤ} (ha : int32 a = a) :
    l.foldl (fun acc len => mul acc len .int32) a = int32 (a * l.prod) := by
  induction l generalizing a with
  | nil => rw [List.prod_nil, Int.mul_one, ha]; rfl
  | cons len l ih =>
    rw [List.foldl_cons, mul_int32, ih (by simp [int32]), List.prod_cons, ← Int.mul_assoc]
    simp [int32]

theorem lengthsProd_eq {lens : List ℤ} (hlens : ∀ len ∈ lens, 1 ≤ len) (h : lens.prod < 2 ^ 31) :
    lengthsProd lens = lens.prod := by
  have hpos := prod_pos hlens
  rw [lengthsProd, foldl_mul lens (by decide), Int.one_mul, int32_eq (by omega)]

end

/-! ### From a linear index to the index list -/

section
variable {lens lbs : List ℤ} {ind : ℤ}

/-- The index list whose offsets are these. -/
def indicesAt (offsets lbs : List ℤ) : List ℤ :=
  List.zipWith (fun offset lb => int32 (offset + lb)) offsets lbs

theorem delinearizeArrayIndex_eq (hrank : lens.length = lbs.length)
    (hlens : ∀ len ∈ lens, 1 ≤ len) (hprod : lens.prod < 2 ^ 31) (hind : 0 ≤ ind)
    (hlt : ind < lens.prod) :
    delinearizeArrayIndex ind lens lbs = .ok (indicesAt (digits lens ind) lbs) := by
  rw [delinearizeArrayIndex]
  induction lens generalizing lbs ind with
  | nil =>
    obtain rfl := List.eq_nil_of_length_eq_zero hrank.symm
    rfl
  | cons len lens ih =>
    cases lbs with
    | nil => cases hrank
    | cons lb lbs =>
      obtain ⟨hlen, hlens⟩ := List.forall_mem_cons.mp hlens
      have hpos := prod_pos hlens
      rw [List.prod_cons] at hprod hlt
      have hle : lens.prod ≤ len * lens.prod := le_mul_of_one_le_left hpos.le hlen
      have hP : 0 < lens.prod ∧ lens.prod < 2 ^ 31 := ⟨hpos, by omega⟩
      have hx : 0 ≤ ind ∧ ind < 2 ^ 31 := ⟨hind, by omega⟩
      have hrest := ih (Nat.succ.inj hrank) hlens hP.2 (Int.emod_nonneg ind hpos.ne')
        (Int.emod_lt_of_pos ind hpos)
      rw [detach, lengthsProd_eq hlens hP.2, div_int32 hx hP, rem_int32 hx hP]
      simp only [bind, Except.bind, hrest, add_int32]
      rfl

theorem int32_add_cancel {x y lb : ℤ} (hx : 0 ≤ x ∧ x < 2 ^ 31) (hy : 0 ≤ y ∧ y < 2 ^ 31)
    (h : int32 (x + lb) = int32 (y + lb)) : x = y := by
  have hxlb := Int.bmod_eq_self_sub_mul_bdiv (x + lb) (2 ^ 32)
  have hylb := Int.bmod_eq_self_sub_mul_bdiv (y + lb) (2 ^ 32)
  simp only [int32] at h
  omega

/-- Offsets below the lengths are told apart by their index lists. -/
theorem indicesAt_inj {ds ds' : List ℤ} (hds : Digits lens ds) (hds' : Digits lens ds')
    (hrank : lens.length = lbs.length) (hlt : ∀ len ∈ lens, len < 2 ^ 31)
    (h : indicesAt ds lbs = indicesAt ds' lbs) : ds = ds' := by
  induction hds generalizing lbs ds' with
  | nil => cases hds'; rfl
  | cons hd _ ih =>
    cases hds' with
    | cons hd' hds' =>
      cases lbs with
      | nil => cases hrank
      | cons lb lbs =>
        obtain ⟨hlen, hlt⟩ := List.forall_mem_cons.mp hlt
        obtain ⟨hhead, htail⟩ := List.cons.inj h
        rw [int32_add_cancel ⟨hd.1, by omega⟩ ⟨hd'.1, by omega⟩ hhead,
          ih hds' (Nat.succ.inj hrank) hlt htail]

section
variable (hrank : lens.length = lbs.length) (hlens : ∀ len ∈ lens, 1 ≤ len)

include hrank hlens

/-- Linear indices of elements are told apart by their index lists. -/
theorem delinearizeArrayIndex_inj {i j : ℤ} (hprod : lens.prod < 2 ^ 31)
    (hi : 0 ≤ i ∧ i < lens.prod) (hj : 0 ≤ j ∧ j < lens.prod)
    (h : delinearizeArrayIndex i lens lbs = delinearizeArrayIndex j lens lbs) : i = j := by
  have hlt : ∀ len ∈ lens, len < 2 ^ 31 := fun len hlen =>
    (Int.le_of_dvd (prod_pos hlens) (List.dvd_prod hlen)).trans_lt hprod
  rw [delinearizeArrayIndex_eq hrank hlens hprod hi.1 hi.2,
    delinearizeArrayIndex_eq hrank hlens hprod hj.1 hj.2] at h
  have hdigits := indicesAt_inj (digits_spec hlens hi.1 hi.2) (digits_spec hlens hj.1 hj.2) hrank
    hlt (Except.ok.inj h)
  rw [← number_digits hlens hi.1 hi.2, hdigits, number_digits hlens hj.1 hj.2]

theorem detach_digits :
    ArrayIndices.detach lens lbs ind lens.tail.prod =
      List.zipWith (fun offset lb => offset + lb) (digits lens ind) lbs := by
  induction lens generalizing lbs ind with
  | nil => rfl
  | cons len lens ih =>
    cases lbs with
    | nil => cases hrank
    | cons lb lbs =>
      obtain ⟨-, hlens⟩ := List.forall_mem_cons.mp hlens
      rw [List.tail_cons, ArrayIndices.detach, ArrayIndices.nextProd_prod (prod_pos hlens).ne',
        ih (Nat.succ.inj hrank) hlens]
      rfl

/-- The collections give the same index list, with the additions not yet cut to 32 bits. -/
theorem delinearizeArrayIndex_collections (hprod : lens.prod < 2 ^ 31) (hind : 0 ≤ ind)
    (hlt : ind < lens.prod) :
    delinearizeArrayIndex ind lens lbs =
      .ok ((ArrayIndices.delinearizeArrayIndex ind lens lbs).map int32) := by
  rw [delinearizeArrayIndex_eq hrank hlens hprod hind hlt, ArrayIndices.delinearizeArrayIndex,
    detach_digits hrank hlens, List.map_zipWith]
  rfl

end

end

/-! ### From the index list to a linear index -/

/-- What `linearizeArrayIndex` counts: each offset by the lengths from its own dimension on, without
the last of them. -/
def offsetSum : List ℤ → List ℤ → ℤ
  | len :: lens, offset :: offsets =>
    offset * (len :: lens).dropLast.prod + offsetSum lens offsets
  | _, _ => 0

section
variable {lens lbs offsets : List ℤ} {i : ℕ}

theorem map_getD_range' :
    (List.range' i (lens.length - 1 - i)).map (fun j => lens.getD j 0) =
      (lens.drop i).dropLast := by
  refine List.ext_getElem? fun k => ?_
  rw [List.getElem?_map, List.getElem?_dropLast, List.length_drop, List.getElem?_drop]
  by_cases hk : k < lens.length - 1 - i
  · rw [if_pos (by omega), List.getElem?_range' hk, Option.map_some, Nat.one_mul,
      List.getD_eq_getElem?_getD, List.getElem?_eq_getElem (by omega), Option.getD_some]
  · rw [if_neg (by omega), List.getElem?_eq_none (by rw [List.length_range']; omega),
      Option.map_none]

theorem getD_drop {l : List ℤ} (h : i < l.length) : l.drop i = l.getD i 0 :: l.drop (i + 1) := by
  rw [List.getD_eq_getElem?_getD, List.getElem?_eq_getElem h, Option.getD_some,
    List.drop_eq_getElem_cons h]

theorem length_indicesAt (hrank : offsets.length = lbs.length) :
    (indicesAt offsets lbs).length = lbs.length := by
  rw [indicesAt, List.length_zipWith, hrank, Nat.min_self]

theorem getD_indicesAt (hrank : offsets.length = lbs.length) (hi : i < lbs.length) :
    (indicesAt offsets lbs).getD i 0 = int32 (offsets.getD i 0 + lbs.getD i 0) := by
  simp only [indicesAt, List.getD_eq_getElem?_getD, List.getElem?_zipWith,
    List.getElem?_eq_getElem hi, List.getElem?_eq_getElem (hrank ▸ hi), Option.getD_some]

section
variable (hrank : lens.length = lbs.length) (hoffsets : offsets.length = lbs.length)

include hrank hoffsets

/-- One dimension adds its offset, counted by the lengths of its own dimension on. -/
theorem attachOne_eq (hi : i < lbs.length) (acc : ℤ) :
    attachOne lens lbs (indicesAt offsets lbs) acc i =
      int32 (acc + offsets.getD i 0 * (lens.drop i).dropLast.prod) := by
  have hlens : (List.range' i (lens.length - 1 - i)).foldl
      (fun acc j => mul acc (lens.getD j 0) .int32) 1 = int32 (lens.drop i).dropLast.prod := by
    rw [← Int.one_mul (lens.drop i).dropLast.prod, ← foldl_mul _ (by decide), ← map_getD_range',
      List.foldl_map]
  rw [attachOne, length_indicesAt hoffsets, ← hrank, hlens, getD_indicesAt hoffsets hi, sub_int32,
    mul_int32, add_int32]
  simp [int32]

theorem foldl_attachOne (k : ℕ) (hi : i + k = lbs.length) {acc : ℤ} (hacc : int32 acc = acc) :
    (List.range' i k).foldl (attachOne lens lbs (indicesAt offsets lbs)) acc =
      int32 (acc + offsetSum (lens.drop i) (offsets.drop i)) := by
  induction k generalizing i acc with
  | zero =>
    rw [List.drop_eq_nil_of_le (by omega), offsetSum, Int.add_zero, hacc]
    · rfl
    · exact fun _ _ _ _ h => nomatch h
  | succ k ih =>
    have hlt : i < lens.length := by omega
    have hlt' : i < offsets.length := by omega
    rw [List.range'_succ, List.foldl_cons, attachOne_eq hrank hoffsets (by omega),
      ih (by omega) (by simp [int32]), getD_drop hlt, getD_drop hlt', offsetSum, ← Int.add_assoc,
      ← getD_drop hlt]
    simp [int32]

theorem linearizeArrayIndex_eq :
    linearizeArrayIndex lens lbs (indicesAt offsets lbs) = int32 (offsetSum lens offsets) := by
  rw [linearizeArrayIndex, length_indicesAt hoffsets, List.range_eq_range',
    foldl_attachOne hrank hoffsets _ (Nat.zero_add _) (by decide), Int.zero_add, List.drop_zero,
    List.drop_zero]

end

end

/-! ### Both ways -/

/-- The index list of an element: a lower bound with an offset below the length, in each
dimension. -/
def InBounds (lens lbs indices : List ℤ) : Prop :=
  ∃ offsets, Digits lens offsets ∧ indices = indicesAt offsets lbs

/-- Linearisation is a bijection that all paths share. -/
structure Shared (lens lbs : List ℤ) : Prop where
  roundTrip : ∀ indices, InBounds lens lbs indices →
    delinearizeArrayIndex (linearizeArrayIndex lens lbs indices) lens lbs = .ok indices
  inverse : ∀ i, 0 ≤ i → i < lens.prod → ∃ indices,
    delinearizeArrayIndex i lens lbs = .ok indices ∧ linearizeArrayIndex lens lbs indices = i
  agree : ∀ i, 0 ≤ i → i < lens.prod → delinearizeArrayIndex i lens lbs =
    .ok ((ArrayIndices.delinearizeArrayIndex i lens lbs).map int32)

section
variable {lens lbs offsets pre suffix : List ℤ}

theorem prod_dropLast {last : ℤ} (h : lens.getLast? = some last) :
    lens.prod = lens.dropLast.prod * last := by
  obtain ⟨init, rfl⟩ := List.getLast?_eq_some_iff.mp h
  rw [List.dropLast_concat, List.prod_append, List.prod_singleton]

/-- Where a dimension has one element or the length of the last, both products count alike. -/
theorem offsetSum_eq_number (h : Digits lens offsets)
    (hlens : ∀ len ∈ lens.dropLast, len = 1 ∨ lens.getLast? = some len) :
    offsetSum lens offsets = number lens offsets := by
  induction h with
  | nil => rfl
  | @cons len offset lens offsets hd hds ih =>
    cases lens with
    | nil =>
      cases hds with
      | nil => simp [offsetSum, number]
    | cons len' lens =>
      rw [List.dropLast_cons_cons] at hlens
      obtain ⟨hfirst, hothers⟩ := List.forall_mem_cons.mp hlens
      rw [List.getLast?_cons_cons] at hfirst hothers
      rw [offsetSum, number, ih hothers, List.dropLast_cons_cons, List.prod_cons]
      rcases hfirst with rfl | hlast
      · obtain rfl : offset = 0 := by omega
        rw [Int.zero_mul, Int.zero_mul]
      · rw [prod_dropLast hlast, Int.mul_comm len]

theorem offsetSum_zeros (h : ∀ d ∈ offsets, d = 0) : offsetSum lens offsets = 0 := by
  induction offsets generalizing lens with
  | nil => cases lens <;> rfl
  | cons d offsets ih =>
    obtain ⟨rfl, hothers⟩ := List.forall_mem_cons.mp h
    cases lens with
    | nil => rfl
    | cons len lens => rw [offsetSum, ih hothers, Int.zero_mul, Int.zero_add]

/-- A number below the product of the last dimensions has no offset in the first. -/
theorem offsetSum_digits_append (hpre : ∀ len ∈ pre, 1 ≤ len) {n : ℤ} (hn : 0 ≤ n)
    (hlt : n < suffix.prod) :
    offsetSum (pre ++ suffix) (digits (pre ++ suffix) n) = offsetSum suffix (digits suffix n) := by
  induction pre with
  | nil => rfl
  | cons len pre ih =>
    obtain ⟨-, hpre⟩ := List.forall_mem_cons.mp hpre
    have hle : suffix.prod ≤ (pre ++ suffix).prod := by
      rw [List.prod_append]
      exact le_mul_of_one_le_left (by omega) (prod_pos hpre)
    rw [List.cons_append, digits, Int.ediv_eq_zero_of_lt hn (by omega),
      Int.emod_eq_of_lt hn (by omega), offsetSum, ih hpre, Int.zero_mul, Int.zero_add]

theorem shared_of_lengths (hrank : lens.length = lbs.length) (hlens : ∀ len ∈ lens, 1 ≤ len)
    (hprod : lens.prod < 2 ^ 31)
    (h : ∀ len ∈ lens.dropLast, len = 1 ∨ lens.getLast? = some len) : Shared lens lbs := by
  have hlinear (offsets : List ℤ) (ho : Digits lens offsets) :
      linearizeArrayIndex lens lbs (indicesAt offsets lbs) = number lens offsets := by
    have hnonneg := ho.number_nonneg
    have hlt := ho.number_lt
    rw [linearizeArrayIndex_eq hrank (ho.length_eq.trans hrank), offsetSum_eq_number ho h,
      int32_eq (by omega)]
  refine ⟨?_, fun i hi hlt => ?_, fun i hi hlt => ?_⟩
  · rintro indices ⟨offsets, ho, rfl⟩
    rw [hlinear offsets ho, delinearizeArrayIndex_eq hrank hlens hprod ho.number_nonneg ho.number_lt,
      digits_number ho]
  · refine ⟨_, delinearizeArrayIndex_eq hrank hlens hprod hi hlt, ?_⟩
    rw [hlinear _ (digits_spec hlens hi hlt), number_digits hlens hi hlt]
  · exact delinearizeArrayIndex_collections hrank hlens hprod hi hlt

/-- The element one step along a dimension with at least two elements and others after it: its
linear index counts the lengths after it, and comes back counting those from it on. -/
theorem Shared.length_eq {len : ℤ} (hrank : (pre ++ len :: suffix).length = lbs.length)
    (hlens : ∀ l ∈ pre ++ len :: suffix, 1 ≤ l) (hprod : (pre ++ len :: suffix).prod < 2 ^ 31)
    (hne : suffix ≠ []) (hlen : len ≠ 1) (h : Shared (pre ++ len :: suffix) lbs) :
    suffix.getLast? = some len := by
  obtain ⟨hpre, hsuffix⟩ := List.forall_mem_append.mp hlens
  obtain ⟨hone, hsuffix⟩ := List.forall_mem_cons.mp hsuffix
  obtain ⟨last, hlast⟩ := Option.isSome_iff_exists.mp (List.getLast?_isSome.mpr hne)
  have hpos : 0 < suffix.prod := prod_pos hsuffix
  have hposPre : 0 < pre.prod := prod_pos hpre
  have hposDrop : 0 < suffix.dropLast.prod :=
    prod_pos fun l hl => hsuffix l (List.dropLast_subset suffix hl)
  have hposLast : 1 ≤ last := hsuffix last (List.mem_of_getLast? hlast)
  have hlt : suffix.prod < (len :: suffix).prod := by
    rw [List.prod_cons]
    exact lt_mul_of_one_lt_left hpos (by omega)
  have hle : (len :: suffix).prod ≤ (pre ++ len :: suffix).prod := by
    rw [List.prod_append]
    exact le_mul_of_one_le_left (by omega) hposPre
  have hsum : offsetSum (pre ++ len :: suffix) (digits (pre ++ len :: suffix) suffix.prod) =
      len * suffix.dropLast.prod := by
    rw [offsetSum_digits_append hpre hpos.le hlt, digits, Int.ediv_self hpos.ne', Int.emod_self,
      offsetSum, offsetSum_zeros (digits_zero suffix), List.dropLast_cons_of_ne_nil hne,
      List.prod_cons, Int.one_mul, Int.add_zero]
  have hfits : len * suffix.dropLast.prod ≤ (len :: suffix).prod := by
    rw [List.prod_cons, prod_dropLast hlast]
    exact Int.mul_le_mul_of_nonneg_left (le_mul_of_one_le_right hposDrop.le hposLast) (by omega)
  obtain ⟨indices, hdel, hlin⟩ := h.inverse suffix.prod hpos.le (by omega)
  rw [delinearizeArrayIndex_eq hrank hlens hprod hpos.le (by omega)] at hdel
  obtain rfl := Except.ok.inj hdel
  have hd := digits_spec hlens hpos.le (hlt.trans_le hle)
  rw [linearizeArrayIndex_eq hrank (hd.length_eq.trans hrank), hsum,
    int32_eq ⟨by nlinarith, by omega⟩, prod_dropLast hlast, Int.mul_comm len] at hlin
  rw [hlast, Int.eq_of_mul_eq_mul_left hposDrop.ne' hlin]

/-- Linearisation and delinearisation are inverse exactly where every dimension but the last has
one element or as many as the last. -/
theorem shared_iff (hrank : lens.length = lbs.length) (hlens : ∀ len ∈ lens, 1 ≤ len)
    (hprod : lens.prod < 2 ^ 31) :
    Shared lens lbs ↔ ∀ len ∈ lens.dropLast, len = 1 ∨ lens.getLast? = some len := by
  refine ⟨fun h len hlen => ?_, shared_of_lengths hrank hlens hprod⟩
  by_cases hone : len = 1
  · exact .inl hone
  · obtain ⟨pre, suffix, hsplit⟩ := List.append_of_mem hlen
    have hne : lens ≠ [] := by
      rintro rfl
      cases hlen
    have hdecomp : lens = pre ++ len :: (suffix ++ [lens.getLast hne]) := by
      conv_lhs => rw [← List.dropLast_append_getLast hne, hsplit, List.append_assoc, List.cons_append]
    generalize hlast : suffix ++ [lens.getLast hne] = rest at hdecomp
    subst hdecomp
    have hrest : rest ≠ [] := by
      rw [← hlast]
      simp
    right
    rw [List.getLast?_append_of_ne_nil _ (List.cons_ne_nil _ _), List.getLast?_cons_of_ne_nil hrest]
    exact h.length_eq hrank hlens hprod hrest hone

end

/-- A square array of three rows. -/
theorem shared_iff_square : Shared [3, 3] [0, 1] :=
  (@shared_iff [3, 3] [0, 1] rfl (by decide) (by decide)).mpr (by decide)

/-- In an array of two rows with three elements, the first element of the second row becomes the
third of the first. -/
theorem linearizeArrayIndex_confuses_rows :
    ¬ ∀ lens lbs : List ℤ, lens ≠ [] → lens.length = lbs.length → (∀ len ∈ lens, 1 ≤ len) →
      lens.prod < 2 ^ 31 → Shared lens lbs := by
  intro h
  have hshared := h [2, 3] [0, 0] (by decide) rfl (by decide) (by decide)
  have hin : InBounds [2, 3] [0, 0] [1, 0] :=
    ⟨[1, 0], .cons (by decide) (.cons (by decide) .nil), by decide⟩
  have hback := hshared.roundTrip [1, 0] hin
  revert hback
  decide

end ArrayOffsets

end VSharp
