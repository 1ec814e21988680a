import Mathlib.Algebra.Ring.Int.Defs
import Mathlib.Data.List.Nodup

/-!
# Utils — Array indices

`indexedArrayElemsCommon` of `VSharp.Utils/Collections.fs`.  The elements of an array are enumerated
with the last index running fastest; the index is advanced like an odometer.
-/

namespace VSharp.ArrayIndices
open List

/-- `incrementIdx`, which also says whether all dimensions have been reset. -/
def incrementIdx : List ℤ → List ℤ → List ℤ → Bool × List ℤ
  | lb :: lbs, ub :: ubs, i :: idx =>
    let (carry, idx) := incrementIdx lbs ubs idx
    if carry then if i = ub then (true, lb :: idx) else (false, (i + 1) :: idx)
    else (false, i :: idx)
  | _, _, _ => (true, [])

/-- The loop of `indexedArrayElemsCommon`. -/
def indexedElems {α : Type} (lbs ubs : List ℤ) : List ℤ → List α → List (List ℤ × α)
  | _, [] => []
  | idx, element :: elements =>
    (idx, element) :: indexedElems lbs ubs (incrementIdx lbs ubs idx).2 elements

/-- The first index runs through `n` values from `i` on, the others through `l` for each of them. -/
def runFrom : ℕ → ℤ → List (List ℤ) → List (List ℤ)
  | 0, _, _ => []
  | n + 1, i, l => l.map (i :: ·) ++ runFrom n (i + 1) l

/-- The indices of an array in the order of its enumerator. -/
def allIndices : List ℤ → List ℤ → List (List ℤ)
  | len :: lengths, lb :: lbs => runFrom len.toNat lb (allIndices lengths lbs)
  | _, _ => [[]]

/-- `GetUpperBound`. -/
def upperBounds (lengths lbs : List ℤ) : List ℤ :=
  List.zipWith (fun len lb => lb + len - 1) lengths lbs

/-- `indexedArrayElemsCommon`, for an array with these elements. -/
def indexedArrayElems {α : Type} (lengths lbs : List ℤ) (elements : List ℤ → α) :
    List (List ℤ × α) :=
  indexedElems lbs (upperBounds lengths lbs) lbs ((allIndices lengths lbs).map elements)

/-! ### The odometer -/

/-- The indices are advanced one to the next, and the last of them to `out`. -/
def Advances (lbs ubs : List ℤ) : List (List ℤ) → Bool × List ℤ → Prop
  | [], _ => False
  | [x], out => incrementIdx lbs ubs x = out
  | x :: y :: l, out => incrementIdx lbs ubs x = (false, y) ∧ Advances lbs ubs (y :: l) out

variable {lbs ubs : List ℤ} {lb ub i : ℤ}
variable {l : List (List ℤ)} {lengths idx : List ℤ} {n k : ℕ} {out : Bool × List ℤ} {α : Type}

theorem Advances.append {l' : List (List ℤ)} {y : List ℤ} (h : Advances lbs ubs l (false, y))
    (h' : Advances lbs ubs (y :: l') out) : Advances lbs ubs (l ++ y :: l') out := by
  induction l with
  | nil => exact h.elim
  | cons x l ih =>
    cases l with
    | nil => exact ⟨h, h'⟩
    | cons z l => exact ⟨h.1, ih h.2⟩

/-- The first index stays until the others have been reset. -/
theorem Advances.cons (lb ub i : ℤ) (h : Advances lbs ubs l (true, lbs)) :
    Advances (lb :: lbs) (ub :: ubs) (l.map (i :: ·))
      (if i = ub then (true, lb :: lbs) else (false, (i + 1) :: lbs)) := by
  induction l with
  | nil => exact h.elim
  | cons x l ih =>
    cases l with
    | nil =>
      have hx : incrementIdx lbs ubs x = (true, lbs) := h
      show incrementIdx (lb :: lbs) (ub :: ubs) (i :: x) = _
      rw [incrementIdx, hx]
      rfl
    | cons y l =>
      have hx : incrementIdx lbs ubs x = (false, y) := h.1
      refine ⟨?_, ih h.2⟩
      show incrementIdx (lb :: lbs) (ub :: ubs) (i :: x) = _
      rw [incrementIdx, hx]
      rfl

/-- The first index runs from `i` to its upper bound. -/
theorem advances_runFrom (hl : l.head? = some lbs) (h : Advances lbs ubs l (true, lbs)) (n : ℕ)
    (hub : ub = i + n) :
    Advances (lb :: lbs) (ub :: ubs) (runFrom (n + 1) i l) (true, lb :: lbs) := by
  obtain ⟨rest, rfl⟩ := head?_eq_some_iff.mp hl
  induction n generalizing i with
  | zero =>
    have hend := h.cons lb ub i
    rw [if_pos (by omega)] at hend
    rwa [runFrom, runFrom, append_nil]
  | succ n ih =>
    have hstep := h.cons lb ub i
    rw [if_neg (by omega)] at hstep
    rw [runFrom]
    exact hstep.append (ih (by omega))

theorem runFrom_nil (n : ℕ) : runFrom n i [] = [] := by
  induction n generalizing i with
  | zero => rfl
  | succ n ih => rw [runFrom, ih]; rfl

/-- The odometer goes through all indices, unless there are none. -/
theorem advances_allIndices (hrank : lengths.length = lbs.length)
    (hne : allIndices lengths lbs ≠ []) :
    (allIndices lengths lbs).head? = some lbs ∧
      Advances lbs (upperBounds lengths lbs) (allIndices lengths lbs) (true, lbs) := by
  induction lengths generalizing lbs with
  | nil =>
    obtain rfl := eq_nil_of_length_eq_zero hrank.symm
    exact ⟨rfl, rfl⟩
  | cons len lengths ih =>
    cases lbs with
    | nil => cases hrank
    | cons lb lbs =>
      have htail : lengths.length = lbs.length := Nat.succ.inj hrank
      have hothers : allIndices lengths lbs ≠ [] := by
        intro hnil
        rw [allIndices, hnil] at hne
        exact hne (runFrom_nil _)
      obtain ⟨n, hn⟩ : ∃ n, len.toNat = n + 1 := by
        refine Nat.exists_eq_succ_of_ne_zero fun hzero => hne ?_
        rw [allIndices, hzero, runFrom]
      obtain ⟨hhead, hadvances⟩ := ih htail hothers
      have hub : lb + len - 1 = lb + n := by omega
      constructor
      · obtain ⟨rest, hrest⟩ := head?_eq_some_iff.mp hhead
        rw [allIndices, hn, runFrom, hrest]
        rfl
      · rw [allIndices, hn]
        exact advances_runFrom hhead hadvances n hub

theorem indexedElems_of_advances (elements : List ℤ → α) {x : List ℤ}
    (h : Advances lbs ubs (x :: l) out) :
    indexedElems lbs ubs x ((x :: l).map elements) = (x :: l).map fun idx => (idx, elements idx) := by
  induction l generalizing x with
  | nil => rfl
  | cons y l ih =>
    have hx : incrementIdx lbs ubs x = (false, y) := h.1
    rw [map_cons, indexedElems, hx, map_cons]
    exact congrArg _ (ih h.2)

/-- Every element is enumerated with its own index. -/
theorem indexedArrayElems_eq (hrank : lengths.length = lbs.length) (elements : List ℤ → α) :
    indexedArrayElems lengths lbs elements =
      (allIndices lengths lbs).map fun idx => (idx, elements idx) := by
  rw [indexedArrayElems]
  by_cases hnil : allIndices lengths lbs = []
  · rw [hnil]
    rfl
  · obtain ⟨hhead, hadvances⟩ := advances_allIndices hrank hnil
    obtain ⟨rest, hrest⟩ := head?_eq_some_iff.mp hhead
    rw [hrest] at hadvances ⊢
    exact indexedElems_of_advances elements hadvances

theorem mem_runFrom :
    idx ∈ runFrom n i l ↔ ∃ j rest, idx = j :: rest ∧ i ≤ j ∧ j < i + n ∧ rest ∈ l := by
  induction n generalizing i with
  | zero =>
    simp only [runFrom, not_mem_nil, false_iff]
    rintro ⟨j, rest, -, hle, hlt, -⟩
    omega
  | succ n ih =>
    rw [runFrom, mem_append, ih, mem_map]
    constructor
    · rintro (⟨rest, hrest, rfl⟩ | ⟨j, rest, rfl, hle, hlt, hrest⟩)
      · exact ⟨i, rest, rfl, Int.le_refl i, by omega, hrest⟩
      · exact ⟨j, rest, rfl, by omega, by omega, hrest⟩
    · rintro ⟨j, rest, rfl, hle, hlt, hrest⟩
      rcases eq_or_ne j i with rfl | hne
      · exact .inl ⟨rest, hrest, rfl⟩
      · exact .inr ⟨j, rest, rfl, by omega, by omega, hrest⟩

theorem mem_allIndices_cons {len : ℤ} :
    idx ∈ allIndices (len :: lengths) (lb :: lbs) ↔
      ∃ j rest, idx = j :: rest ∧ lb ≤ j ∧ j < lb + len ∧ rest ∈ allIndices lengths lbs := by
  rw [allIndices, mem_runFrom]
  constructor
  · rintro ⟨j, rest, rfl, hle, hlt, hrest⟩
    exact ⟨j, rest, rfl, hle, by omega, hrest⟩
  · rintro ⟨j, rest, rfl, hle, hlt, hrest⟩
    exact ⟨j, rest, rfl, hle, by omega, hrest⟩

theorem runFrom_one (n : ℕ) (i : ℤ) :
    runFrom n i [[]] = (List.range n).map fun k : ℕ => [i + (k : ℤ)] := by
  induction n generalizing i with
  | zero => rfl
  | succ n ih =>
    have hnext : ∀ k : ℕ, [i + 1 + (k : ℤ)] = [i + ((k + 1 : ℕ) : ℤ)] := by
      intro k
      congr 1
      omega
    rw [runFrom, ih, range_succ_eq_map]
    simp [hnext]

/-- A vector is enumerated by counting. -/
theorem allIndices_vector (len : ℤ) :
    allIndices [len] [0] = (List.range len.toNat).map fun i : ℕ => [(i : ℤ)] := by
  show runFrom len.toNat 0 [[]] = _
  rw [runFrom_one]
  simp

/-! ### Linear indices -/

/-- The product of the lengths that are left, without the first of them. -/
def nextProd (lensProd : ℤ) : List ℤ → ℤ
  | [] => 1
  | len :: _ => lensProd / len

/-- `detachOne` for each dimension. -/
def detach : List ℤ → List ℤ → ℤ → ℤ → List ℤ
  | _ :: lengths, lb :: lbs, acc, lensProd =>
    (acc / lensProd + lb) :: detach lengths lbs (acc % lensProd) (nextProd lensProd lengths)
  | _, _, _, _ => []

def delinearizeArrayIndex (idx : ℤ) (lengths lowerBounds : List ℤ) : List ℤ :=
  detach lengths lowerBounds idx lengths.tail.prod

theorem nextProd_prod (h : lengths.prod ≠ 0) :
    nextProd lengths.prod lengths = lengths.tail.prod := by
  cases lengths with
  | nil => rfl
  | cons len lengths =>
    have hne : len ≠ 0 := by
      rintro rfl
      exact h (by rw [prod_cons, Int.zero_mul])
    rw [nextProd, prod_cons, Int.mul_ediv_cancel_left _ hne, tail_cons]

theorem length_runFrom (n : ℕ) (i : ℤ) (l : List (List ℤ)) :
    (runFrom n i l).length = n * l.length := by
  induction n generalizing i with
  | zero => rw [runFrom, length_nil, Nat.zero_mul]
  | succ n ih => rw [runFrom, length_append, length_map, ih, Nat.succ_mul, Nat.add_comm]

theorem length_allIndices (hrank : lengths.length = lbs.length)
    (hlengths : ∀ len ∈ lengths, 0 ≤ len) :
    ((allIndices lengths lbs).length : ℤ) = lengths.prod := by
  induction lengths generalizing lbs with
  | nil => rfl
  | cons len lengths ih =>
    cases lbs with
    | nil => cases hrank
    | cons lb lbs =>
      have hlen := hlengths len mem_cons_self
      rw [allIndices, length_runFrom, Int.natCast_mul, prod_cons, Int.toNat_of_nonneg hlen,
        ih (Nat.succ.inj hrank) fun len' h => hlengths len' (mem_cons_of_mem len h)]

theorem getElem?_runFrom (hk : k < n * l.length) :
    (runFrom n i l)[k]? = (l[k % l.length]?).map ((i + (k / l.length : ℕ)) :: ·) := by
  induction n generalizing i k with
  | zero => rw [Nat.zero_mul] at hk; cases hk
  | succ n ih =>
    have hpos : 0 < l.length := Nat.pos_of_ne_zero fun hzero => by simp [hzero] at hk
    rw [runFrom]
    rcases Nat.lt_or_ge k l.length with hlt | hge
    · rw [getElem?_append_left (by rwa [length_map]), getElem?_map,
        Nat.mod_eq_of_lt hlt, Nat.div_eq_of_lt hlt, Int.natCast_zero, Int.add_zero]
    · have hrest : k - l.length < n * l.length := by rw [Nat.succ_mul] at hk; omega
      have hdiv : k / l.length = (k - l.length) / l.length + 1 := Nat.div_eq_sub_div hpos hge
      have hfirst : i + 1 + ((k - l.length) / l.length : ℕ) = i + (k / l.length : ℕ) := by
        rw [hdiv]
        omega
      rw [getElem?_append_right (by rwa [length_map]), length_map, ih hrest,
        hfirst, Nat.mod_eq_sub_mod hge]

/-- The elements of an array in the order of its enumerator have the linear indices in order. -/
theorem getElem?_allIndices (hrank : lengths.length = lbs.length)
    (hlengths : ∀ len ∈ lengths, 0 ≤ len) (hk : k < (allIndices lengths lbs).length) :
    (allIndices lengths lbs)[k]? = some (delinearizeArrayIndex k lengths lbs) := by
  induction lengths generalizing lbs k with
  | nil =>
    obtain rfl : k = 0 := Nat.lt_one_iff.mp hk
    rfl
  | cons len lengths ih =>
    cases lbs with
    | nil => cases hrank
    | cons lb lbs =>
      have htail := Nat.succ.inj hrank
      have hothers : ∀ len' ∈ lengths, 0 ≤ len' := fun len' h =>
        hlengths len' (mem_cons_of_mem len h)
      have hlength := length_allIndices htail hothers
      rw [allIndices, length_runFrom] at hk
      have hpos : 0 < (allIndices lengths lbs).length :=
        Nat.pos_of_ne_zero fun hzero => by simp [hzero] at hk
      have hnext : nextProd lengths.prod lengths = lengths.tail.prod :=
        nextProd_prod (by omega)
      have hfirst : delinearizeArrayIndex k (len :: lengths) (lb :: lbs) =
          ((k : ℤ) / lengths.prod + lb) ::
            detach lengths lbs ((k : ℤ) % lengths.prod) (nextProd lengths.prod lengths) := rfl
      rw [allIndices, getElem?_runFrom hk, ih htail hothers (Nat.mod_lt _ hpos), hfirst, hnext,
        ← hlength, Option.map_some, delinearizeArrayIndex, Int.add_comm lb, Int.natCast_ediv,
        Int.natCast_emod]

theorem nodup_runFrom (hl : l.Nodup) (i : ℤ) :
    (runFrom n i l).Nodup := by
  induction n generalizing i with
  | zero => exact nodup_nil
  | succ n ih =>
    refine nodup_append.mpr ⟨hl.map cons_injective, ih (i + 1), ?_⟩
    intro x hx y hy hxy
    obtain ⟨rest, -, rfl⟩ := mem_map.mp hx
    obtain ⟨j, rest', rfl, hle, -⟩ := mem_runFrom.mp hy
    have hij : i = j := (List.cons.inj hxy).1
    omega

theorem nodup_allIndices (lengths lbs : List ℤ) : (allIndices lengths lbs).Nodup := by
  induction lengths generalizing lbs with
  | nil => exact nodup_singleton []
  | cons len lengths ih =>
    cases lbs with
    | nil => exact nodup_singleton []
    | cons lb lbs => exact nodup_runFrom (ih lbs) lb

end VSharp.ArrayIndices
