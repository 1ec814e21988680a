import VSharp.Core.KeyRegions
import VSharp.Core.MemoryRegion

/-!
# Core — CellRegions

The regions of `heapArrayKey` of `VSharp.SILI.Core/MemoryRegion.fs` as sets of cells, and its
`IMemoryKey`.  A cell is a time with a list of indices; a region carries that its rectangles are
valid, so that its operations are those of sets (`ExactRegion`).

- the points of a region are integers here, and the conditions read them as machine integers
  (`machine`);
- a key of literals denotes one cell (`cellKey`), and its region is that cell (`region_cellKey`);
- a range key under a literal address has a box as its region (`region_rangeKey`).
-/

namespace VSharp
open Term Propositional Merging Library MemoryKeyUtils List PersistentSet

/-! ### Cells -/

namespace VectorTime

/-- Between two times there is a third. -/
theorem exists_between : ∀ {s t : VectorTime}, s < t → ∃ u, s < u ∧ u < t
  | [], [], h => absurd h (lt_irrefl _)
  | [], x :: t, _ => ⟨[x - 1], nil_lt_cons _ _, List.Lex.rel (by omega)⟩
  | _ :: _, [], h => absurd h (not_lt_nil _)
  | x :: s, y :: t, h => by
      rcases cons_lt_cons_iff.mp h with hxy | ⟨rfl, hst⟩
      · refine ⟨x :: (s ++ [0]), cons_lt_cons_iff.mpr (.inr ⟨rfl, ?_⟩), List.Lex.rel hxy⟩
        have hext := @List.append_left_lt ℤ _ s [] [0] (nil_lt_cons _ _)
        rwa [append_nil] at hext
      · obtain ⟨u, hsu, hut⟩ := exists_between hst
        exact ⟨x :: u, cons_lt_cons_iff.mpr (.inr ⟨rfl, hsu⟩),
          cons_lt_cons_iff.mpr (.inr ⟨rfl, hut⟩)⟩

instance : DenselyOrdered VectorTime := ⟨fun _ _ => exists_between⟩

end VectorTime

namespace Tuple
variable {P : Type}

/-- The list of a tuple. -/
def toList : (n : ℕ) → Tuple P n → List P
  | 0, _ => []
  | n + 1, (x, xs) => x :: toList n xs

@[simp] theorem length_toList : (n : ℕ) → (xs : Tuple P n) → (toList n xs).length = n
  | 0, _ => rfl
  | n + 1, (_, xs) => congrArg (· + 1) (length_toList n xs)

instance instDecidableEq [DecidableEq P] : (n : ℕ) → DecidableEq (Tuple P n)
  | 0 => inferInstanceAs (DecidableEq Unit)
  | n + 1 =>
    let _ : DecidableEq (Tuple P n) := instDecidableEq n
    inferInstanceAs (DecidableEq (P × Tuple P n))

end Tuple

/-- A time with `rank` indices. -/
abbrev ArrayCell (rank : ℕ) : Type := VectorTime × Tuple ℤ rank

/-! ### Regions of cells -/

instance ListProduct.instDecidableEq {A : Type} [DecidableEq A] :
    (n : ℕ) → DecidableEq (ListProduct A n)
  | 0 => inferInstanceAs (DecidableEq NilRegion)
  | n + 1 =>
    let _ : DecidableEq (ListProduct A n) := instDecidableEq n
    inferInstanceAs (DecidableEq (ProductRegion A (ListProduct A n)))

section
variable [HashOrder ℤ]

/-- `productRegion<vectorTime intervals, int points listProductRegion>`, made of valid rectangles. -/
def CellRegion (rank : ℕ) : Type :=
  {r : ProductRegion (Intervals VectorTime) (ListProduct (Points ℤ) rank) //
    ArrayRegion Intervals.Canonical r}

namespace CellRegion
variable {rank : ℕ}

instance : DecidableEq (CellRegion rank) := inferInstanceAs (DecidableEq (Subtype _))

instance : IRegion (CellRegion rank) where
  isEmpty r := IRegion.isEmpty r.1
  compareTo r s := IRegion.compareTo r.1 s.1
  subtract r s := ⟨IRegion.subtract r.1 s.1, r.2.subtract s.2⟩
  intersect r s := ⟨IRegion.intersect r.1 s.1, r.2.intersect s.2⟩

/-- A cell of the region. -/
def contains (r : CellRegion rank) : ArrayCell rank → Bool :=
  ProductRegion.contains Intervals.contains (ListProduct.contains Points.contains rank) r.1

theorem actAsSets (r s : CellRegion rank) : ActsAsSets contains r s := by
  have hA : ExactOn (Points.contains : Points ℤ → ℤ → Bool) fun _ => True := ExactRegion.exactOn
  have hB := ListProduct.listProduct_exactOn hA rank
  have h := ProductRegion.products_actAsSets Intervals.canonical_exactOn hB
    (r.2.valid Intervals.canonical_exactOn hA) (s.2.valid Intervals.canonical_exactOn hA)
  exact ⟨h.isEmpty, h.intersect, h.subtract, h.includes, h.disjoint, h.intersects⟩

instance : ExactRegion (CellRegion rank) (ArrayCell rank) where
  contains := contains
  isEmpty_iff r := (actAsSets r r).isEmpty
  contains_subtract r s := (actAsSets r s).subtract
  contains_intersect r s := (actAsSets r s).intersect
  compareTo_includes := (actAsSets _ _).includes
  compareTo_disjoint := (actAsSets _ _).disjoint
  compareTo_intersects := (actAsSets _ _).intersects

end CellRegion

end

/-! ### The key interface -/

namespace ListProduct

/-- The region with machine integers for its points. -/
def machine : (n : ℕ) → ListProduct (Points ℤ) n → ListProduct (Points (BitVec 32)) n
  | 0, r => r
  | n + 1, r => ⟨r.products.map fun rect =>
    (⟨rect.1.points.map fun e => (BitVec.ofInt 32 e.1, e.2), rect.1.thrown⟩, machine n rect.2)⟩

end ListProduct

deriving instance DecidableEq for HeapArrayKey

instance : Inhabited (Points ℤ) := ⟨.all⟩

namespace MemoryKeyUtils

def unguardGvs : Term → List (Term × Term)
  | .ite branches e => iteAsGvs branches e
  | t => [(trueTerm, t)]

variable [HashOrder ℤ]

/-- `regionOfHeapAddress`; times are not below `minfty`. -/
def validRegionOfHeapAddress :
    Term → Except Failure {r : Intervals VectorTime // Intervals.Canonical r}
  | .concrete (.address addr) .address => .ok ⟨.singleton addr, Intervals.canonical_closed le_rfl⟩
  | addr => do
      let time ← timeOf addr
      if h : VectorTime.minfty ≤ time then
        .ok ⟨.closed VectorTime.minfty time, Intervals.canonical_closed h⟩
      else .error (.internal "unreachable")

/-- `regionOfIntegerTerm`. -/
def indexRegion (x : Term) : Points ℤ :=
  match extractInt x with
  | some value => .singleton value.toInt
  | none => .all

/-- `regionOfIntegerRange`. -/
def indexRangeRegion (lowerBound upperBound : Term) : Points ℤ :=
  match extractInt lowerBound, extractInt upperBound with
  | some lb, some ub => .range lb.toInt ub.toInt
  | _, _ => .all

end MemoryKeyUtils

/-- The region as the conditions read it. -/
def CellRegion.machine [HashOrder ℤ] {rank : ℕ} (r : CellRegion rank) : ArrayKeyRegion rank :=
  ⟨r.1.products.map fun rect => (rect.1, ListProduct.machine rank rect.2)⟩

namespace HeapArrayKey

def address : HeapArrayKey → Term
  | .oneArrayIndexKey address _ | .rangeArrayIndexKey address _ _ => address

def isRange : HeapArrayKey → Bool
  | .oneArrayIndexKey _ _ => false
  | .rangeArrayIndexKey _ _ _ => true

def isExplicit (x : HeapArrayKey) (explicitAddresses : Pset VectorTime) : Bool :=
  match x.address with
  | .concrete (.address addr) .address => PersistentSet.contains addr explicitAddresses
  | _ => false

/-- One step of the fold of `Unguard`, over the values of an index. -/
def unguardIndex (index : Term) (accTerms : List (Term × List Term)) :
    Except Failure (List (Term × List Term)) := do
  let rows ← accTerms.mapM fun gt => (unguardGvs index).mapM fun gi => do
    .ok (← Propositional.simplifyAnd gi.1 gt.1, gi.2 :: gt.2)
  .ok rows.flatten

/-- One step of the fold of `Unguard`, over the values of two bounds. -/
def unguardBounds (bounds : Term × Term) (acc : List (Term × List Term × List Term)) :
    Except Failure (List (Term × List Term × List Term)) := do
  let rows ← acc.mapM fun g => (unguardGvs bounds.1).mapM fun gl =>
    (unguardGvs bounds.2).mapM fun gu => do
      .ok (← simplifyAnd (← simplifyAnd g.1 gl.1) gu.1, gl.2 :: g.2.1, gu.2 :: g.2.2)
  .ok (rows.map List.flatten).flatten

/-- `Unguard`; the lists of bounds are of one length. -/
def unguard : HeapArrayKey → Except Failure (List (Term × HeapArrayKey))
  | .oneArrayIndexKey address indices => do
      let rows ← (address :: indices).foldrM unguardIndex [(trueTerm, [])]
      rows.mapM fun row =>
        match row.2 with
        | address :: indices => .ok (row.1, .oneArrayIndexKey address indices)
        | [] => .error (.internal "unreachable")
  | .rangeArrayIndexKey address lowerBounds upperBounds => do
      let boundsPairs ← (lowerBounds.zip upperBounds).foldrM unguardBounds [(trueTerm, [], [])]
      let rows ← (unguardGvs address).mapM fun gAddr => boundsPairs.mapM fun b => do
        .ok (← simplifyAnd gAddr.1 b.1, HeapArrayKey.rangeArrayIndexKey gAddr.2 b.2.1 b.2.2)
      .ok rows.flatten

/-- The regions of the indices, `regionsOfIntegerTerms` and `regionsOfIntegerRanges`. -/
def indicesRegion [HashOrder ℤ] : HeapArrayKey → List (Points ℤ)
  | .oneArrayIndexKey _ indices => indices.map indexRegion
  | .rangeArrayIndexKey _ lowerBounds upperBounds =>
    List.zipWith indexRangeRegion lowerBounds upperBounds

/-- `Region`, of a key of rank `rank`. -/
def cellRegion [HashOrder ℤ] (rank : ℕ) (x : HeapArrayKey) : Except Failure (CellRegion rank) := do
  let a ← validRegionOfHeapAddress x.address
  .ok ⟨.productOf a.1 (ListProduct.ofSeq rank (Tuple.ofList rank x.indicesRegion)),
    .productOf a.2 (.ofSeq _)⟩

end HeapArrayKey

/-- The result of a run. -/
def Run.result {α : Type} (x : Run α) : Except Failure α := x.map Prod.fst

/-- `heapArrayKey` as an `IMemoryKey`, for `rank` indices, with the depth of nested calls of the
simplifiers as fuel. -/
def heapArrayKeys [HashOrder FieldId] [HashOrder ℤ] (n rank : ℕ) :
    IMemoryKey HeapArrayKey (CellRegion rank) where
  region x := x.cellRegion rank
  unguard x := x.unguard
  inRegionCondition x region := (x.inRegionCondition n region.machine).result
  intersectionCondition x key := (x.intersectionCondition n key).result
  matchCondition x key region := (x.matchCondition n key region.machine).result
  isExplicit x := x.isExplicit
  isRange x := x.isRange

/-! ### Regions of one cell -/

namespace Tuple
variable {P : Type}

theorem ofList_toList [Inhabited P] : (n : ℕ) → (xs : Tuple P n) → ofList n (toList n xs) = xs
  | 0, () => rfl
  | n + 1, (x, xs) => by
      show (x, ofList n (toList n xs)) = (x, xs)
      rw [ofList_toList n xs]

theorem toList_ofList [Inhabited P] : (n : ℕ) → {l : List P} → l.length = n →
    toList n (ofList n l) = l
  | 0, [], _ => rfl
  | n + 1, x :: _, h => congrArg (x :: ·) (toList_ofList n (Nat.succ.inj h))

theorem toList_injective : (n : ℕ) → {xs ys : Tuple P n} → toList n xs = toList n ys → xs = ys
  | 0, (), (), _ => rfl
  | n + 1, (x, xs), (y, ys), h => by
      obtain ⟨rfl, hrest⟩ := List.cons.inj h
      exact congrArg (Prod.mk x) (toList_injective n hrest)

end Tuple

namespace ListProduct

/-- An index list lies in a product of regions when each index lies in its region. -/
theorem contains_ofSeq {A P : Type} {cA : A → P → Bool} : (n : ℕ) → (xs : Tuple A n) →
    (p : Tuple P n) → (contains cA n (ofSeq n xs) p = true ↔
      List.Forall₂ (fun x i => cA x i = true) (Tuple.toList n xs) (Tuple.toList n p))
  | 0, _, _ => ⟨fun _ => .nil, fun _ => rfl⟩
  | n + 1, (x, xs), (i, is) => by
      show (cA x i && contains cA n (ofSeq n xs) is || false) = true ↔ _
      rw [Bool.or_false, Bool.and_eq_true, contains_ofSeq n xs is]
      exact (forall₂_cons (R := fun x i => cA x i = true)).symm

end ListProduct

namespace PersistentSet

theorem contains_ofSeq {κ : Type} [DecidableEq κ] [HashOrder κ] (x : κ) (s : List κ) :
    contains x (ofSeq s) = true ↔ x ∈ s := by
  rw [contains_iff, ofSeq, PersistentDict.ofSeq, PersistentDict.mem_keys_foldl_add]
  simp [PersistentDict.keys]

end PersistentSet

namespace Points
variable [HashOrder ℤ]

theorem contains_singleton (x i : ℤ) : (singleton x).contains i = true ↔ i = x := by
  show (PersistentSet.contains i (add [] x) != false) = true ↔ _
  rw [Bool.bne_false, contains_add]
  simp [PersistentSet.contains, PersistentDict.keys]

theorem contains_range (l u i : ℤ) : (range l u).contains i = true ↔ l ≤ i ∧ i ≤ u := by
  show (PersistentSet.contains i (ofSeq _) != false) = true ↔ _
  rw [Bool.bne_false, PersistentSet.contains_ofSeq]
  simp only [mem_map, mem_range]
  constructor
  · rintro ⟨n, hn, rfl⟩
    omega
  · exact fun h => ⟨(i - l).toNat, by omega, by omega⟩

omit [HashOrder ℤ] in
/-- A region of one point lists it, and nothing else. -/
theorem machine_atom {r : Points ℤ} {i : ℤ} (h : ∀ j, r.contains j = true ↔ j = i) :
    (⟨r.points.map fun e => (BitVec.ofInt 32 e.1, e.2), r.thrown⟩ : Points (BitVec 32)).contains
      (BitVec.ofInt 32 i) = true := by
  obtain ⟨points, thrown⟩ := r
  cases thrown with
  | true =>
    -- only finitely many points are left out
    obtain ⟨j, hj⟩ := Infinite.exists_notMem_finset (insert i (PersistentDict.keys points).toFinset)
    rw [Finset.mem_insert, not_or, mem_toFinset, ← PersistentSet.contains_iff] at hj
    exact absurd ((h j).mp (by simp [contains, hj.2])) hj.1
  | false =>
    have hi : PersistentSet.contains i points = true := by simpa [contains] using (h i).mpr rfl
    rw [PersistentSet.contains_iff, PersistentDict.mem_keys] at hi
    obtain ⟨v, hv⟩ := hi
    rw [contains, Bool.bne_false, PersistentSet.contains_iff, PersistentDict.mem_keys]
    exact ⟨v, mem_map.mpr ⟨(i, v), hv, rfl⟩⟩

end Points

section
variable [HashOrder ℤ]

omit [HashOrder ℤ] in
/-- A valid region of one point has a rectangle, and all its rectangles are that point. -/
theorem ProductRegion.rects_of_atom {A B P Q : Type} [IRegion A] [IRegion B] {cA : A → P → Bool}
    {cB : B → Q → Bool} {vA : A → Prop} {vB : B → Prop} (hA : ExactOn cA vA) (hB : ExactOn cB vB)
    {r : ProductRegion A B} (hr : r.Valid vA vB) {a : P} {b : Q}
    (h : ∀ p, contains cA cB r p = true ↔ p = (a, b)) :
    ∀ rect ∈ r.products, CartesianRegions.ValidRect vA vB rect ∧
      (∀ x, cA rect.1 x = true ↔ x = a) ∧ ∀ y, cB rect.2 y = true ↔ y = b := by
  intro rect hrect
  have hvalid := hr.valid rect hrect
  have honly {x : P} {y : Q} (hx : cA rect.1 x = true) (hy : cB rect.2 y = true) :
      (x, y) = (a, b) :=
    (h (x, y)).mp (any_eq_true.mpr ⟨rect, hrect, by
      rw [CartesianRegions.inRect, hx, hy]
      rfl⟩)
  have hne : CartesianRegions.isEmpty rect = false := by
    refine hr.uniform.elim (fun hempty => ?_) fun hne => hne rect hrect
    obtain ⟨rect', hrect', hin⟩ := any_eq_true.mp ((h (a, b)).mpr rfl)
    have hno := (CartesianRegions.isEmpty_iff hA hB (hr.valid rect' hrect')).mp
      (hempty rect' hrect') (a, b)
    rw [hin] at hno
    cases hno
  obtain ⟨⟨x, y⟩, hxy⟩ := CartesianRegions.exists_of_isEmpty_false hA hB hvalid hne
  obtain ⟨hx, hy⟩ := Bool.and_eq_true_iff.mp hxy
  obtain ⟨rfl, rfl⟩ := Prod.mk.inj (honly hx hy)
  exact ⟨hvalid, fun x' => ⟨fun hx' => (Prod.mk.inj (honly hx' hy)).1, fun h => h ▸ hx⟩,
    fun y' => ⟨fun hy' => (Prod.mk.inj (honly hx hy')).2, fun h => h ▸ hy⟩⟩

/-- Every rectangle of a valid region of one point holds that point, at every depth. -/
theorem ListProduct.machine_atom : (n : ℕ) → {r : ListProduct (Points ℤ) n} → {is : Tuple ℤ n} →
    Valid (fun _ => True) n r → (∀ js, contains Points.contains n r js = true ↔ js = is) →
    inEvery Points.contains n (machine n r)
      (Tuple.ofList n ((Tuple.toList n is).map (BitVec.ofInt 32))) = true
  | 0, _, _, _, _ => rfl
  | n + 1, r, (i, is), hr, h => by
      have hA : ExactOn (Points.contains : Points ℤ → ℤ → Bool) fun _ => True :=
        ExactRegion.exactOn
      have hrects := ProductRegion.rects_of_atom hA (listProduct_exactOn hA n) hr h
      refine all_eq_true.mpr (forall_mem_map.mpr fun rect hrect => ?_)
      obtain ⟨hvalid, hfst, hsnd⟩ := hrects rect hrect
      exact Bool.and_eq_true_iff.mpr ⟨Points.machine_atom hfst, machine_atom n hvalid.2 hsnd⟩

end

/-! ### Keys of literals -/

/-- `makeNumber` of each index. -/
def indexLiterals (is : List ℤ) : List Term := is.map fun i => literal i .int32

/-- The indices are machine integers. -/
def MachineIndices (is : List ℤ) : Prop := ∀ i ∈ is, MachineInteger.InRange false 32 i

/-- The key of literals that denotes the cell. -/
def cellKey {rank : ℕ} (p : ArrayCell rank) : HeapArrayKey :=
  .oneArrayIndexKey (vt2Term p.1) (indexLiterals (Tuple.toList rank p.2))

/-- A range of literals under the address. -/
def rangeKey (a : VectorTime) (lowerBounds upperBounds : List ℤ) : HeapArrayKey :=
  .rangeArrayIndexKey (vt2Term a) (indexLiterals lowerBounds) (indexLiterals upperBounds)

section

variable {i : ℤ}

theorem toInt_ofInt_index (h : MachineInteger.InRange false 32 i) :
    (BitVec.ofInt 32 i).toInt = i := by
  have hin : -2 ^ 31 ≤ i ∧ i < 2 ^ 31 := h
  rw [BitVec.toInt_ofInt]
  exact Int.bmod_eq_of_le (by omega) (by omega)

variable [HashOrder ℤ] {rank : ℕ} {a : VectorTime}

theorem indexRegion_literal (h : MachineInteger.InRange false 32 i) :
    indexRegion (literal i .int32) = .singleton i :=
  congrArg Points.singleton (toInt_ofInt_index h)

theorem indexRangeRegion_literal {l u : ℤ} (hl : MachineInteger.InRange false 32 l)
    (hu : MachineInteger.InRange false 32 u) :
    indexRangeRegion (literal l .int32) (literal u .int32) = .range l u :=
  congrArg₂ Points.range (toInt_ofInt_index hl) (toInt_ofInt_index hu)

/-- The region of a key under a literal address: the address, with indices of their regions. -/
theorem contains_cellRegion {x : HeapArrayKey} (h : x.address = vt2Term a)
    (hrank : x.indicesRegion.length = rank) :
    ∃ reg, x.cellRegion rank = .ok reg ∧ ∀ q, ExactRegion.contains reg q = true ↔
      q.1 = a ∧ List.Forall₂ (fun r i => r.contains i = true) x.indicesRegion
        (Tuple.toList rank q.2) := by
  have haddress : validRegionOfHeapAddress x.address =
      .ok ⟨.singleton a, Intervals.canonical_closed le_rfl⟩ := by
    rw [h]
    rfl
  have hregion : x.cellRegion rank = .ok ⟨.productOf (.singleton a)
      (ListProduct.ofSeq rank (Tuple.ofList rank x.indicesRegion)),
      .productOf (Intervals.canonical_closed le_rfl) (.ofSeq _)⟩ := bind_ok haddress _
  refine ⟨_, hregion, fun q => ?_⟩
  show (Intervals.contains (.singleton a) q.1 && ListProduct.contains Points.contains rank
    (.ofSeq rank (Tuple.ofList rank x.indicesRegion)) q.2 || false) = true ↔ _
  rw [Bool.or_false, Bool.and_eq_true, ListProduct.contains_ofSeq, Tuple.toList_ofList rank hrank,
    Intervals.singleton, Intervals.contains_closed, Bool.and_eq_true, decide_eq_true_eq,
    decide_eq_true_eq]
  exact and_congr_left fun _ => ⟨fun h => le_antisymm h.2 h.1, fun h => ⟨h.ge, h.le⟩⟩

/-- The region of a key of literals is its cell. -/
theorem region_cellKey {p : ArrayCell rank} (h : MachineIndices (Tuple.toList rank p.2)) :
    ∃ reg, (cellKey p).cellRegion rank = .ok reg ∧ ∀ q, ExactRegion.contains reg q = true ↔
      q = p := by
  have hindices : (cellKey p).indicesRegion = (Tuple.toList rank p.2).map Points.singleton := by
    show ((Tuple.toList rank p.2).map _).map indexRegion = _
    rw [map_map]
    exact map_congr_left fun i hi => indexRegion_literal (h i hi)
  have hrank : (cellKey p).indicesRegion.length = rank := by
    rw [hindices, length_map, Tuple.length_toList]
  obtain ⟨reg, hreg, hcontains⟩ := contains_cellRegion rfl hrank
  refine ⟨reg, hreg, fun q => ?_⟩
  rw [hcontains, hindices, forall₂_map_left_iff]
  simp only [Points.contains_singleton]
  have heq : List.Forall₂ (fun x i => i = x) (Tuple.toList rank p.2) (Tuple.toList rank q.2) ↔
      q.2 = p.2 := by
    have hflip : (fun x i : ℤ => i = x) = Eq := funext₂ fun x i => propext eq_comm
    rw [hflip, forall₂_eq_eq_eq]
    exact ⟨fun h => (Tuple.toList_injective rank h).symm, fun h => h ▸ rfl⟩
  rw [heq, Prod.ext_iff]

/-- The region of a range of literals is a box of cells. -/
theorem region_rangeKey {lowerBounds upperBounds : List ℤ} (hl : MachineIndices lowerBounds)
    (hu : MachineIndices upperBounds) (hlower : lowerBounds.length = rank)
    (hupper : upperBounds.length = rank) :
    ∃ reg, (rangeKey a lowerBounds upperBounds).cellRegion rank = .ok reg ∧
      ∀ q, ExactRegion.contains reg q = true ↔ q.1 = a ∧
        List.Forall₂ (fun (b : ℤ × ℤ) i => b.1 ≤ i ∧ i ≤ b.2) (lowerBounds.zip upperBounds)
          (Tuple.toList rank q.2) := by
  have hindices : (rangeKey a lowerBounds upperBounds).indicesRegion =
      (lowerBounds.zip upperBounds).map fun b => Points.range b.1 b.2 := by
    show List.zipWith indexRangeRegion (lowerBounds.map _) (upperBounds.map _) = _
    rw [zipWith_map, ← map_uncurry_zip_eq_zipWith]
    refine map_congr_left fun b hb => ?_
    obtain ⟨hbl, hbu⟩ := of_mem_zip (a := b.1) (b := b.2) hb
    exact indexRangeRegion_literal (hl _ hbl) (hu _ hbu)
  have hrank : (rangeKey a lowerBounds upperBounds).indicesRegion.length = rank := by
    rw [hindices, length_map, length_zip, hlower, hupper, Nat.min_self]
  obtain ⟨reg, hreg, hcontains⟩ := contains_cellRegion rfl hrank
  refine ⟨reg, hreg, fun q => ?_⟩
  rw [hcontains, hindices, forall₂_map_left_iff]
  simp only [Points.contains_range]

end

/-! ### Keys without unions -/

section

theorem unguardGvs_eq {t : Term} (h : NotIte t) : unguardGvs t = [(trueTerm, t)] := by
  cases t with
  | ite bs e => exact absurd rfl (h bs e)
  | _ => rfl

theorem simplifyAnd_trueTerm : simplifyAnd trueTerm trueTerm = .ok trueTerm := by
  decide +kernel

theorem foldrM_unguardIndex {ts : List Term} (h : ∀ t ∈ ts, NotIte t) :
    ts.foldrM HeapArrayKey.unguardIndex [(trueTerm, [])] = .ok [(trueTerm, ts)] := by
  induction ts with
  | nil => rfl
  | cons t ts ih =>
    obtain ⟨ht, hts⟩ := forall_mem_cons.mp h
    rw [foldrM_cons, bind_ok (ih hts), HeapArrayKey.unguardIndex, unguardGvs_eq ht,
      mapM_cons, mapM_nil, mapM_cons, mapM_nil, bind_ok simplifyAnd_trueTerm]
    rfl

theorem foldrM_unguardBounds {bs : List (Term × Term)} (h : ∀ b ∈ bs, NotIte b.1 ∧ NotIte b.2) :
    bs.foldrM HeapArrayKey.unguardBounds [(trueTerm, [], [])] =
      .ok [(trueTerm, bs.map Prod.fst, bs.map Prod.snd)] := by
  induction bs with
  | nil => rfl
  | cons b bs ih =>
    obtain ⟨hb, hbs⟩ := forall_mem_cons.mp h
    rw [foldrM_cons, bind_ok (ih hbs), HeapArrayKey.unguardBounds, unguardGvs_eq hb.1,
      unguardGvs_eq hb.2, mapM_cons, mapM_nil, mapM_cons, mapM_nil,
      mapM_cons, mapM_nil, bind_ok simplifyAnd_trueTerm, bind_ok simplifyAnd_trueTerm]
    rfl

/-- A key without unions stands for itself. -/
theorem unguard_oneArrayIndexKey {address : Term} {indices : List Term} (ha : NotIte address)
    (h : ∀ i ∈ indices, NotIte i) :
    (HeapArrayKey.oneArrayIndexKey address indices).unguard =
      .ok [(trueTerm, .oneArrayIndexKey address indices)] := by
  rw [HeapArrayKey.unguard, bind_ok (foldrM_unguardIndex (forall_mem_cons.mpr ⟨ha, h⟩))]
  rfl

theorem unguard_rangeArrayIndexKey {address : Term} {lbs ubs : List Term} (ha : NotIte address)
    (hlen : lbs.length = ubs.length) (hl : ∀ l ∈ lbs, NotIte l) (hu : ∀ u ∈ ubs, NotIte u) :
    (HeapArrayKey.rangeArrayIndexKey address lbs ubs).unguard =
      .ok [(trueTerm, .rangeArrayIndexKey address lbs ubs)] := by
  have hbounds : ∀ b ∈ lbs.zip ubs, NotIte b.1 ∧ NotIte b.2 := fun b hb =>
    ⟨hl _ (of_mem_zip (a := b.1) (b := b.2) hb).1, hu _ (of_mem_zip (a := b.1) (b := b.2) hb).2⟩
  rw [HeapArrayKey.unguard, bind_ok (foldrM_unguardBounds hbounds), unguardGvs_eq ha,
    mapM_cons, mapM_nil, mapM_cons, mapM_nil, bind_ok simplifyAnd_trueTerm,
    map_fst_zip hlen.le, map_snd_zip hlen.ge]
  rfl

theorem notIte_indexLiterals {is : List ℤ} : ∀ t ∈ indexLiterals is, NotIte t :=
  forall_mem_map.mpr fun _ _ => nofun

theorem unguard_cellKey {rank : ℕ} (p : ArrayCell rank) :
    (cellKey p).unguard = .ok [(trueTerm, cellKey p)] :=
  unguard_oneArrayIndexKey nofun notIte_indexLiterals

end

/-! ### Conditions of keys of literals -/

section
variable [HashOrder FieldId] {rank : ℕ} {lbs ubs : List Term}

theorem tests_lessOrEqual_index {x y : Term} (hx : IndexTerm x) (hy : IndexTerm y) :
    Tests (simplifyLessOrEqual · x y) fun ρ =>
      (x.value ρ.toValuation 32).sle (y.value ρ.toValuation 32) :=
  (simplifyComparison_spec .int32 hx.1 hy.1 hx.2 hy.2 (c := .lessOrEqual) (by decide)).mono
    fun _ hr => ⟨hr.1, fun ρ => hr.2 ρ.toValuation⟩

/-- The index lies between the bounds. -/
def inBounds (ρ : AddressValuation) (i : Term) (bounds : Term × Term) : Bool :=
  (bounds.1.value ρ.toValuation 32).sle (i.value ρ.toValuation 32) &&
    (i.value ρ.toValuation 32).sle (bounds.2.value ρ.toValuation 32)

theorem CellKey.intersectionCondition_range_tests (x : CellKey rank) {address : Term}
    (haddress : AddressTerm address) (hbounds : lbs.length = ubs.length)
    (hlen : x.indices.length = lbs.length) (hlbs : ∀ l ∈ lbs, IndexTerm l)
    (hubs : ∀ u ∈ ubs, IndexTerm u) :
    Tests (x.key.intersectionCondition · (.rangeArrayIndexKey address lbs ubs)) fun ρ =>
      decide (ρ.address x.address = ρ.address address) &&
        (x.indices.zip (lbs.zip ubs)).all fun b => inBounds ρ b.1 b.2 := by
  have hzip : x.indices.length = (lbs.zip ubs).length := by
    rw [length_zip, ← hbounds, Nat.min_self, hlen]
  have hindices : ∀ b ∈ x.indices.zip (lbs.zip ubs),
      Tests (simplifyLessOrEqual · b.2.1 b.1) (fun ρ =>
        (b.2.1.value ρ.toValuation 32).sle (b.1.value ρ.toValuation 32)) ∧
      Tests (simplifyLessOrEqual · b.1 b.2.2) fun ρ =>
        (b.1.value ρ.toValuation 32).sle (b.2.2.value ρ.toValuation 32) := by
    intro b hb
    obtain ⟨hi, hlu⟩ := of_mem_zip (a := b.1) (b := b.2) hb
    obtain ⟨hl, hu⟩ := of_mem_zip (a := b.2.1) (b := b.2.2) hlu
    exact ⟨tests_lessOrEqual_index (hlbs _ hl) (x.index_terms _ hi),
      tests_lessOrEqual_index (x.index_terms _ hi) (hubs _ hu)⟩
  filter_upwards [tests_equal x.address_term haddress,
    eventually_forall_mem fun b hb => (hindices b hb).1,
    eventually_forall_mem fun b hb => (hindices b hb).2] with n haddress hlower hupper
  refine haddress.bind fun e _ he => ?_
  rw [Run.zip_eq hbounds, pure_bind, Run.fold2, Run.zip_eq hzip, pure_bind]
  refine (Run.Gives.foldlM (P := fun done c => Tells (fun ρ =>
    decide (ρ.address x.address = ρ.address address) && done.all fun b => inBounds ρ b.1 b.2) c)
    (d := []) (fun done c b hb hc => ?_) (he.congr fun ρ => by simp)).mono fun r _ hr => by
      rwa [nil_append] at hr
  refine (hlower b hb).bind fun c₁ _ h₁ => (hupper b hb).bind fun c₂ _ h₂ =>
    (h₁.and h₂).bind fun d _ hd => (hc.and hd).mono fun r _ hr => hr.congr fun ρ => ?_
  simp [inBounds, Bool.and_assoc]

/-- A cell as a key of the code. -/
def ArrayCell.key (p : ArrayCell rank) (h : MachineIndices (Tuple.toList rank p.2)) :
    CellKey rank where
  address := vt2Term p.1
  indices := indexLiterals (Tuple.toList rank p.2)
  address_term := addressTerm_vt2Term p.1
  length_indices := by rw [indexLiterals, length_map, Tuple.length_toList]
  index_terms := forall_mem_map.mpr fun i hi => ⟨.literal (h i hi), .leaf nofun⟩

variable [HashOrder ℤ] {p : ArrayCell rank} (h : MachineIndices (Tuple.toList rank p.2))
  {r : CellRegion rank} (hr : ∀ q, ExactRegion.contains r q = true ↔ q = p)

include h hr

/-- The key of a cell is in every region that is the cell. -/
theorem inRegionCondition_atom :
    Tests ((cellKey p).inRegionCondition · r.machine) fun _ => true := by
  have hA : ExactOn (Points.contains : Points ℤ → ℤ → Bool) fun _ => True := ExactRegion.exactOn
  have hrects := ProductRegion.rects_of_atom Intervals.canonical_exactOn
    (ListProduct.listProduct_exactOn hA rank) (r.2.valid Intervals.canonical_exactOn hA) hr
  have halternate : ∀ rect ∈ r.machine.products, EndpointsAlternate rect.1 :=
    forall_mem_map.mpr fun rect hrect => (hrects rect hrect).1.1.alternates
  refine ((ArrayCell.key p h).inRegionCondition_tests halternate).congr fun ρ => ?_
  refine all_eq_true.mpr (forall_mem_map.mpr fun rect hrect => ?_)
  obtain ⟨hvalid, hfst, hsnd⟩ := hrects rect hrect
  have hindices : (indexLiterals (Tuple.toList rank p.2)).map (value ρ.toValuation 32) =
      (Tuple.toList rank p.2).map (BitVec.ofInt 32) := by
    rw [indexLiterals, map_map]
    exact map_congr_left fun i _ => value_literal i .int32 ρ.toValuation
  refine Bool.and_eq_true_iff.mpr ⟨?_, ?_⟩
  · show Intervals.contains rect.1 (ρ.address (vt2Term p.1)) = true
    rw [address_vt2Term]
    exact (hfst p.1).mpr rfl
  · show ListProduct.inEvery Points.contains rank (ListProduct.machine rank rect.2)
      (Tuple.ofList rank ((indexLiterals (Tuple.toList rank p.2)).map (value ρ.toValuation 32))) =
        true
    rw [hindices]
    exact ListProduct.machine_atom rank hvalid.2 hsnd

/-- The key of a cell matches itself. -/
theorem matchCondition_cellKey :
    Tests ((cellKey p).matchCondition · (cellKey p) r.machine) fun _ => true := by
  refine (((ArrayCell.key p h).intersectionCondition_tests (ArrayCell.key p h)).and
    (inRegionCondition_atom h hr)).congr fun ρ => ?_
  simp [CellKey.same]

/-- The key of a cell matches a range where its indices are between the bounds. -/
theorem matchCondition_range (hlen : lbs.length = rank) (hlen' : ubs.length = rank)
    (hlbs : ∀ l ∈ lbs, IndexTerm l) (hubs : ∀ u ∈ ubs, IndexTerm u) :
    Tests ((cellKey p).matchCondition · (.rangeArrayIndexKey (vt2Term p.1) lbs ubs) r.machine)
      fun ρ => ((indexLiterals (Tuple.toList rank p.2)).zip (lbs.zip ubs)).all fun b =>
        inBounds ρ b.1 b.2 := by
  refine (((ArrayCell.key p h).intersectionCondition_range_tests (addressTerm_vt2Term p.1)
    (hlen.trans hlen'.symm) ((ArrayCell.key p h).length_indices.trans hlen.symm) hlbs hubs).and
    (inRegionCondition_atom h hr)).congr fun ρ => ?_
  simp [ArrayCell.key]

end
end VSharp
