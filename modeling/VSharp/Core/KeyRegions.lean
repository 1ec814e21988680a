import VSharp.Core.AddressComparisons
import VSharp.Core.ArrayKeys
import VSharp.Core.IntegralTerms
import VSharp.Utils.ProductRegions

/-!
# Core — KeyRegions

The conditions of `VSharp.SILI.Core/MemoryRegion.fs` under which a key lies in a region:
`InRegionCondition`, `IntersectionCondition` and `MatchCondition` of `heapArrayKey` and
`heapVectorIndexKey`.

- a cell is a time with one index or several, a region is a list of rectangles (`holdsCell`);
- `inRegionCondition_tests`: the condition asks every side of every rectangle for its coordinate, at
  every depth, where one rectangle would do;
- `inRegionCondition_iff`: so it is membership exactly where the rectangles agree on the cell.
-/

namespace VSharp
open Term Propositional Merging Library List Endpoint

/-! ### The code -/

namespace Run
variable {α β γ : Type}

def zip (as : List α) (bs : List β) : Run (List (α × β)) := map2 (fun a b => pure (a, b)) as bs

def fold2 (f : γ → α → β → Run γ) (acc : γ) (as : List α) (bs : List β) : Run γ := do
  (← zip as bs).foldlM (fun acc p => f acc p.1 p.2) acc

theorem zip_map {ε : Type} (f : ε → α) (g : ε → β) (l : List ε) :
    zip (l.map f) (l.map g) = pure (l.map fun e => (f e, g e)) := by
  induction l with
  | nil => rfl
  | cons e l ih =>
    rw [zip] at ih
    rw [zip, map_cons, map_cons, map2, ih]
    rfl

theorem zip_eq {as : List α} {bs : List β} (h : as.length = bs.length) :
    zip as bs = pure (as.zip bs) := by
  induction as generalizing bs with
  | nil =>
    cases bs with
    | nil => rfl
    | cons => cases h
  | cons a as ih =>
    cases bs with
    | nil => cases h
    | cons b bs =>
      have hrest := ih (Nat.succ.inj h)
      rw [zip] at hrest
      rw [zip, map2, hrest]
      rfl

end Run

namespace Tuple

/-- The first `n` elements of a list. -/
def ofList {P : Type} [Inhabited P] : (n : ℕ) → List P → Tuple P n
  | 0, _ => ()
  | n + 1, xs => (xs.headD default, ofList n xs.tail)

end Tuple

namespace Term

mutual

def timeOf : Term → Except Failure VectorTime
  | .concrete (.address addr) .address => .ok addr
  | .constant source _ => .ok source.time
  | .heapRef address _ => timeOf address
  | .ite branches e => do timeOfBranches branches (← timeOf e)
  | _ => .error (.internal "timeOf : expected heap address")
termination_by structural address => address

/-- The fold over the branches. -/
def timeOfBranches : List (Term × Term) → VectorTime → Except Failure VectorTime
  | [], m => .ok m
  | (_, v) :: branches, m => do timeOfBranches branches (VectorTime.max m (← timeOf v))
termination_by structural branches => branches

end

end Term

namespace MemoryKeyUtils

section
variable [HashOrder (BitVec 32)]

def regionOfHeapAddress : Term → Except Failure (Intervals VectorTime)
  | .concrete (.address addr) .address => .ok (.singleton addr)
  | addr => do .ok (.closed VectorTime.minfty (← timeOf addr))

def extractInt : Term → Option (BitVec 32)
  | .concrete (.int value) .int32 | .concrete (.int value) .uint32 => some (BitVec.ofInt 32 value)
  | _ => none

def regionOfIntegerTerm (x : Term) : Points (BitVec 32) :=
  match extractInt x with
  | some value => .singleton value
  | none => .all

/-- `points.Range`, of machine integers. -/
def range (lowerBound upperBound : BitVec 32) : Points (BitVec 32) :=
  ⟨PersistentSet.ofSeq ((List.range (upperBound.toInt + 1 - lowerBound.toInt).toNat).map
    fun i : ℕ => BitVec.ofInt 32 (lowerBound.toInt + i)), false⟩

def regionOfIntegerRange (lowerBound upperBound : Term) : Points (BitVec 32) :=
  match extractInt lowerBound, extractInt upperBound with
  | some lb, some ub => range lb ub
  | _, _ => .all

end

instance : Inhabited (Points (BitVec 32)) := ⟨.all⟩

section
variable [HashOrder FieldId]

def vt2Term (time : VectorTime) : Term := .concrete (.address time) .address

def processOne (n : ℕ) (key : Term) (left right : Endpoint VectorTime) : Run Term :=
  match left.sort, right.sort with
  | .closedLeft, .closedRight => do
      .lift (simplifyAnd (← simplifyLessOrEqual n (vt2Term left.elem) key)
        (← simplifyLessOrEqual n key (vt2Term right.elem)))
  | .openLeft, .closedRight => do
      .lift (simplifyAnd (← simplifyLess n (vt2Term left.elem) key)
        (← simplifyLessOrEqual n key (vt2Term right.elem)))
  | .closedLeft, .openRight => do
      .lift (simplifyAnd (← simplifyLessOrEqual n (vt2Term left.elem) key)
        (← simplifyLess n key (vt2Term right.elem)))
  | .openLeft, .openRight => do
      .lift (simplifyAnd (← simplifyLess n (vt2Term left.elem) key)
        (← simplifyLess n key (vt2Term right.elem)))
  | _, _ => .fail (.internal "unreachable")

def heapAddressInVectorTimeIntervals (n : ℕ) (key : Term) (region : Intervals VectorTime) :
    Run Term := do
  let (left, right) := region.points.partition isLeft
  let intervals ← Run.zip left right
  intervals.foldlM (fun acc p => do
    .lift (simplifyOr acc (← processOne n key p.1 p.2))) (makeBool false)

def keyInIntPoints (n : ℕ) (key : Term) (region : Points (BitVec 32)) : Run Term := do
  let inPoints ← (PersistentDict.keys region.points).foldlM (fun acc p => do
    .lift (simplifyOr acc (← simplifyEqual n key (literal p.toInt .int32))))
    (makeBool false)
  if region.thrown then .lift (simplifyNegation inPoints) else pure inPoints

def keyInProductRegion {A B : Type} (keyInFst : A → Run Term) (keyInSnd : B → Run Term)
    (region : ProductRegion A B) : Run Term :=
  region.products.foldlM (fun acc rect => do
    let acc ← .lift (simplifyAnd acc (← keyInFst rect.1))
    .lift (simplifyAnd acc (← keyInSnd rect.2))) (makeBool true)

def keysInListProductRegion (n : ℕ) :
    (rank : ℕ) → List Term → ListProduct (Points (BitVec 32)) rank → Run Term
  | 0, [], _ => pure (makeBool true)
  | rank + 1, curr :: rest, products =>
    keyInProductRegion (keyInIntPoints n curr) (keysInListProductRegion n rank rest) products
  | _, _, _ => .fail (.internal "unreachable")

end

end MemoryKeyUtils

open MemoryKeyUtils

/-- `productRegion<vectorTime intervals, int points listProductRegion>`, of rank `n`. -/
abbrev ArrayKeyRegion (n : ℕ) : Type :=
  ProductRegion (Intervals VectorTime) (ListProduct (Points (BitVec 32)) n)

/-- `productRegion<vectorTime intervals, int points>`. -/
abbrev VectorKeyRegion : Type := ProductRegion (Intervals VectorTime) (Points (BitVec 32))

namespace HeapArrayKey

/-- `Region`, of a key of rank `n`. -/
def region [HashOrder (BitVec 32)] (n : ℕ) (x : HeapArrayKey) :
    Except Failure (ArrayKeyRegion n) := do
  let (address, indicesRegion) := match x with
    | .oneArrayIndexKey address indices => (address, indices.map regionOfIntegerTerm)
    | .rangeArrayIndexKey address lowerBounds upperBounds =>
      (address, List.zipWith regionOfIntegerRange lowerBounds upperBounds)
  .ok (.productOf (← regionOfHeapAddress address)
    (ListProduct.ofSeq n (Tuple.ofList n indicesRegion)))

section
variable [HashOrder FieldId]

def inRegionCondition (n : ℕ) {rank : ℕ} (x : HeapArrayKey) (region : ArrayKeyRegion rank) :
    Run Term :=
  match x with
  | .oneArrayIndexKey address indices =>
    keyInProductRegion (heapAddressInVectorTimeIntervals n address)
      (keysInListProductRegion n rank indices) region
  | .rangeArrayIndexKey _ _ _ =>
    .fail (.internal "InRegionCondition for RangeArrayIndexKey is not implemented")

def inBounds (n : ℕ) (acc i : Term) (bounds : Term × Term) : Run Term := do
  .lift (simplifyAnd acc (← .lift (simplifyAnd
    (← simplifyLessOrEqual n bounds.1 i) (← simplifyLessOrEqual n i bounds.2))))

def intersectionCondition (n : ℕ) (x key : HeapArrayKey) : Run Term :=
  match x, key with
  | .oneArrayIndexKey address indices, .oneArrayIndexKey keyAddress keyIndices => do
      let addressesAreEqual ← simplifyEqual n address keyAddress
      Run.fold2 (fun acc i j => do .lift (simplifyAnd acc (← simplifyEqual n i j)))
        addressesAreEqual indices keyIndices
  | .oneArrayIndexKey address indices, .rangeArrayIndexKey keyAddress keyLbs keyUbs => do
      let addressesAreEqual ← simplifyEqual n address keyAddress
      Run.fold2 (inBounds n) addressesAreEqual indices (← Run.zip keyLbs keyUbs)
  | .rangeArrayIndexKey address lbs ubs, .oneArrayIndexKey keyAddress keyIndices => do
      let addressesAreEqual ← simplifyEqual n address keyAddress
      Run.fold2 (inBounds n) addressesAreEqual keyIndices (← Run.zip lbs ubs)
  | .rangeArrayIndexKey _ _ _, .rangeArrayIndexKey _ _ _ =>
    .fail (.internal "MatchCondition for RangeArrayIndexKey is not implemented")

def matchCondition (n : ℕ) {rank : ℕ} (x key : HeapArrayKey)
    (keyIndexingRegion : ArrayKeyRegion rank) : Run Term := do
  let keysAreEqual ← x.intersectionCondition n key
  match x, key with
  | .oneArrayIndexKey _ _, .rangeArrayIndexKey _ _ _ =>
    .lift (simplifyAnd keysAreEqual (← x.inRegionCondition n keyIndexingRegion))
  | _, _ =>
    .lift (simplifyAnd keysAreEqual (← key.inRegionCondition n keyIndexingRegion))

end

end HeapArrayKey

structure HeapVectorIndexKey where
  address : Term
  index : Term

namespace HeapVectorIndexKey

def region [HashOrder (BitVec 32)] (x : HeapVectorIndexKey) : Except Failure VectorKeyRegion := do
  .ok (.productOf (← regionOfHeapAddress x.address) (regionOfIntegerTerm x.index))

section
variable [HashOrder FieldId]

def inRegionCondition (n : ℕ) (x : HeapVectorIndexKey) (region : VectorKeyRegion) : Run Term :=
  keyInProductRegion (heapAddressInVectorTimeIntervals n x.address) (keyInIntPoints n x.index)
    region

def intersectionCondition (n : ℕ) (x key : HeapVectorIndexKey) : Run Term := do
  .lift (simplifyAnd (← simplifyEqual n x.address key.address)
    (← simplifyEqual n x.index key.index))

def matchCondition (n : ℕ) (x key : HeapVectorIndexKey) (keyIndexingRegion : VectorKeyRegion) :
    Run Term := do
  let keysAreEqual ← x.intersectionCondition n key
  .lift (simplifyAnd keysAreEqual (← x.inRegionCondition n keyIndexingRegion))

end

end HeapVectorIndexKey

/-! ### Conditions on addresses -/

section
variable [HashOrder FieldId] {x y key : Term} {left right : Endpoint VectorTime}

section
variable (hx : AddressTerm x) (hy : AddressTerm y)

include hx hy

theorem tests_equal : Tests (simplifyEqual · x y) fun ρ => decide (ρ.address x = ρ.address y) := by
  have h := simplifyComparison_address .equal hx hy
  rwa [show AddressComparison.equal.resultIfSame = true by decide] at h

theorem tests_less : Tests (simplifyLess · x y) fun ρ => decide (ρ.address x < ρ.address y) := by
  have h := simplifyComparison_address .less hx hy
  rwa [show AddressComparison.less.resultIfSame = false by decide] at h

theorem tests_lessOrEqual :
    Tests (simplifyLessOrEqual · x y) fun ρ => decide (ρ.address x ≤ ρ.address y) := by
  have h := simplifyComparison_address .lessOrEqual hx hy
  rwa [show AddressComparison.lessOrEqual.resultIfSame = true by decide] at h

end

omit [HashOrder FieldId] in
theorem addressTerm_vt2Term (time : VectorTime) : AddressTerm (vt2Term time) :=
  .leaf nofun (.concrete time)

omit [HashOrder FieldId] in
theorem address_vt2Term (ρ : AddressValuation) (time : VectorTime) :
    ρ.address (vt2Term time) = time :=
  ρ.address_concrete time

/-- A left and a right endpoint: the address lies between them. -/
theorem processOne_tests (hkey : AddressTerm key) (hleft : left.isLeft = true)
    (hright : right.isLeft = false) :
    Tests (processOne · key left right) fun ρ =>
      passed (ρ.address key) left && !passed (ρ.address key) right := by
  obtain ⟨a, s⟩ := left
  obtain ⟨b, s'⟩ := right
  have ha := addressTerm_vt2Term a
  have hb := addressTerm_vt2Term b
  cases s with
  | openRight | closedRight => cases hleft
  | closedLeft =>
    cases s' with
    | closedLeft | openLeft => cases hright
    | closedRight =>
      exact ((tests_lessOrEqual ha hkey).and (tests_lessOrEqual hkey hb)).congr fun ρ => by
        rw [Bool.eq_iff_iff]
        simp [passed_eq, EndpointSort.rank, address_vt2Term]
    | openRight =>
      exact ((tests_lessOrEqual ha hkey).and (tests_less hkey hb)).congr fun ρ => by
        rw [Bool.eq_iff_iff]
        simp [passed_eq, EndpointSort.rank, address_vt2Term]
  | openLeft =>
    cases s' with
    | closedLeft | openLeft => cases hright
    | closedRight =>
      exact ((tests_less ha hkey).and (tests_lessOrEqual hkey hb)).congr fun ρ => by
        rw [Bool.eq_iff_iff]
        simp [passed_eq, EndpointSort.rank, address_vt2Term]
    | openRight =>
      exact ((tests_less ha hkey).and (tests_less hkey hb)).congr fun ρ => by
        rw [Bool.eq_iff_iff]
        simp [passed_eq, EndpointSort.rank, address_vt2Term]

omit [HashOrder FieldId] in
/-- The intervals of a list that alternates. -/
theorem exists_intervals : ∀ {l : List (Endpoint VectorTime)}, Intervals.Alternates false l →
    ∃ intervals : List (Endpoint VectorTime × Endpoint VectorTime),
      l.partition isLeft = (intervals.map Prod.fst, intervals.map Prod.snd) ∧
      (∀ e ∈ intervals, e.1.isLeft = true ∧ e.2.isLeft = false) ∧
      ∀ p, Intervals.within p l = intervals.any fun e => passed p e.1 && !passed p e.2
  | [], _ => ⟨[], rfl, nofun, fun _ => rfl⟩
  | [x], h => by
      have hend : (!false) = false := h.2
      cases hend
  | x :: y :: l, ⟨hx, hy, h⟩ => by
      obtain ⟨intervals, hpartition, hsides, hwithin⟩ := exists_intervals h
      rw [partition_eq_filter_filter, Prod.mk.injEq] at hpartition
      have hx : x.isLeft = true := hx
      have hy : y.isLeft = false := hy
      refine ⟨(x, y) :: intervals, ?_, forall_mem_cons.mpr ⟨⟨hx, hy⟩, hsides⟩, fun p => ?_⟩
      · rw [partition_eq_filter_filter]
        simp [hx, hy, ← hpartition.1, ← hpartition.2]
      · rw [Intervals.within, hwithin, any_cons]

theorem heapAddressInVectorTimeIntervals_tests (hkey : AddressTerm key)
    {region : Intervals VectorTime} (hregion : Intervals.Alternates false region.points) :
    Tests (heapAddressInVectorTimeIntervals · key region) fun ρ =>
      region.contains (ρ.address key) := by
  obtain ⟨intervals, hpartition, hsides, hwithin⟩ := exists_intervals hregion
  refine Tests.congr (φ := fun ρ => intervals.any fun e =>
    passed (ρ.address key) e.1 && !passed (ρ.address key) e.2) ?_
    fun ρ => (hwithin _).symm
  have hfold := Tests.foldlM_or (f := fun n e => processOne n key e.1 e.2)
    fun e he => processOne_tests hkey (hsides e he).1 (hsides e he).2
  refine hfold.of_eq fun n => ?_
  rw [heapAddressInVectorTimeIntervals, hpartition]
  dsimp only
  rw [Run.zip_map, pure_bind, map_id']

end

/-! ### Conditions on indices -/

section
variable [HashOrder FieldId] {key : Term}

/-- An index as the code builds it: its guards are truth values or reduced formulas. -/
def IndexTerm (x : Term) : Prop := Numeral .int32 x ∧ Guarded Simple x

theorem tests_equal_index {x y : Term} (hx : IndexTerm x) (hy : IndexTerm y) :
    Tests (simplifyEqual · x y) fun ρ =>
      decide (x.value ρ.toValuation 32 = y.value ρ.toValuation 32) :=
  (simplifyComparison_spec .int32 hx.1 hy.1 hx.2 hy.2 (c := .equal) (by decide)).mono
    fun _ hr => ⟨hr.1, fun ρ => hr.2 ρ.toValuation⟩

theorem keyInIntPoints_tests (hkey : IndexTerm key) (region : Points (BitVec 32)) :
    Tests (keyInIntPoints · key region) fun ρ => region.contains (key.value ρ.toValuation 32) := by
  have hliteral (p : BitVec 32) : IndexTerm (literal p.toInt .int32) :=
    ⟨.literal ⟨BitVec.le_toInt p, BitVec.toInt_lt⟩, .leaf nofun⟩
  have hfold := Tests.foldlM_or (l := PersistentDict.keys region.points)
    (f := fun n p => simplifyEqual n key (literal p.toInt .int32))
    fun p _ => tests_equal_index hkey (hliteral p)
  have hpoints (ρ : AddressValuation) : ((PersistentDict.keys region.points).any fun p =>
      decide (key.value ρ.toValuation 32 = (literal p.toInt .int32).value ρ.toValuation 32)) =
      PersistentSet.contains (key.value ρ.toValuation 32) region.points := by
    have hvalue (p : BitVec 32) : (literal p.toInt .int32).value ρ.toValuation 32 = p :=
      (value_literal p.toInt .int32 ρ.toValuation).trans (BitVec.ofInt_toInt)
    simp only [hvalue]
    rw [Bool.eq_iff_iff]
    simp [PersistentSet.contains]
  cases hthrown : region.thrown with
  | false =>
    refine (hfold.of_eq fun n => ?_).congr fun ρ => ?_
    · rw [keyInIntPoints, hthrown]
      exact bind_pure _
    · rw [hpoints, Points.contains, hthrown, Bool.bne_false]
  | true =>
    refine (hfold.not.of_eq fun n => ?_).congr fun ρ => ?_
    · rw [keyInIntPoints, hthrown]
      rfl
    · rw [hpoints, Points.contains, hthrown, Bool.bne_true]

end

/-! ### Conditions on rectangles -/

section

/-- Every rectangle is asked. -/
theorem keyInProductRegion_tests {A B P Q : Type} {f : ℕ → A → Run Term} {g : ℕ → B → Run Term}
    {region : ProductRegion A B} {cA : A → P → Bool} {cB : B → Q → Bool}
    {p : AddressValuation → P × Q}
    (hfst : ∀ rect ∈ region.products, Tests (f · rect.1) fun ρ => cA rect.1 (p ρ).1)
    (hsnd : ∀ rect ∈ region.products, Tests (g · rect.2) fun ρ => cB rect.2 (p ρ).2) :
    Tests (fun n => keyInProductRegion (f n) (g n) region) fun ρ =>
      region.inEvery cA cB (p ρ) := by
  filter_upwards [eventually_forall_mem hfst, eventually_forall_mem hsnd] with n hfst hsnd
  refine Run.Gives.foldlM (P := fun done c => Tells (fun ρ =>
    done.all (CartesianRegions.inRect cA cB · (p ρ))) c) (d := [])
    (fun done c rect hrect hc => ?_) (.truth true)
  refine (hfst rect hrect).bind fun d _ hd => (hc.and hd).bind fun c' _ hc' => ?_
  refine (hsnd rect hrect).bind fun d' _ hd' => (hc'.and hd').mono fun r _ hr => hr.congr fun ρ => ?_
  simp [CartesianRegions.inRect, Bool.and_assoc]

variable [HashOrder FieldId]

theorem keysInListProductRegion_tests : (rank : ℕ) → {keys : List Term} → keys.length = rank →
    (∀ key ∈ keys, IndexTerm key) → (region : ListProduct (Points (BitVec 32)) rank) →
    Tests (keysInListProductRegion · rank keys region) fun ρ =>
      ListProduct.inEvery Points.contains rank region
        (Tuple.ofList rank (keys.map (value ρ.toValuation 32)))
  | 0, [], _, _, _ => Tests.truth true
  | rank + 1, curr :: rest, hlen, hkeys, region => by
      obtain ⟨hcurr, hrest⟩ := forall_mem_cons.mp hkeys
      exact keyInProductRegion_tests (fun rect _ => keyInIntPoints_tests hcurr rect.1)
        fun rect _ => keysInListProductRegion_tests rank (Nat.succ.inj hlen) hrest rect.2

end

/-! ### Regions made of the regions of keys -/

section
variable [HashOrder (BitVec 32)] {n : ℕ}

/-- The regions of array keys of rank `n`, and what the operations make of them. -/
inductive HeapArrayKey.Built {n : ℕ} : ArrayKeyRegion n → Prop where
  | region (key : HeapArrayKey) {r : ArrayKeyRegion n} (hrank : key.OfRank n)
      (h : key.region n = .ok r) : Built r
  | intersect {r s : ArrayKeyRegion n} (hr : Built r) (hs : Built s) : Built (IRegion.intersect r s)
  | subtract {r s : ArrayKeyRegion n} (hr : Built r) (hs : Built s) : Built (IRegion.subtract r s)

/-- The regions of vector keys, and what the operations make of them. -/
inductive HeapVectorIndexKey.Built : VectorKeyRegion → Prop where
  | region {key : HeapVectorIndexKey} {r : VectorKeyRegion} (h : key.region = .ok r) : Built r
  | intersect {r s : VectorKeyRegion} (hr : Built r) (hs : Built s) : Built (IRegion.intersect r s)
  | subtract {r s : VectorKeyRegion} (hr : Built r) (hs : Built s) : Built (IRegion.subtract r s)

/-- The endpoints take turns. -/
def EndpointsAlternate (region : Intervals VectorTime) : Prop :=
  Intervals.Alternates false region.points

omit [HashOrder (BitVec 32)] in
theorem alternate_regionOfHeapAddress {address : Term} {r : Intervals VectorTime}
    (h : regionOfHeapAddress address = .ok r) : EndpointsAlternate r := by
  unfold regionOfHeapAddress at h
  split at h
  · cases h
    exact ⟨rfl, rfl, rfl⟩
  · obtain ⟨time, -, h⟩ := bind_eq_ok h
    cases h
    exact ⟨rfl, rfl, rfl⟩

theorem kept_alternate {B : Type} [IRegion B] {vB : B → Prop}
    (hB : CartesianRegions.Kept (fun _ : Points (BitVec 32) => True) vB) :
    CartesianRegions.Kept EndpointsAlternate vB where
  intersect_fst h h' := Intervals.combine_alternates Intervals.emits_intersect h h'
  subtract_fst h h' := Intervals.combine_alternates Intervals.emits_subtract h h'
  intersect_snd := hB.intersect_snd
  subtract_snd := hB.subtract_snd

/-- The region of a key is one rectangle. -/
theorem HeapArrayKey.region_eq_productOf {key : HeapArrayKey} {r : ArrayKeyRegion n}
    (h : key.region n = .ok r) : ∃ (i : Intervals VectorTime) (xs : Tuple (Points (BitVec 32)) n),
      EndpointsAlternate i ∧ r = .productOf i (ListProduct.ofSeq n xs) := by
  cases key with
  | oneArrayIndexKey address indices =>
    obtain ⟨i, hi, h⟩ := bind_eq_ok h
    cases h
    exact ⟨i, _, alternate_regionOfHeapAddress hi, rfl⟩
  | rangeArrayIndexKey address lowerBounds upperBounds =>
    obtain ⟨i, hi, h⟩ := bind_eq_ok h
    cases h
    exact ⟨i, _, alternate_regionOfHeapAddress hi, rfl⟩

theorem HeapArrayKey.Built.sides {region : ArrayKeyRegion n} (h : HeapArrayKey.Built region) :
    ∀ rect ∈ region.products,
      CartesianRegions.ValidRect EndpointsAlternate (ListProduct.Branches n) rect := by
  have hkept := kept_alternate (ListProduct.branches_kept n)
  induction h with
  | region key _ h =>
    obtain ⟨i, xs, hi, rfl⟩ := HeapArrayKey.region_eq_productOf h
    exact forall_mem_singleton.mpr ⟨hi, ListProduct.branches_ofSeq n xs⟩
  | intersect _ _ ihr ihs => exact hkept.intersect ihr ihs
  | subtract _ _ ihr ihs => exact hkept.subtract ihr ihs

theorem HeapVectorIndexKey.Built.sides {region : VectorKeyRegion}
    (h : HeapVectorIndexKey.Built region) : ∀ rect ∈ region.products,
      CartesianRegions.ValidRect EndpointsAlternate (fun _ => True) rect := by
  have hkept : CartesianRegions.Kept EndpointsAlternate fun _ : Points (BitVec 32) => True :=
    kept_alternate ⟨fun _ _ => trivial, fun _ _ => trivial, fun _ _ _ => trivial,
      fun _ _ _ => trivial⟩
  induction h with
  | region h =>
    obtain ⟨i, hi, h⟩ := bind_eq_ok h
    cases h
    exact forall_mem_singleton.mpr ⟨alternate_regionOfHeapAddress hi, trivial⟩
  | intersect _ _ ihr ihs => exact hkept.intersect ihr ihs
  | subtract _ _ ihr ihs => exact hkept.subtract ihr ihs

end

/-! ### Cells -/

theorem Tuple.ofList_inj {P : Type} [Inhabited P] : {n : ℕ} → {xs ys : List P} →
    xs.length = n → ys.length = n → (Tuple.ofList n xs = Tuple.ofList n ys ↔ xs = ys)
  | 0, [], [], _, _ => by simp
  | n + 1, x :: xs, y :: ys, hx, hy => by
      rw [List.cons.injEq, ← Tuple.ofList_inj (Nat.succ.inj hx) (Nat.succ.inj hy)]
      exact Iff.of_eq (Prod.mk.injEq x (Tuple.ofList n xs) y (Tuple.ofList n ys))

/-- The equations between the elements of two lists. -/
theorem all_zip_decide_eq {α β : Type} [DecidableEq β] (f : α → β) {l l' : List α}
    (h : l.length = l'.length) :
    ((l.zip l').all fun p => decide (f p.1 = f p.2)) = decide (l.map f = l'.map f) := by
  induction l generalizing l' with
  | nil =>
    cases l' with
    | nil => rfl
    | cons => cases h
  | cons a l ih =>
    cases l' with
    | nil => cases h
    | cons b l' =>
      rw [zip_cons_cons, all_cons, ih (Nat.succ.inj h), map_cons, map_cons, Bool.eq_iff_iff]
      simp

/-- An array key of one cell, as the code builds it. -/
structure CellKey (rank : ℕ) where
  address : Term
  indices : List Term
  address_term : AddressTerm address
  length_indices : indices.length = rank
  index_terms : ∀ i ∈ indices, IndexTerm i

/-- A vector key, as the code builds it. -/
structure VectorCellKey where
  key : HeapVectorIndexKey
  address_term : AddressTerm key.address
  index_term : IndexTerm key.index

namespace CellKey
variable {rank : ℕ} (x y : CellKey rank) (ρ : AddressValuation)

def key : HeapArrayKey := .oneArrayIndexKey x.address x.indices

/-- The cell that the key denotes. -/
def cell : VectorTime × Tuple (BitVec 32) rank :=
  (ρ.address x.address, Tuple.ofList rank (x.indices.map (value ρ.toValuation 32)))

/-- The address and the indices are the same. -/
def same : Bool :=
  decide (ρ.address x.address = ρ.address y.address) &&
    decide (x.indices.map (value ρ.toValuation 32) = y.indices.map (value ρ.toValuation 32))

theorem same_iff : x.same y ρ = true ↔ x.cell ρ = y.cell ρ := by
  rw [same, Bool.and_eq_true, decide_eq_true_eq, decide_eq_true_eq, cell, cell, Prod.mk.injEq,
    Tuple.ofList_inj (by rw [length_map, x.length_indices]) (by rw [length_map, y.length_indices])]

variable [HashOrder FieldId]

/-- `InRegionCondition` asks every side of every rectangle. -/
theorem inRegionCondition_tests {region : ArrayKeyRegion rank}
    (h : ∀ rect ∈ region.products, EndpointsAlternate rect.1) :
    Tests (x.key.inRegionCondition · region) fun ρ =>
      region.inEvery Intervals.contains (ListProduct.inEvery Points.contains rank) (x.cell ρ) :=
  keyInProductRegion_tests (f := fun n => heapAddressInVectorTimeIntervals n x.address)
    (fun rect hrect => heapAddressInVectorTimeIntervals_tests x.address_term (h rect hrect))
    fun rect _ => keysInListProductRegion_tests rank x.length_indices x.index_terms rect.2

theorem intersectionCondition_tests :
    Tests (x.key.intersectionCondition · y.key) fun ρ => x.same y ρ := by
  have hlen : x.indices.length = y.indices.length := x.length_indices.trans y.length_indices.symm
  have hindices : ∀ p ∈ x.indices.zip y.indices, Tests (simplifyEqual · p.1 p.2) fun ρ =>
      decide (p.1.value ρ.toValuation 32 = p.2.value ρ.toValuation 32) := fun p hp =>
    tests_equal_index (x.index_terms _ (of_mem_zip hp).1) (y.index_terms _ (of_mem_zip hp).2)
  filter_upwards [tests_equal x.address_term y.address_term, eventually_forall_mem hindices]
    with n haddress hindices
  refine haddress.bind fun e _ he => ?_
  rw [Run.fold2, Run.zip_eq hlen, pure_bind]
  refine (Run.Gives.foldlM (P := fun done c => Tells (fun ρ =>
    decide (ρ.address x.address = ρ.address y.address) && done.all fun p =>
      decide (p.1.value ρ.toValuation 32 = p.2.value ρ.toValuation 32)) c) (d := [])
    (fun done c p hp hc => ?_) (he.congr fun ρ => by simp)).mono fun r _ hr => hr.congr fun ρ => ?_
  · refine (hindices p hp).bind fun d _ hd => (hc.and hd).mono fun r _ hr => hr.congr fun ρ => ?_
    simp [Bool.and_assoc]
  · rw [nil_append, all_zip_decide_eq _ hlen, same]

theorem matchCondition_tests {region : ArrayKeyRegion rank}
    (h : ∀ rect ∈ region.products, EndpointsAlternate rect.1) :
    Tests (x.key.matchCondition · y.key region) fun ρ => x.same y ρ &&
      region.inEvery Intervals.contains (ListProduct.inEvery Points.contains rank) (y.cell ρ) :=
  (x.intersectionCondition_tests y).and (y.inRegionCondition_tests h)

end CellKey

namespace VectorCellKey
variable (x y : VectorCellKey) (ρ : AddressValuation)

/-- The cell that the key denotes. -/
def cell : VectorTime × BitVec 32 :=
  (ρ.address x.key.address, x.key.index.value ρ.toValuation 32)

variable [HashOrder FieldId]

theorem inRegionCondition_tests {region : VectorKeyRegion}
    (h : ∀ rect ∈ region.products, EndpointsAlternate rect.1) :
    Tests (x.key.inRegionCondition · region) fun ρ =>
      region.inEvery Intervals.contains Points.contains (x.cell ρ) :=
  keyInProductRegion_tests (f := fun n => heapAddressInVectorTimeIntervals n x.key.address)
    (fun rect hrect => heapAddressInVectorTimeIntervals_tests x.address_term (h rect hrect))
    fun rect _ => keyInIntPoints_tests x.index_term rect.2

theorem intersectionCondition_tests :
    Tests (x.key.intersectionCondition · y.key) fun ρ => decide (x.cell ρ = y.cell ρ) :=
  ((tests_equal x.address_term y.address_term).and
    (tests_equal_index x.index_term y.index_term)).congr fun ρ => by
      rw [Bool.eq_iff_iff]
      simp [cell]

theorem matchCondition_tests {region : VectorKeyRegion}
    (h : ∀ rect ∈ region.products, EndpointsAlternate rect.1) :
    Tests (x.key.matchCondition · y.key region) fun ρ => decide (x.cell ρ = y.cell ρ) &&
      region.inEvery Intervals.contains Points.contains (x.cell ρ) :=
  (x.intersectionCondition_tests y).and (x.inRegionCondition_tests h)

end VectorCellKey

/-! ### Membership -/

/-- The cell lies in one of the rectangles. -/
def holdsCell {n : ℕ} (region : ArrayKeyRegion n) : VectorTime × Tuple (BitVec 32) n → Bool :=
  region.contains Intervals.contains (ListProduct.contains Points.contains n)

/-- The region has a rectangle, and a cell of one rectangle is held by all, and at every depth. -/
def AgreesOn {n : ℕ} (region : ArrayKeyRegion n) : VectorTime × Tuple (BitVec 32) n → Prop :=
  region.Agrees Intervals.contains (ListProduct.contains Points.contains n)
    (ListProduct.inEvery Points.contains n)

/-- **`InRegionCondition` is membership exactly where the rectangles agree on the cell.** -/
theorem inRegionCondition_iff [HashOrder FieldId] [HashOrder (BitVec 32)] :
    (∀ (rank : ℕ) (x key : CellKey rank) (region : ArrayKeyRegion rank),
      HeapArrayKey.Built region →
      Returns (x.key.inRegionCondition · region) (fun c => ∀ ρ : AddressValuation,
        (c.holds ρ.machine = true ↔ holdsCell region (x.cell ρ) = true) ↔
          AgreesOn region (x.cell ρ)) ∧
      Returns (x.key.matchCondition · key.key region) fun c => ∀ ρ : AddressValuation,
        (c.holds ρ.machine = true ↔ x.cell ρ = key.cell ρ ∧ holdsCell region (x.cell ρ) = true) ↔
        (x.cell ρ = key.cell ρ → AgreesOn region (x.cell ρ))) ∧
    ∀ (x key : VectorCellKey) (region : VectorKeyRegion), HeapVectorIndexKey.Built region →
      Returns (x.key.inRegionCondition · region) (fun c => ∀ ρ : AddressValuation,
        (c.holds ρ.machine = true ↔
          region.contains Intervals.contains Points.contains (x.cell ρ) = true) ↔
        region.Agrees Intervals.contains Points.contains Points.contains (x.cell ρ)) ∧
      Returns (x.key.matchCondition · key.key region) fun c => ∀ ρ : AddressValuation,
        (c.holds ρ.machine = true ↔ x.cell ρ = key.cell ρ ∧
          region.contains Intervals.contains Points.contains (x.cell ρ) = true) ↔
        (x.cell ρ = key.cell ρ →
          region.Agrees Intervals.contains Points.contains Points.contains (x.cell ρ)) := by
  refine ⟨fun rank x key region hregion => ?_, fun x key region hregion => ?_⟩
  · have hsides (rect) (hrect : rect ∈ region.products) := (hregion.sides rect hrect).1
    have hagree (cell : VectorTime × Tuple (BitVec 32) rank) :
        (region.inEvery Intervals.contains (ListProduct.inEvery Points.contains rank) cell = true ↔
          holdsCell region cell = true) ↔ AgreesOn region cell :=
      ProductRegion.inEvery_iff_contains fun rect hrect _ =>
        ListProduct.contains_of_inEvery rank (hregion.sides rect hrect).2
    refine ⟨(x.inRegionCondition_tests hsides).mono fun c hc ρ => ?_,
      (x.matchCondition_tests key hsides).mono fun c hc ρ => ?_⟩
    · rw [hc.2]
      exact hagree _
    · rw [hc.2, Bool.and_eq_true, CellKey.same_iff]
      refine Iff.trans (Iff.of_eq ?_) (and_congr_right_iff.trans (imp_congr_right fun _ => hagree _))
      exact congrArg (· ↔ _) (propext (and_congr_right fun heq => by rw [heq]))
  · have hsides (rect) (hrect : rect ∈ region.products) := (hregion.sides rect hrect).1
    have hagree (cell : VectorTime × BitVec 32) :
        (region.inEvery Intervals.contains Points.contains cell = true ↔
          region.contains Intervals.contains Points.contains cell = true) ↔
        region.Agrees Intervals.contains Points.contains Points.contains cell :=
      ProductRegion.inEvery_iff_contains fun _ _ _ h => h
    refine ⟨(x.inRegionCondition_tests hsides).mono fun c hc ρ => ?_,
      (x.matchCondition_tests key hsides).mono fun c hc ρ => ?_⟩
    · rw [hc.2]
      exact hagree _
    · rw [hc.2, Bool.and_eq_true, decide_eq_true_eq]
      exact and_congr_right_iff.trans (imp_congr_right fun _ => hagree _)

namespace CellKey

/-- The key of an address and an index that are literals. -/
def literalKey (time : VectorTime) (index : BitVec 32) : CellKey 1 where
  address := vt2Term time
  indices := [literal index.toInt .int32]
  address_term := addressTerm_vt2Term time
  length_indices := rfl
  index_terms := forall_mem_singleton.mpr
    ⟨.literal ⟨BitVec.le_toInt index, BitVec.toInt_lt⟩, .leaf nofun⟩

theorem cell_literalKey (time : VectorTime) (index : BitVec 32) (ρ : AddressValuation) :
    (literalKey time index).cell ρ = (time, index, ()) := by
  rw [cell, literalKey, address_vt2Term, map_singleton]
  exact congrArg (time, ·) (congrArg (·, ())
    ((value_literal index.toInt .int32 ρ.toValuation).trans (BitVec.ofInt_toInt)))

/-- The cells of the addresses up to `2` but the fifth of the address `1`. -/
def allButFifth [HashOrder (BitVec 32)] : ArrayKeyRegion 1 :=
  IRegion.subtract
    (.productOf (.closed VectorTime.minfty [2]) (ListProduct.ofSeq 1 (.all, ())))
    (.productOf (.singleton [1]) (ListProduct.ofSeq 1 (.singleton 5, ())))

theorem built_allButFifth [HashOrder FieldId] [HashOrder (BitVec 32)] :
    HeapArrayKey.Built allButFifth := by
  let symbolic : HeapArrayKey :=
    .oneArrayIndexKey (.constant ⟨0, [2]⟩ .address) [.constant ⟨1, []⟩ .int32]
  exact .subtract (.region symbolic rfl rfl) (.region (literalKey [1] 5).key rfl rfl)

/-- The fifth cell of the address `1` is in neither rectangle. -/
theorem inRegionCondition_excludes_cell :
    letI : HashOrder FieldId := ⟨fun _ => 0⟩
    letI : HashOrder (BitVec 32) := ⟨BitVec.toNat⟩
    Returns ((literalKey [1] 5).key.inRegionCondition · allButFifth) fun c =>
      ∀ ρ : AddressValuation, c.holds ρ.machine = false := by
  let _ : HashOrder FieldId := ⟨fun _ => 0⟩
  let _ : HashOrder (BitVec 32) := ⟨BitVec.toNat⟩
  have h := (inRegionCondition_iff.1 1 (literalKey [1] 5) (literalKey [1] 5) _ built_allButFifth).1
  refine h.mono fun c hc ρ => ?_
  have hout : holdsCell allButFifth ((literalKey [1] 5).cell ρ) = false := by
    rw [cell_literalKey]
    decide +kernel
  have hagree : AgreesOn allButFifth ((literalKey [1] 5).cell ρ) :=
    ⟨by decide +kernel, fun hin => by cases hin.symm.trans hout⟩
  exact Bool.eq_false_iff.mpr fun hin => by cases (((hc ρ).mpr hagree).mp hin).symm.trans hout

/-- The sixth cell of the address `1` is in one of them, and is said to be in none. -/
theorem inRegionCondition_misses_cell :
    letI : HashOrder FieldId := ⟨fun _ => 0⟩
    letI : HashOrder (BitVec 32) := ⟨BitVec.toNat⟩
    ¬ ∀ (rank : ℕ) (x : CellKey rank) (region : ArrayKeyRegion rank),
      HeapArrayKey.Built region → Returns (x.key.inRegionCondition · region) fun c =>
        ∀ ρ : AddressValuation, c.holds ρ.machine = true ↔ holdsCell region (x.cell ρ) = true := by
  let _ : HashOrder FieldId := ⟨fun _ => 0⟩
  let _ : HashOrder (BitVec 32) := ⟨BitVec.toNat⟩
  intro h
  let region : ArrayKeyRegion 1 := allButFifth
  have hregion : HeapArrayKey.Built region := built_allButFifth
  have htests := (literalKey [1] 6).inRegionCondition_tests
    fun rect hrect => (hregion.sides rect hrect).1
  obtain ⟨n, ⟨c, d, hrun, hc⟩, c', d', hrun', hc'⟩ :=
    ((h 1 (literalKey [1] 6) region hregion).and htests).exists
  obtain ⟨rfl, -⟩ := Prod.mk.inj (Except.ok.inj (hrun.symm.trans hrun'))
  let ρ := AddressValuation.ofTimes fun _ => []
  have hholds : holdsCell region ((literalKey [1] 6).cell ρ) = true := by
    rw [cell_literalKey]
    decide +kernel
  have hmisses : region.inEvery Intervals.contains (ListProduct.inEvery Points.contains 1)
      ((literalKey [1] 6).cell ρ) = false := by
    rw [cell_literalKey]
    decide +kernel
  have htrue := (hc'.2 ρ).symm.trans ((hc ρ).mpr hholds)
  cases hmisses.symm.trans htrue

end CellKey

end VSharp
