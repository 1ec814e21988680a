import VSharp.Core.CellHistories
import VSharp.Core.CellRegions

/-!
# Core — ArrayRegions

What a region of array cells holds under a concrete address, and the operations on it: `memset`, and
the reads and writes at keys of literals.

- `HoldsCells`: each cell of the address has no record, or one that stands alone at its region;
- `memset_holdsCells`, `write_holdsCells`: how the operations change the cells;
- `read_cell`: a cell with a record reads as its value;
- `read_under_range`: after a write to a range of cells, a cell reads as the written value where the
  range holds it, and as before elsewhere.
-/

namespace VSharp
open Term Propositional Merging Library MemoryKeyUtils List PersistentDict

namespace MemoryRegion
open UpdateTree RegionTree
open ExactRegion (contains)

def addExplicitAddress {κ R : Type} [HashOrder VectorTime] (addr : VectorTime)
    (mr : MemoryRegion κ R) : MemoryRegion κ R :=
  { mr with explicitAddresses := PersistentSet.add mr.explicitAddresses addr }

/-! ### Cells -/

section

/-- A region of arrays of the rank. -/
abbrev ArrayCells (rank : ℕ) [HashOrder ℤ] : Type := MemoryRegion HeapArrayKey (CellRegion rank)

variable {rank : ℕ} [HashOrder ℤ] [HashOrder FieldId] [HashOrder (CellRegion rank)]

/-- A record of the cell itself, under a true guard. -/
structure CellRecord (p : ArrayCell rank) (v : Term) (k : Record HeapArrayKey) : Prop where
  key : k.key = cellKey p
  value : k.value = v
  guard : k.hasTrueGuard = true

/-- The cells of the address that have been written, each with its last value. -/
structure HoldsCells (mr : ArrayCells rank) (a : VectorTime)
    (cells : Tuple ℤ rank → Option Term) : Prop where
  grown : Grown (heapArrayKeys 0 rank) mr.updates
  unwritten : ∀ is, cells is = none → path (a, is) mr.updates = []
  written : ∀ is v, cells is = some v → MachineIndices (Tuple.toList rank is) ∧ ∃ reg k,
    (cellKey (a, is)).cellRegion rank = .ok reg ∧ Alone mr.updates reg k ∧ CellRecord (a, is) v k

variable {mr : ArrayCells rank} {a : VectorTime} {cells : Tuple ℤ rank → Option Term}
  {makeDefaultValue : Ty → Except Failure Term} {l : List (Tuple ℤ rank × Term)}

section

omit [HashOrder (CellRegion rank)]

variable {is : Tuple ℤ rank} {v : Term}

theorem HoldsCells.path_written (h : HoldsCells mr a cells) (hv : cells is = some v) :
    ∃ k, path (a, is) mr.updates = [k] ∧ CellRecord (a, is) v k := by
  obtain ⟨hin, reg, k, hreg, halone, hk⟩ := h.written is v hv
  obtain ⟨reg', hreg', hatom⟩ := region_cellKey (p := (a, is)) hin
  obtain rfl : reg' = reg := by
    rw [hreg] at hreg'
    exact (Except.ok.inj hreg').symm
  exact ⟨k, halone.path h.grown.invariant ((hatom _).mpr rfl), hk⟩

theorem HoldsCells.machineIndices (h : HoldsCells mr a cells) (hv : cells is = some v) :
    MachineIndices (Tuple.toList rank is) :=
  (h.written is v hv).1

end

omit [HashOrder ℤ] in
/-- A key that stands for itself is read from the tree; where no record decides, the cell has the
default of the region or that of its type. -/
theorem read_unguarded {κ R : Type} {K : IMemoryKey κ R} [DecidableEq κ] [DecidableEq R]
    [HashOrder R] [IRegion R] {mr : MemoryRegion κ R} {key : κ} {g : Term} {Q : Term → Prop}
    (hunguard : K.unguard key = .ok [(g, key)]) (hdefault : ∀ d, mr.defaultValue = some d → Q d)
    (hmake : ∃ d, makeDefaultValue mr.typ = .ok d ∧ Q d) (isDefault : κ → Bool)
    (instantiate : Ty → MemoryRegion κ R → Except Failure Term)
    (specializedReading : κ → Record κ → Term) :
    ∃ d, Q d ∧ mr.read K key isDefault instantiate specializedReading makeDefaultValue =
      UpdateTree.read K (valueIsConcreteHeapAddress K) key mr.updates mr.explicitAddresses
        specializedReading isDefault
        (fun tree => instantiate mr.typ { mr with updates := tree }) (.ok d) := by
  obtain ⟨made, hmade, hQ⟩ := hmake
  rw [read, bind_ok hunguard]
  cases hvalue : mr.defaultValue with
  | some d => exact ⟨d, hdefault d hvalue, rfl⟩
  | none =>
    refine ⟨made, hQ, ?_⟩
    simp only [hmade]

/-- A cell with one record, its own, is read as its value. -/
theorem read_cellRecord (hgrown : Grown (heapArrayKeys 0 rank) mr.updates) {p : ArrayCell rank}
    (hin : MachineIndices (Tuple.toList rank p.2)) {v : Term} {k : Record HeapArrayKey}
    (hpath : path p mr.updates = [k]) (hk : CellRecord p v k) (n : ℕ)
    {isDefault : HeapArrayKey → Bool} {instantiate : Ty → ArrayCells rank → Except Failure Term}
    {specializedReading : HeapArrayKey → Record HeapArrayKey → Term} :
    mr.read (heapArrayKeys n rank) (cellKey p) isDefault instantiate specializedReading
      makeDefaultValue = .ok v := by
  obtain ⟨reg, hreg, hatom⟩ := region_cellKey hin
  have hgrown' : Grown (heapArrayKeys n rank) mr.updates := ⟨hgrown.invariant, hgrown.sits⟩
  have hunguard : (heapArrayKeys n rank).unguard (cellKey p) = .ok [(trueTerm, cellKey p)] :=
    unguard_cellKey _
  rw [MemoryRegion.read, bind_ok hunguard, ← hk.value]
  exact read_one hreg hatom hgrown' hpath hk.key hk.guard

/-- The record that `memset` makes of the element at a position. -/
def memsetRecord (a : VectorTime) (e : (Tuple ℤ rank × Term) × ℕ) : Record HeapArrayKey where
  key := cellKey (a, e.1.1)
  value := e.1.2
  guard := none
  time := [(e.2 : ℤ)]

/-- The elements are added one after the other, each at its own region. -/
theorem memset_spec (hnodup : (l.map Prod.fst).Nodup)
    (hin : ∀ e ∈ l, MachineIndices (Tuple.toList rank e.1)) (j : ℕ)
    {t : UpdateTree HeapArrayKey Term (CellRegion rank)} (ht : Grown (heapArrayKeys 0 rank) t)
    (hnone : ∀ e ∈ l, path (a, e.1) t = []) :
    ∃ ws, (l.zipIdx j).mapM (fun e => (cellKey (a, e.1.1)).cellRegion rank >>= fun reg =>
        Except.ok (reg, memsetRecord a e)) = .ok ws ∧
      Grown (heapArrayKeys 0 rank) (RegionTree.memset ws t) ∧
      (∀ is, is ∉ l.map Prod.fst → path (a, is) (RegionTree.memset ws t) = path (a, is) t) ∧
      (∀ reg x, Alone t reg x → (∀ e ∈ l, contains reg (a, e.1) = false) →
        Alone (RegionTree.memset ws t) reg x) ∧
      ∀ e ∈ l.zipIdx j, ∃ reg, (cellKey (a, e.1.1)).cellRegion rank = .ok reg ∧
        Alone (RegionTree.memset ws t) reg (memsetRecord a e) := by
  induction l generalizing j t with
  | nil =>
    obtain ⟨d⟩ := t
    exact ⟨[], rfl, ht, fun _ _ => rfl, fun _ _ h _ => h, nofun⟩
  | cons e l ih =>
    obtain ⟨hnotin, hnodup⟩ := nodup_cons.mp hnodup
    obtain ⟨hein, hlin⟩ := forall_mem_cons.mp hin
    obtain ⟨henone, hlnone⟩ := forall_mem_cons.mp hnone
    obtain ⟨reg, hreg, hatom⟩ := region_cellKey (p := (a, e.1)) hein
    obtain ⟨hgrown, hpaths⟩ := grown_add (w := memsetRecord a (e, j)) hreg hatom ht henone
    have hother {e' : Tuple ℤ rank × Term} (he' : e' ∈ l) : (a, e'.1) ≠ (a, e.1) := fun heq =>
      hnotin ((Prod.mk.inj heq).2 ▸ mem_map_of_mem he')
    obtain ⟨ws, hws, hgrown', hpaths', halone, hall⟩ := ih hnodup hlin (j + 1) hgrown
      fun e' he' => (hpaths _ (hother he')).trans (hlnone e' he')
    refine ⟨(reg, memsetRecord a (e, j)) :: ws, ?_, hgrown', fun is his => ?_,
      fun reg' x hx hout => ?_, ?_⟩
    · rw [zipIdx_cons, mapM_cons, bind_ok hreg]
      exact bind_ok hws _
    · rw [map_cons, mem_cons, not_or] at his
      obtain ⟨hne, hrest⟩ := his
      exact (hpaths' is hrest).trans (hpaths _ (by simp [hne]))
    · obtain ⟨hout, houts⟩ := forall_mem_cons.mp hout
      refine halone reg' x ?_ houts
      have hne : reg' ≠ reg := by
        rintro rfl
        rw [(hatom _).mpr rfl] at hout
        cases hout
      rw [Alone, entries_node, tryFind_add, if_neg hne]
      exact hx
    · rw [zipIdx_cons, forall_mem_cons]
      refine ⟨⟨reg, hreg, halone reg _ ?_ fun e' he' => ?_⟩, hall⟩
      · rw [Alone, entries_node, tryFind_add, if_pos rfl]
      · exact Bool.eq_false_iff.mpr fun h => hother he' ((hatom _).mp h)

/-- The records of the address are not newer than the time of the next write. -/
def NotNewer (mr : ArrayCells rank) (a : VectorTime) : Prop :=
  ∀ is, ∀ k ∈ path (a, is) mr.updates, VectorTime.less mr.nextUpdateTime k.time = false

/-- The region after `memset` of the elements of an array. -/
theorem memset_holdsCells (hnodup : (l.map Prod.fst).Nodup)
    (hin : ∀ e ∈ l, MachineIndices (Tuple.toList rank e.1))
    (hgrown : Grown (heapArrayKeys 0 rank) mr.updates) (hnone : ∀ is, path (a, is) mr.updates = [])
    :
    ∃ mr', (∀ n, mr.memset (heapArrayKeys n rank) (l.map fun e => (cellKey (a, e.1), e.2)) =
        .ok mr') ∧
      HoldsCells mr' a (PersistentDict.tryFind l) ∧ NotNewer mr' a ∧
      mr' = { mr with updates := mr'.updates, nextUpdateTime := mr'.nextUpdateTime } := by
  obtain ⟨ws, hws, hgrown', hpaths, -, hall⟩ := memset_spec hnodup hin 0 hgrown fun e _ => hnone e.1
  let mr' : ArrayCells rank := { mr with
    updates := RegionTree.memset ws mr.updates
    nextUpdateTime := [1 + (l.length : ℤ)] }
  have hrecord {is : Tuple ℤ rank} {v : Term} (hv : PersistentDict.tryFind l is = some v) :
      ∃ i, ((is, v), i) ∈ l.zipIdx := by
    obtain ⟨i, hi, heq⟩ := getElem_of_mem ((tryFind_eq_some_iff hnodup).mp hv)
    exact ⟨i, mem_zipIdx_iff_getElem?.mpr (heq ▸ getElem?_eq_getElem hi)⟩
  have hholds : HoldsCells mr' a (PersistentDict.tryFind l) := by
    refine ⟨hgrown', fun is his => ?_, fun is v hv => ?_⟩
    · exact (hpaths is (tryFind_eq_none_iff.mp his)).trans (hnone is)
    · obtain ⟨i, hi⟩ := hrecord hv
      obtain ⟨reg, hreg, halone⟩ := hall _ hi
      exact ⟨hin _ ((tryFind_eq_some_iff hnodup).mp hv), reg, _, hreg, halone, rfl, rfl, rfl⟩
  refine ⟨mr', fun n => ?_, hholds, fun is k hk => ?_, rfl⟩
  · rw [memset, zipIdx_map, List.mapM_map, length_map]
    exact bind_ok hws _
  · cases hv : PersistentDict.tryFind l is with
    | none =>
      rw [hholds.unwritten is hv] at hk
      cases hk
    | some v =>
      obtain ⟨i, hi⟩ := hrecord hv
      obtain ⟨reg, hreg, halone⟩ := hall _ hi
      obtain ⟨reg', hreg', hatom⟩ := region_cellKey (p := (a, is))
        (hin _ ((tryFind_eq_some_iff hnodup).mp hv))
      obtain rfl := Except.ok.inj (hreg'.symm.trans hreg)
      rw [halone.path hgrown'.invariant ((hatom _).mpr rfl), mem_singleton] at hk
      subst hk
      have hlt : i < l.length := by
        simpa using snd_lt_of_mem_zipIdx hi
      refine decide_eq_false fun hless => ?_
      have hless : [1 + (l.length : ℤ)] < [(i : ℤ)] := hless
      rw [cons_lt_cons_iff] at hless
      rcases hless with hlt' | ⟨-, hnil⟩
      · omega
      · exact not_lt_nil _ hnil

end

end MemoryRegion

/-! ### Reading -/

section
open UpdateTree RegionTree MemoryRegion
open ExactRegion (contains)

theorem someHoldsConcreteHeapAddress_iff (isRange : Bool) (s : List (FieldId × Term)) :
    someHoldsConcreteHeapAddress isRange s = true ↔
      ∃ e ∈ s, holdsConcreteHeapAddress isRange e.2 = true := by
  induction s with
  | nil => simp [someHoldsConcreteHeapAddress]
  | cons e s ih => simp [someHoldsConcreteHeapAddress, ih]

/-- Under the key of a range only structs without other values are not split. -/
theorem struct_of_holds_range {v : Term} (h : holdsConcreteHeapAddress true v = false) :
    ∃ s t, v = .struct s t ∧ someHoldsConcreteHeapAddress true s = false := by
  cases v with
  | struct s t => exact ⟨s, t, rfl, by simpa [holdsConcreteHeapAddress] using h⟩
  | concrete obj t => cases obj <;> simp [holdsConcreteHeapAddress] at h
  | _ => simp [holdsConcreteHeapAddress] at h

variable {old : Term}

/-- Of two values of one shape, the one that is written to a range splits if the other does. -/
theorem holdsConcreteHeapAddress_of_shape {s : Shape} {v : Term} (hv : InBranch (BranchLeaf s) v)
    (hold : InBranch (BranchLeaf s) old) (h : holdsConcreteHeapAddress true v = false) :
    holdsConcreteHeapAddress false old = false := by
  obtain ⟨fs, t, rfl, hfs⟩ := struct_of_holds_range h
  have hleaf := hv.of_notIte nofun
  induction s generalizing fs t old with
  | plain => exact absurd rfl (hleaf.1 fs t)
  | bool => exact (Simple.not_struct (Condition.simple_of_not_ite hleaf nofun) fs t rfl).elim
  | struct t' fields shape ih =>
    obtain ⟨fs', heq, -, hkeys, hshapes⟩ := hleaf
    obtain ⟨rfl, rfl⟩ := Term.struct.inj heq
    rcases notIte_or old with hite | ⟨bs, e, rfl⟩
    · obtain ⟨olds, rfl, -, hkeys', hshapes'⟩ := hold.of_notIte hite
      rw [holdsConcreteHeapAddress, Bool.eq_false_iff, ne_eq, someHoldsConcreteHeapAddress_iff]
      rintro ⟨⟨f, x⟩, hx, hholds⟩
      obtain ⟨y, hy⟩ := mem_keys.mp ((hkeys f).mpr ((hkeys' f).mp (mem_map_of_mem hx)))
      have hynot : holdsConcreteHeapAddress true y = false := by
        rw [Bool.eq_false_iff]
        exact fun hyes => Bool.eq_false_iff.mp hfs
          ((someHoldsConcreteHeapAddress_iff true fs).mpr ⟨(f, y), hy, hyes⟩)
      obtain ⟨ys, t'', rfl, hys⟩ := struct_of_holds_range hynot
      have hfalse := ih f (hshapes' _ hx) ys t'' hys (hshapes _ hy) hynot
        ((hshapes _ hy).of_notIte nofun)
      rw [hholds] at hfalse
      cases hfalse
    · rfl

variable {rank : ℕ} [HashOrder ℤ] [HashOrder FieldId] [HashOrder (CellRegion rank)]

/-- The record's key denotes the cell. -/
def denotes (ρ : AddressValuation) (p : ArrayCell rank) : HeapArrayKey → Bool
  | .oneArrayIndexKey address indices =>
    decide (ρ.address address = p.1) &&
      decide (indices.map (value ρ.toValuation 32) = (Tuple.toList rank p.2).map (BitVec.ofInt 32))
  | .rangeArrayIndexKey address lbs ubs =>
    decide (ρ.address address = p.1) &&
      ((indexLiterals (Tuple.toList rank p.2)).zip (lbs.zip ubs)).all fun b =>
        inBounds ρ b.1 b.2

/-- The record answers for the cell. -/
def alive (ρ : AddressValuation) (p : ArrayCell rank) (k : Record HeapArrayKey) : Bool :=
  k.termGuard.holds ρ.machine && denotes ρ p k.key

/-- What reading an array region depends on besides the region: the picker of its readings, and
what a range reading is made of. -/
structure ArrayReads (rank : ℕ) [HashOrder ℤ] where
  /-- `isDefaultKey`. -/
  isDefault : HeapArrayKey → Bool
  /-- `MakeArraySymbolicHeapRead`. -/
  instantiate : HeapArrayKey → Ty → ArrayCells rank → Except Failure Term
  makeDefaultValue : Ty → Except Failure Term
  /-- The source is an `ArrayRangeReading`. -/
  isRangeReading : Source → Bool
  /-- The reading of the source at the key, for the record's key. -/
  specialize : HeapArrayKey → HeapArrayKey → Source → Term

namespace ArrayReads
variable (E : ArrayReads rank)

def specializedReading (readKey : HeapArrayKey) (utKey : Record HeapArrayKey) : Term :=
  match utKey.value with
  | .heapRef (.constant c _) _ | .constant c _ =>
    if E.isRangeReading c then E.specialize readKey utKey.key c else utKey.value
  | _ => utKey.value

/-- `ReadArrayRegion`, of the key of a cell. -/
def read (n : ℕ) (mr : ArrayCells rank) (p : ArrayCell rank) : Except Failure Term :=
  mr.read (heapArrayKeys n rank) (cellKey p) E.isDefault (E.instantiate (cellKey p))
    E.specializedReading E.makeDefaultValue

/-- The value is no range reading. -/
def IsScalar (v : Term) : Prop :=
  ∀ readKey (k : Record HeapArrayKey), k.value = v → E.specializedReading readKey k = v

/-- The values that occur are of the shape `s`; under the valuations that are `models`, a reading of
a region with such values is the value of the newest record that answers for its cell. -/
structure Lawful (s : Shape) (values : Term → Prop) (models : AddressValuation → Prop) (typ : Ty) :
    Prop where
  shape : ∀ v, values v → InBranch (BranchLeaf s) v
  instantiate : ∀ (p : ArrayCell rank) (mr : ArrayCells rank), mr.typ = typ →
    (∀ e ∈ flatten mr.updates, values e.2.value) →
    ∃ c, E.instantiate (cellKey p) typ mr = .ok c ∧ InElse (BranchLeaf s) (ElseLeaf s) c ∧
      ∀ ρ, models ρ → ∀ e, (flatten mr.updates).find? (fun e => alive ρ p e.2) = some e →
        c.eval ρ.machine =
          (readValue (heapArrayKeys 0 rank) E.specializedReading (cellKey p) e.2).eval ρ.machine
  makeDefaultValue : ∃ d, E.makeDefaultValue typ = .ok d ∧ InElse (BranchLeaf s) (ElseLeaf s) d

end ArrayReads

/-- A range of indices under a concrete address, as the code builds it. -/
structure IndexRange (rank : ℕ) where
  lowerBounds : List Term
  upperBounds : List Term
  length_lowerBounds : lowerBounds.length = rank
  length_upperBounds : upperBounds.length = rank
  index_lowerBounds : ∀ l ∈ lowerBounds, IndexTerm l
  index_upperBounds : ∀ u ∈ upperBounds, IndexTerm u
  notIte_lowerBounds : ∀ l ∈ lowerBounds, NotIte l
  notIte_upperBounds : ∀ u ∈ upperBounds, NotIte u

namespace IndexRange
variable (range : IndexRange rank) (a : VectorTime)

/-- The key of the range. -/
def key : HeapArrayKey := .rangeArrayIndexKey (vt2Term a) range.lowerBounds range.upperBounds

/-- The indices lie between the bounds. -/
def between (ρ : AddressValuation) (is : Tuple ℤ rank) : Bool :=
  ((indexLiterals (Tuple.toList rank is)).zip (range.lowerBounds.zip range.upperBounds)).all
    fun b => inBounds ρ b.1 b.2

end IndexRange

variable {mr : ArrayCells rank} {a : VectorTime} {cells : Tuple ℤ rank → Option Term} {s : Shape}
  {v : Term} {range : IndexRange rank} {reg : CellRegion rank} {E : ArrayReads rank}
  {values : Term → Prop} {models : AddressValuation → Prop}

/-- A write to a range puts one record over the cells of its region. -/
theorem MemoryRegion.HoldsCells.write_range (h : HoldsCells mr a cells)
    (hv : InBranch (BranchLeaf s) v)
    (hcells : ∀ is old, cells is = some old → InBranch (BranchLeaf s) old)
    (hregion : (range.key a).cellRegion rank = .ok reg) (hne : ∃ p, contains reg p = true)
    (haddress : ∀ p, contains reg p = true → p.1 = a) :
    ∃ mr', (∀ n, mr.write (heapArrayKeys n rank) none (range.key a) v = .ok mr') ∧
      mr' = { mr with updates := mr'.updates, nextUpdateTime := mr'.nextUpdateTime } ∧
      Grown (heapArrayKeys 0 rank) mr'.updates ∧
      ∃ w, IsWrite w (range.key a) v mr.nextUpdateTime ∧
        ∀ is old, cells is = some old → ∃ k, CellRecord (a, is) old k ∧
          path (a, is) mr.updates = [k] ∧
          path (a, is) mr'.updates = if contains reg (a, is) then [w, k] else [k] := by
  let utKey : Record HeapArrayKey :=
    { key := range.key a, value := v, guard := none, time := mr.nextUpdateTime }
  let predicate : Record HeapArrayKey → Bool := valueIsConcreteHeapAddress (heapArrayKeys 0 rank)
  have hunguard (n : ℕ) : (heapArrayKeys n rank).unguard utKey.key = .ok [(trueTerm, utKey.key)] :=
    unguard_rangeArrayIndexKey nofun
      (range.length_lowerBounds.trans range.length_upperBounds.symm) range.notIte_lowerBounds
      range.notIte_upperBounds
  have hsplits : predicate { utKey with guard := some trueTerm } = true ∨
      ∀ e ∈ (localizeFilterHidden reg utKey mr.updates).1, predicate e.2.1 = false := by
    cases hvalue : holdsConcreteHeapAddress true v with
    | true => exact .inl hvalue
    | false =>
      refine .inr (included_symbolic hregion h.grown fun p hp k hk => ?_)
      obtain rfl := haddress p hp
      cases hcell : cells p.2 with
      | none =>
        rw [h.unwritten p.2 hcell] at hk
        cases hk
      | some old =>
        obtain ⟨k', hpath, hk'⟩ := h.path_written hcell
        rw [hpath, mem_singleton] at hk
        subst hk
        have hold := holdsConcreteHeapAddress_of_shape hv (hcells _ old hcell) hvalue
        show holdsConcreteHeapAddress k.key.isRange k.value = false
        rw [hk'.key, hk'.value]
        exact hold
  obtain ⟨hgrown, hout, w, hw, hpaths⟩ := @overwritten_spec _ _ _ _ _ predicate _ _ _ _ reg utKey
    rfl hregion hne h.grown
  let mr' : ArrayCells rank := { mr with
    updates := overwritten predicate reg utKey mr.updates
    nextUpdateTime := VectorTime.next mr.nextUpdateTime }
  refine ⟨mr', fun n => ?_, rfl, hgrown, w, hw, fun is old hcell => ?_⟩
  · have hwrite : UpdateTree.write (heapArrayKeys n rank) predicate reg utKey mr.updates =
        .ok (overwritten predicate reg utKey mr.updates) :=
      write_eq_overwritten rfl (hunguard n) hne hsplits
    have hregion' : (heapArrayKeys n rank).region (range.key a) = .ok reg := hregion
    rw [MemoryRegion.write, bind_ok hregion']
    exact bind_ok hwrite _
  · obtain ⟨k, hpath, hk⟩ := h.path_written hcell
    refine ⟨k, hk, hpath, ?_⟩
    by_cases hin : contains reg (a, is) = true
    · obtain ⟨l, hl, hdrops⟩ := hpaths _ hin
      have hkept : l = path (a, is) mr.updates := hdrops.eq_of_none fun x hx hkey => by
        rw [hpath, mem_singleton] at hx
        rw [hx, hk.key] at hkey
        cases hkey
      rw [if_pos hin, ← hpath, ← hkept]
      exact hl
    · rw [if_neg hin, ← hpath]
      exact hout _ (Bool.eq_false_iff.mpr hin)

omit [HashOrder ℤ] [HashOrder FieldId] [HashOrder (CellRegion rank)] in
theorem alive_cellRecord {p : ArrayCell rank} {k : Record HeapArrayKey} (hk : CellRecord p v k)
    (ρ : AddressValuation) : alive ρ p k = true := by
  rw [alive, termGuard_of_hasTrueGuard hk.guard, holds_trueTerm, hk.key, cellKey, denotes,
    address_vt2Term]
  have hindices : (indexLiterals (Tuple.toList rank p.2)).map (value ρ.toValuation 32) =
      (Tuple.toList rank p.2).map (BitVec.ofInt 32) := by
    rw [indexLiterals, map_map]
    exact map_congr_left fun i _ => value_literal i .int32 ρ.toValuation
  rw [hindices]
  simp

/-- A cell under a range reads as the written value where its indices are between the bounds, and as
before elsewhere. -/
theorem ArrayReads.read_under_range {mr' : ArrayCells rank} (hE : E.Lawful s values models mr'.typ)
    (hdefault : ∀ d, mr'.defaultValue = some d → values d)
    (hgrown : Grown (heapArrayKeys 0 rank) mr'.updates) {is : Tuple ℤ rank}
    (hin : MachineIndices (Tuple.toList rank is)) {w k : Record HeapArrayKey} {time : VectorTime}
    (hpath : path (a, is) mr'.updates = [w, k]) (hw : IsWrite w (range.key a) v time)
    (hk : CellRecord (a, is) old k) (htime : VectorTime.less time k.time = false)
    (hscalar : E.IsScalar v) (hv : values v) (hold : values old)
    (hmeets : holdsConcreteHeapAddress false old = true →
      PersistentSet.contains a mr'.explicitAddresses = true → ∃ ρ, range.between ρ is = true) :
    ∀ᶠ n in Filter.atTop, ∃ r, E.read n mr' (a, is) = .ok r ∧
      ∀ ρ, models ρ → r.eval ρ.machine =
        (if range.between ρ is then v else old).eval ρ.machine := by
  obtain ⟨reg, hreg, hatom⟩ := region_cellKey (p := (a, is)) hin
  have hmatch {key : HeapArrayKey} {φ : AddressValuation → Bool}
      (h : ∀ r : CellRegion rank, (∀ q, contains r q = true ↔ q = (a, is)) →
        Tests ((cellKey (a, is)).matchCondition · key r.machine) φ) :
      ∀ᶠ n in Filter.atTop, ∀ e ∈ flatten (.node (localize reg mr'.updates)),
        (∀ q, contains e.1 q = true ↔ q = (a, is)) →
        ∃ c, (heapArrayKeys n rank).matchCondition (cellKey (a, is)) key e.1 = .ok c ∧
          Tells φ c := by
    refine eventually_forall_mem fun e _ => ?_
    by_cases he : ∀ q, contains e.1 q = true ↔ q = (a, is)
    · filter_upwards [h e.1 he] with n hn _
      obtain ⟨c, d, hc, hφ⟩ := hn
      exact ⟨c, congrArg (Except.map Prod.fst) hc, hφ⟩
    · exact .of_forall fun n h => absurd h he
  filter_upwards [hmatch fun r hr => matchCondition_range hin hr range.length_lowerBounds
      range.length_upperBounds range.index_lowerBounds range.index_upperBounds,
    hmatch fun r hr => matchCondition_cellKey hin hr] with n hrange hcell
  have hgrown' : Grown (heapArrayKeys n rank) mr'.updates := ⟨hgrown.invariant, hgrown.sits⟩
  have hunguard : (heapArrayKeys n rank).unguard (cellKey (a, is)) =
      .ok [(trueTerm, cellKey (a, is))] := unguard_cellKey _
  have hwvalue : readValue (heapArrayKeys n rank) E.specializedReading (cellKey (a, is)) w = v := by
    have hisRange : (heapArrayKeys n rank).isRange w.key = true := by
      rw [hw.key]
      rfl
    rw [readValue, if_pos hisRange, hscalar _ w hw.value]
  have hwalive (ρ : AddressValuation) : alive ρ (a, is) w = range.between ρ is := by
    rw [alive, termGuard_of_hasTrueGuard hw.guard, holds_trueTerm, hw.key, IndexRange.key, denotes,
      address_vt2Term]
    simp [IndexRange.between]
  have hvalues (tree : UpdateTree HeapArrayKey Term (CellRegion rank))
      (htree : ∀ e ∈ flatten tree, e.2 ∈ [w, k]) : ∀ e ∈ flatten tree, values e.2.value := by
    intro e he
    rcases mem_cons.mp (htree e he) with heq | heq
    · rw [heq, hw.value]
      exact hv
    · rw [mem_singleton.mp heq, hk.value]
      exact hold
  have hshape (d : Term) (hd : mr'.defaultValue = some d) : InElse (BranchLeaf s) (ElseLeaf s) d :=
    (hE.shape d (hdefault d hd)).inElse fun _ => BranchLeaf.elseLeaf
  obtain ⟨d, hd, hmr⟩ := MemoryRegion.read_unguarded hunguard hshape hE.makeDefaultValue
    E.isDefault (E.instantiate (cellKey (a, is))) E.specializedReading
  rw [ArrayReads.read, hmr]
  have hread := @read_two _ _ _ _ (heapArrayKeys n rank)
    (valueIsConcreteHeapAddress (heapArrayKeys n rank)) _ _ _ _ mr'.updates (cellKey (a, is)) reg
    (a, is) mr'.explicitAddresses E.specializedReading E.isDefault
    (fun tree => E.instantiate (cellKey (a, is)) mr'.typ { mr' with updates := tree })
    (.ok d) s models (fun ρ k => alive ρ (a, is) k)
    (range.between · is) hreg hatom hgrown' w k hpath hk.key
    (by rw [hw.key]; exact fun h => by cases h) (by rw [hw.time]; exact htime) rfl
    hw.guard hk.guard ?_ (by rw [hw.key]; exact hrange) hcell hwalive (alive_cellRecord hk)
    (fun _ => rfl) (by rw [hwvalue]; exact hE.shape v hv) (by rw [hk.value]; exact hE.shape old hold)
    (fun tree htree => hE.instantiate (a, is) _ rfl (hvalues tree htree)) (fun _ => ⟨d, rfl, hd⟩) ?_
  · obtain ⟨r, hr, heval⟩ := hread
    refine ⟨r, ?_, fun ρ hρ => ?_⟩
    · exact hr
    · rw [heval ρ hρ, hwvalue, hk.value]
  · intro hsplit
    by_contra hnot
    rw [valueIsConcreteHeapAddress, hw.key, hw.value] at hnot
    have hfalse := holdsConcreteHeapAddress_of_shape (hE.shape v hv) (hE.shape old hold)
      (Bool.eq_false_iff.mpr hnot)
    rw [← hk.value] at hfalse
    have hkey : (heapArrayKeys n rank).isRange k.key = false := by
      rw [hk.key]
      rfl
    rw [valueIsConcreteHeapAddress, hkey, hfalse] at hsplit
    cases hsplit
  · intro hsplit hexplicit
    have hkey : (heapArrayKeys n rank).isRange k.key = false := by
      rw [hk.key]
      rfl
    rw [valueIsConcreteHeapAddress, hkey, hk.value] at hsplit
    exact hmeets hsplit hexplicit

/-- After a write to a range, each cell that was written before reads as the written value where its
indices are between the bounds, and as before elsewhere. -/
theorem MemoryRegion.HoldsCells.read_write_range (h : HoldsCells mr a cells)
    (hE : E.Lawful s values models mr.typ) (hdefault : ∀ d, mr.defaultValue = some d → values d)
    (hnewer : NotNewer mr a) (hscalar : E.IsScalar v) (hv : values v)
    (hcells : ∀ is old, cells is = some old → values old)
    (hregion : (range.key a).cellRegion rank = .ok reg) (hne : ∃ p, contains reg p = true)
    (haddress : ∀ p, contains reg p = true → p.1 = a)
    (hout : ∀ is, MachineIndices (Tuple.toList rank is) → contains reg (a, is) = false →
      ∀ ρ, models ρ → range.between ρ is = false)
    (hmeets : ∀ is old, cells is = some old → contains reg (a, is) = true →
      holdsConcreteHeapAddress false old = true →
      PersistentSet.contains a mr.explicitAddresses = true → ∃ ρ, range.between ρ is = true) :
    ∃ mr', (∀ n, mr.write (heapArrayKeys n rank) none (range.key a) v = .ok mr') ∧
      ∀ is old, cells is = some old → ∀ᶠ n in Filter.atTop, ∃ r, E.read n mr' (a, is) = .ok r ∧
        ∀ ρ, models ρ → r.eval ρ.machine =
          (if range.between ρ is then v else old).eval ρ.machine := by
  obtain ⟨mr', hwrite, hframe, hgrown, w, hw, hpaths⟩ := h.write_range (hE.shape v hv)
    (fun is old hold => hE.shape old (hcells is old hold)) hregion hne haddress
  refine ⟨mr', hwrite, fun is old hold => ?_⟩
  obtain ⟨k, hk, hpath, hpath'⟩ := hpaths is old hold
  have hin := h.machineIndices hold
  have htyp : mr'.typ = mr.typ := by rw [hframe]
  have hdefault' : mr'.defaultValue = mr.defaultValue := by rw [hframe]
  have hexplicit : mr'.explicitAddresses = mr.explicitAddresses := by rw [hframe]
  by_cases hcell : contains reg (a, is) = true
  · rw [if_pos hcell] at hpath'
    exact ArrayReads.read_under_range (htyp ▸ hE) (hdefault' ▸ hdefault) hgrown hin hpath' hw hk
      (hnewer is k (hpath ▸ mem_singleton_self k)) hscalar hv (hcells is old hold)
      (hexplicit ▸ hmeets is old hold hcell)
  · rw [if_neg hcell] at hpath'
    refine .of_forall fun n => ⟨old, read_cellRecord hgrown hin hpath' hk n, fun ρ hρ => ?_⟩
    rw [hout is hin (Bool.eq_false_iff.mpr hcell) ρ hρ]
    rfl

/-! ### Ranges of numbers -/

/-- The range of two lists of numbers. -/
def IndexRange.ofNumbers (lowerBounds upperBounds : List ℤ) (hlower : lowerBounds.length = rank)
    (hupper : upperBounds.length = rank) (hl : MachineIndices lowerBounds)
    (hu : MachineIndices upperBounds) : IndexRange rank where
  lowerBounds := indexLiterals lowerBounds
  upperBounds := indexLiterals upperBounds
  length_lowerBounds := by rw [indexLiterals, length_map, hlower]
  length_upperBounds := by rw [indexLiterals, length_map, hupper]
  index_lowerBounds := forall_mem_map.mpr fun i hi => ⟨.literal (hl i hi), .leaf nofun⟩
  index_upperBounds := forall_mem_map.mpr fun i hi => ⟨.literal (hu i hi), .leaf nofun⟩
  notIte_lowerBounds := notIte_indexLiterals
  notIte_upperBounds := notIte_indexLiterals

section

omit [HashOrder ℤ] [HashOrder FieldId]

theorem toInt_value_literal {i : ℤ} (h : MachineInteger.InRange false 32 i)
    (ρ : AddressValuation) : ((literal i .int32).value ρ.toValuation 32).toInt = i :=
  (congrArg BitVec.toInt (value_literal i .int32 ρ.toValuation)).trans (toInt_ofInt_index h)

/-- A number is between two others as machine integers if it is. -/
theorem inBounds_literal {i l u : ℤ} (hi : MachineInteger.InRange false 32 i)
    (hl : MachineInteger.InRange false 32 l) (hu : MachineInteger.InRange false 32 u)
    (ρ : AddressValuation) :
    inBounds ρ (literal i .int32) (literal l .int32, literal u .int32) = true ↔ l ≤ i ∧ i ≤ u := by
  simp only [inBounds, BitVec.sle, toInt_value_literal hi, toInt_value_literal hl,
    toInt_value_literal hu, Bool.and_eq_true, decide_eq_true_eq]

theorem all_inBounds_literals {is : List ℤ} (ρ : AddressValuation) (hi : MachineIndices is) :
    ∀ {ls us : List ℤ}, ls.length = is.length → us.length = is.length → MachineIndices ls →
      MachineIndices us →
      ((((indexLiterals is).zip ((indexLiterals ls).zip (indexLiterals us))).all fun b =>
        inBounds ρ b.1 b.2) = true ↔
          List.Forall₂ (fun (b : ℤ × ℤ) i => b.1 ≤ i ∧ i ≤ b.2) (ls.zip us) is) := by
  induction is with
  | nil =>
    intro ls us hls hus _ _
    obtain rfl := eq_nil_of_length_eq_zero hls
    obtain rfl := eq_nil_of_length_eq_zero hus
    simp [indexLiterals]
  | cons i is ih =>
    intro ls us hls hus hl hu
    obtain ⟨l, ls, rfl⟩ := exists_cons_of_length_eq_add_one hls
    obtain ⟨u, us, rfl⟩ := exists_cons_of_length_eq_add_one hus
    obtain ⟨hi, his⟩ := forall_mem_cons.mp hi
    obtain ⟨hl, hls'⟩ := forall_mem_cons.mp hl
    obtain ⟨hu, hus'⟩ := forall_mem_cons.mp hu
    rw [zip_cons_cons, forall₂_cons, ← inBounds_literal hi hl hu ρ,
      ← ih his (Nat.succ.inj hls) (Nat.succ.inj hus) hls' hus', ← Bool.and_eq_true]
    rfl

end

/-- After a write to a box of cells, its cells read as the written value and the others as before. -/
theorem MemoryRegion.HoldsCells.read_write_numbers (h : HoldsCells mr a cells)
    (hE : E.Lawful s values models mr.typ) (hdefault : ∀ d, mr.defaultValue = some d → values d)
    (hnewer : NotNewer mr a) (hscalar : E.IsScalar v) (hv : values v)
    (hcells : ∀ is old, cells is = some old → values old) {ls us : List ℤ} (hl : MachineIndices ls)
    (hu : MachineIndices us) (hlower : ls.length = rank) (hupper : us.length = rank)
    (hle : List.Forall₂ (· ≤ ·) ls us) :
    ∃ mr', (∀ n, mr.write (heapArrayKeys n rank) none (rangeKey a ls us) v = .ok mr') ∧
      ∀ is old, cells is = some old → ∀ᶠ n in Filter.atTop, ∃ r, E.read n mr' (a, is) = .ok r ∧
        ∀ ρ, models ρ → r.eval ρ.machine =
          (if List.Forall₂ (fun (b : ℤ × ℤ) i => b.1 ≤ i ∧ i ≤ b.2) (ls.zip us)
            (Tuple.toList rank is) then v else old).eval ρ.machine := by
  obtain ⟨reg, hreg, hbox⟩ := region_rangeKey (a := a) hl hu hlower hupper
  let range : IndexRange rank := .ofNumbers ls us hlower hupper hl hu
  have hbetween {is : Tuple ℤ rank} (his : MachineIndices (Tuple.toList rank is))
      (ρ : AddressValuation) : range.between ρ is = true ↔
        List.Forall₂ (fun (b : ℤ × ℤ) i => b.1 ≤ i ∧ i ≤ b.2) (ls.zip us) (Tuple.toList rank is) :=
    all_inBounds_literals ρ his (by rw [hlower, Tuple.length_toList])
      (by rw [hupper, Tuple.length_toList]) hl hu
  have hfirst : List.Forall₂ (fun (b : ℤ × ℤ) i => b.1 ≤ i ∧ i ≤ b.2) (ls.zip us) ls := by
    clear hl hu hlower hupper reg hreg hbox range hbetween
    induction hle with
    | nil => exact .nil
    | cons hle _ ih => exact .cons ⟨le_rfl, hle⟩ ih
  obtain ⟨mr', hwrite, hreads⟩ := @MemoryRegion.HoldsCells.read_write_range _ _ _ _ _ _ _ _ _ range
    reg _ _ _ h hE hdefault hnewer hscalar hv hcells hreg
    ⟨(a, Tuple.ofList rank ls), (hbox _).mpr ⟨rfl, by rwa [Tuple.toList_ofList rank hlower]⟩⟩
    (fun p hp => ((hbox p).mp hp).1)
    (fun is his hout ρ _ => Bool.eq_false_iff.mpr fun hin => by
      rw [(hbox (a, is)).mpr ⟨rfl, (hbetween his ρ).mp hin⟩] at hout
      cases hout)
    (fun is old hold hin _ _ => ⟨.ofTimes fun _ => [],
      (hbetween (h.machineIndices hold) _).mpr ((hbox (a, is)).mp hin).2⟩)
  refine ⟨mr', hwrite, fun is old hold => (hreads is old hold).mono fun n hn => ?_⟩
  obtain ⟨r, hr, heval⟩ := hn
  refine ⟨r, hr, fun ρ hρ => ?_⟩
  rw [heval ρ hρ]
  simp only [hbetween (h.machineIndices hold) ρ]

end

end VSharp
