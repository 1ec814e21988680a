import VSharp.Core.ArithmeticValues
import VSharp.Library.Products

/-!
# Core — ArrayKeys

`heapArrayKey` of `VSharp.SILI.Core/MemoryRegion.fs`, and its `Specialize`: the key in the source of
a copy that stands for a key read in its destination.

* a key denotes cells, an address with a list of `int32` indices; the bounds of a range key are
  compared as signed numbers (`Denotes`);
* `specialize_settles`: what `Specialize` returns, its sums and differences being those of C#;
* `specialize_relocates_iff`: a one-index key is relocated as it should be, a range key only where
  the range that was copied has one index in each dimension.
-/

namespace VSharp
open Term Library Merging List
open Filter (atTop)

/-! ### The code -/

inductive HeapArrayKey where
  | oneArrayIndexKey (address : Term) (indices : List Term)
  | rangeArrayIndexKey (address : Term) (lowerBounds upperBounds : List Term)

namespace Run
variable {α β γ δ : Type}

def map2 (f : α → β → Run γ) : List α → List β → Run (List γ)
  | [], [] => pure []
  | a :: as, b :: bs => do
      let c ← f a b
      let cs ← map2 f as bs
      pure (c :: cs)
  | _, _ => .fail (.internal "The lists had different lengths.")

def map3 (f : α → β → γ → Run δ) : List α → List β → List γ → Run (List δ)
  | [], [], [] => pure []
  | a :: as, b :: bs, c :: cs => do
      let d ← f a b c
      let ds ← map3 f as bs cs
      pure (d :: ds)
  | _, _, _ => .fail (.internal "The lists had different lengths.")

end Run

namespace HeapArrayKey

section
variable [HashOrder FieldId]

/-- `add`, of indices. -/
def add (n : ℕ) (x y : Term) : Run Term := (simplifiers n).addition .int32 x y

/-- `sub`, of indices. -/
def sub (n : ℕ) (x y : Term) : Run Term := (simplifiers n).simplifySubtraction .int32 x y

/-- `Specialize`, with the depth of nested calls as fuel. -/
def specialize (n : ℕ) (x writeKey : HeapArrayKey) (srcA : Term) (srcF srcT : List Term) :
    Run HeapArrayKey :=
  match x, writeKey with
  | .oneArrayIndexKey _ i, .oneArrayIndexKey _ dstI
  | .oneArrayIndexKey _ i, .rangeArrayIndexKey _ dstI _ => do
      let newI ← Run.map3 (fun i dstI srcF => do add n (← sub n i dstI) srcF) i dstI srcF
      pure (.oneArrayIndexKey srcA newI)
  | .rangeArrayIndexKey _ fI tI, .oneArrayIndexKey _ dstI
  | .rangeArrayIndexKey _ fI tI, .rangeArrayIndexKey _ dstI _ => do
      let delta ← Run.map3 (fun fI tI dstI => do pure (← sub n fI dstI, ← sub n tI dstI)) fI tI dstI
      let fromIndices ← Run.map2 (fun d srcF => add n d.1 srcF) delta srcF
      let toIndices ← Run.map2 (fun d srcT => add n d.2 srcT) delta srcT
      pure (.rangeArrayIndexKey srcA fromIndices toIndices)

end

/-! ### Cells -/

/-- The index lies between the bounds, as a signed number. -/
def Between (ρ : Valuation) (bounds : Term × Term) (i : BitVec 32) : Prop :=
  (bounds.1.value ρ 32).toInt ≤ i.toInt ∧ i.toInt ≤ (bounds.2.value ρ 32).toInt

/-- The cells of a key. -/
def Denotes (ρ : Valuation) : HeapArrayKey → MachineValue → List (BitVec 32) → Prop
  | .oneArrayIndexKey address indices, a, is =>
    a = address.eval ρ.machine ∧ is = indices.map (value ρ 32)
  | .rangeArrayIndexKey address lowerBounds upperBounds, a, is =>
    a = address.eval ρ.machine ∧ List.Forall₂ (Between ρ) (lowerBounds.zip upperBounds) is

/-- One dimension of a copy: where the destination starts and ends, and the source. -/
structure CopiedDimension where
  dst : Term
  dstEnd : Term
  srcF : Term
  srcT : Term

namespace CopiedDimension
variable (ρ : Valuation) (d : CopiedDimension)

/-- The starting indices and the last of the source, as the simplifiers build terms. -/
structure Simplified : Prop where
  dst : SimplifiedUnion False .int32 d.dst
  srcF : SimplifiedUnion False .int32 d.srcF
  srcT : SimplifiedUnion False .int32 d.srcT

/-- The index map `i ↦ i - dst + srcF`. -/
def relocate (i : BitVec 32) : BitVec 32 := i - d.dst.value ρ 32 + d.srcF.value ρ 32

/-- `i ↦ i - dst + srcT`. -/
def relocateEnd (i : BitVec 32) : BitVec 32 := i - d.dst.value ρ 32 + d.srcT.value ρ 32

end CopiedDimension

/-- The cells of `key` are the images of the cells of `x`. -/
def Relocates (ρ : Valuation) (dims : List CopiedDimension) (srcA : Term) (x key : HeapArrayKey) :
    Prop :=
  ∀ a is, key.Denotes ρ a is ↔ ∃ b js, x.Denotes ρ b js ∧ a = srcA.eval ρ.machine ∧
    is = List.zipWith (CopiedDimension.relocate ρ) dims js

/-! ### Ranges of machine integers -/

section
variable {l i u d s s' : BitVec 32}

/-- A range that does not wrap around when it is moved keeps its order. -/
theorem moved_between (δ : BitVec 32) (hmoved : (l + δ).toInt ≤ (u + δ).toInt)
    (hi : l.toInt ≤ i.toInt ∧ i.toInt ≤ u.toInt) :
    (l + δ).toInt ≤ (i + δ).toInt ∧ (i + δ).toInt ≤ (u + δ).toInt := by
  have hadd (x : BitVec 32) : ∃ k : ℤ, (x + δ).toInt = x.toInt + δ.toInt - 2 ^ 32 * k :=
    ⟨_, (BitVec.toInt_add x δ).trans (Int.bmod_eq_self_sub_mul_bdiv _ _)⟩
  have hbound (x : BitVec 32) : -2 ^ 31 ≤ x.toInt ∧ x.toInt < 2 ^ 31 :=
    ⟨BitVec.le_toInt x, BitVec.toInt_lt⟩
  obtain ⟨kl, hl⟩ := hadd l
  obtain ⟨ki, hi'⟩ := hadd i
  obtain ⟨ku, hu⟩ := hadd u
  have hbl := hbound (l + δ)
  have hbi := hbound (i + δ)
  have hbu := hbound (u + δ)
  have hl' := hbound l
  have hu' := hbound u
  omega

/-- The image of a range is the range of the moved ends exactly if both ends are moved alike and do
not wrap around. -/
theorem image_range_iff (hle : l.toInt ≤ u.toInt) :
    (∀ j, (∃ i, (l.toInt ≤ i.toInt ∧ i.toInt ≤ u.toInt) ∧ j = i - d + s) ↔
      (l - d + s).toInt ≤ j.toInt ∧ j.toInt ≤ (u - d + s').toInt) ↔
    (l - d + s).toInt ≤ (u - d + s).toInt ∧ s' = s := by
  have hmove (x : BitVec 32) : x - d + s = x + (s - d) := by ring
  have hback (x : BitVec 32) : x = x - d + s + (d - s) := by ring
  constructor
  · intro h
    obtain ⟨hlu, hule⟩ := (h (u - d + s)).mp ⟨u, ⟨hle, le_rfl⟩, rfl⟩
    refine ⟨hlu, ?_⟩
    obtain ⟨i, hi, heq⟩ := (h (u - d + s')).mpr ⟨hlu.trans hule, le_rfl⟩
    have hupper := (moved_between (s - d) (by rwa [← hmove, ← hmove]) hi).2
    rw [← hmove, ← hmove, ← heq] at hupper
    exact add_left_cancel (BitVec.eq_of_toInt_eq (le_antisymm hupper hule))
  · rintro ⟨hlu, rfl⟩ j
    constructor
    · rintro ⟨i, hi, rfl⟩
      rw [hmove, hmove] at hlu
      rw [hmove, hmove, hmove]
      exact moved_between _ hlu hi
    · intro hj
      refine ⟨j + (d - s'), ?_, by ring⟩
      rw [hback l, hback u] at hle
      rw [hback l, hback u]
      exact moved_between (d - s') hle hj

end

/-! ### What `Specialize` returns -/

section
variable [HashOrder FieldId]
variable {l : List ((Term × Term) × CopiedDimension)} {ρ : Valuation} {α β γ ε : Type}

omit [HashOrder FieldId] in
theorem settles_map3 {δ : Type} {f : ℕ → α → β → γ → Run δ} {g : ε → δ} {l : List ε} {a : ε → α}
    {b : ε → β} {c : ε → γ} (h : ∀ e ∈ l, Settles (fun n => f n (a e) (b e) (c e)) (g e)) :
    Settles (fun n => Run.map3 (f n) (l.map a) (l.map b) (l.map c)) (l.map g) := by
  induction l with
  | nil => exact .pure []
  | cons e l ih =>
    obtain ⟨he, hl⟩ := forall_mem_cons.mp h
    simp only [map_cons, Run.map3]
    exact he.bind ((ih hl).bind (.pure _))

omit [HashOrder FieldId] in
theorem settles_map2 {f : ℕ → α → β → Run γ} {g : ε → γ} {l : List ε} {a : ε → α} {b : ε → β}
    (h : ∀ e ∈ l, Settles (fun n => f n (a e) (b e)) (g e)) :
    Settles (fun n => Run.map2 (f n) (l.map a) (l.map b)) (l.map g) := by
  induction l with
  | nil => exact .pure []
  | cons e l ih =>
    obtain ⟨he, hl⟩ := forall_mem_cons.mp h
    simp only [map_cons, Run.map2]
    exact he.bind ((ih hl).bind (.pure _))

/-- The rules that `add (sub x y) z` applies are right. -/
def MoveRight (ρ : Valuation) (x y z : Term) : Prop :=
  SubtractionRight .int32 ρ x y ∧ ∀ n r d, sub n x y = .ok (r, d) →
    AlternativesRight .int32 ρ add r z

/-- A difference, and sums with it. -/
theorem move_settles {x y : Term} (hx : SimplifiedUnion False .int32 x)
    (hy : SimplifiedUnion False .int32 y) :
    ∃ r, Settles (sub · x y) r ∧ ∀ z, SimplifiedUnion False .int32 z →
      ∃ r', Settles (add · r z) r' ∧ ∀ ρ, MoveRight ρ x y z →
        r'.value ρ 32 = x.value ρ 32 - y.value ρ 32 + z.value ρ 32 := by
  have hne : Ty.int32 ≠ .bool := nofun
  have hint {z : Term} (hz : SimplifiedUnion False .int32 z) := SimplifiedUnion.integral .int32 hz
  obtain ⟨r, hr, hunion, hvalue⟩ := (subtraction_value .int32 hx hy).settles
    (subtraction_terminates hne (hint hx) (hint hy)).constant
  refine ⟨r, hr, fun z hz => ?_⟩
  obtain ⟨r', hr', -, hvalue'⟩ := (addition_value .int32 hunion hz False.elim).settles
    (addition_terminates hne (hint hunion) (hint hz)).constant
  refine ⟨r', hr', fun ρ hk => ?_⟩
  obtain ⟨n, d, hd⟩ := hr.exists
  have hsum : r'.value ρ 32 = r.value ρ 32 + z.value ρ 32 := hvalue' ρ (hk.2 n r d hd)
  have hdiff : r.value ρ 32 = x.value ρ 32 - y.value ρ 32 := hvalue ρ hk.1
  rw [hsum, hdiff]

variable {srcA addr dstA : Term}

/-- The range key that is written by a copy. -/
def writeKey (dstA : Term) (dims : List CopiedDimension) : HeapArrayKey :=
  .rangeArrayIndexKey dstA (dims.map (·.dst)) (dims.map (·.dstEnd))

instance : Nonempty Term := ⟨.nop⟩

theorem specialize_one (srcA addr dstA : Term) {l : List (Term × CopiedDimension)}
    (hl : ∀ p ∈ l, SimplifiedUnion False .int32 p.1 ∧ p.2.Simplified) :
    ∃ g : Term × CopiedDimension → Term,
      Settles (fun n => specialize n (.oneArrayIndexKey addr (l.map Prod.fst))
        (writeKey dstA (l.map Prod.snd)) srcA ((l.map Prod.snd).map (·.srcF))
        ((l.map Prod.snd).map (·.srcT)))
        (.oneArrayIndexKey srcA (l.map g)) ∧
      ∀ p ∈ l, ∀ ρ, MoveRight ρ p.1 p.2.dst p.2.srcF →
        (g p).value ρ 32 = p.2.relocate ρ (p.1.value ρ 32) := by
  have hmove (p : Term × CopiedDimension) (hp : p ∈ l) : ∃ r,
      Settles (fun n => do add n (← sub n p.1 p.2.dst) p.2.srcF) r ∧
        ∀ ρ, MoveRight ρ p.1 p.2.dst p.2.srcF → r.value ρ 32 = p.2.relocate ρ (p.1.value ρ 32) := by
    obtain ⟨r, hr, hsum⟩ := move_settles (hl p hp).1 (hl p hp).2.dst
    obtain ⟨r', hr', hvalue⟩ := hsum _ (hl p hp).2.srcF
    exact ⟨r', hr.bind hr', hvalue⟩
  choose! g hg using hmove
  refine ⟨g, ?_, fun p hp => (hg p hp).2⟩
  simp only [writeKey, map_map]
  exact (settles_map3 fun p hp => (hg p hp).1).bind (.pure _)

/-- The lower bound is moved by the start of the source, the upper bound by its end. -/
theorem specialize_range (srcA addr dstA : Term)
    (hl : ∀ p ∈ l, SimplifiedUnion False .int32 p.1.1 ∧ SimplifiedUnion False .int32 p.1.2 ∧
      p.2.Simplified) :
    ∃ g : (Term × Term) × CopiedDimension → Term × Term,
      Settles (fun n => specialize n (.rangeArrayIndexKey addr (l.map (·.1.1)) (l.map (·.1.2)))
        (writeKey dstA (l.map Prod.snd)) srcA ((l.map Prod.snd).map (·.srcF))
        ((l.map Prod.snd).map (·.srcT)))
        (.rangeArrayIndexKey srcA (l.map fun p => (g p).1) (l.map fun p => (g p).2)) ∧
      ∀ p ∈ l, ∀ ρ, MoveRight ρ p.1.1 p.2.dst p.2.srcF → MoveRight ρ p.1.2 p.2.dst p.2.srcT →
        (g p).1.value ρ 32 = p.2.relocate ρ (p.1.1.value ρ 32) ∧
        (g p).2.value ρ 32 = p.2.relocateEnd ρ (p.1.2.value ρ 32) := by
  have hmove (p : (Term × Term) × CopiedDimension) (hp : p ∈ l) : ∃ δ r : Term × Term,
      Settles (fun n => do
        Pure.pure (← sub n p.1.1 p.2.dst, ← sub n p.1.2 p.2.dst)) δ ∧
      Settles (add · δ.1 p.2.srcF) r.1 ∧ Settles (add · δ.2 p.2.srcT) r.2 ∧
      ∀ ρ, MoveRight ρ p.1.1 p.2.dst p.2.srcF → MoveRight ρ p.1.2 p.2.dst p.2.srcT →
        r.1.value ρ 32 = p.2.relocate ρ (p.1.1.value ρ 32) ∧
        r.2.value ρ 32 = p.2.relocateEnd ρ (p.1.2.value ρ 32) := by
    obtain ⟨hlower, hupper, hd⟩ := hl p hp
    obtain ⟨fD, hfD, hfrom⟩ := move_settles hlower hd.dst
    obtain ⟨tD, htD, hto⟩ := move_settles hupper hd.dst
    obtain ⟨r, hr, hvalue⟩ := hfrom _ hd.srcF
    obtain ⟨r', hr', hvalue'⟩ := hto _ hd.srcT
    exact ⟨(fD, tD), (r, r'), hfD.bind (htD.bind (.pure _)), hr, hr',
      fun ρ hk hk' => ⟨hvalue ρ hk, hvalue' ρ hk'⟩⟩
  choose! δ g hg using hmove
  refine ⟨g, ?_, fun p hp => (hg p hp).2.2.2⟩
  simp only [writeKey, map_map]
  have hfrom := settles_map2 (f := fun n d srcF => add n d.1 srcF) (a := δ)
    fun p hp => (hg p hp).2.1
  have hto := settles_map2 (f := fun n d srcT => add n d.2 srcT) (a := δ)
    fun p hp => (hg p hp).2.2.1
  exact (settles_map3 fun p hp => (hg p hp).1).bind (hfrom.bind (hto.bind (.pure _)))

/-! ### Exactness -/

/-- The key has `n` indices, or `n` lower and upper bounds. -/
def OfRank (n : ℕ) : HeapArrayKey → Prop
  | .oneArrayIndexKey _ indices => indices.length = n
  | .rangeArrayIndexKey _ lowerBounds upperBounds =>
    lowerBounds.length = n ∧ upperBounds.length = n

/-- The indices, or bounds, are terms the simplifiers build. -/
def Simplified : HeapArrayKey → Prop
  | .oneArrayIndexKey _ indices => ∀ i ∈ indices, SimplifiedUnion False .int32 i
  | .rangeArrayIndexKey _ lowerBounds upperBounds =>
    (∀ i ∈ lowerBounds, SimplifiedUnion False .int32 i) ∧
      ∀ i ∈ upperBounds, SimplifiedUnion False .int32 i

/-- The sums and differences have the values of sums and differences. -/
def SumsKeep (ρ : Valuation) (dims : List CopiedDimension) : HeapArrayKey → Prop
  | .oneArrayIndexKey _ indices => ∀ p ∈ indices.zip dims, MoveRight ρ p.1 p.2.dst p.2.srcF
  | .rangeArrayIndexKey _ lowerBounds upperBounds =>
    ∀ p ∈ (lowerBounds.zip upperBounds).zip dims,
      MoveRight ρ p.1.1 p.2.dst p.2.srcF ∧ MoveRight ρ p.1.2 p.2.dst p.2.srcT

/-- A range that is not empty and does not wrap around when it is moved, where the source starts and
ends with one index. -/
def KeepsExtent (ρ : Valuation) (p : (Term × Term) × CopiedDimension) : Prop :=
  (p.1.1.value ρ 32).toInt ≤ (p.1.2.value ρ 32).toInt ∧
  (p.2.relocate ρ (p.1.1.value ρ 32)).toInt ≤ (p.2.relocate ρ (p.1.2.value ρ 32)).toInt ∧
  p.2.srcT.value ρ 32 = p.2.srcF.value ρ 32

/-- A range without an index. -/
def NoIndex (lower upper : BitVec 32) : Prop := upper.toInt < lower.toInt

/-- A one-index key; or a range key all of whose ranges keep their extent, or which is empty before
and after. -/
def Exact (ρ : Valuation) (dims : List CopiedDimension) : HeapArrayKey → Prop
  | .oneArrayIndexKey _ _ => True
  | .rangeArrayIndexKey _ lowerBounds upperBounds =>
    let ranges := (lowerBounds.zip upperBounds).zip dims
    (∀ p ∈ ranges, KeepsExtent ρ p) ∨
      (∃ p ∈ ranges, NoIndex (p.1.1.value ρ 32) (p.1.2.value ρ 32)) ∧
        ∃ p ∈ ranges, NoIndex (p.2.relocate ρ (p.1.1.value ρ 32))
          (p.2.relocateEnd ρ (p.1.2.value ρ 32))

section

omit [HashOrder FieldId]

/-- A one-index key has one cell, whose image is the cell of the moved indices. -/
theorem relocates_one (srcA addr : Term) {l : List (Term × CopiedDimension)}
    {g : Term × CopiedDimension → Term}
    (hg : ∀ p ∈ l, (g p).value ρ 32 = p.2.relocate ρ (p.1.value ρ 32)) :
    Relocates ρ (l.map Prod.snd) srcA (.oneArrayIndexKey addr (l.map Prod.fst))
      (.oneArrayIndexKey srcA (l.map g)) := by
  have himage : (l.map g).map (value ρ 32) =
      List.zipWith (CopiedDimension.relocate ρ) (l.map Prod.snd)
        ((l.map Prod.fst).map (value ρ 32)) := by
    rw [map_map, map_map, zipWith_map, zipWith_self]
    exact map_congr_left hg
  intro a is
  constructor
  · rintro ⟨ha, his⟩
    exact ⟨_, _, ⟨rfl, rfl⟩, ha, his.trans himage⟩
  · rintro ⟨_, _, ⟨-, rfl⟩, ha, his⟩
    exact ⟨ha, his.trans himage.symm⟩

variable {g : (Term × Term) × CopiedDimension → Term × Term}

/-- A range key is relocated as it should be exactly if the range of the moved bounds is the image,
dimension by dimension, or both are empty. -/
theorem relocates_range_iff :
    Relocates ρ (l.map Prod.snd) srcA
      (.rangeArrayIndexKey addr (l.map (·.1.1)) (l.map (·.1.2)))
      (.rangeArrayIndexKey srcA (l.map fun p => (g p).1) (l.map fun p => (g p).2)) ↔
    (∀ is, List.Forall₂ (fun p j => ∃ i, Between ρ p.1 i ∧ j = p.2.relocate ρ i) l is ↔
      List.Forall₂ (fun p j => Between ρ (g p) j) l is) := by
  have hzip : (l.map (·.1.1)).zip (l.map (·.1.2)) = l.map Prod.fst := zip_map'
  have hzip' : (l.map fun p => (g p).1).zip (l.map fun p => (g p).2) = l.map g := zip_map'
  simp only [Relocates, Denotes, hzip, hzip', forall₂_map_left_iff, zipWith_map_left,
    ← image_product fun (p : (Term × Term) × CopiedDimension) => p.2.relocate ρ]
  constructor
  · intro h is
    refine ⟨fun hi => ?_, fun hi => ?_⟩
    · obtain ⟨js, hjs, rfl⟩ := hi
      exact ((h (srcA.eval ρ.machine) _).mpr ⟨_, js, ⟨rfl, hjs⟩, rfl, rfl⟩).2
    · obtain ⟨_, js, ⟨-, hjs⟩, -, his⟩ := (h (srcA.eval ρ.machine) is).mp ⟨rfl, hi⟩
      exact ⟨js, hjs, his⟩
  · intro h a is
    rw [← h is]
    constructor
    · rintro ⟨rfl, js, hjs, rfl⟩
      exact ⟨_, js, ⟨rfl, hjs⟩, rfl, rfl⟩
    · rintro ⟨_, js, ⟨-, hjs⟩, rfl, rfl⟩
      exact ⟨rfl, js, hjs, rfl⟩

theorem image_between_iff {p : (Term × Term) × CopiedDimension} {q : Term × Term}
    (hlower : q.1.value ρ 32 = p.2.relocate ρ (p.1.1.value ρ 32))
    (hupper : q.2.value ρ 32 = p.2.relocateEnd ρ (p.1.2.value ρ 32)) :
    ((∃ j i, Between ρ p.1 i ∧ j = p.2.relocate ρ i) ∧
      ∀ j, (∃ i, Between ρ p.1 i ∧ j = p.2.relocate ρ i) ↔ Between ρ q j) ↔
    KeepsExtent ρ p := by
  have hpoint : (∃ j i, Between ρ p.1 i ∧ j = p.2.relocate ρ i) ↔
      (p.1.1.value ρ 32).toInt ≤ (p.1.2.value ρ 32).toInt := by
    constructor
    · rintro ⟨-, i, hi, -⟩
      exact hi.1.trans hi.2
    · exact fun hle => ⟨_, _, ⟨le_rfl, hle⟩, rfl⟩
  rw [hpoint, KeepsExtent]
  refine and_congr_right fun hle => ?_
  simp only [Between, hlower, hupper, CopiedDimension.relocate, CopiedDimension.relocateEnd]
  exact image_range_iff hle

theorem exact_range_iff (srcA addr : Term)
    (hg : ∀ p ∈ l, (g p).1.value ρ 32 = p.2.relocate ρ (p.1.1.value ρ 32) ∧
      (g p).2.value ρ 32 = p.2.relocateEnd ρ (p.1.2.value ρ 32)) :
    Relocates ρ (l.map Prod.snd) srcA
      (.rangeArrayIndexKey addr (l.map (·.1.1)) (l.map (·.1.2)))
      (.rangeArrayIndexKey srcA (l.map fun p => (g p).1) (l.map fun p => (g p).2)) ↔
    (∀ p ∈ l, KeepsExtent ρ p) ∨
      (∃ p ∈ l, NoIndex (p.1.1.value ρ 32) (p.1.2.value ρ 32)) ∧
        ∃ p ∈ l, NoIndex (p.2.relocate ρ (p.1.1.value ρ 32))
          (p.2.relocateEnd ρ (p.1.2.value ρ 32)) := by
  have hempty (lower upper : BitVec 32) : (∀ i : BitVec 32,
      ¬(lower.toInt ≤ i.toInt ∧ i.toInt ≤ upper.toInt)) ↔ NoIndex lower upper :=
    ⟨fun h => not_le.mp fun hle => h lower ⟨le_rfl, hle⟩,
      fun h _ hi => absurd (hi.1.trans hi.2) (not_le.mpr h)⟩
  rw [relocates_range_iff, products_eq_iff]
  refine or_congr ?_ (and_congr ?_ ?_)
  · exact forall₂_congr fun p hp => image_between_iff (hg p hp).1 (hg p hp).2
  · refine exists_congr fun p => and_congr_right fun hp => ?_
    rw [← hempty]
    exact ⟨fun h i hi => h _ ⟨i, hi, rfl⟩, fun h _ ⟨i, hi, _⟩ => h i hi⟩
  · refine exists_congr fun p => and_congr_right fun hp => ?_
    rw [← hempty, ← (hg p hp).1, ← (hg p hp).2]
    rfl

end

/-- `Specialize` relocates the cells of a key as the copy moved them exactly if the key is `Exact`,
where the sums and differences keep their values. -/
theorem specialize_relocates_iff (dims : List CopiedDimension) (hdims : ∀ d ∈ dims, d.Simplified)
    (x : HeapArrayKey) (hrank : x.OfRank dims.length) (hx : x.Simplified) (srcA dstA : Term) :
    ∃ key, Settles (fun n => specialize n x (writeKey dstA dims) srcA (dims.map (·.srcF))
        (dims.map (·.srcT))) key ∧
      ∀ ρ, x.SumsKeep ρ dims → (Relocates ρ dims srcA x key ↔ x.Exact ρ dims) := by
  cases x with
  | oneArrayIndexKey addr indices =>
    obtain ⟨g, hg, hvalue⟩ := specialize_one srcA addr dstA fun p hp =>
      ⟨hx _ (of_mem_zip hp).1, hdims _ (of_mem_zip hp).2⟩
    have hfst : (indices.zip dims).map Prod.fst = indices := map_fst_zip hrank.le
    have hsnd : (indices.zip dims).map Prod.snd = dims := map_snd_zip hrank.ge
    rw [hfst, hsnd] at hg
    refine ⟨.oneArrayIndexKey srcA ((indices.zip dims).map g), hg,
      fun ρ hk => iff_of_true ?_ trivial⟩
    have hrel := relocates_one srcA addr fun p hp => hvalue p hp ρ (hk p hp)
    rwa [hfst, hsnd] at hrel
  | rangeArrayIndexKey addr lowerBounds upperBounds =>
    obtain ⟨hlower, hupper⟩ := hrank
    have hbounds : (lowerBounds.zip upperBounds).length = dims.length := by
      rw [length_zip, hlower, hupper, Nat.min_self]
    obtain ⟨g, hg, hvalue⟩ := specialize_range srcA addr dstA
      (l := (lowerBounds.zip upperBounds).zip dims) fun p hp => by
        obtain ⟨hp, hd⟩ := of_mem_zip hp
        obtain ⟨hl, hu⟩ := of_mem_zip hp
        exact ⟨hx.1 _ hl, hx.2 _ hu, hdims _ hd⟩
    have hfst := map_fst_zip hbounds.le
    have hsnd := map_snd_zip hbounds.ge
    have hl : ((lowerBounds.zip upperBounds).zip dims).map (·.1.1) = lowerBounds := by
      have h := congrArg (List.map Prod.fst) hfst
      rw [map_map, map_fst_zip (hlower.trans hupper.symm).le] at h
      exact h
    have hu : ((lowerBounds.zip upperBounds).zip dims).map (·.1.2) = upperBounds := by
      have h := congrArg (List.map Prod.snd) hfst
      rw [map_map, map_snd_zip (hlower.trans hupper.symm).ge] at h
      exact h
    rw [hl, hu, hsnd] at hg
    refine ⟨_, hg, fun ρ hk => ?_⟩
    have hiff := exact_range_iff srcA addr fun p hp => hvalue p hp ρ (hk p hp).1 (hk p hp).2
    rwa [hl, hu, hsnd] at hiff

theorem moveRight_literals (ρ : Valuation) (x y z : ℤ) :
    MoveRight ρ (literal x .int32) (literal y .int32) (literal z .int32) := by
  have hadd (m k : ℤ) : AlternativesRight .int32 ρ add (literal m .int32) (literal k .int32) :=
    .leaf nofun nofun (Notes.rulesRight (d := []) (fun | 0 => .inl rfl | _ + 1 => .inr ⟨_, rfl⟩) nofun)
  refine ⟨⟨fun v hv => ?_, fun n minusY d hrun => ?_⟩, fun n r d hrun => ?_⟩
  · rw [hv.unique (.leaf (v := literal y .int32) nofun)]
    exact Notes.rulesRight (d := []) (fun | 0 => .inl rfl | _ + 1 => .inr ⟨_, rfl⟩) nofun
  · cases n with
    | zero => exact nomatch hrun
    | succ n =>
      obtain ⟨rfl, -⟩ := Prod.mk.inj (Except.ok.inj hrun)
      exact hadd _ _
  · cases n with
    | zero => exact nomatch hrun
    | succ n =>
      obtain ⟨rfl, -⟩ := Prod.mk.inj (Except.ok.inj hrun)
      exact hadd _ _

end

theorem simplifiedUnion_literal {n : ℤ} (hn : MachineInteger.InRange false 32 n) :
    SimplifiedUnion False .int32 (literal n .int32) :=
  .leaf nofun ⟨1, .literal hn le_rfl⟩

/-- The indices from `2` to `5`, of a copy of the one element at `7` to `2`. -/
theorem specialize_relocates_range : letI : HashOrder FieldId := ⟨fun _ => 0⟩
    let number (n : ℤ) : Term := literal n .int32
    let dims : List CopiedDimension := [⟨number 2, number 2, number 7, number 7⟩]
    let x : HeapArrayKey := .rangeArrayIndexKey .nop [number 2] [number 5]
    ∃ key, Settles (fun n => specialize n x (writeKey .nop dims) .nop [number 7] [number 7]) key ∧
      ∀ ρ, Relocates ρ dims .nop x key := by
  let _ : HashOrder FieldId := ⟨fun _ => 0⟩
  intro number dims x
  obtain ⟨key, hkey, hrel⟩ := specialize_relocates_iff dims
    (forall_mem_singleton.mpr ⟨simplifiedUnion_literal (by decide),
      simplifiedUnion_literal (by decide), simplifiedUnion_literal (by decide)⟩)
    x ⟨rfl, rfl⟩ ⟨forall_mem_singleton.mpr (simplifiedUnion_literal (by decide)),
      forall_mem_singleton.mpr (simplifiedUnion_literal (by decide))⟩ .nop .nop
  refine ⟨key, hkey, fun ρ => (hrel ρ ?_).mpr (.inl ?_)⟩
  · exact forall_mem_singleton.mpr ⟨moveRight_literals ρ 2 2 7, moveRight_literals ρ 5 2 7⟩
  · refine forall_mem_singleton.mpr ⟨?_, ?_, rfl⟩
    · show (BitVec.ofInt 32 2).toInt ≤ (BitVec.ofInt 32 5).toInt
      decide
    · show (BitVec.ofInt 32 2 - BitVec.ofInt 32 2 + BitVec.ofInt 32 7).toInt ≤
        (BitVec.ofInt 32 5 - BitVec.ofInt 32 2 + BitVec.ofInt 32 7).toInt
      decide

/-- The destination has the extent of the source. -/
def CopiedDimension.SameExtent (ρ : Valuation) (d : CopiedDimension) : Prop :=
  d.dstEnd.value ρ 32 - d.dst.value ρ 32 = d.srcT.value ρ 32 - d.srcF.value ρ 32

/-- Of a copy of the elements `0` and `1` to the same indices, the range of the one index `0` comes
out as the range from `0` to `1`. -/
theorem specialize_extends_range : letI : HashOrder FieldId := ⟨fun _ => 0⟩
    ¬ ∀ dims : List CopiedDimension, (∀ d ∈ dims, d.Simplified) → ∀ x : HeapArrayKey,
      x.OfRank dims.length → x.Simplified → ∀ srcA dstA : Term,
      ∃ key, Settles (fun n => specialize n x (writeKey dstA dims) srcA (dims.map (·.srcF))
        (dims.map (·.srcT))) key ∧
      ∀ ρ, x.SumsKeep ρ dims → (∀ d ∈ dims, d.SameExtent ρ) → Relocates ρ dims srcA x key := by
  let _ : HashOrder FieldId := ⟨fun _ => 0⟩
  intro h
  let number (n : ℤ) : Term := literal n .int32
  let dims : List CopiedDimension := [⟨number 0, number 1, number 0, number 1⟩]
  let x : HeapArrayKey := .rangeArrayIndexKey .nop [number 0] [number 0]
  let ρ := Valuation.constants fun _ => 0
  have hzero : SimplifiedUnion False .int32 (number 0) := simplifiedUnion_literal (by decide)
  obtain ⟨key, hkey, hrel⟩ := h dims
    (forall_mem_singleton.mpr ⟨hzero, hzero, simplifiedUnion_literal (by decide)⟩) x
    ⟨rfl, rfl⟩ ⟨forall_mem_singleton.mpr hzero, forall_mem_singleton.mpr hzero⟩ .nop .nop
  have hrange : key = .rangeArrayIndexKey .nop [number 0] [number 1] := by
    obtain ⟨n, ⟨d, hrun⟩, hn⟩ := (hkey.and (Filter.eventually_ge_atTop 1)).exists
    obtain ⟨n, rfl⟩ : ∃ m, n = m + 1 := ⟨n - 1, by omega⟩
    exact (Prod.mk.inj (Except.ok.inj hrun)).1.symm
  subst hrange
  have himage := (hrel ρ (forall_mem_singleton.mpr
    ⟨moveRight_literals ρ 0 0 0, moveRight_literals ρ 0 0 1⟩)
    (forall_mem_singleton.mpr rfl) (.other 0) [1]).mp ⟨rfl, .cons ⟨by decide, by decide⟩ .nil⟩
  obtain ⟨_, js, ⟨-, hjs⟩, -, his⟩ := himage
  cases hjs with
  | @cons _ j _ js hj hjs =>
    cases hjs
    have hone : (1 : BitVec 32) = j - 0 + 0 := (List.cons.inj his).1
    rw [sub_zero, add_zero] at hone
    subst hone
    exact absurd hj.2 (by decide)

end HeapArrayKey

end VSharp
