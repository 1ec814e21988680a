import VSharp.Core.UnsafeStructs
import VSharp.Library.Boxes

/-!
# Core — StructPadding

`GetAffectedFields` of `VSharp.SILI.Core/Memory.fs` fills a block with one-byte entries for the bytes
that belong to no field, here for fields that may overlap, as those of an explicit layout.

* `allFields` takes the fields in the order of their offsets and fills from the end of each to the
  offset of the next (`allFields_layout`: `UnsafeStructs.allFields` is the same for the layouts
  there);
* `Block.Order` is any order that a sort by offsets may give;
* `exactPadding_iff`: all bytes outside the fields are filled, and no others if no field before a gap
  ends earlier than another one before it.
-/

namespace VSharp.StructPadding
open Library UnsafeStructs List

/-! ### The code -/

section
variable (betweenField : FieldId)

/-- One-byte fields from `start` on. -/
def zeros (start count : ℤ) : List FieldInterval :=
  (List.range count.toNat).map fun i : ℕ => ⟨betweenField, start + i, 1⟩

def addZerosBetween (field : FieldInterval) (acc : List FieldInterval × ℤ) :
    List FieldInterval × ℤ :=
  let (allFields, nextOffset) := acc
  let curEnd := field.offset + field.size
  let between := nextOffset - curEnd
  let zerosBetween := if between > 0 then zeros betweenField curEnd between else []
  (field :: (zerosBetween ++ allFields), field.offset)

/-- `allFields`, of the fields sorted by their offsets. -/
def allFields (blockSize : ℤ) (fieldIntervals : List FieldInterval) : List FieldInterval :=
  let (fieldsWithZeros, fstOffset) :=
    fieldIntervals.foldr (addZerosBetween betweenField) ([], blockSize)
  (if fstOffset > 0 then zeros betweenField 0 fstOffset else []) ++ fieldsWithZeros

end

/-! ### Blocks -/

/-- The byte `b` belongs to the field. -/
def Covers (f : FieldInterval) (b : ℤ) : Prop := f.offset ≤ b ∧ b < f.offset + f.size

/-- The fields of a block, which lie inside it and have names. -/
structure Block where
  blockType : Ty
  blockSize : ℤ
  fields : List FieldInterval
  named : ∀ f ∈ fields, f.fieldId.name ≠ ""
  offset_nonneg : ∀ f ∈ fields, 0 ≤ f.offset
  size_nonneg : ∀ f ∈ fields, 0 ≤ f.size
  inside : ∀ f ∈ fields, f.offset + f.size ≤ blockSize

namespace Block

def betweenField (B : Block) : FieldId := ⟨B.blockType, "", .byte⟩

/-- The fields of a block, sorted by their offsets; `Array.sortBy` may exchange those with equal
offsets. -/
structure Order (B : Block) where
  intervals : List FieldInterval
  perm : intervals.Perm B.fields
  sorted : intervals.Pairwise fun f g => f.offset ≤ g.offset

end Block

variable {B : Block}

namespace Block.Order

/-- What `GetAffectedFields` inserts. -/
def synthetic (O : B.Order) : List FieldInterval :=
  (allFields B.betweenField B.blockSize O.intervals).filter fun e => e.fieldId.name = ""

end Block.Order

/-- One-byte entries for the bytes of a block that belong to no field, each once. -/
structure ExactPadding (B : Block) (entries : List FieldInterval) : Prop where
  size_eq : ∀ e ∈ entries, e.size = 1
  nodup : (entries.map FieldInterval.offset).Nodup
  mem_iff : ∀ b, b ∈ entries.map FieldInterval.offset ↔
    (0 ≤ b ∧ b < B.blockSize) ∧ ∀ f ∈ B.fields, ¬ Covers f b

/-- Where the first of the fields begins, or the block ends. -/
def nextOffset (blockSize : ℤ) : List FieldInterval → ℤ
  | [] => blockSize
  | f :: _ => f.offset

/-- From the end of each field to the offset of the next. -/
def gaps (blockSize : ℤ) : List FieldInterval → List ℤ
  | [] => []
  | f :: rest => intSpan (f.offset + f.size) (nextOffset blockSize rest - 1) ++ gaps blockSize rest

/-! ### The entries -/

section
variable {betweenField : FieldId} {l : List FieldInterval} {blockSize start count b : ℤ}
  {e : FieldInterval}

theorem filter_zeros (hname : betweenField.name = "") :
    (zeros betweenField start count).filter (fun e => e.fieldId.name = "") =
      zeros betweenField start count := by
  rw [filter_eq_self]
  intro e he
  obtain ⟨i, -, rfl⟩ := mem_map.mp he
  simp [hname]

/-- The bytes that are filled from `start` on, if there are any. -/
theorem offsets_zeros (hname : betweenField.name = "") :
    ((if count > 0 then zeros betweenField start count else []).filter fun e =>
      e.fieldId.name = "").map FieldInterval.offset = intSpan start (start + count - 1) := by
  split_ifs with h
  · rw [filter_zeros hname, zeros, intSpan, map_map,
      show start + count - 1 + 1 - start = count by omega]
    rfl
  · rw [intSpan, show (start + count - 1 + 1 - start).toNat = 0 by omega]
    rfl

/-- The bytes that the fold fills. -/
theorem foldr_addZerosBetween (hname : betweenField.name = "")
    (hnamed : ∀ f ∈ l, f.fieldId.name ≠ "") :
    (l.foldr (addZerosBetween betweenField) ([], blockSize)).2 = nextOffset blockSize l ∧
    ((l.foldr (addZerosBetween betweenField) ([], blockSize)).1.filter fun e =>
      e.fieldId.name = "").map FieldInterval.offset = gaps blockSize l := by
  induction l with
  | nil => exact ⟨rfl, rfl⟩
  | cons f rest ih =>
    obtain ⟨hf, hrest⟩ := forall_mem_cons.mp hnamed
    obtain ⟨hnext, hgaps⟩ := ih hrest
    refine ⟨rfl, ?_⟩
    rw [foldr_cons, addZerosBetween, gaps, ← hgaps, ← hnext]
    simp only [filter_cons, hf, decide_false, Bool.false_eq_true, if_false,
      filter_append, map_append, offsets_zeros hname]
    rw [show f.offset + f.size + ((rest.foldr (addZerosBetween betweenField) ([], blockSize)).2 -
      (f.offset + f.size)) - 1 =
        (rest.foldr (addZerosBetween betweenField) ([], blockSize)).2 - 1 by omega]

theorem synthetic_offsets (O : B.Order) : O.synthetic.map FieldInterval.offset =
    intSpan 0 (nextOffset B.blockSize O.intervals - 1) ++ gaps B.blockSize O.intervals := by
  have hnamed : ∀ f ∈ O.intervals, f.fieldId.name ≠ "" := fun f hf =>
    B.named f (O.perm.mem_iff.mp hf)
  obtain ⟨hnext, hgaps⟩ :=
    @foldr_addZerosBetween B.betweenField O.intervals B.blockSize rfl hnamed
  rw [Block.Order.synthetic, allFields]
  simp only [filter_append, map_append, hnext, hgaps]
  rw [offsets_zeros rfl, Int.zero_add]

theorem size_zeros (he : e ∈ if count > 0 then zeros betweenField start count else []) :
    e.size = 1 := by
  split_ifs at he with h
  · obtain ⟨i, -, rfl⟩ := mem_map.mp he
    rfl
  · cases he

/-- An entry is one of the fields or one byte long. -/
theorem mem_or_size_foldr (he : e ∈ (l.foldr (addZerosBetween betweenField) ([], blockSize)).1) :
    e ∈ l ∨ e.size = 1 := by
  induction l with
  | nil => cases he
  | cons f rest ih =>
    rw [foldr_cons, addZerosBetween] at he
    rcases mem_cons.mp he with rfl | he
    · exact .inl mem_cons_self
    · rcases mem_append.mp he with he | he
      · exact .inr (size_zeros he)
      · exact (ih he).imp_left (mem_cons_of_mem f)

theorem size_synthetic (O : B.Order) : ∀ e ∈ O.synthetic, e.size = 1 := by
  intro e he
  obtain ⟨he, hname⟩ := mem_filter.mp he
  rcases mem_append.mp he with he | he
  · exact size_zeros he
  · exact (mem_or_size_foldr he).resolve_left fun hfield =>
      B.named e (O.perm.mem_iff.mp hfield) (of_decide_eq_true hname)

end

/-! ### The gaps -/

section
variable {f g : FieldInterval} {l pre post : List FieldInterval} {blockSize b : ℤ}

theorem mem_gaps : b ∈ gaps blockSize l ↔ ∃ pre f post, l = pre ++ f :: post ∧
    f.offset + f.size ≤ b ∧ b < nextOffset blockSize post := by
  induction l with
  | nil => simp [gaps]
  | cons f rest ih =>
    rw [gaps, mem_append, mem_intSpan, ih]
    constructor
    · rintro (hb | ⟨pre, g, post, rfl, hb⟩)
      · exact ⟨[], f, rest, rfl, hb.1, by omega⟩
      · exact ⟨f :: pre, g, post, rfl, hb⟩
    · rintro ⟨pre, g, post, heq, hb⟩
      cases pre with
      | nil =>
        cases heq
        exact .inl ⟨hb.1, by omega⟩
      | cons f' pre =>
        cases heq
        exact .inr ⟨pre, g, post, rfl, hb⟩

/-- Fields in the order of their offsets, inside a block. -/
structure Ordered (blockSize : ℤ) (l : List FieldInterval) : Prop where
  sorted : l.Pairwise fun f g => f.offset ≤ g.offset
  size_nonneg : ∀ f ∈ l, 0 ≤ f.size
  inside : ∀ f ∈ l, f.offset + f.size ≤ blockSize

theorem Ordered.tail (h : Ordered blockSize (f :: l)) : Ordered blockSize l :=
  ⟨h.sorted.of_cons, fun g hg => h.size_nonneg g (mem_cons_of_mem f hg),
    fun g hg => h.inside g (mem_cons_of_mem f hg)⟩

theorem Ordered.after (h : Ordered blockSize (pre ++ f :: post)) : Ordered blockSize post := by
  induction pre with
  | nil => exact h.tail
  | cons g pre ih => exact ih h.tail

section
variable (h : Ordered blockSize l)

include h

theorem Ordered.nextOffset_le (hf : f ∈ l) :
    nextOffset blockSize l ≤ f.offset := by
  cases l with
  | nil => cases hf
  | cons g l =>
    rcases mem_cons.mp hf with rfl | hf
    · exact le_rfl
    · exact rel_of_pairwise_cons h.sorted hf

theorem Ordered.nextOffset_le_blockSize :
    nextOffset blockSize l ≤ blockSize := by
  cases l with
  | nil => exact le_rfl
  | cons f l =>
    have hsize := h.size_nonneg f mem_cons_self
    have hinside := h.inside f mem_cons_self
    show f.offset ≤ blockSize
    omega

theorem Ordered.le_of_mem_gaps (hb : b ∈ gaps blockSize l) :
    nextOffset blockSize l ≤ b := by
  obtain ⟨pre, f, post, rfl, hend, -⟩ := mem_gaps.mp hb
  have hmem : f ∈ pre ++ f :: post := mem_append_right _ mem_cons_self
  have hle := h.nextOffset_le hmem
  have hsize := h.size_nonneg f hmem
  omega

theorem Ordered.nodup_gaps : (gaps blockSize l).Nodup := by
  induction l with
  | nil => exact nodup_nil
  | cons f l ih =>
    refine (nodup_intSpan _ _).append (ih h.tail) (disjoint_left.mpr fun b hb hb' => ?_)
    have hlt := (mem_intSpan.mp hb).2
    have hle := h.tail.le_of_mem_gaps hb'
    omega

/-- The bytes that belong to no field are in a gap, or before the first field. -/
theorem Ordered.mem_gaps_of_free (hfree : ∀ f ∈ l, ¬ Covers f b)
    (hlt : b < blockSize) (hle : nextOffset blockSize l ≤ b) : b ∈ gaps blockSize l := by
  induction l with
  | nil => exact absurd hlt (not_lt.mpr hle)
  | cons f l ih =>
    obtain ⟨hf, hl⟩ := forall_mem_cons.mp hfree
    rw [gaps, mem_append, mem_intSpan]
    by_cases hnext : nextOffset blockSize l ≤ b
    · exact .inr (ih h.tail hl hnext)
    · have hend : f.offset + f.size ≤ b := by
        by_contra hlt'
        exact hf ⟨hle, not_le.mp hlt'⟩
      exact .inl ⟨hend, by omega⟩

end

end

/-! ### Exactness -/

theorem Block.Order.ordered (O : B.Order) : Ordered B.blockSize O.intervals :=
  ⟨O.sorted, fun f hf => B.size_nonneg f (O.perm.mem_iff.mp hf),
    fun f hf => B.inside f (O.perm.mem_iff.mp hf)⟩

/-- The bytes that belong to no field are filled, each once, and no others, if and only if no field
that is followed by a gap comes after one that ends later. -/
theorem exactPadding_iff (O : B.Order) : ExactPadding B O.synthetic ↔
    ∀ pre f post, O.intervals = pre ++ f :: post →
      f.offset + f.size < nextOffset B.blockSize post →
      ∀ g ∈ pre, g.offset + g.size ≤ f.offset + f.size := by
  have hfirst : ∀ b, b ∈ O.synthetic.map FieldInterval.offset ↔
      (0 ≤ b ∧ b < nextOffset B.blockSize O.intervals) ∨ b ∈ gaps B.blockSize O.intervals := by
    intro b
    rw [synthetic_offsets, mem_append, mem_intSpan, Int.le_sub_one_iff]
  constructor
  · intro h pre f post heq hgap g hg
    by_contra hlt
    have hf : f ∈ O.intervals := heq ▸ mem_append_right _ mem_cons_self
    have hin : f.offset + f.size ∈ gaps B.blockSize O.intervals :=
      mem_gaps.mpr ⟨pre, f, post, heq, le_rfl, hgap⟩
    have hfree := ((h.mem_iff _).mp ((hfirst _).mpr (.inr hin))).2 g
      (O.perm.mem_iff.mp (heq ▸ mem_append_left _ hg))
    have hle : g.offset ≤ f.offset := by
      have hsorted := O.sorted
      rw [heq] at hsorted
      exact (pairwise_append.mp hsorted).2.2 g hg f mem_cons_self
    have hsize := O.ordered.size_nonneg f hf
    exact hfree ⟨by omega, by omega⟩
  · intro h
    refine ⟨size_synthetic O, ?_, fun b => ?_⟩
    · rw [synthetic_offsets]
      refine (nodup_intSpan _ _).append O.ordered.nodup_gaps (disjoint_left.mpr fun b hb hb' => ?_)
      have hlt := (mem_intSpan.mp hb).2
      have hle := O.ordered.le_of_mem_gaps hb'
      omega
    · rw [hfirst]
      constructor
      · rintro (hb | hb)
        · refine ⟨⟨hb.1, hb.2.trans_le O.ordered.nextOffset_le_blockSize⟩, fun f hf hcov => ?_⟩
          have hle := O.ordered.nextOffset_le (O.perm.mem_iff.mpr hf)
          have hcov := hcov.1
          omega
        · obtain ⟨pre, f, post, heq, hend, hlt⟩ := mem_gaps.mp hb
          have hordered := O.ordered
          rw [heq] at hordered
          have hf : f ∈ O.intervals := heq ▸ mem_append_right _ mem_cons_self
          have hoffset := B.offset_nonneg f (O.perm.mem_iff.mp hf)
          have hsize := O.ordered.size_nonneg f hf
          have hblock := hordered.after.nextOffset_le_blockSize
          refine ⟨⟨by omega, by omega⟩, fun g hg hcov => ?_⟩
          obtain ⟨hstart, hstop⟩ := hcov
          have hmem := O.perm.mem_iff.mpr hg
          rw [heq, mem_append, mem_cons] at hmem
          rcases hmem with hpre | rfl | hpost
          · have hend' := h pre f post heq (by omega) g hpre
            omega
          · omega
          · have hle := hordered.after.nextOffset_le hpost
            omega
      · rintro ⟨⟨hb, hlt⟩, hfree⟩
        by_cases hnext : nextOffset B.blockSize O.intervals ≤ b
        · exact .inr (O.ordered.mem_gaps_of_free
            (fun f hf => hfree f (O.perm.mem_iff.mp hf)) hlt hnext)
        · exact .inl ⟨hb, not_le.mp hnext⟩

/-- A `long` with a `byte` inside it. -/
def longAndByte : Block where
  blockType := .named 0
  blockSize := 8
  fields := [⟨⟨.named 0, "whole", .int64⟩, 0, 8⟩, ⟨⟨.named 0, "part", .byte⟩, 1, 1⟩]
  named := by decide
  offset_nonneg := by decide
  size_nonneg := by decide
  inside := by decide

/-- The only order of these fields. -/
def longAndByteOrder : longAndByte.Order where
  intervals := longAndByte.fields
  perm := .refl _
  sorted := by decide

/-- The bytes behind the inner field are filled, although they belong to the outer one. -/
theorem padding_inside_field : ¬ ExactPadding longAndByte longAndByteOrder.synthetic := by
  intro h
  have hin : 2 ∈ longAndByteOrder.synthetic.map FieldInterval.offset := by decide
  have hcovers : Covers ⟨⟨.named 0, "whole", .int64⟩, 0, 8⟩ 2 := by
    rw [Covers]
    decide
  exact ((h.mem_iff 2).mp hin).2 _ mem_cons_self hcovers

end VSharp.StructPadding
