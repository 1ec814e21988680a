import Mathlib.Algebra.Order.Ring.Int
import Mathlib.Data.List.Nodup

/-!
# Library — Boxes

Boxes of integer lists, given by a lower and an upper bound for each place, both included.  `InBox`
says that a list is in a box, and `listBox` lists a box with the last place running fastest, each
list once (`mem_listBox`, `nodup_listBox`).  It lists another box where the bounds are the same, or
where both are empty (`enumerates_listBox_iff`).
-/

namespace VSharp.Library
open List

/-- Every place is between its bounds. -/
def InBox (bounds : List (ℤ × ℤ)) (is : List ℤ) : Prop :=
  List.Forall₂ (fun b i => b.1 ≤ i ∧ i ≤ b.2) bounds is

/-- The integers from `lo` to `hi`. -/
def intSpan (lo hi : ℤ) : List ℤ := (List.range (hi + 1 - lo).toNat).map fun i : ℕ => lo + i

/-- The lists of a box. -/
def listBox : List (ℤ × ℤ) → List (List ℤ)
  | [] => [[]]
  | b :: bounds => (intSpan b.1 b.2).flatMap fun i => (listBox bounds).map (i :: ·)

variable {lo hi i : ℤ} {is : List ℤ} {bounds bounds' : List (ℤ × ℤ)}

@[simp] theorem mem_intSpan : i ∈ intSpan lo hi ↔ lo ≤ i ∧ i ≤ hi := by
  simp only [intSpan, mem_map, mem_range]
  constructor
  · rintro ⟨n, hn, rfl⟩
    omega
  · rintro ⟨hlo, hhi⟩
    exact ⟨(i - lo).toNat, by omega, by omega⟩

theorem nodup_intSpan (lo hi : ℤ) : (intSpan lo hi).Nodup :=
  nodup_range.map fun m n (h : lo + (m : ℤ) = lo + n) => by omega

theorem mem_listBox : is ∈ listBox bounds ↔ InBox bounds is := by
  induction bounds generalizing is with
  | nil => simp [listBox, InBox]
  | cons b bounds ih =>
    simp only [listBox, InBox, mem_flatMap, mem_map, mem_intSpan, forall₂_cons_left_iff]
    constructor
    · rintro ⟨i, hi, rest, hrest, rfl⟩
      exact ⟨i, rest, hi, ih.mp hrest, rfl⟩
    · rintro ⟨i, rest, hi, hrest, rfl⟩
      exact ⟨i, hi, rest, ih.mpr hrest, rfl⟩

theorem nodup_listBox (bounds : List (ℤ × ℤ)) : (listBox bounds).Nodup := by
  induction bounds with
  | nil => exact nodup_singleton []
  | cons b bounds ih =>
    refine nodup_flatMap.mpr ⟨fun i _ => ih.map cons_injective, ?_⟩
    refine (nodup_intSpan b.1 b.2).imp fun {i j} hij => disjoint_left.mpr fun l hl hl' => ?_
    obtain ⟨rest, -, rfl⟩ := mem_map.mp hl
    obtain ⟨rest', -, heq⟩ := mem_map.mp hl'
    exact hij (List.cons.inj heq).1.symm

/-- The lower bounds of a box that is not empty are in it. -/
theorem inBox_lower (h : ∀ b ∈ bounds, b.1 ≤ b.2) : InBox bounds (bounds.map Prod.fst) := by
  induction bounds with
  | nil => exact .nil
  | cons b bounds ih =>
    obtain ⟨hb, hbounds⟩ := forall_mem_cons.mp h
    exact .cons ⟨le_rfl, hb⟩ (ih hbounds)

theorem not_inBox_of_empty (h : ∃ b ∈ bounds, b.2 < b.1) : ¬ InBox bounds is := by
  intro hin
  obtain ⟨b, hb, hempty⟩ := h
  induction hin with
  | nil => cases hb
  | cons hi _ ih =>
    rcases mem_cons.mp hb with rfl | hb
    · exact absurd hempty (not_lt.mpr (hi.1.trans hi.2))
    · exact ih hb

/-- A box that is not empty has one list of bounds. -/
theorem eq_of_inBox_iff (h : ∀ b ∈ bounds, b.1 ≤ b.2) (hiff : ∀ is, InBox bounds is ↔ InBox bounds' is) :
    bounds = bounds' := by
  induction bounds generalizing bounds' with
  | nil =>
    have hnil := (hiff []).mp .nil
    cases hnil
    rfl
  | cons b bounds ih =>
    obtain ⟨hb, hbounds⟩ := forall_mem_cons.mp h
    have hrest := inBox_lower hbounds
    have hlower := (hiff _).mp (.cons ⟨le_rfl, hb⟩ hrest)
    obtain ⟨b', bounds', hb', hrest', rfl⟩ := forall₂_cons_right_iff.mp hlower
    have hhead : ∀ i, (b.1 ≤ i ∧ i ≤ b.2) ↔ b'.1 ≤ i ∧ i ≤ b'.2 := fun i => by
      have hcons := hiff (i :: bounds.map Prod.fst)
      simp only [InBox, forall₂_cons] at hcons
      exact ⟨fun hi => (hcons.mp ⟨hi, hrest⟩).1, fun hi => (hcons.mpr ⟨hi, hrest'⟩).1⟩
    have htail : ∀ is, InBox bounds is ↔ InBox bounds' is := fun is => by
      have hcons := hiff (b.1 :: is)
      simp only [InBox, forall₂_cons] at hcons
      exact ⟨fun his => (hcons.mp ⟨⟨le_rfl, hb⟩, his⟩).2, fun his => (hcons.mpr ⟨hb', his⟩).2⟩
    have h₁ := (hhead b.1).mp ⟨le_rfl, hb⟩
    have h₂ := (hhead b.2).mp ⟨hb, le_rfl⟩
    have h₃ := (hhead b'.1).mpr ⟨le_rfl, h₁.1.trans h₁.2⟩
    have h₄ := (hhead b'.2).mpr ⟨h₁.1.trans h₁.2, le_rfl⟩
    rw [ih hbounds htail, Prod.ext (le_antisymm h₃.1 h₁.1) (le_antisymm h₂.2 h₄.2)]

/-- A list of all lists of a box, each once. -/
structure Enumerates (bounds : List (ℤ × ℤ)) (l : List (List ℤ)) : Prop where
  nodup : l.Nodup
  mem_iff : ∀ is, is ∈ l ↔ InBox bounds is

/-- The lists of another box are those of a box only where the bounds are the same, or where both
boxes are empty. -/
theorem enumerates_listBox_iff : Enumerates bounds (listBox bounds') ↔
    bounds = bounds' ∨ (∃ b ∈ bounds, b.2 < b.1) ∧ ∃ b ∈ bounds', b.2 < b.1 := by
  constructor
  · intro h
    have hiff : ∀ is, InBox bounds is ↔ InBox bounds' is := fun is =>
      (h.mem_iff is).symm.trans mem_listBox
    by_cases hempty : ∃ b ∈ bounds, b.2 < b.1
    · by_cases hempty' : ∃ b ∈ bounds', b.2 < b.1
      · exact .inr ⟨hempty, hempty'⟩
      · push Not at hempty'
        exact .inl (eq_of_inBox_iff hempty' fun is => (hiff is).symm).symm
    · push Not at hempty
      exact .inl (eq_of_inBox_iff hempty hiff)
  · rintro (rfl | ⟨hempty, hempty'⟩)
    · exact ⟨nodup_listBox bounds, fun is => mem_listBox⟩
    · refine ⟨nodup_listBox bounds', fun is => ?_⟩
      rw [mem_listBox]
      exact iff_of_false (not_inBox_of_empty hempty') (not_inBox_of_empty hempty)

/-- A box is part of one with the same lower bounds where it is empty, or where no upper bound is
greater. -/
theorem inBox_imp_iff {α : Type} {l : List α} {lower upper upper' : α → ℤ} :
    (∀ is, InBox (l.map fun a => (lower a, upper a)) is →
        InBox (l.map fun a => (lower a, upper' a)) is) ↔
      (∃ a ∈ l, upper a < lower a) ∨ ∀ a ∈ l, upper a ≤ upper' a := by
  constructor
  · intro h
    refine or_iff_not_imp_left.mpr fun hnonempty => ?_
    push Not at hnonempty
    have hself : InBox (l.map fun a => (lower a, upper a)) (l.map upper) := by
      simp only [InBox, forall₂_map_left_iff, forall₂_map_right_iff, forall₂_same]
      exact fun a ha => ⟨hnonempty a ha, le_rfl⟩
    have hlast := h _ hself
    simp only [InBox, forall₂_map_left_iff, forall₂_map_right_iff, forall₂_same] at hlast
    exact fun a ha => (hlast a ha).2
  · rintro (⟨a, ha, hempty⟩ | hle) is his
    · exact absurd his (not_inBox_of_empty ⟨_, mem_map_of_mem ha, hempty⟩)
    · induction l generalizing is with
      | nil => exact his
      | cons a l ih =>
        obtain ⟨ha, hl⟩ := forall_mem_cons.mp hle
        obtain ⟨i, rest, hi, hrest, rfl⟩ := forall₂_cons_left_iff.mp his
        exact .cons ⟨hi.1, hi.2.trans ha⟩ (ih hl rest hrest)

end VSharp.Library
