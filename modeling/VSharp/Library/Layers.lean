import Mathlib.Data.Nat.Notation
import Mathlib.Logic.Relation
import Mathlib.Tactic.ByContra

/-!
# Library — Layers

Chains along a relation, and lists in which every element has its successors behind it
(`Topological`).  What is on such a list is on no cycle, and its chains are shorter than the list.
The elements with a chain of `n` steps and none of `n + 1` are those that the `n`-th round of taking
away what has no successor left takes (`Layered`).
-/

namespace VSharp.Library.Layers
open Relation List

variable {α : Type} {r : α → α → Prop} {a b : α} {l : List α} {n m : ℕ}

/-- A chain of `n` steps begins at `a`. -/
def HasChain (r : α → α → Prop) : ℕ → α → Prop
  | 0, _ => True
  | n + 1, a => ∃ b, r a b ∧ HasChain r n b

theorem HasChain.pred (h : HasChain r (n + 1) a) : HasChain r n a := by
  induction n generalizing a with
  | zero => trivial
  | succ n ih =>
    obtain ⟨b, hab, hb⟩ := h
    exact ⟨b, hab, ih hb⟩

theorem HasChain.of_le (h : HasChain r n a) (hle : m ≤ n) : HasChain r m a := by
  induction n with
  | zero => exact (Nat.le_zero.mp hle) ▸ h
  | succ n ih =>
    rcases Nat.le_succ_iff.mp hle with hle | rfl
    · exact ih h.pred hle
    · exact h

/-- Some chain from `a` is longer than all chains from `b`. -/
def Shorter (r : α → α → Prop) (b a : α) : Prop := ∃ n, HasChain r n a ∧ ¬ HasChain r n b

theorem Shorter.irrefl : ¬ Shorter r a a := fun ⟨_, h, hnot⟩ => hnot h

theorem Shorter.trans {c : α} (h : Shorter r b a) (h' : Shorter r c b) : Shorter r c a := by
  obtain ⟨n, ha, hb⟩ := h
  obtain ⟨m, hb', hc⟩ := h'
  refine ⟨n, ha, fun hc' => hc (hc'.of_le ?_)⟩
  by_contra hle
  exact hb (hb'.of_le (Nat.le_of_not_le hle))

/-! ### Topological lists -/

/-- Every element has its successors behind it. -/
inductive Topological (r : α → α → Prop) : List α → Prop where
  | nil : Topological r []
  | cons {a : α} {l : List α} (hfresh : a ∉ l) (hnext : ∀ b, r a b → b ∈ l)
      (h : Topological r l) : Topological r (a :: l)

section
variable (h : Topological r l)

include h

theorem Topological.next_mem (ha : a ∈ l) (hab : r a b) : b ∈ l := by
  induction h with
  | nil => cases ha
  | cons hfresh hnext _ ih =>
    rcases mem_cons.mp ha with rfl | ha
    · exact mem_cons_of_mem _ (hnext b hab)
    · exact mem_cons_of_mem _ (ih ha)

theorem Topological.trans_mem (ha : a ∈ l) (hab : TransGen r a b) :
    b ∈ l := by
  induction hab with
  | single hab => exact h.next_mem ha hab
  | tail _ hbc ih => exact h.next_mem ih hbc

theorem Topological.acyclic (ha : a ∈ l) : ¬ TransGen r a a := by
  induction h with
  | nil => cases ha
  | @cons c l hfresh hnext h ih =>
    intro hcycle
    rcases mem_cons.mp ha with rfl | ha
    · obtain ⟨b, hab, hba⟩ := TransGen.head'_iff.mp hcycle
      rcases reflTransGen_iff_eq_or_transGen.mp hba with heq | hba
      · exact hfresh (heq ▸ hnext b hab)
      · exact hfresh (h.trans_mem (hnext b hab) hba)
    · exact ih ha hcycle

theorem Topological.lt_length (ha : a ∈ l) (hchain : HasChain r n a) :
    n < l.length := by
  induction h generalizing a n with
  | nil => cases ha
  | @cons c l hfresh hnext h ih =>
    rw [length_cons]
    cases n with
    | zero => exact Nat.succ_pos _
    | succ n =>
      obtain ⟨b, hab, hb⟩ := hchain
      refine Nat.succ_lt_succ (ih ?_ hb)
      rcases mem_cons.mp ha with rfl | ha
      · exact hnext b hab
      · exact h.next_mem ha hab

theorem Topological.nodup : l.Nodup := by
  induction h with
  | nil => exact nodup_nil
  | cons hfresh _ _ ih => exact nodup_cons.mpr ⟨hfresh, ih⟩

/-- A part that has its successors stays topological. -/
theorem Topological.filter {S : α → Bool}
    (hclosed : ∀ a b, S a = true → r a b → S b = true) : Topological r (l.filter S) := by
  induction h with
  | nil => exact .nil
  | @cons c l hfresh hnext h ih =>
    by_cases hc : S c = true
    · rw [filter_cons_of_pos hc]
      exact .cons (fun hmem => hfresh (mem_filter.mp hmem).1)
        (fun b hb => mem_filter.mpr ⟨hnext b hb, hclosed c b hc hb⟩) ih
    · rwa [filter_cons_of_neg hc]

end

/-- A chain walked back from its end. -/
theorem exists_chain_swap (hstart : HasChain (Function.swap r) m a) (hchain : HasChain r n a) :
    ∃ b, HasChain (Function.swap r) (m + n) b ∧ ReflTransGen r a b := by
  induction n generalizing a m with
  | zero => exact ⟨a, hstart, .refl⟩
  | succ n ih =>
    obtain ⟨c, hac, hc⟩ := hchain
    obtain ⟨b, hb, hcb⟩ := ih (m := m + 1) ⟨a, hac, hstart⟩ hc
    exact ⟨b, by rwa [Nat.add_right_comm] at hb, hcb.head hac⟩

/-! ### Rounds -/

/-- As long as there are chains of `n` steps, some element has none that is longer. -/
theorem exists_last {S : α → Prop} (hclosed : ∀ a b, S a → r a b → S b) {bound : ℕ}
    (hbound : ∀ a, S a → ¬ HasChain r bound a) (ha : S a) (hchain : HasChain r n a) :
    ∃ b, S b ∧ HasChain r n b ∧ ¬ HasChain r (n + 1) b := by
  by_contra hnone
  push Not at hnone
  -- a chain of more steps goes on, after its first ones, with one of `n` steps
  have hlonger : ∀ m b, S b → HasChain r (m + n) b → HasChain r (m + n + 1) b := by
    intro m
    induction m with
    | zero =>
      intro b hb h
      rw [Nat.zero_add] at h ⊢
      exact hnone b hb h
    | succ m ih =>
      intro b hb h
      rw [Nat.add_right_comm m 1 n] at h ⊢
      obtain ⟨c, hbc, hc⟩ := h
      exact ⟨c, hbc, ih c (hclosed b c hb hbc) hc⟩
  have hall : ∀ k, HasChain r (k + n) a := by
    intro k
    induction k with
    | zero => rwa [Nat.zero_add]
    | succ k ih =>
      rw [Nat.add_right_comm]
      exact hlonger k a ha ih
  exact hbound a ha ((hall bound).of_le (Nat.le_add_right bound n))

/-! ### Layers -/

/-- The rounds from the `n`-th on, over the elements of `S`. -/
inductive Layered (r : α → α → Prop) (S : α → Prop) : ℕ → List (List α) → Prop where
  | nil {n : ℕ} (hnone : ∀ a, S a → ¬ HasChain r n a) : Layered r S n []
  | cons {n : ℕ} {layer : List α} {layers : List (List α)} (hnodup : layer.Nodup)
      (hne : layer ≠ []) (hmem : ∀ a, a ∈ layer ↔ S a ∧ HasChain r n a ∧ ¬ HasChain r (n + 1) a)
      (h : Layered r S (n + 1) layers) : Layered r S n (layer :: layers)

variable {S : α → Prop} {layers : List (List α)} {layer layer' : List α} {i j : ℕ}

section
variable (h : Layered r S n layers)

include h

theorem Layered.mem_flatten :
    a ∈ layers.flatten ↔ S a ∧ HasChain r n a := by
  induction h with
  | nil hnone => simpa using hnone a
  | @cons n layer layers _ _ hmem _ ih =>
    rw [List.flatten_cons, mem_append, hmem, ih]
    constructor
    · rintro (⟨hS, hn, -⟩ | ⟨hS, hn⟩)
      · exact ⟨hS, hn⟩
      · exact ⟨hS, hn.pred⟩
    · rintro ⟨hS, hn⟩
      by_cases hlonger : HasChain r (n + 1) a
      · exact .inr ⟨hS, hlonger⟩
      · exact .inl ⟨hS, hn, hlonger⟩

theorem Layered.nodup_flatten : layers.flatten.Nodup := by
  induction h with
  | nil => exact nodup_nil
  | cons hnodup _ hmem h ih =>
    refine nodup_append.mpr ⟨hnodup, ih, fun a ha b hb hab => ?_⟩
    exact ((hmem a).mp ha).2.2 (hab ▸ (h.mem_flatten.mp hb).2)

theorem Layered.nil_notMem : [] ∉ layers := by
  induction h with
  | nil => exact not_mem_nil
  | cons _ hne _ _ ih =>
    intro hmem
    rcases mem_cons.mp hmem with heq | hmem
    · exact hne heq.symm
    · exact ih hmem

theorem Layered.chain_of_getElem? (hi : layers[i]? = some layer)
    (ha : a ∈ layer) : HasChain r (n + i) a ∧ ¬ HasChain r (n + i + 1) a := by
  induction h generalizing i with
  | nil => simp at hi
  | cons _ _ hmem _ ih =>
    cases i with
    | zero =>
      cases hi
      exact ((hmem a).mp ha).2
    | succ i =>
      rw [← Nat.add_assoc, Nat.add_right_comm]
      exact ih hi

/-- The element with the shorter chains is in the earlier layer. -/
theorem Layered.lt_iff (hi : layers[i]? = some layer) (ha : a ∈ layer)
    (hj : layers[j]? = some layer') (hb : b ∈ layer') : j < i ↔ Shorter r b a := by
  obtain ⟨ha₁, ha₂⟩ := h.chain_of_getElem? hi ha
  obtain ⟨hb₁, hb₂⟩ := h.chain_of_getElem? hj hb
  constructor
  · intro hlt
    exact ⟨n + j + 1, ha₁.of_le (by omega), hb₂⟩
  · rintro ⟨m, hma, hmb⟩
    have hm : m ≤ n + i := by
      by_contra hlt
      exact ha₂ (hma.of_le (by omega))
    have hm' : n + j < m := by
      by_contra hlt
      exact hmb (hb₁.of_le (by omega))
    omega

end

end VSharp.Library.Layers
