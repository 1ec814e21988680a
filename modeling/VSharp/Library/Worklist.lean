import Mathlib.Algebra.GroupWithZero.Nat
import Mathlib.Algebra.Order.BigOperators.Group.List
import Mathlib.Algebra.Order.Group.Nat

/-!
# Library — Worklist

Search from a node of a graph with a queue of nodes to visit and the set of the visited ones.  Only
finitely many nodes have successors (`Links`), so the search ends; it visits what is reachable.
-/

namespace VSharp.Library
open List
variable {α : Type}

/-- The successors of each node; only the nodes in `keys` have any. -/
structure Links (α : Type) where
  next : α → List α
  keys : List α
  next_eq_nil : ∀ a, a ∉ keys → next a = []

namespace Links
variable [DecidableEq α] (g : Links α)

/-- `b` is reachable from `a`. -/
def Reaches : α → α → Prop := Relation.ReflTransGen fun a b => b ∈ g.next a

/-- The nodes with successors that are not visited yet. -/
def pending (visited : List α) : List α := g.keys.filter fun a => a ∉ visited

/-- How many nodes the search can still put in the queue. -/
def supply (visited : List α) : ℕ := ((g.pending visited).map fun a => (g.next a).length).sum

theorem sum_filter_ne_add_le (f : α → ℕ) {l : List α} {a : α} (ha : a ∈ l) :
    ((l.filter fun b => b ≠ a).map f).sum + f a ≤ (l.map f).sum := by
  induction l with
  | nil => cases ha
  | cons b l ih =>
    by_cases hba : b = a
    · subst hba
      have hsub : (l.filter fun c => c ≠ b).Sublist l := filter_sublist
      have hle := (hsub.map f).sum_le_sum fun _ _ => Nat.zero_le _
      simp only [ne_eq, not_true_eq_false, decide_false, Bool.false_eq_true, not_false_eq_true,
        filter_cons_of_neg, map_cons, sum_cons] at hle ⊢
      omega
    · have hl := ih ((mem_cons.mp ha).resolve_left fun h => hba h.symm)
      simp only [ne_eq, hba, not_false_eq_true, decide_true, filter_cons_of_pos,
        map_cons, sum_cons] at hl ⊢
      omega

/-- Visiting a node takes its successors from the supply. -/
theorem supply_append {visited : List α} {a : α} (ha : a ∉ visited) :
    g.supply (visited ++ [a]) + (g.next a).length ≤ g.supply visited := by
  have hpending : g.pending (visited ++ [a]) = (g.pending visited).filter fun b => b ≠ a := by
    rw [pending, pending, filter_filter]
    refine filter_congr fun b _ => ?_
    simp [and_comm]
  rw [supply, hpending]
  by_cases hkey : a ∈ g.keys
  · exact sum_filter_ne_add_le (fun b => (g.next b).length) (by simpa [pending] using ⟨hkey, ha⟩)
  · have hsame : ((g.pending visited).filter fun b => b ≠ a) = g.pending visited := by
      refine filter_eq_self.mpr fun b hb => ?_
      have hne : b ≠ a := fun h => hkey (h ▸ mem_of_mem_filter hb)
      simp [hne]
    rw [hsame, g.next_eq_nil a hkey]
    exact Nat.le_refl _

/-- The visited nodes, in order, once the queue is empty. -/
def visit (visited queue : List α) : List α :=
  match queue with
  | [] => visited
  | a :: queue =>
    if a ∈ visited then visit visited queue else visit (visited ++ [a]) (queue ++ g.next a)
termination_by queue.length + g.supply visited
decreasing_by
  · simp
  · rename_i ha
    have hle := g.supply_append ha
    simp only [length_append, length_cons]
    omega

theorem reaches_of_mem_visit {a : α} {visited queue : List α}
    (hvisited : ∀ b ∈ visited, g.Reaches a b) (hqueue : ∀ b ∈ queue, g.Reaches a b) :
    ∀ b ∈ g.visit visited queue, g.Reaches a b := by
  fun_induction visit g visited queue with
  | case1 visited => exact hvisited
  | case2 visited c queue _ ih =>
    exact ih hvisited fun b hb => hqueue b (mem_cons_of_mem _ hb)
  | case3 visited c queue _ ih =>
    have hc := hqueue c mem_cons_self
    refine ih (fun b hb => ?_) fun b hb => ?_
    · rcases mem_append.mp hb with hb | hb
      · exact hvisited b hb
      · rw [mem_singleton.mp hb]
        exact hc
    · rcases mem_append.mp hb with hb | hb
      · exact hqueue b (mem_cons_of_mem _ hb)
      · exact hc.tail hb

/-- All that waits gets visited, with the successors of all that is visited. -/
theorem visit_closed {visited queue : List α}
    (h : ∀ b ∈ visited, ∀ c ∈ g.next b, c ∈ visited ∨ c ∈ queue) :
    (∀ b, b ∈ visited ∨ b ∈ queue → b ∈ g.visit visited queue) ∧
      ∀ b ∈ g.visit visited queue, ∀ c ∈ g.next b, c ∈ g.visit visited queue := by
  fun_induction visit g visited queue with
  | case1 visited =>
    refine ⟨fun b hb => ?_, fun b hb c hc => ?_⟩
    · simpa using hb
    · simpa using h b hb c hc
  | case2 visited a queue ha ih =>
    obtain ⟨hsub, hclosed⟩ := ih fun b hb c hc => by
      rcases h b hb c hc with hc | hc
      · exact .inl hc
      · rcases mem_cons.mp hc with rfl | hc
        · exact .inl ha
        · exact .inr hc
    refine ⟨fun b hb => hsub b ?_, hclosed⟩
    rcases hb with hb | hb
    · exact .inl hb
    · rcases mem_cons.mp hb with rfl | hb
      · exact .inl ha
      · exact .inr hb
  | case3 visited a queue ha ih =>
    obtain ⟨hsub, hclosed⟩ := ih fun b hb c hc => by
      rcases mem_append.mp hb with hb | hb
      · rcases h b hb c hc with hc | hc
        · exact .inl (mem_append_left _ hc)
        · rcases mem_cons.mp hc with rfl | hc
          · exact .inl (by simp)
          · exact .inr (mem_append_left _ hc)
      · rw [mem_singleton.mp hb] at hc
        exact .inr (mem_append_right _ hc)
    refine ⟨fun b hb => hsub b ?_, hclosed⟩
    rcases hb with hb | hb
    · exact .inl (mem_append_left _ hb)
    · rcases mem_cons.mp hb with rfl | hb
      · exact .inl (by simp)
      · exact .inr (mem_append_left _ hb)

/-- The search from `a` visits what `a` reaches. -/
theorem mem_visit {a b : α} : b ∈ g.visit [] [a] ↔ g.Reaches a b := by
  constructor
  · intro hb
    refine g.reaches_of_mem_visit (by simp) (fun c hc => ?_) b hb
    rw [mem_singleton.mp hc]
    exact .refl
  · intro hb
    have hstart : ∀ b ∈ ([] : List α), ∀ c ∈ g.next b, c ∈ ([] : List α) ∨ c ∈ [a] := by simp
    obtain ⟨hsub, hclosed⟩ := g.visit_closed hstart
    induction hb with
    | refl => exact hsub a (.inr mem_cons_self)
    | tail _ hc ih => exact hclosed _ ih _ hc

end Links

end VSharp.Library
