import VSharp.Core.Branching

/-!
# Core — Path tree

The states that branching on conditions leads to, taken together: no path is lost, and none is
followed twice.
-/

namespace VSharp.Branching
open Term Propositional List

variable {V τ σ : Type}

/-- Of the valuations that satisfy `pc` each satisfies exactly one of the path conditions, and of the
others none. -/
def Partitions (I : Interp V) (pc : PathCondition) (leaves : List (State V τ σ)) : Prop :=
  (PC.Holds I pc ↔ ∃ s ∈ leaves, PC.Holds I s.pc) ∧
    leaves.Pairwise fun s t => ¬ (PC.Holds I s.pc ∧ PC.Holds I t.pc)

/-- A leaf is split into leaves of its own. -/
theorem Partitions.split {I : Interp V} {pc : PathCondition} {state : State V τ σ}
    {before leaves after : List (State V τ σ)} (h : Partitions I pc (before ++ state :: after))
    (hleaves : Partitions I state.pc leaves) : Partitions I pc (before ++ (leaves ++ after)) := by
  obtain ⟨hiff, hpairwise⟩ := h
  have hcover : ∀ s ∈ leaves, PC.Holds I s.pc → PC.Holds I state.pc := fun s hs h =>
    hleaves.1.mpr ⟨s, hs, h⟩
  rw [pairwise_append, pairwise_cons] at hpairwise
  obtain ⟨hbefore, ⟨hstate, hafter⟩, hacross⟩ := hpairwise
  constructor
  · rw [hiff]
    simp only [mem_append, mem_cons, or_and_right, exists_or, exists_eq_left, hleaves.1]
  · rw [pairwise_append, pairwise_append]
    refine ⟨hbefore, ⟨hleaves.2, hafter, fun s hs t ht hst => ?_⟩, fun s hs t ht hst => ?_⟩
    · exact hstate t ht ⟨hcover s hs hst.1, hst.2⟩
    · rcases mem_append.mp ht with ht | ht
      · exact hacross s hs state mem_cons_self ⟨hst.1, hcover t ht hst.2⟩
      · exact hacross s hs t (mem_cons_of_mem _ ht) hst

section
variable [HashOrder Term]

/-- The leaves of a tree of branchings.  In each step one leaf is replaced by its branches; until
then its memory and its type storage may change. -/
inductive Explored (S : Solver V τ σ) (start : State V τ σ) : List (State V τ σ) → Prop where
  | start : Explored S start [start]
  | branch {before after : List (State V τ σ)} {state conditionState : State V τ σ}
      {condition : Term} {f : Fork V τ σ} (h : Explored S start (before ++ state :: after))
      (hcond : Condition condition) (hcs : conditionState.pc = state.pc)
      (hcm : conditionState.model = state.model)
      (hanswered : Answered S state condition conditionState)
      (hfork : fork S false state condition conditionState = .ok f) :
      Explored S start (before ++ (f.states.map Prod.snd ++ after))

variable {S : Solver V τ σ} {valid : Interp V → Prop}

end

end VSharp.Branching
