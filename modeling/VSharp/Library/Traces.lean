import Mathlib.Data.Nat.Notation

/-!
# Library — Traces

Runs of a machine that takes one step at a time, with the events that are observed on them.
-/

namespace VSharp.Library
variable {σ ε : Type}

/-- A machine: its step, and the events of a step. -/
structure Machine (σ ε : Type) where
  step : σ → Option σ
  observe : σ → σ → List ε

namespace Machine
variable (m : Machine σ ε)

/-- The machine goes from `s` to `s'`, with the given events. -/
inductive Runs : σ → List ε → σ → Prop where
  | refl (s : σ) : Runs s [] s
  | more {s s₁ s' : σ} {evs : List ε} (h : m.step s = some s₁) (t : Runs s₁ evs s') :
      Runs s (m.observe s s₁ ++ evs) s'

variable {m} {s s₁ s' : σ} {evs evs' : List ε}

theorem Runs.one (h : m.step s = some s') : m.Runs s (m.observe s s') s' := by
  have hrun : m.Runs s (m.observe s s' ++ []) s' := .more h (.refl s')
  rwa [List.append_nil] at hrun

theorem Runs.trans (h : m.Runs s evs s₁) (h' : m.Runs s₁ evs' s') :
    m.Runs s (evs ++ evs') s' := by
  induction h with
  | refl => exact h'
  | more hstep _ ih =>
    rw [List.append_assoc]
    exact .more hstep (ih h')

/-- A run from a state with a known step is empty, or takes that step. -/
theorem Runs.of_step (h : m.Runs s evs s') (hstep : m.step s = some s₁) :
    evs = [] ∧ s' = s ∨ ∃ evs', evs = m.observe s s₁ ++ evs' ∧ m.Runs s₁ evs' s' := by
  cases h with
  | refl => exact .inl ⟨rfl, rfl⟩
  | more h t =>
    cases h.symm.trans hstep
    exact .inr ⟨_, rfl, t⟩

end Machine

end VSharp.Library
