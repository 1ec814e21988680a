import Mathlib.Logic.Basic

/-!
# Library — Systems

Systems that take one operation after another.  An operation that cannot be done in a state has no
result.  `Reaches allowed s` says that some run ends in `s` each of whose operations is allowed in
the state it is done in: a condition on steps becomes a condition on runs.
-/

namespace VSharp.Library

/-- A first state, and what an operation makes of a state. -/
structure System (σ ο : Type) where
  start : σ
  step : σ → ο → Option σ

namespace System
variable {σ ο : Type} (m : System σ ο)

/-- `s` is reached by operations that are allowed where they are done. -/
inductive Reaches (allowed : σ → ο → Prop) : σ → Prop where
  | start : Reaches allowed m.start
  | step {s s' : σ} {op : ο} (h : Reaches allowed s) (hallowed : allowed s op)
      (hstep : m.step s op = some s') : Reaches allowed s'

/-- One operation after another, each where it is allowed. -/
def run (allowed : σ → ο → Prop) [DecidableRel allowed] (s : σ) : List ο → Option σ
  | [] => some s
  | op :: ops => if allowed s op then (m.step s op).bind (run allowed · ops) else none

variable {m} {allowed : σ → ο → Prop} {s s' : σ}

/-- What holds first, and is kept by each allowed step, holds of all that is reached. -/
theorem Reaches.invariant {P : σ → Prop} (hstart : P m.start)
    (hstep : ∀ s op s', P s → allowed s op → m.step s op = some s' → P s')
    (h : m.Reaches allowed s) : P s := by
  induction h with
  | start => exact hstart
  | step _ hallowed hstep' ih => exact hstep _ _ _ ih hallowed hstep'

/-- A run reaches what it ends in. -/
theorem Reaches.run [DecidableRel allowed] (h : m.Reaches allowed s) {ops : List ο}
    (hrun : m.run allowed s ops = some s') : m.Reaches allowed s' := by
  induction ops generalizing s with
  | nil => exact Option.some.inj hrun ▸ h
  | cons op ops ih =>
    rw [System.run] at hrun
    split at hrun
    case isTrue hallowed =>
      obtain ⟨s₁, hstep, hrun⟩ := Option.bind_eq_some_iff.mp hrun
      exact ih (h.step hallowed hstep) hrun
    case isFalse => cases hrun

end System

end VSharp.Library
