import VSharp.Core.Branching

/-!
# Core — Branching with types

The solver that `commonStatedConditionalExecutionk` asks also looks at the type storage, which
records types from every condition that is assumed.  Here it answers for the path condition and the
types together, and `fork_types` says what a branching does to both: the path condition of a state
may be put back later, what its type storage has recorded may not.
-/

namespace VSharp
open Term Propositional Library

namespace Branching
variable {V τ σ : Type}

/-- The solver is right about the `valid` valuations that the path condition and the type storage
allow, and never gives up.  `records` is what recording a condition adds to the type storage. -/
structure TypedSolver (S : Solver V τ σ) (valid : Interp V → Prop) (allows : τ → Interp V → Prop)
    (records : Term → Interp V → Prop) : Prop where
  record : ∀ ts c I, allows (S.addTypeConstraint ts c) I ↔ allows ts I ∧ records c I
  sat : ∀ {s m ts}, S.checkSat s = (.sat m, ts) → valid m.valuation ∧ PC.Holds m.valuation s.pc ∧
    allows s.typeStorage m.valuation ∧ ∀ I, allows ts I ↔ allows s.typeStorage I
  unsat : ∀ {s ts}, S.checkSat s = (.unsat, ts) →
    ∀ I, valid I → PC.Holds I s.pc → ¬ allows s.typeStorage I
  known : ∀ s, (S.checkSat s).1 ≠ .unknown
  refine : ∀ {s : State V τ σ}, s.Witnessed valid → allows s.typeStorage s.model.valuation →
    ∃ s', S.refineTypes s = .ok s' ∧ s'.pc = s.pc ∧ s'.memory = s.memory ∧ s'.Witnessed valid ∧
      allows s'.typeStorage s'.model.valuation ∧
      ∀ I, allows s'.typeStorage I ↔ allows s.typeStorage I

variable [HashOrder Term] (S : Solver V τ σ) (valid : Interp V → Prop)
  (allows : τ → Interp V → Prop) (records : Term → Interp V → Prop)

/-- The types that are recorded for a condition follow from it. -/
def Recordable (c : Term) : Prop := ∀ I, valid I → c.holds I = true → records c I

/-- The state of a branch: it has the types of `c` recorded, and `assumed` in its path condition. -/
structure Branch (s : State V τ σ) (c : Term) (assumed : Interp V → Prop) (t : State V τ σ) :
    Prop where
  memory : t.memory = s.memory
  conditions : PC.Conditions t.pc
  witnessed : t.Witnessed valid
  allowed : allows t.typeStorage t.model.valuation
  holds_iff : ∀ I, valid I → (PC.Holds I t.pc ↔ PC.Holds I s.pc ∧ assumed I)
  allows_iff : ∀ I, valid I → PC.Holds I s.pc →
    (allows t.typeStorage I ↔ allows s.typeStorage I ∧ records c I)

/-- What a call does to the path condition and to the types of a state.  Where only one branch is
run, nothing is added to its path condition. -/
inductive Forks (s : State V τ σ) (c n : Term) : Fork V τ σ → Prop where
  | thenOnly {t : State V τ σ} (hmodel : c.holds s.model.valuation = true)
      (hthen : Branch valid allows records s c (fun _ => True) t)
      (hno : ∀ I, valid I → PC.Holds I s.pc → c.holds I = false → ¬ allows s.typeStorage I) :
      Forks s c n (.thenOnly t)
  | elseOnly {e : State V τ σ} (hmodel : c.holds s.model.valuation = false)
      (helse : Branch valid allows records s n (fun _ => True) e)
      (hno : ∀ I, valid I → PC.Holds I s.pc → c.holds I = true → ¬ allows s.typeStorage I) :
      Forks s c n (.elseOnly e)
  | both {t e : State V τ σ} (hthen : Branch valid allows records s c (fun I => c.holds I = true) t)
      (helse : Branch valid allows records s n (fun I => c.holds I = false) e) :
      Forks s c n (.both t e)

variable {S valid allows records} {s : State V τ σ}

section
variable (hS : TypedSolver S valid allows records)

include hS

omit [HashOrder Term] in
/-- Refining the types of a branch. -/
theorem Branch.refine {c : Term}
    {assumed : Interp V → Prop} {t : State V τ σ} (h : Branch valid allows records s c assumed t) :
    ∃ t', S.refineTypes t = .ok t' ∧ Branch valid allows records s c assumed t' := by
  obtain ⟨t', h₁, hpc, hmem, hw, hallowed, hiff⟩ := hS.refine h.witnessed h.allowed
  refine ⟨t', h₁, ⟨hmem.trans h.memory, hpc ▸ h.conditions, hw, hallowed, hpc ▸ h.holds_iff, ?_⟩⟩
  intro I hI hpcI
  rw [hiff, h.allows_iff I hI hpcI]

section
variable (hpc : PC.Conditions s.pc) (hw : s.Witnessed valid)
  (hallowed : allows s.typeStorage s.model.valuation)

include hpc hw hallowed

/-- The half of the call that keeps the condition which is true under the model. -/
theorem explore_types {kept other : Term} (hkept : Condition kept) (hother : Condition other)
    (hneg : ∀ {V : Type} (I : Interp V), other.holds I = !kept.holds I)
    (htrue : kept.holds s.model.valuation = true) (hrkept : Recordable valid records kept)
    (hrother : Recordable valid records other) :
    ∃ t o, explore S false s.pc s kept other = .ok (t, o) ∧
      match o with
      | none => Branch valid allows records s kept (fun _ => True) t ∧
          ∀ I, valid I → PC.Holds I s.pc → kept.holds I = false → ¬ allows s.typeStorage I
      | some e => Branch valid allows records s kept (fun I => kept.holds I = true) t ∧
          Branch valid allows records s other (fun I => kept.holds I = false) e := by
  obtain ⟨otherPc, h₁, hopc, hoiff⟩ := PC.add_spec hpc hother
  obtain ⟨keptPc, h₂, hkpc, hkiff⟩ := PC.add_spec hpc hkept
  have hfalse {I : Interp V} (h : kept.holds I = false) : other.holds I = true := by
    rw [hneg, h]
    rfl
  have hallowed' : allows (S.addTypeConstraint s.typeStorage kept) s.model.valuation :=
    (hS.record _ _ _).mpr ⟨hallowed, hrkept _ hw.1 htrue⟩
  rw [explore, bind_ok h₁]
  split
  · next hf =>
      -- no valuation of the path condition makes `kept` false
      have hall : ∀ I, valid I → PC.Holds I s.pc → kept.holds I = true := fun I _ hI => by
        by_contra hne
        exact PC.not_holds_of_isFalse I hf ((hoiff I).mpr ⟨hI, hfalse (Bool.eq_false_iff.mpr hne)⟩)
      refine ⟨s, none, rfl, ⟨rfl, hpc, hw, hallowed, fun I _ => (and_iff_left trivial).symm,
        fun I hI hpcI => ?_⟩, ?_⟩
      · exact (and_iff_left (hrkept I hI (hall I hI hpcI))).symm
      · intro I hI hpcI hk
        rw [hall I hI hpcI] at hk
        cases hk
  split
  case isFalse h => exact absurd rfl h
  dsimp only
  split
  · next heq =>
      have hno : ∀ I, valid I → PC.Holds I s.pc → kept.holds I = false →
          ¬ allows s.typeStorage I := fun I hI hpcI hk ha =>
        hS.unsat heq I hI ((hoiff I).mpr ⟨hpcI, hfalse hk⟩)
          ((hS.record _ _ _).mpr ⟨ha, hrother I hI (hfalse hk)⟩)
      have hbranch : Branch valid allows records s kept (fun _ => True)
          { s with typeStorage := S.addTypeConstraint s.typeStorage kept } :=
        ⟨rfl, hpc, hw, hallowed', fun I _ => (and_iff_left trivial).symm,
          fun I _ _ => hS.record _ _ _⟩
      obtain ⟨t, ht, hbranch'⟩ := hbranch.refine hS
      exact ⟨t, none, by rw [query, bind_ok ht], hbranch', hno⟩
  · next heq => exact absurd (congrArg Prod.fst heq) (hS.known _)
  · next mdl ts heq =>
      obtain ⟨hvalid, hholds, hmdl, hts⟩ := hS.sat heq
      have hkeptBranch : Branch valid allows records s kept (fun I => kept.holds I = true)
          { s with pc := keptPc, typeStorage := S.addTypeConstraint s.typeStorage kept } :=
        ⟨rfl, hkpc, ⟨hw.1, (hkiff _).mpr ⟨hw.2, htrue⟩⟩, hallowed', fun I _ => hkiff I,
          fun I _ _ => hS.record _ _ _⟩
      have hotherBranch : Branch valid allows records s other (fun I => kept.holds I = false)
          { s with pc := otherPc, model := mdl, typeStorage := ts } := by
        refine ⟨rfl, hopc, ⟨hvalid, hholds⟩, (hts _).mpr hmdl, fun I _ => ?_, fun I _ _ =>
          (hts I).trans (hS.record _ _ _)⟩
        refine (hoiff I).trans (and_congr_right fun _ => ?_)
        rw [hneg]
        simp
      obtain ⟨t, ht, hbranch⟩ := hkeptBranch.refine hS
      refine ⟨t, some { s with pc := otherPc, model := mdl, typeStorage := ts }, ?_, hbranch,
        hotherBranch⟩
      rw [query, bind_ok h₂, bind_ok ht]
      rfl

/-- A call on the state itself. -/
theorem fork_types {c n : Term} (hc : Condition c) (hn : simplifyNegation c = .ok n)
    (hrc : Recordable valid records c) (hrn : Recordable valid records n) :
    ∃ f, fork S false s c s = .ok f ∧ Forks valid allows records s c n f := by
  obtain ⟨n', h₁, hncond, hnot⟩ := simplifyNegation_spec hc
  obtain rfl := Except.ok.inj (h₁.symm.trans hn)
  have hflip {I : Interp V} {b : Bool} : n'.holds I = b ↔ c.holds I = !b := by
    rw [hnot]
    cases c.holds I <;> cases b <;> decide
  rw [fork, bind_ok h₁, s.model.eval_condition hc]
  cases hmodel : c.holds s.model.valuation with
  | true =>
    obtain ⟨t, o, h₂, ho⟩ := explore_types hS hpc hw hallowed hc hncond hnot hmodel hrc hrn
    rw [if_pos (show isTrue (makeBool true) = true from rfl), bind_ok h₂]
    cases o with
    | none => exact ⟨_, rfl, .thenOnly hmodel ho.1 ho.2⟩
    | some e => exact ⟨_, rfl, .both ho.1 ho.2⟩
  | false =>
    obtain ⟨e, o, h₂, ho⟩ := explore_types hS hpc hw hallowed hncond hc
      (fun I => by rw [hnot, Bool.not_not]) (hflip.mpr hmodel) hrn hrc
    rw [if_neg (show ¬ isTrue (makeBool false) = true by decide),
      if_pos (show isFalse (makeBool false) = true from rfl), bind_ok h₂]
    simp only [hflip] at ho
    cases o with
    | none => exact ⟨_, rfl, .elseOnly hmodel ho.1 ho.2⟩
    | some t => exact ⟨_, rfl, .both ho.2 ho.1⟩

end

end

end Branching

end VSharp
