import VSharp.Core.PathCondition

/-!
# Core — Branching

`VSharp.SILI.Core/Branching.fs`: a state is split on a condition
(`commonStatedConditionalExecution`) or on the guards of a union (`commonGuardedStatedApply`).

* `fork_exact`: along every run that branches on conditions, the states that a condition splits a
  state into have the right path conditions, models that satisfy them, and lose no path.
* `guardedApply_exact_iff`: a union splits a state exactly just where no guard is true.
-/

namespace VSharp
open Term Propositional Library List

/-! ### States and solvers -/

/-- `model`: a valuation, and `Eval`, which finds the truth value of a condition under it. -/
structure Model (V : Type) where
  valuation : Interp V
  eval : Term → Term
  eval_condition : ∀ {c : Term}, Condition c → eval c = makeBool (c.holds valuation)

/-- `state`: what branching changes of it, and the `memory` that it hands on. -/
structure State (V τ σ : Type) where
  pc : PathCondition
  model : Model V
  typeStorage : τ
  memory : σ

inductive SmtResult (V : Type) where
  | sat (mdl : Model V)
  | unsat
  | unknown

/-- What branching asks of the solvers of conditions and of types.  `checkSat` also refines the type
storage of the state it is asked about. -/
structure Solver (V τ σ : Type) where
  checkSat : State V τ σ → SmtResult V × τ
  addTypeConstraint : τ → Term → τ
  refineTypes : State V τ σ → Except Failure (State V τ σ)

namespace State
variable {V τ σ : Type}

def copy (s : State V τ σ) (newPc : PathCondition) : State V τ σ := { s with pc := newPc }

/-- The model of the state is a possible valuation and satisfies its path condition. -/
def Witnessed (valid : Interp V → Prop) (s : State V τ σ) : Prop :=
  valid s.model.valuation ∧ PC.Holds s.model.valuation s.pc

end State

/-- The solver is right about the `valid` valuations, and refining the types of a state that has a
model keeps its path condition and a model of it. -/
structure Solver.Sound {V τ σ : Type} (S : Solver V τ σ) (valid : Interp V → Prop) : Prop where
  sat : ∀ {s m ts}, S.checkSat s = (.sat m, ts) → valid m.valuation ∧ PC.Holds m.valuation s.pc
  unsat : ∀ {s ts}, S.checkSat s = (.unsat, ts) → ∀ I, valid I → ¬ PC.Holds I s.pc
  refine : ∀ {s : State V τ σ}, s.Witnessed valid →
    ∃ s', S.refineTypes s = .ok s' ∧ s'.pc = s.pc ∧ s'.Witnessed valid

namespace Branching
variable {V τ σ : Type} [HashOrder Term] (S : Solver V τ σ) (branchesReleased : Bool)

/-! ### Branching on a condition -/

/-- The branches that are run, with their states. -/
inductive Fork (V τ σ : Type) where
  | thenOnly (s : State V τ σ)
  | elseOnly (s : State V τ σ)
  | both (thenState elseState : State V τ σ)

omit [HashOrder Term] in
/-- The state that the solver is asked about: `other` assumed in `conditionState`. -/
def query (conditionState : State V τ σ) (other : Term) (otherPc : PathCondition) : State V τ σ :=
  { conditionState with
    pc := otherPc
    typeStorage := S.addTypeConstraint conditionState.typeStorage other }

/-- One half of `commonStatedConditionalExecutionk`: the model makes `kept` true, and the solver is
asked about `other`, its negation.  The results are the state in which `kept` is assumed and, when
the solver has a model, the one in which `other` is.  The two halves differ only in which of these
is the copy of the other. -/
def explore (pc : PathCondition) (conditionState : State V τ σ) (kept other : Term) :
    Except Failure (State V τ σ × Option (State V τ σ)) := do
  let typeStorage := conditionState.typeStorage
  let otherPc ← PC.add pc other
  if PC.isFalse otherPc then
    .ok (conditionState, none)
  else if !branchesReleased then
    let queried := query S conditionState other otherPc
    match S.checkSat queried with
    | (.unsat, _) =>
      let s ← S.refineTypes { queried with
        pc := pc
        typeStorage := S.addTypeConstraint typeStorage kept }
      .ok (s, none)
    | (.unknown, _) =>
      let s ← S.refineTypes { queried with
        pc := ← PC.add pc kept
        typeStorage := S.addTypeConstraint typeStorage kept }
      .ok (s, none)
    | (.sat mdl, typeStorage') =>
      let otherState := { queried.copy otherPc with
        model := mdl
        typeStorage := typeStorage' }
      let s ← S.refineTypes { queried with
        pc := ← PC.add pc kept
        typeStorage := S.addTypeConstraint typeStorage kept }
      .ok (s, some otherState)
  else
    .ok ({ conditionState with
      pc := ← PC.add pc kept
      typeStorage := S.addTypeConstraint typeStorage kept }, none)

/-- The branches `commonStatedConditionalExecutionk` chooses. -/
def fork (state : State V τ σ) (condition : Term) (conditionState : State V τ σ) :
    Except Failure (Fork V τ σ) := do
  let evaled := state.model.eval condition
  let notCondition ← simplifyNegation condition
  if isTrue evaled then
    match ← explore S branchesReleased state.pc conditionState condition notCondition with
    | (thenState, some elseState) => .ok (.both thenState elseState)
    | (thenState, none) => .ok (.thenOnly thenState)
  else if isFalse evaled then
    match ← explore S branchesReleased state.pc conditionState notCondition condition with
    | (elseState, some thenState) => .ok (.both thenState elseState)
    | (elseState, none) => .ok (.elseOnly elseState)
  else .error (.internal "unreachable branch hit!")

namespace Fork
variable {α : Type} (thenBranch elseBranch : State V τ σ → Except Failure α)
  (merge2Results : α → α → List α)

omit [HashOrder Term] in
/-- The branches, run. -/
def run : Fork V τ σ → Except Failure (List α)
  | thenOnly s => do .ok [← thenBranch s]
  | elseOnly s => do .ok [← elseBranch s]
  | both t e => do
      let thenResult ← thenBranch t
      let elseResult ← elseBranch e
      .ok (merge2Results thenResult elseResult)

omit [HashOrder Term] in
/-- The states of the branches, with the truth value of the condition there. -/
def states : Fork V τ σ → List (Bool × State V τ σ)
  | thenOnly s => [(true, s)]
  | elseOnly s => [(false, s)]
  | both t e => [(true, t), (false, e)]

end Fork

/-- `commonStatedConditionalExecutionk`. -/
def commonStatedConditionalExecution {α : Type} (state : State V τ σ)
    (conditionInvocation : State V τ σ → Except Failure (Term × State V τ σ))
    (thenBranch elseBranch : State V τ σ → Except Failure α) (merge2Results : α → α → List α) :
    Except Failure (List α) := do
  let (condition, conditionState) ← conditionInvocation state
  (← fork S branchesReleased state condition conditionState).run thenBranch elseBranch merge2Results

/-- A state in which `pc` and that `c` has the given truth value are assumed, rightly. -/
structure Assumes (valid : Interp V → Prop) (pc : PathCondition) (c : Term) (b : Bool)
    (s : State V τ σ) : Prop where
  conditions : PC.Conditions s.pc
  witnessed : s.Witnessed valid
  holds_iff : ∀ I, valid I → (PC.Holds I s.pc ↔ PC.Holds I pc ∧ c.holds I = b)

variable {S} {valid : Interp V → Prop} {pc : PathCondition} {conditionState state s : State V τ σ}

omit [HashOrder Term] in
/-- Refining the types of a state in which `c` is rightly assumed. -/
theorem assumes_refineTypes (hS : S.Sound valid) {c : Term} {b : Bool} (h : Assumes valid pc c b s)
    : ∃ s', S.refineTypes s = .ok s' ∧ Assumes valid pc c b s' := by
  obtain ⟨s', h₁, hpc, hw⟩ := hS.refine h.witnessed
  exact ⟨s', h₁, hpc ▸ h.conditions, hw, hpc ▸ h.holds_iff⟩

/-- The half of the call that keeps the condition which is true under the model. -/
theorem explore_spec (hS : S.Sound valid) {kept other : Term} (hpc : PC.Conditions pc)
    (hcs : conditionState.pc = pc) (hw : conditionState.Witnessed valid) (hkept : Condition kept)
    (hother : Condition other) (hneg : ∀ {V : Type} (I : Interp V), other.holds I = !kept.holds I)
    (htrue : kept.holds conditionState.model.valuation = true) :
    ∃ s o, explore S branchesReleased pc conditionState kept other = .ok (s, o) ∧
      Assumes valid pc kept true s ∧ (∀ t, o = some t → Assumes valid pc other true t) ∧
      (branchesReleased = false →
        (∀ otherPc, PC.add pc other = .ok otherPc →
          (S.checkSat (query S conditionState other otherPc)).1 ≠ .unknown) →
        ∀ I, valid I → PC.Holds I pc → PC.Holds I s.pc ∨ ∃ t, o = some t ∧ PC.Holds I t.pc) := by
  obtain ⟨otherPc, h₁, hopc, hoiff⟩ := PC.add_spec hpc hother
  obtain ⟨keptPc, h₂, hkpc, hkiff⟩ := PC.add_spec hpc hkept
  have hmodel : PC.Holds conditionState.model.valuation pc := hcs ▸ hw.2
  have hadded (ts : τ) :
      Assumes valid pc kept true { conditionState with pc := keptPc, typeStorage := ts } :=
    ⟨hkpc, ⟨hw.1, (hkiff _).mpr ⟨hmodel, htrue⟩⟩, fun I _ => hkiff I⟩
  -- Where `other` is contradictory the old path condition already implies `kept`.
  have hsame (ts : τ) (hun : ∀ I, valid I → ¬ PC.Holds I otherPc) :
      Assumes valid pc kept true { conditionState with pc := pc, typeStorage := ts } := by
    refine ⟨hpc, ⟨hw.1, hmodel⟩, fun I hI => ⟨fun h => ⟨h, ?_⟩, And.left⟩⟩
    by_contra hne
    refine hun I hI ((hoiff I).mpr ⟨h, ?_⟩)
    rw [hneg, Bool.eq_false_iff.mpr hne]
    rfl
  rw [explore, bind_ok h₁]
  split
  · next hf =>
      have hun : ∀ I, valid I → ¬ PC.Holds I otherPc := fun I _ => PC.not_holds_of_isFalse I hf
      have := hsame conditionState.typeStorage hun
      rw [← hcs] at this ⊢
      exact ⟨_, _, rfl, this, nofun, fun _ _ I _ h => .inl h⟩
  split
  · dsimp only
    split
    · next heq =>
        obtain ⟨s, hs, hass⟩ := assumes_refineTypes hS (hsame
          (S.addTypeConstraint conditionState.typeStorage kept) (hS.unsat heq))
        refine ⟨s, none, by rw [query, bind_ok hs], hass, nofun, ?_⟩
        intro _ _ I hI h
        refine .inl ((hass.holds_iff I hI).mpr ⟨h, ?_⟩)
        exact (((hsame conditionState.typeStorage (hS.unsat heq)).holds_iff I hI).mp h).2
    · next heq =>
        obtain ⟨s, hs, hass⟩ := assumes_refineTypes hS (hadded
          (S.addTypeConstraint conditionState.typeStorage kept))
        refine ⟨s, none, by rw [query, bind_ok h₂, bind_ok hs], hass, nofun, ?_⟩
        intro _ hans
        exact absurd (congrArg Prod.fst heq) (hans otherPc h₁)
    · next mdl ts heq =>
        obtain ⟨s, hs, hass⟩ := assumes_refineTypes hS (hadded
          (S.addTypeConstraint conditionState.typeStorage kept))
        refine ⟨s, some _, by rw [query, bind_ok h₂, bind_ok hs], hass, ?_, ?_⟩
        · rintro t ⟨rfl⟩
          have hsat : valid mdl.valuation ∧ PC.Holds mdl.valuation otherPc := hS.sat heq
          exact ⟨hopc, hsat, fun I _ => hoiff I⟩
        · intro _ _ I hI h
          cases hk : kept.holds I with
          | true => exact .inl ((hass.holds_iff I hI).mpr ⟨h, hk⟩)
          | false => exact .inr ⟨_, rfl, (hoiff I).mpr ⟨h, by rw [hneg, hk]; rfl⟩⟩
  · next hrel =>
      refine ⟨_, none, by rw [bind_ok h₂], hadded _, nofun, fun hr => ?_⟩
      simp [hr] at hrel

omit [HashOrder Term] in
theorem Assumes.negated {c n : Term} (h : Assumes valid pc n true s)
    (hn : ∀ {V : Type} (I : Interp V), n.holds I = !c.holds I) : Assumes valid pc c false s := by
  refine ⟨h.conditions, h.witnessed, fun I hI => ?_⟩
  rw [h.holds_iff I hI, hn]
  simp

/-- Whatever it is asked about `condition`, the solver does not answer `SmtUnknown`. -/
def Answered (S : Solver V τ σ) (state : State V τ σ) (condition : Term)
    (conditionState : State V τ σ) : Prop :=
  ∀ notCondition other otherPc, simplifyNegation condition = .ok notCondition →
    other = (if isTrue (state.model.eval condition) then notCondition else condition) →
    PC.add state.pc other = .ok otherPc →
    (S.checkSat (query S conditionState other otherPc)).1 ≠ .unknown

/-- Every branch has the path condition it should have and a model of it; when the solver answers,
every path goes on in a branch. -/
structure Exact (S : Solver V τ σ) (branchesReleased : Bool) (valid : Interp V → Prop)
    (state : State V τ σ) (condition : Term) (conditionState : State V τ σ)
    (f : Fork V τ σ) : Prop where
  witnessed : ∀ b s, (b, s) ∈ f.states → s.Witnessed valid
  holds_iff : ∀ b s, (b, s) ∈ f.states → ∀ I, valid I →
    (PC.Holds I s.pc ↔ PC.Holds I state.pc ∧ condition.holds I = b)
  complete : branchesReleased = false → Answered S state condition conditionState →
    ∀ I, valid I → (PC.Holds I state.pc ↔ ∃ b s, (b, s) ∈ f.states ∧ PC.Holds I s.pc)

/-- One call, on conditions. -/
theorem fork_spec (hS : S.Sound valid) {condition : Term} (hpc : PC.Conditions state.pc)
    (hw : state.Witnessed valid) (hcond : Condition condition) (hcs : conditionState.pc = state.pc)
    (hcm : conditionState.model = state.model) :
    ∃ f, fork S branchesReleased state condition conditionState = .ok f ∧
      Exact S branchesReleased valid state condition conditionState f ∧
      ∀ b s, (b, s) ∈ f.states → PC.Conditions s.pc := by
  obtain ⟨notCondition, h₁, hncond, hnot⟩ := simplifyNegation_spec hcond
  have hcw : conditionState.Witnessed valid := by
    rw [State.Witnessed, hcs, hcm]
    exact hw
  -- The three properties follow from what each branch assumes.
  have conclude {f : Fork V τ σ}
      (hf : ∀ b s, (b, s) ∈ f.states → Assumes valid state.pc condition b s)
      (hall : branchesReleased = false → Answered S state condition conditionState →
        ∀ I, valid I → PC.Holds I state.pc → ∃ b s, (b, s) ∈ f.states ∧ PC.Holds I s.pc) :
      Exact S branchesReleased valid state condition conditionState f ∧
        ∀ b s, (b, s) ∈ f.states → PC.Conditions s.pc := by
    refine ⟨⟨fun b s hs => (hf b s hs).witnessed, fun b s hs => (hf b s hs).holds_iff, ?_⟩,
      fun b s hs => (hf b s hs).conditions⟩
    intro hr ha I hI
    refine ⟨hall hr ha I hI, fun ⟨b, s, hs, h⟩ => ?_⟩
    exact (((hf b s hs).holds_iff I hI).mp h).1
  rw [fork, bind_ok h₁, state.model.eval_condition hcond]
  cases hc : condition.holds state.model.valuation with
  | true =>
    obtain ⟨s, o, h₂, hs, ho, hall⟩ := explore_spec branchesReleased hS hpc
      hcs hcw hcond hncond hnot (hcm ▸ hc)
    have hans (ha : Answered S state condition conditionState) (otherPc : PathCondition) :=
      ha notCondition notCondition otherPc h₁ (by rw [state.model.eval_condition hcond, hc]; rfl)
    rw [if_pos (show isTrue (makeBool true) = true from rfl), bind_ok h₂]
    cases o with
    | none =>
      refine ⟨_, rfl, conclude ?_ fun hr ha I hI h => ?_⟩
      · rintro b t ht
        cases mem_singleton.mp ht
        exact hs
      · rcases hall hr (hans ha) I hI h with h | ⟨t, ⟨⟩, -⟩
        exact ⟨true, s, mem_singleton_self _, h⟩
    | some e =>
      refine ⟨_, rfl, conclude ?_ fun hr ha I hI h => ?_⟩
      · rintro b t ht
        rcases mem_pair.mp ht with ⟨⟨⟩⟩ | ⟨⟨⟩⟩
        · exact hs
        · exact (ho e rfl).negated hnot
      · rcases hall hr (hans ha) I hI h with h | ⟨t, ⟨⟩, h⟩
        · exact ⟨true, s, mem_pair.mpr (.inl rfl), h⟩
        · exact ⟨false, e, mem_pair.mpr (.inr rfl), h⟩
  | false =>
    obtain ⟨s, o, h₂, hs, ho, hall⟩ := explore_spec branchesReleased hS hpc
      hcs hcw hncond hcond (fun I => by rw [hnot, Bool.not_not]) (by rw [hcm, hnot, hc]; rfl)
    have hans (ha : Answered S state condition conditionState) (otherPc : PathCondition) :=
      ha notCondition condition otherPc h₁ (by rw [state.model.eval_condition hcond, hc]; rfl)
    rw [if_neg (show ¬ isTrue (makeBool false) = true by decide),
      if_pos (show isFalse (makeBool false) = true from rfl), bind_ok h₂]
    cases o with
    | none =>
      refine ⟨_, rfl, conclude ?_ fun hr ha I hI h => ?_⟩
      · rintro b t ht
        cases mem_singleton.mp ht
        exact hs.negated hnot
      · rcases hall hr (hans ha) I hI h with h | ⟨t, ⟨⟩, -⟩
        exact ⟨false, s, mem_singleton_self _, h⟩
    | some t =>
      refine ⟨_, rfl, conclude ?_ fun hr ha I hI h => ?_⟩
      · rintro b t' ht
        rcases mem_pair.mp ht with ⟨⟨⟩⟩ | ⟨⟨⟩⟩
        · exact ho t rfl
        · exact hs.negated hnot
      · rcases hall hr (hans ha) I hI h with h | ⟨t', ⟨⟩, h⟩
        · exact ⟨false, s, mem_pair.mpr (.inr rfl), h⟩
        · exact ⟨true, t, mem_pair.mpr (.inl rfl), h⟩

/-- The states that a run reaches by branching on conditions.  Between two branchings the memory and
the type storage may change. -/
inductive Reached (S : Solver V τ σ) (branchesReleased : Bool) (start : State V τ σ) :
    State V τ σ → Prop where
  | start : Reached S branchesReleased start start
  | branch {state conditionState s : State V τ σ} {condition : Term} {f : Fork V τ σ} {b : Bool}
      (h : Reached S branchesReleased start state) (hcond : Condition condition)
      (hcs : conditionState.pc = state.pc) (hcm : conditionState.model = state.model)
      (hfork : fork S branchesReleased state condition conditionState = .ok f)
      (hs : (b, s) ∈ f.states) : Reached S branchesReleased start s

variable {branchesReleased}

theorem Reached.conditions (hS : S.Sound valid) {start : State V τ σ} (hpc : PC.Conditions start.pc)
    (hw : start.Witnessed valid) (h : Reached S branchesReleased start state) :
    PC.Conditions state.pc ∧ state.Witnessed valid := by
  induction h with
  | start => exact ⟨hpc, hw⟩
  | branch _ hcond hcs hcm hfork hs ih =>
    obtain ⟨f, h₁, hex, hconds⟩ := fork_spec branchesReleased hS ih.1 ih.2 hcond hcs hcm
    obtain rfl := Except.ok.inj (h₁.symm.trans hfork)
    exact ⟨hconds _ _ hs, hex.witnessed _ _ hs⟩

end Branching

/-- The model in which all boolean constants have one value. -/
def boolModel (b : Bool) : Model Bool where
  valuation := Interp.bools fun _ => b
  eval c := makeBool (c.holds (Interp.bools fun _ => b))
  eval_condition _ := rfl

namespace Branching

section
variable {V τ σ : Type} [HashOrder Term] {state : State V τ σ}

/-- `filterUnsat` of `commonGuardedStatedApplyk`. -/
def filterUnsat (state : State V τ σ) (gv : Term × Term) :
    Except Failure (Option (PathCondition × Term)) := do
  let pc' ← PC.add state.pc gv.1
  if PC.isFalse pc' then .ok none else .ok (some (pc', gv.2))

/-- `commonGuardedStatedApplyk`. -/
def commonGuardedStatedApply {α : Type} (f : State V τ σ → Term → Except Failure α)
    (state : State V τ σ) (term : Term) (mergeResults : List α → List α) :
    Except Failure (List α) :=
  match term with
  | .ite branches elseValue => do
      let filteredBranches := (← branches.mapM (filterUnsat state)).filterMap id
      let appliedBranches ← filteredBranches.mapM fun b => f (state.copy b.1) b.2
      let appliedElse ← f state elseValue
      .ok (mergeResults (appliedBranches ++ [appliedElse]))
  | term => do .ok [← f state term]

/-- The states and values that `commonGuardedStatedApplyk` calls its argument with. -/
def calls (state : State V τ σ) (term : Term) : Except Failure (List (State V τ σ × Term)) :=
  commonGuardedStatedApply (fun s v => .ok (s, v)) state term id

/-- Exactly one call is made in a state that the valuation satisfies, with the value that the union
has. -/
def ExactCalls {W : Type} (state : State V τ σ) (term : Term) (I : Interp W) : Prop :=
  ∃ runs : List (State V τ σ × Term), calls state term = .ok runs ∧
    ∃ (i : ℕ) (s : State V τ σ) (v : Term), runs[i]? = some (s, v) ∧ PC.Holds I s.pc ∧
      v.eval I = term.eval I ∧
      ∀ (j : ℕ) (s' : State V τ σ) (v' : Term), runs[j]? = some (s', v') → PC.Holds I s'.pc → j = i

/-- What becomes of one branch of a union: it is called with its guard assumed, or dropped where its
guard contradicts the path condition. -/
def Guarded (state : State V τ σ) (gv : Term × Term) (o : Option (PathCondition × Term)) : Prop :=
  match o with
  | some (pc', v) => v = gv.2 ∧ ∀ {W : Type} (I : Interp W),
      PC.Holds I pc' ↔ PC.Holds I state.pc ∧ gv.1.holds I = true
  | none => ∀ {W : Type} (I : Interp W), ¬ (PC.Holds I state.pc ∧ gv.1.holds I = true)

theorem filterUnsat_spec (hpc : PC.Conditions state.pc) {gv : Term × Term} (hg : Condition gv.1) :
    ∃ o, filterUnsat state gv = .ok o ∧ Guarded state gv o := by
  obtain ⟨pc', h₁, -, h₃⟩ := PC.add_spec hpc hg
  rw [filterUnsat, bind_ok h₁]
  split
  · next hf => exact ⟨none, rfl, fun I h => PC.not_holds_of_isFalse I hf ((h₃ I).mpr h)⟩
  · exact ⟨some (pc', gv.2), rfl, rfl, h₃⟩

theorem calls_spec (hpc : PC.Conditions state.pc) {branches : List (Term × Term)}
    (hg : ∀ b ∈ branches, Condition b.1) (elseValue : Term) :
    ∃ os, List.Forall₂ (Guarded state) branches os ∧
      calls state (.ite branches elseValue) =
        .ok ((os.filterMap id).map (fun b => (state.copy b.1, b.2)) ++ [(state, elseValue)]) := by
  obtain ⟨os, h₁, h₂⟩ := mapM_ok (f := filterUnsat state) (l := branches)
    fun b hb => filterUnsat_spec hpc (hg b hb)
  have hmap : (os.filterMap id).mapM (fun b => (.ok (state.copy b.1, b.2) : Except Failure _)) =
      .ok ((os.filterMap id).map fun b => (state.copy b.1, b.2)) :=
    mapM_of_forall₂ (forall₂_map_right_iff.mpr (forall₂_same.mpr fun _ _ => rfl))
  exact ⟨os, h₂, by rw [calls, commonGuardedStatedApply, bind_ok h₁, bind_ok hmap]; rfl⟩

/-- The else value is called in the state as it is, so the calls are exact just where no guard is
true. -/
theorem guardedApply_exact_iff {W : Type} {state : State V τ σ} {branches : List (Term × Term)}
    {elseValue : Term} (hpc : PC.Conditions state.pc) (hg : ∀ b ∈ branches, Condition b.1)
    (I : Interp W) (hI : PC.Holds I state.pc) :
    ExactCalls state (.ite branches elseValue) I ↔ ∀ b ∈ branches, b.1.holds I = false := by
  obtain ⟨os, hos, hcalls⟩ := calls_spec hpc hg elseValue
  set called := (os.filterMap id).map fun b => (state.copy b.1, b.2) with hcalled
  have helse : (called ++ [(state, elseValue)])[called.length]? = some (state, elseValue) := by simp
  constructor
  · rintro ⟨runs, hruns, i, s, v, -, -, -, huniq⟩ b hb
    cases hcalls.symm.trans hruns
    -- A branch with a true guard would be a second call that the valuation satisfies.
    by_contra hne
    have hgb : b.1.holds I = true := by simpa using hne
    obtain ⟨o, ho, hR⟩ := forall₂_mem_left hos hb
    cases o with
    | none => exact hR I ⟨hI, hgb⟩
    | some b' =>
      have hmem : (state.copy b'.1, b'.2) ∈ called :=
        mem_map.mpr ⟨b', mem_filterMap.mpr ⟨_, ho, rfl⟩, rfl⟩
      obtain ⟨j, hj⟩ := mem_iff_getElem?.mp hmem
      have hlt : j < called.length := (List.getElem?_eq_some_iff.mp hj).1
      have h₁ := huniq j _ _ (by rwa [getElem?_append_left hlt]) ((hR.2 I).mpr ⟨hI, hgb⟩)
      have h₂ := huniq _ _ _ helse hI
      omega
  · intro hall
    refine ⟨_, hcalls, called.length, state, elseValue, helse, hI,
      (eval_ite_of_guards_false I elseValue hall).symm, fun j s' v' hj hs' => ?_⟩
    by_contra hne
    have hlt : j < called.length := by
      have := (List.getElem?_eq_some_iff.mp hj).1
      rw [length_append, length_singleton] at this
      omega
    rw [getElem?_append_left hlt] at hj
    obtain ⟨b', hb', heq⟩ := mem_map.mp (mem_of_getElem? hj)
    obtain ⟨rfl, -⟩ := Prod.mk.inj heq
    obtain ⟨o, ho, rfl⟩ := mem_filterMap.mp hb'
    obtain ⟨b, hb, hR⟩ := forall₂_mem_right hos ho
    have := ((hR.2 I).mp hs').2
    rw [hall b hb] at this
    cases this

end

/-- One branch, guarded by a constant that is false. -/
theorem guardedApply_exact_iff_constant : letI := PC.insertionOrder
    let state : State Bool Unit Unit := ⟨PC.empty, boolModel false, (), ()⟩
    ExactCalls state (.ite [(boolConstant 0, boolConstant 1)] (boolConstant 2))
        (boolModel false).valuation ↔
      ∀ b ∈ [(boolConstant 0, boolConstant 1)], b.1.holds (boolModel false).valuation = false := by
  let _ := PC.insertionOrder
  refine guardedApply_exact_iff (fun e he => by cases he) (fun b hb => ?_) _ fun e he => by cases he
  rw [mem_singleton.mp hb]
  exact (Reduced.atom rfl).condition

/-- One branch, guarded by a constant that is true: the branch and the else value are both called
in states that the valuation satisfies. -/
theorem guardedApply_overlap : letI := PC.insertionOrder
    ¬ ∀ (state : State Bool Unit Unit) (branches : List (Term × Term)) (elseValue : Term)
      (I : Interp Bool), PC.Holds I state.pc → ExactCalls state (.ite branches elseValue) I := by
  let _ := PC.insertionOrder
  intro h
  let state : State Bool Unit Unit := ⟨PC.empty, boolModel true, (), ()⟩
  obtain ⟨runs, hruns, i, s, v, -, -, -, huniq⟩ := h state [(boolConstant 0, boolConstant 1)]
    (boolConstant 2) (boolModel true).valuation fun e he => by cases he
  have hcalls : calls state (.ite [(boolConstant 0, boolConstant 1)] (boolConstant 2)) =
      .ok [(state.copy [(boolConstant 0, 0)], boolConstant 1), (state, boolConstant 2)] := by
    have hadd : PC.add state.pc (boolConstant 0) = .ok [(boolConstant 0, 0)] := by decide +kernel
    have hfilter : filterUnsat state (boolConstant 0, boolConstant 1) =
        .ok (some ([(boolConstant 0, 0)], boolConstant 1)) := by
      rw [filterUnsat, bind_ok hadd]
      rfl
    rw [calls, commonGuardedStatedApply, mapM_cons, bind_ok hfilter]
    rfl
  obtain rfl := Except.ok.inj (hcalls.symm.trans hruns)
  have h₀ := huniq 0 _ _ rfl (by unfold PC.Holds; decide)
  have h₁ := huniq 1 _ _ rfl fun e he => by cases he
  omega

end Branching

end VSharp
