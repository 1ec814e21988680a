import VSharp.Core.ArrayBounds
import VSharp.SILI.Switch

/-!
# SILI — ElementAccess

`LdElemCommon` and `StElemCommon` of `VSharp.SILI/Interpreter.fs`: the reference is checked, then the
indices against the lengths of the array, and the element is accessed in the states that are left.

- `trace` are the actions that report where a state comes to: to the access, or to an exception;
  `ldElemCommon_replay` and `stElemCommon_replay` say what other actions make of it;
- `Leads`: which valuations each of the reported states has;
- `elementAccess_checked_iff`: the accesses are checked against the bounds of the array exactly where
  it has plain bounds.
-/

namespace VSharp.ElementAccess
open Term Propositional Library Branching ArrayOffsets MixedRadix List
open Switch (Machines boolValuation truthModel)

/-! ### The code -/

/-- The exceptions that an access raises. -/
inductive RuntimeException where
  | nullReference | indexOutOfRange | arrayTypeMismatch
deriving DecidableEq, Repr

/-- What the instructions ask of references and of the arrays in a memory.  `storable` is the condition
of `checkTypeMismatch`: true for a value of a value type, `RefIsType` for a reference. -/
structure ArrayHeap (σ : Type) where
  isNullReference : Term → Except Failure Term
  isBadRef : Term → Except Failure Term
  rankOf : σ → Term → ℕ
  arrayLengthByDimension : σ → Term → ℕ → Except Failure Term
  arrayLowerBoundByDimension : σ → Term → ℕ → Except Failure Term
  storable : σ → Term → Term → Except Failure Term

/-- What is done with the states: the memory access, and `Raise`. -/
structure Actions (V τ σ α : Type) where
  access : State V τ σ → Except Failure (List α)
  raise : RuntimeException → State V τ σ → Except Failure (List α)

section
variable [HashOrder FieldId] [HashOrder Term] {V τ σ α : Type} (S : Solver V τ σ)
  (H : ArrayHeap σ) (n : ℕ) (A : Actions V τ σ α)

omit [HashOrder FieldId] in
/-- `StatedConditionalExecutionCIL`. -/
def statedConditionalExecution (s : State V τ σ) (condition : Except Failure Term)
    (thenBranch elseBranch : State V τ σ → Except Failure (List α)) : Except Failure (List α) := do
  let results ← commonStatedConditionalExecution S false s
    (fun state => do .ok (← condition, state)) thenBranch elseBranch fun x y => [x, y]
  .ok results.flatten

omit [HashOrder Term] in
def checkOneBound (acc : Term) (lengthAndIndex : Term × Term) : Run Term := do
  let lowerBound := literal 0 .int32
  let notTooSmall ← simplifyGreaterOrEqual n lengthAndIndex.2 lowerBound
  let notTooLarge ← simplifyLess n lengthAndIndex.2 lengthAndIndex.1
  let small ← .lift (simplifyAnd acc notTooSmall)
  .lift (simplifyAnd small notTooLarge)

omit [HashOrder Term] in
def checkArrayBounds (lengths indices : List Term) : Run Term :=
  if lengths.length = indices.length then
    (lengths.zip indices).foldlM (checkOneBound n) trueTerm
  else .fail (.internal "ArgumentException")

def accessMultidimensionalArray (accessor : State V τ σ → Except Failure (List α))
    (s : State V τ σ) (lengths indices : List Term) : Except Failure (List α) :=
  statedConditionalExecution S s ((checkArrayBounds n lengths indices).map Prod.fst) accessor
    (A.raise .indexOutOfRange)

omit [HashOrder FieldId] in
/-- `NpeOrInvokeStatementCIL`; an access violation is reported, and no state goes on. -/
def npeOrInvokeStatement (s : State V τ σ) (this : Term)
    (statement : State V τ σ → Except Failure (List α)) : Except Failure (List α) :=
  statedConditionalExecution S s (do simplifyNegation (← H.isNullReference this))
    (fun s => statedConditionalExecution S s (do simplifyNegation (← H.isBadRef this)) statement
      fun _ => .ok [])
    (A.raise .nullReference)

def ldElemCommon (s : State V τ σ) (arrayRef : Term) (indices : List Term) :
    Except Failure (List α) :=
  let rank := H.rankOf s.memory arrayRef
  npeOrInvokeStatement S H A s arrayRef fun s => do
    let lengths ← (List.range rank).mapM (H.arrayLengthByDimension s.memory arrayRef)
    accessMultidimensionalArray S n A A.access s lengths indices

def stElemCommon (s : State V τ σ) (arrayRef : Term) (indices : List Term) (value : Term) :
    Except Failure (List α) :=
  let rank := H.rankOf s.memory arrayRef
  npeOrInvokeStatement S H A s arrayRef fun s => do
    let checkTypeMismatch (s : State V τ σ) :=
      statedConditionalExecution S s (H.storable s.memory arrayRef value) A.access
        (A.raise .arrayTypeMismatch)
    let lengths ← (List.range rank).mapM (H.arrayLengthByDimension s.memory arrayRef)
    accessMultidimensionalArray S n A checkTypeMismatch s lengths indices

end

/-! ### Where the states come to -/

/-- Where a state comes to. -/
inductive Ending where
  | access
  | raise (e : RuntimeException)
deriving DecidableEq, Repr

/-- A state with where it has come to. -/
structure Outcome (V τ σ : Type) where
  ending : Ending
  state : State V τ σ

/-- The actions that only report where a state has come to. -/
def trace {V τ σ : Type} : Actions V τ σ (Outcome V τ σ) where
  access s := .ok [⟨.access, s⟩]
  raise e s := .ok [⟨.raise e, s⟩]

section
variable {V τ σ : Type} (valid : Interp V → Prop)

/-- Under a valuation of the state some outcome is one with its ending, and no other. -/
def Leads (s : State V τ σ) (os : List (Outcome V τ σ)) (ending : Interp V → Option Ending) :
    Prop :=
  ∀ I, valid I → ∀ e, (∃ o ∈ os, o.ending = e ∧ PC.Holds I o.state.pc) ↔
    PC.Holds I s.pc ∧ ending I = some e

/-- A solver that is right about path conditions and answers, whatever types are recorded. -/
abbrev PathSolver [HashOrder Term] (S : Solver V τ σ) : Prop :=
  TypedSolver S valid (fun _ _ => True) fun _ _ => True

/-- A state of the run: its path condition is made of conditions and has a model. -/
structure Ready (s : State V τ σ) : Prop where
  conditions : PC.Conditions s.pc
  witnessed : s.Witnessed valid

variable {valid} [HashOrder Term] {S : Solver V τ σ} {s : State V τ σ}

/-- Splitting on a condition leads where the branch of its truth value leads. -/
theorem statedConditionalExecution_leads (hS : PathSolver valid S) (hs : Ready valid s)
    {condition : Except Failure Term} {c : Term} (hcond : condition = .ok c) (hc : Condition c)
    {thenBranch elseBranch : State V τ σ → Except Failure (List (Outcome V τ σ))}
    {thenEnding elseEnding : Interp V → Option Ending}
    (hthen : ∀ t, Ready valid t → t.memory = s.memory →
      ∃ os, thenBranch t = .ok os ∧ Leads valid t os thenEnding)
    (helse : ∀ e, Ready valid e → e.memory = s.memory →
      ∃ os, elseBranch e = .ok os ∧ Leads valid e os elseEnding) :
    ∃ os, statedConditionalExecution S s condition thenBranch elseBranch = .ok os ∧
      Leads valid s os fun I => if c.holds I then thenEnding I else elseEnding I := by
  obtain ⟨m, hm, -, -⟩ := simplifyNegation_spec hc
  obtain ⟨f, hf, hforks⟩ := fork_types hS hs.conditions hs.witnessed trivial hc hm
    (fun _ _ _ => trivial) fun _ _ _ => trivial
  have hrun : statedConditionalExecution S s condition thenBranch elseBranch =
      (f.run thenBranch elseBranch fun x y => [x, y]) >>= fun results => .ok results.flatten := by
    unfold statedConditionalExecution commonStatedConditionalExecution
    rw [hcond]
    show ((fork S false s c s >>= _) >>= _) = _
    rw [bind_ok hf]
  rw [hrun]
  cases hforks with
  | @thenOnly t hmodel hbranch hno =>
    obtain ⟨os, hos, hleads⟩ := hthen t ⟨hbranch.conditions, hbranch.witnessed⟩ hbranch.memory
    refine ⟨os, ?_, fun I hI e => (hleads I hI e).trans ?_⟩
    · rw [Fork.run, bind_ok hos]
      exact congrArg Except.ok (by simp)
    · rw [hbranch.holds_iff I hI, and_iff_left trivial]
      refine and_congr_right fun hpc => ?_
      have htrue : c.holds I = true := by
        by_contra hne
        exact hno I hI hpc (by simpa using hne) trivial
      dsimp only
      rw [if_pos htrue]
  | @elseOnly e hmodel hbranch hno =>
    obtain ⟨os, hos, hleads⟩ := helse e ⟨hbranch.conditions, hbranch.witnessed⟩ hbranch.memory
    refine ⟨os, ?_, fun I hI e => (hleads I hI e).trans ?_⟩
    · rw [Fork.run, bind_ok hos]
      exact congrArg Except.ok (by simp)
    · rw [hbranch.holds_iff I hI, and_iff_left trivial]
      refine and_congr_right fun hpc => ?_
      have hfalse : ¬ c.holds I = true := fun htrue => hno I hI hpc htrue trivial
      dsimp only
      rw [if_neg hfalse]
  | @both t u hthenBranch helseBranch =>
    obtain ⟨os, hos, hleads⟩ :=
      hthen t ⟨hthenBranch.conditions, hthenBranch.witnessed⟩ hthenBranch.memory
    obtain ⟨os', hos', hleads'⟩ :=
      helse u ⟨helseBranch.conditions, helseBranch.witnessed⟩ helseBranch.memory
    refine ⟨os ++ os', ?_, fun I hI e => ?_⟩
    · rw [Fork.run, bind_ok hos, bind_ok hos']
      exact congrArg Except.ok (by simp)
    · have hsplit : (∃ o ∈ os ++ os', o.ending = e ∧ PC.Holds I o.state.pc) ↔
          (∃ o ∈ os, o.ending = e ∧ PC.Holds I o.state.pc) ∨
            ∃ o ∈ os', o.ending = e ∧ PC.Holds I o.state.pc := by
        simp only [mem_append, or_and_right, exists_or]
      rw [hsplit, hleads I hI e, hleads' I hI e, hthenBranch.holds_iff I hI,
        helseBranch.holds_iff I hI]
      dsimp only
      cases c.holds I
      · rw [if_neg Bool.false_ne_true]
        simp
      · rw [if_pos rfl]
        simp

section

omit [HashOrder Term]

theorem leads_access (s : State V τ σ) :
    Leads valid s [⟨.access, s⟩] fun _ => some .access := by
  intro I _ e
  simp [and_comm]

theorem leads_raise (x : RuntimeException) (s : State V τ σ) :
    Leads valid s [⟨.raise x, s⟩] fun _ => some (.raise x) := by
  intro I _ e
  simp [and_comm]

theorem leads_nothing (s : State V τ σ) : Leads valid s [] fun _ => none := by
  intro I _ e
  simp

end

/-- The accesses of a reference that is neither null nor bad lead where the statement leads. -/
theorem npeOrInvokeStatement_leads (hS : PathSolver valid S) {H : ArrayHeap σ} (hs : Ready valid s)
    {this null bad : Term} (hnull : H.isNullReference this = .ok null) (hcnull : Condition null)
    (hbad : H.isBadRef this = .ok bad) (hcbad : Condition bad)
    {statement : State V τ σ → Except Failure (List (Outcome V τ σ))}
    {ending : Interp V → Option Ending} (hstatement : ∀ t, Ready valid t → t.memory = s.memory →
      ∃ os, statement t = .ok os ∧ Leads valid t os ending) :
    ∃ os, npeOrInvokeStatement S H trace s this statement = .ok os ∧
      Leads valid s os fun I => if null.holds I then some (.raise .nullReference)
        else if bad.holds I then none else ending I := by
  obtain ⟨notNull, hnotNull, hcnotNull, hnot⟩ := simplifyNegation_spec hcnull
  obtain ⟨notBad, hnotBad, hcnotBad, hnot'⟩ := simplifyNegation_spec hcbad
  have hinner (t : State V τ σ) (ht : Ready valid t) (hm : t.memory = s.memory) :
      ∃ os, statedConditionalExecution S t (do simplifyNegation (← H.isBadRef this)) statement
        (fun _ => .ok []) = .ok os ∧
        Leads valid t os fun I => if bad.holds I then none else ending I := by
    obtain ⟨os, hos, hleads⟩ := statedConditionalExecution_leads hS ht
      ((bind_ok hbad _).trans hnotBad) hcnotBad
      (fun u hu hmu => hstatement u hu (hmu.trans hm)) fun e _ _ => ⟨_, rfl, leads_nothing e⟩
    refine ⟨os, hos, fun I hI e => (hleads I hI e).trans ?_⟩
    dsimp only
    rw [hnot']
    cases bad.holds I <;> rfl
  obtain ⟨os, hos, hleads⟩ := statedConditionalExecution_leads hS hs
    ((bind_ok hnull _).trans hnotNull) hcnotNull hinner
    fun e _ _ => ⟨_, rfl, leads_raise .nullReference e⟩
  refine ⟨os, hos, fun I hI e => (hleads I hI e).trans ?_⟩
  dsimp only
  rw [hnot]
  cases null.holds I <;> rfl

end

/-! ### The check of the indices -/

/-- The value of an `int32` term. -/
def intValue (ρ : Valuation) (x : Term) : ℤ := (x.value ρ 32).toInt

theorem int32_intValue (ρ : Valuation) (x : Term) : int32 (intValue ρ x) = intValue ρ x :=
  int32_eq ⟨BitVec.le_toInt _, BitVec.toInt_lt⟩

variable {i : ℤ} {is : List ℤ}

theorem inRange_int32 (hi : int32 i = i) :
    MachineInteger.InRange Ty.int32.isUnsigned Ty.int32.width i := by
  have hle : -2 ^ 31 ≤ int32 i := Int.le_bmod (by decide)
  have hlt : int32 i < 2 ^ 31 := Int.bmod_lt (by decide)
  rw [hi] at hle hlt
  exact MachineInteger.inRange_false.mpr ⟨hle, hlt⟩

theorem intValue_literal (hi : int32 i = i) (ρ : Valuation) :
    intValue ρ (literal i .int32) = i := by
  have hvalue : (literal i .int32).value ρ 32 = BitVec.ofInt 32 i := value_literal i .int32 ρ
  rw [intValue, hvalue]
  exact (BitVec.toInt_ofInt i).trans hi

/-- The indices are digits of the lengths. -/
abbrev AreDigits (ρ : Valuation) (lengths indices : List Term) : Prop :=
  Digits (lengths.map (intValue ρ)) (indices.map (intValue ρ))

section
variable [HashOrder FieldId] {valid : Valuation → Prop}
variable {lengths indices : List Term}

section
variable (hlengths : ∀ x ∈ lengths, IntegralUnion valid .int32 x)
  (hindices : ∀ x ∈ indices, IntegralUnion valid .int32 x) (hrank : lengths.length = indices.length)

include hlengths hindices hrank

theorem foldlM_checkOneBound :
    ∀ᶠ n in Filter.atTop, ∀ acc, Condition acc →
      ((lengths.zip indices).foldlM (checkOneBound n) acc).Gives fun c _ => Condition c ∧
        ∀ ρ, valid ρ → (c.holds ρ.machine = true ↔ acc.holds ρ.machine = true ∧
          AreDigits ρ lengths indices) := by
  induction lengths generalizing indices with
  | nil =>
    obtain rfl := eq_nil_of_length_eq_zero hrank.symm
    exact .of_forall fun n acc hacc => .pure ⟨hacc, fun ρ _ => (and_iff_left .nil).symm⟩
  | cons len lengths ih =>
    cases indices with
    | nil => cases hrank
    | cons index indices =>
      obtain ⟨hlen, hlengths⟩ := forall_mem_cons.mp hlengths
      obtain ⟨hindex, hindices⟩ := forall_mem_cons.mp hindices
      have hzero : IntegralUnion valid .int32 (literal 0 .int32) :=
        .term (.literal (by decide) (by decide))
      have hsmall := comparison_spec (t := .int32) (by decide) (c := .greaterOrEqual)
        (by decide) hindex hzero (.inl rfl)
      have hlarge := comparison_spec (t := .int32) (by decide) (c := .less) (by decide)
        hindex hlen (.inl rfl)
      filter_upwards [hsmall, hlarge, ih hlengths hindices (Nat.succ.inj hrank)] with n hsmall
        hlarge ih acc hacc
      rw [zip_cons_cons, foldlM_cons]
      refine Run.Gives.bind (P := fun c _ => Condition c ∧ ∀ ρ, valid ρ →
        (c.holds ρ.machine = true ↔ acc.holds ρ.machine = true ∧ 0 ≤ intValue ρ index ∧
          intValue ρ index < intValue ρ len)) ?_ fun c _ hc => (ih c hc.1).mono fun r _ hr =>
            ⟨hr.1, fun ρ hρ => ?_⟩
      · refine hsmall.bind fun g₁ _ hg₁ => hlarge.bind fun g₂ _ hg₂ => ?_
        obtain ⟨a, ha, hca, hholdsa⟩ := simplifyAnd_spec hacc (.simple hg₁.1)
        obtain ⟨b, hb, hcb, hholdsb⟩ := simplifyAnd_spec hca (.simple hg₂.1)
        rw [ha, Run.lift_ok, pure_bind, hb, Run.lift_ok]
        refine .pure ⟨hcb, fun ρ hρ => ?_⟩
        have hlower : g₁.holds ρ.machine = decide (0 ≤ intValue ρ index) :=
          (hg₁.2 ρ hρ).trans (congrArg (fun i => decide (i ≤ intValue ρ index))
            (intValue_literal (by decide) ρ))
        have hupper : g₂.holds ρ.machine = decide (intValue ρ index < intValue ρ len) :=
          hg₂.2 ρ hρ
        rw [hholdsb, hholdsa, hlower, hupper, Bool.and_eq_true, Bool.and_eq_true,
          decide_eq_true_eq, decide_eq_true_eq, and_assoc]
      · rw [hr.2 ρ hρ, hc.2 ρ hρ]
        constructor
        · rintro ⟨⟨hacc, hd⟩, hds⟩
          exact ⟨hacc, .cons hd hds⟩
        · rintro ⟨hacc, _ | ⟨hd, hds⟩⟩
          exact ⟨⟨hacc, hd⟩, hds⟩

/-- The check is true of the index lists that are digits of the lengths. -/
theorem checkArrayBounds_spec :
    ∀ᶠ n in Filter.atTop, ∃ c, (checkArrayBounds n lengths indices).map Prod.fst = .ok c ∧
      Condition c ∧ ∀ ρ, valid ρ → (c.holds ρ.machine = true ↔ AreDigits ρ lengths indices) := by
  filter_upwards [foldlM_checkOneBound hlengths hindices hrank] with n hn
  obtain ⟨c, d, hrun, hc, hholds⟩ := hn trueTerm (.simple (.makeBool true))
  refine ⟨c, ?_, hc, fun ρ hρ => ?_⟩
  · rw [checkArrayBounds, if_pos hrank, hrun]
    rfl
  · rw [hholds ρ hρ]
    exact and_iff_right (holds_makeBool ρ.machine true)

end

end

/-! ### The instructions -/

section
variable [HashOrder FieldId] [HashOrder Term] {τ σ : Type} {valid : Valuation → Prop}
  {S : Solver MachineValue τ σ} {H : ArrayHeap σ} {s : State MachineValue τ σ}
variable {lengths indices : List Term} {ending : Interp MachineValue → Option Ending}
  {null bad : Term}
variable {m : σ} {lowerBounds : List Term}
  {accessor : State MachineValue τ σ → Except Failure (List (Outcome MachineValue τ σ))}
  {lbs : List ℤ} {ρ : Valuation}

/-- An array of the memory: its lengths and its lower bounds, dimension by dimension. -/
structure IsArray (valid : Valuation → Prop) (H : ArrayHeap σ) (m : σ) (arrayRef : Term)
    (lengths lowerBounds : List Term) : Prop where
  rank : H.rankOf m arrayRef = lengths.length
  rank' : lengths.length = lowerBounds.length
  length : ∀ i, (h : i < lengths.length) →
    H.arrayLengthByDimension m arrayRef i = .ok (lengths.get ⟨i, h⟩)
  lowerBound : ∀ i, (h : i < lowerBounds.length) →
    H.arrayLowerBoundByDimension m arrayRef i = .ok (lowerBounds.get ⟨i, h⟩)
  lengths_int32 : ∀ x ∈ lengths, IntegralUnion valid .int32 x
  lowerBounds_int32 : ∀ x ∈ lowerBounds, IntegralUnion valid .int32 x
  nonneg : ∀ ρ, valid ρ → ∀ x ∈ lengths, 0 ≤ intValue ρ x

omit [HashOrder FieldId] [HashOrder Term] in
/-- The lengths are read one after another. -/
theorem IsArray.read {arrayRef : Term} (h : IsArray valid H m arrayRef lengths lowerBounds) :
    (List.range (H.rankOf m arrayRef)).mapM (H.arrayLengthByDimension m arrayRef) =
      .ok lengths := by
  rw [h.rank]
  refine mapM_of_forall₂ (forall₂_iff_get.mpr ⟨length_range, fun i hi hi' => ?_⟩)
  rw [get_eq_getElem, getElem_range]
  exact h.length i hi'

/-- Under the valuation the accesses of the outcomes are those of the elements of the array, at
offsets of elements. -/
structure Checked (ρ : Valuation) (lens lbs indices : List ℤ)
    (os : List (Outcome MachineValue τ σ)) : Prop where
  access : (∃ o ∈ os, o.ending = .access ∧ PC.Holds ρ.machine o.state.pc) ↔ Inside lens lbs indices
  raise : (∃ o ∈ os, o.ending = .raise .indexOutOfRange ∧ PC.Holds ρ.machine o.state.pc) ↔
    ¬ Inside lens lbs indices
  offset : (∃ o ∈ os, o.ending = .access ∧ PC.Holds ρ.machine o.state.pc) →
    0 ≤ linearizeArrayIndex lens lbs indices ∧ linearizeArrayIndex lens lbs indices < lens.prod

/-- An instruction checks its index list, whatever its indices are. -/
def ElementsChecked (valid : Valuation → Prop) (ρ : Valuation) (lens lbs : List ℤ)
    (instruction : ℕ → List Term → Except Failure (List (Outcome MachineValue τ σ))) : Prop :=
  ∀ indices : List Term, indices.length = lens.length →
    (∀ x ∈ indices, IntegralUnion valid .int32 x) →
    ∀ᶠ n in Filter.atTop, ∃ os, instruction n indices = .ok os ∧
      Checked ρ lens lbs (indices.map (intValue ρ)) os

/-- The index check of an array leads to the access for lists of digits. -/
theorem accessMultidimensionalArray_leads (hS : PathSolver (Machines valid) S)
    (hlengths : ∀ x ∈ lengths, IntegralUnion valid .int32 x)
    (hindices : ∀ x ∈ indices, IntegralUnion valid .int32 x)
    (hrank : lengths.length = indices.length)
    (haccessor : ∀ t, Ready (Machines valid) t → t.memory = m →
      ∃ os, accessor t = .ok os ∧ Leads (Machines valid) t os ending) :
    ∀ᶠ n in Filter.atTop, ∃ inBounds : Interp MachineValue → Bool,
      (∀ ρ, valid ρ → (inBounds ρ.machine = true ↔ AreDigits ρ lengths indices)) ∧
      ∀ s, Ready (Machines valid) s → s.memory = m →
        ∃ os, accessMultidimensionalArray S n trace accessor s lengths indices = .ok os ∧
          Leads (Machines valid) s os fun I =>
            if inBounds I then ending I else some (.raise .indexOutOfRange) := by
  filter_upwards [checkArrayBounds_spec hlengths hindices hrank] with n hn
  obtain ⟨c, hrun, hc, hholds⟩ := hn
  refine ⟨fun I => c.holds I, hholds, fun s hs hm => ?_⟩
  exact statedConditionalExecution_leads hS hs hrun hc
    (fun t ht htm => haccessor t ht (htm.trans hm)) fun e _ _ => ⟨_, rfl, leads_raise _ e⟩

/-- What the instructions ask of a reference. -/
structure IsReference (H : ArrayHeap σ) (ref null bad : Term) : Prop where
  null_ok : H.isNullReference ref = .ok null
  null_condition : Condition null
  bad_ok : H.isBadRef ref = .ok bad
  bad_condition : Condition bad

/-- How an access of an element ends. -/
def accessEnding (null bad : Term) (inBounds : Interp MachineValue → Bool)
    (ending : Interp MachineValue → Option Ending) : Interp MachineValue → Option Ending := fun I =>
  if null.holds I then some (.raise .nullReference)
  else if bad.holds I then none
  else if inBounds I then ending I else some (.raise .indexOutOfRange)

/-- An access of an element leads to what is done with the element. -/
theorem elementAccess_leads (hS : PathSolver (Machines valid) S) (hs : Ready (Machines valid) s)
    {ref : Term} (href : IsReference H ref null bad)
    (harray : IsArray valid H s.memory ref lengths lowerBounds)
    (hrank : indices.length = lengths.length)
    (hindices : ∀ x ∈ indices, IntegralUnion valid .int32 x)
    (haccessor : ∀ t, Ready (Machines valid) t → t.memory = s.memory →
      ∃ os, accessor t = .ok os ∧ Leads (Machines valid) t os ending) :
    ∀ᶠ n in Filter.atTop, ∃ inBounds : Interp MachineValue → Bool,
      (∀ ρ, valid ρ → (inBounds ρ.machine = true ↔ AreDigits ρ lengths indices)) ∧
      ∃ os, (npeOrInvokeStatement S H trace s ref fun t => do
          let lengths ← (List.range (H.rankOf s.memory ref)).mapM
            (H.arrayLengthByDimension t.memory ref)
          accessMultidimensionalArray S n trace accessor t lengths indices) = .ok os ∧
        Leads (Machines valid) s os (accessEnding null bad inBounds ending) := by
  filter_upwards [accessMultidimensionalArray_leads hS harray.lengths_int32 hindices hrank.symm
    haccessor] with n hn
  obtain ⟨inBounds, hholds, hleads⟩ := hn
  refine ⟨inBounds, hholds, npeOrInvokeStatement_leads hS hs href.null_ok href.null_condition
    href.bad_ok href.bad_condition fun t ht htm => ?_⟩
  rw [htm, bind_ok harray.read]
  exact hleads t ht htm

section

omit [HashOrder FieldId] [HashOrder Term]

/-- The outcomes under a valuation of a reference that is there and of a storable value. -/
theorem checked_iff {os : List (Outcome MachineValue τ σ)} {inBounds : Interp MachineValue → Bool}
    {lens is : List ℤ}
    (hρ : valid ρ) (hpc : PC.Holds ρ.machine s.pc) (hnull : null.holds ρ.machine = false)
    (hbad : bad.holds ρ.machine = false) (hending : ending ρ.machine = some .access)
    (hholds : inBounds ρ.machine = true ↔ Digits lens is)
    (hleads : Leads (Machines valid) s os (accessEnding null bad inBounds ending)) :
    Checked ρ lens lbs is os ↔ (Digits lens is ↔ Inside lens lbs is) ∧ (Digits lens is →
      0 ≤ linearizeArrayIndex lens lbs is ∧ linearizeArrayIndex lens lbs is < lens.prod) := by
  have hends (e : Ending) : (∃ o ∈ os, o.ending = e ∧ PC.Holds ρ.machine o.state.pc) ↔
      (if inBounds ρ.machine then some Ending.access
        else some (.raise .indexOutOfRange)) = some e := by
    rw [hleads ρ.machine ⟨ρ, hρ, rfl⟩ e, and_iff_right hpc, accessEnding, hnull, hbad, hending]
    rfl
  have haccess : (∃ o ∈ os, o.ending = .access ∧ PC.Holds ρ.machine o.state.pc) ↔
      Digits lens is := by
    rw [hends, ← hholds]
    cases inBounds ρ.machine <;> simp
  have hraise : (∃ o ∈ os, o.ending = .raise .indexOutOfRange ∧
      PC.Holds ρ.machine o.state.pc) ↔ ¬ Digits lens is := by
    rw [hends, ← hholds]
    cases inBounds ρ.machine <;> simp
  constructor
  · intro h
    exact ⟨haccess.symm.trans h.access, fun hd => h.offset (haccess.mpr hd)⟩
  · rintro ⟨hinside, hoffset⟩
    exact ⟨haccess.trans hinside, hraise.trans (not_congr hinside), fun h => hoffset (haccess.mp h)⟩

/-- An instruction that leads to the access for lists of digits checks its index lists where the
lengths decide. -/
theorem elementsChecked_iff (ending : Interp MachineValue → Option Ending) (hρ : valid ρ)
    (hpc : PC.Holds ρ.machine s.pc) (hnull : null.holds ρ.machine = false)
    (hbad : bad.holds ρ.machine = false) (hending : ending ρ.machine = some .access)
    {instruction : ℕ → List Term → Except Failure (List (Outcome MachineValue τ σ))}
    (h : ∀ indices : List Term, indices.length = lengths.length →
      (∀ x ∈ indices, IntegralUnion valid .int32 x) →
      ∀ᶠ n in Filter.atTop, ∃ inBounds : Interp MachineValue → Bool,
        (∀ ρ, valid ρ → (inBounds ρ.machine = true ↔ AreDigits ρ lengths indices)) ∧
        ∃ os, instruction n indices = .ok os ∧
          Leads (Machines valid) s os (accessEnding null bad inBounds ending)) :
    ElementsChecked valid ρ (lengths.map (intValue ρ)) lbs instruction ↔
      LengthsDecide (lengths.map (intValue ρ)) lbs := by
  constructor
  · intro hchecked indices hrank hint32
    have hliterals : (indices.map fun i => literal i .int32).map (intValue ρ) = indices := by
      rw [map_map]
      exact (map_congr_left fun i hi => intValue_literal (hint32 i hi) ρ).trans indices.map_id
    have hunion : ∀ x ∈ indices.map fun i => literal i .int32, IntegralUnion valid .int32 x := by
      intro x hx
      obtain ⟨i, hi, rfl⟩ := mem_map.mp hx
      exact .term (.literal (by decide) (inRange_int32 (hint32 i hi)))
    rw [length_map] at hrank
    obtain ⟨n, ⟨os, hos, hcheck⟩, inBounds, hholds, os', hos', hleads⟩ :=
      ((hchecked (indices.map fun i => literal i .int32) (by simpa using hrank) hunion).and
        (h (indices.map fun i => literal i .int32) (by simpa using hrank) hunion)).exists
    obtain rfl : os' = os := Except.ok.inj (hos'.symm.trans hos)
    have hiff := (checked_iff hρ hpc hnull hbad hending (hholds ρ hρ) hleads).mp hcheck
    rwa [hliterals] at hiff
  · intro hdecide indices hrank hunion
    rw [length_map] at hrank
    filter_upwards [h indices hrank hunion] with n hn
    obtain ⟨inBounds, hholds, os, hos, hleads⟩ := hn
    refine ⟨os, hos, (checked_iff hρ hpc hnull hbad hending (hholds ρ hρ) hleads).mpr ?_⟩
    refine hdecide _ (by simpa using hrank) fun i hi => ?_
    obtain ⟨x, -, rfl⟩ := mem_map.mp hi
    exact int32_intValue ρ x

end

section
variable (hS : PathSolver (Machines valid) S) (hs : Ready (Machines valid) s)
  {ref null bad : Term} (href : IsReference H ref null bad) {lengths lowerBounds : List Term}
  (harray : IsArray valid H s.memory ref lengths lowerBounds) {ρ : Valuation} (hρ : valid ρ)
  (hpc : PC.Holds ρ.machine s.pc) (hnull : null.holds ρ.machine = false)
  (hbad : bad.holds ρ.machine = false)

include hS hs href harray hρ hpc hnull hbad

theorem ldElemCommon_checked_iff (lbs : List ℤ) :
    ElementsChecked valid ρ (lengths.map (intValue ρ)) lbs
        (fun n indices => ldElemCommon S H n trace s ref indices) ↔
      LengthsDecide (lengths.map (intValue ρ)) lbs := by
  refine elementsChecked_iff (fun _ => some .access) hρ hpc hnull hbad rfl
    fun indices hrank hunion => ?_
  exact elementAccess_leads hS hs href harray hrank hunion fun t _ _ => ⟨_, rfl, leads_access t⟩

theorem stElemCommon_checked_iff {value storable : Term}
    (hstorable : H.storable s.memory ref value = .ok storable) (hcstorable : Condition storable)
    (hstored : storable.holds ρ.machine = true) (lbs : List ℤ) :
    ElementsChecked valid ρ (lengths.map (intValue ρ)) lbs
        (fun n indices => stElemCommon S H n trace s ref indices value) ↔
      LengthsDecide (lengths.map (intValue ρ)) lbs := by
  refine elementsChecked_iff (fun I => if storable.holds I then some .access
    else some (.raise .arrayTypeMismatch)) hρ hpc hnull hbad (if_pos hstored)
    fun indices hrank hunion => ?_
  refine elementAccess_leads hS hs href harray hrank hunion fun t ht htm => ?_
  exact statedConditionalExecution_leads hS ht (htm ▸ hstorable) hcstorable
    (fun u _ _ => ⟨_, rfl, leads_access u⟩) fun u _ _ => ⟨_, rfl, leads_raise _ u⟩

/-- The element of an array that is there is read and written as checked against the bounds of the
array where the array has plain bounds, and nowhere else among the arrays of the runtime, which have
fewer than `2 ^ 32` elements. -/
theorem elementAccess_checked_iff {value storable : Term}
    (hstorable : H.storable s.memory ref value = .ok storable) (hcstorable : Condition storable)
    (hstored : storable.holds ρ.machine = true) :
    let lens := lengths.map (intValue ρ)
    let lbs := lowerBounds.map (intValue ρ)
    let ldElem := fun n indices => ldElemCommon S H n trace s ref indices
    let stElem := fun n indices => stElemCommon S H n trace s ref indices value
    (PlainBounds lens lbs →
      ElementsChecked valid ρ lens lbs ldElem ∧ ElementsChecked valid ρ lens lbs stElem) ∧
    (lens.prod < 2 ^ 32 → (ElementsChecked valid ρ lens lbs ldElem ↔ PlainBounds lens lbs) ∧
      (ElementsChecked valid ρ lens lbs stElem ↔ PlainBounds lens lbs)) := by
  intro lens lbs ldElem stElem
  have hld : ElementsChecked valid ρ lens lbs ldElem ↔ LengthsDecide lens lbs :=
    ldElemCommon_checked_iff hS hs href harray hρ hpc hnull hbad lbs
  have hst : ElementsChecked valid ρ lens lbs stElem ↔ LengthsDecide lens lbs :=
    stElemCommon_checked_iff hS hs href harray hρ hpc hnull hbad hstorable hcstorable hstored lbs
  have hrank : lens.length = lbs.length := by
    rw [length_map, length_map, harray.rank']
  have hlens : ∀ len ∈ lens, 0 ≤ len ∧ len < 2 ^ 31 := by
    intro len hlen
    obtain ⟨x, hx, rfl⟩ := mem_map.mp hlen
    exact ⟨harray.nonneg ρ hρ x hx, BitVec.toInt_lt⟩
  have hlbs : ∀ lb ∈ lbs, int32 lb = lb := by
    intro lb hlb
    obtain ⟨x, -, rfl⟩ := mem_map.mp hlb
    exact int32_intValue ρ x
  refine ⟨fun hplain => ?_, fun hprod => ?_⟩
  · have hdecide := lengthsDecide_of_plain hrank hlens hplain
    exact ⟨hld.mpr hdecide, hst.mpr hdecide⟩
  · have hdecide := lengthsDecide_iff hrank hlens hlbs hprod
    exact ⟨hld.trans hdecide, hst.trans hdecide⟩

end

end

/-! ### An array of the memory -/

/-- A solver that tries the valuation in which everything is zero. -/
def zeroSolver : Solver MachineValue Unit Unit where
  checkSat s :=
    if (PC.toSeq s.pc).all (holds (boolValuation false).machine) then
      (.sat (truthModel false), ())
    else (.unsat, ())
  addTypeConstraint _ _ := ()
  refineTypes s := .ok s

theorem zeroSolver_right [HashOrder Term] :
    PathSolver (Machines fun ρ => ρ = boolValuation false) zeroSolver where
  record _ _ _ := (and_iff_left trivial).symm
  sat {s m ts} h := by
    dsimp only [zeroSolver] at h
    split at h
    · next hall =>
        obtain ⟨hm, rfl⟩ := Prod.mk.inj h
        obtain rfl := SmtResult.sat.inj hm
        exact ⟨⟨_, rfl, rfl⟩, all_eq_true.mp hall, trivial, fun _ => Iff.rfl⟩
    · cases h
  unsat {s ts} h := by
    dsimp only [zeroSolver] at h
    split at h
    · cases h
    · next hall =>
        rintro _ ⟨_, rfl, rfl⟩ hpc
        exact absurd (all_eq_true.mpr hpc) hall
  known s := by
    dsimp only [zeroSolver]
    split <;> exact nofun
  refine {s} hw ha := ⟨s, rfl, rfl, rfl, hw, ha, fun _ => Iff.rfl⟩

/-- A memory with one array, of these lengths and lower bounds, behind every reference. -/
def oneArray (lens lbs : List ℤ) : ArrayHeap Unit where
  isNullReference _ := .ok falseTerm
  isBadRef _ := .ok falseTerm
  rankOf _ _ := lens.length
  arrayLengthByDimension _ _ i := .ok (literal (lens.getD i 0) .int32)
  arrayLowerBoundByDimension _ _ i := .ok (literal (lbs.getD i 0) .int32)
  storable _ _ _ := .ok trueTerm

def zeroState : State MachineValue Unit Unit where
  pc := PC.empty
  model := truthModel false
  typeStorage := ()
  memory := ()

theorem zeroState_ready : Ready (Machines fun ρ => ρ = boolValuation false) zeroState where
  conditions c hc := by cases hc
  witnessed := ⟨⟨_, rfl, rfl⟩, fun c hc => by cases hc⟩

theorem oneArray_reference (lens lbs : List ℤ) (ref : Term) :
    IsReference (oneArray lens lbs) ref falseTerm falseTerm :=
  ⟨rfl, .simple (.makeBool false), rfl, .simple (.makeBool false)⟩

theorem literals_int32 {valid : Valuation → Prop} (h : ∀ i ∈ is, int32 i = i) :
    ∀ x ∈ is.map fun i => literal i .int32, IntegralUnion valid .int32 x := by
  intro x hx
  obtain ⟨i, hi, rfl⟩ := mem_map.mp hx
  exact .term (.literal (by decide) (inRange_int32 (h i hi)))

theorem oneArray_isArray {lens lbs : List ℤ} (hrank : lens.length = lbs.length)
    (hlens : ∀ len ∈ lens, 0 ≤ len ∧ len < 2 ^ 31) (hlbs : ∀ lb ∈ lbs, int32 lb = lb) (ref : Term) :
    IsArray (fun ρ => ρ = boolValuation false) (oneArray lens lbs) () ref
      (lens.map fun i => literal i .int32) (lbs.map fun i => literal i .int32) where
  rank := (length_map _).symm
  rank' := by rw [length_map, length_map, hrank]
  length i h := by
    rw [length_map] at h
    simp [oneArray, h]
  lowerBound i h := by
    rw [length_map] at h
    simp [oneArray, h]
  lengths_int32 := literals_int32 fun i hi => int32_eq (by have := hlens i hi; omega)
  lowerBounds_int32 := literals_int32 hlbs
  nonneg ρ _ x hx := by
    obtain ⟨i, hi, rfl⟩ := mem_map.mp hx
    rw [intValue_literal (int32_eq (by have := hlens i hi; omega))]
    exact (hlens i hi).1


theorem map_intValue_literals (h : ∀ i ∈ is, int32 i = i) (ρ : Valuation) :
    (is.map fun i => literal i .int32).map (intValue ρ) = is := by
  rw [map_map]
  exact (map_congr_left fun i hi => intValue_literal (h i hi) ρ).trans is.map_id

/-- An array of two rows of three elements is checked. -/
theorem elementAccess_checked_rows : let _ : HashOrder FieldId := ⟨fun _ => 0⟩
    let _ := PC.insertionOrder
    let H := oneArray [2, 3] [0, 0]
    let valid : Valuation → Prop := fun ρ => ρ = boolValuation false
    ElementsChecked valid (boolValuation false) [2, 3] [0, 0]
        (fun n indices => ldElemCommon zeroSolver H n trace zeroState .nop indices) ∧
      ElementsChecked valid (boolValuation false) [2, 3] [0, 0]
        (fun n indices => stElemCommon zeroSolver H n trace zeroState .nop indices trueTerm) := by
  intro _ _ H valid
  have hlens := @map_intValue_literals [2, 3] (by decide) (boolValuation false)
  have hlbs := @map_intValue_literals [0, 0] (by decide) (boolValuation false)
  have hchecked := elementAccess_checked_iff zeroSolver_right zeroState_ready
    (oneArray_reference [2, 3] [0, 0] .nop)
    (@oneArray_isArray [2, 3] [0, 0] rfl (by decide) (by decide) .nop) rfl
    (fun c hc => by cases hc) (holds_makeBool _ false) (holds_makeBool _ false)
    (rfl : H.storable () .nop trueTerm = .ok trueTerm) (.simple (.makeBool true))
    (holds_makeBool _ true)
  rw [hlens, hlbs] at hchecked
  exact hchecked.1 (.inr ⟨by decide, by decide, by decide⟩)

/-- The element of an array with the lower bound 1 is missed, and the index 0 is let through. -/
theorem not_elementsChecked_one : let _ : HashOrder FieldId := ⟨fun _ => 0⟩
    let _ := PC.insertionOrder
    let H := oneArray [1] [1]
    let valid : Valuation → Prop := fun ρ => ρ = boolValuation false
    ¬ ElementsChecked valid (boolValuation false) [1] [1]
        (fun n indices => ldElemCommon zeroSolver H n trace zeroState .nop indices) ∧
      ¬ ElementsChecked valid (boolValuation false) [1] [1]
        (fun n indices => stElemCommon zeroSolver H n trace zeroState .nop indices trueTerm) := by
  intro _ _ H valid
  have hlens := @map_intValue_literals [1] (by decide) (boolValuation false)
  have harray : IsArray valid H () .nop ([1].map fun i => literal i .int32)
      ([1].map fun i => literal i .int32) :=
    @oneArray_isArray [1] [1] rfl (by decide) (by decide) .nop
  have hdecide : ¬ LengthsDecide [1] [1] := fun h => by
    obtain ⟨⟩ | ⟨hindex, -⟩ := (h [0] rfl (by decide)).1.mp (.cons ⟨Int.le_refl 0, by decide⟩ .nil)
    exact absurd hindex.1 (by decide)
  have hld := ldElemCommon_checked_iff zeroSolver_right zeroState_ready
    (oneArray_reference [1] [1] .nop) harray rfl (fun c hc => by cases hc)
    (holds_makeBool _ false) (holds_makeBool _ false) [1]
  have hst := stElemCommon_checked_iff zeroSolver_right zeroState_ready
    (oneArray_reference [1] [1] .nop) harray rfl (fun c hc => by cases hc)
    (holds_makeBool _ false) (holds_makeBool _ false)
    (rfl : H.storable () .nop trueTerm = .ok trueTerm) (.simple (.makeBool true))
    (holds_makeBool _ true) [1]
  rw [hlens] at hld hst
  exact ⟨fun h => hdecide (hld.mp h), fun h => hdecide (hst.mp h)⟩

end VSharp.ElementAccess
