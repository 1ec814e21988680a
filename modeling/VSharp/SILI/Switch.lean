import VSharp.Core.IntegralTerms
import VSharp.Core.TypedBranching
import VSharp.SILI.InstructionPointer

/-!
# SILI — Switch

`switch` of `VSharp.SILI/Interpreter.fs`, with `inlineSwitch` of `VSharp.IL/MethodBody.fs`: a chain
of branchings on the cases, each of which goes on from the state of the other branch with the path
condition that the instruction started with.  The type storage is not put back: the guards have to be
no type tests, so that nothing is recorded for the cases that were not taken.

- `runCases_spec`: what a chain of branchings on disjoint guards leaves;
- `switch_exact`: a `switch` splits a state exactly.
-/

namespace VSharp.Switch
open Term Propositional Library MachineInteger Branching SILI List

/-! ### The code -/

/-- `Cps.List.foldrk`: the last element of the list comes first. -/
def foldrk {α β γ : Type} (f : α → β → (β → γ) → γ) (a : β) : List α → (β → γ) → γ
  | [], k => k a
  | x :: xs, k => foldrk f a xs fun a' => f x a' k

def signedToUnsigned : Ty → Except Failure Ty
  | .int32 | .uint32 => .ok .uint32
  | .sbyte | .byte => .ok .byte
  | .int16 | .uint16 => .ok .uint16
  | .int64 | .uint64 => .ok .uint64
  | .intPtr | .uintPtr => .ok .uintPtr
  | _ => .error (.internal "signedToUnsigned: unexpected type")

/-- `conditionalBranchTarget` of a `switch`: the offsets it may go on at.  Lists have fewer than
`2 ^ 31` elements. -/
structure BranchTargets where
  fallThrough : ℕ
  rests : List ℕ
  length_lt : rests.length < 2 ^ 31

def extractInt32 (ilBytes : List (BitVec 8)) (pos : ℕ) : BitVec 32 :=
  let byte i := ilBytes.getD (pos + i) 0
  byte 3 ++ byte 2 ++ byte 1 ++ byte 0

/-- `inlineSwitch`; the opcode has one byte. -/
def inlineSwitch (ilBytes : List (BitVec 8)) (pos : ℕ) : Option BranchTargets :=
  let opcodeSize := 1
  let n := (extractInt32 ilBytes (pos + opcodeSize)).toNat
  let nextInstruction := pos + opcodeSize + 4 * n + 4
  let nextOffsets := (List.range n).map fun x =>
    (nextInstruction + (extractInt32 ilBytes (pos + opcodeSize + 4 * (x + 1))).toInt).toNat
  -- a count that is negative as an `int` makes no list
  if h : n < 2 ^ 31 then some ⟨nextInstruction, nextOffsets, by simpa [nextOffsets] using h⟩
  else none

section
variable [HashOrder FieldId]

def makeUnsignedInteger (term : Term) : Except Failure Term := do
  match ← commonTypeOf term with
  | .bool => Term.cast term .uint32
  | .double | .single => .ok term
  | t =>
    if t.integral?.isSome then do Term.cast term (← signedToUnsigned t)
    else .ok term

/-- `===`, of numbers. -/
def equality (n : ℕ) (x y : Term) : Run Term := do
  let t1 ← .lift (commonTypeOf x)
  let t2 ← .lift (commonTypeOf y)
  if t1.numeric?.isSome ∧ t2.numeric?.isSome then simplifyEqual n x y
  else .fail (.internal "simplifyBinary")

/-- An instruction pointer that cannot be moved. -/
def badIp : Failure := .internal "moveInstruction"

/-- `MoveInstruction`. -/
def move {M : Type} (oldIp : InstructionPointer M) (offset : ℕ) :
    Except Failure (InstructionPointer M) :=
  (oldIp.moveInstruction offset).elim (.error badIp) .ok

/-- The guards of a `switch` and where they lead: the fall-through, then the cases. -/
def guardedIps {M : Type} (n : ℕ) (targets : BranchTargets) (oldIp : InstructionPointer M)
    (value : Term) : Run (List (Term × InstructionPointer M)) := do
  let value ← .lift (makeUnsignedInteger value)
  let fallThroughIp ← .lift (move oldIp targets.fallThrough)
  let restIps ← .lift (targets.rests.mapM (move oldIp))
  let casesAndOffsets ← restIps.zipIdx.mapM fun (offset, i) => do
    pure (← equality n value (literal i .int32), offset)
  let bound ← .lift (makeUnsignedInteger (literal restIps.length .int32))
  let fallThroughGuard ← simplifyGreaterOrEqualUn n value bound
  pure ((fallThroughGuard, fallThroughIp) :: casesAndOffsets)

variable {V τ M : Type} [HashOrder Term] (S : Solver V τ (CilState M (List Term)))
  (branchesReleased : Bool)

omit [HashOrder FieldId] in
/-- One case: the state of the other branch goes on with the path condition of the instruction. -/
def checkOneCase (origPc : PathCondition) (guardAndIp : Term × InstructionPointer M)
    (cilState : State V τ (CilState M (List Term)))
    (kRestCases : State V τ (CilState M (List Term)) →
      Except Failure (List (State V τ (CilState M (List Term))))) :
    Except Failure (List (State V τ (CilState M (List Term)))) := do
  let results ← commonStatedConditionalExecution S branchesReleased cilState
    (fun state => .ok (guardAndIp.1, state))
    (fun cilState =>
      .ok [{ cilState with memory := cilState.memory.setCurrentIp guardAndIp.2 }])
    (fun otherState => kRestCases { otherState with pc := origPc })
    fun x y => [x, y]
  .ok results.flatten

/-- `switch`, with the depth of nested simplifications as fuel.  The memory of the state is its
frame: the stack of instruction pointers and the evaluation stack. -/
def switch (n : ℕ) (targets : BranchTargets) (cilState : State V τ (CilState M (List Term))) :
    Except Failure (List (State V τ (CilState M (List Term)))) :=
  match cilState.memory.memory, cilState.memory.ipStack with
  | value :: stack, oldIp :: _ => do
      let cilState := { cilState with memory := { cilState.memory with memory := stack } }
      let origPc := cilState.pc
      let (casesAndOffsets, _) ← guardedIps n targets oldIp value
      foldrk (checkOneCase S branchesReleased origPc) cilState casesAndOffsets fun _ => .ok []
  | _, _ => .error (.internal "stack is empty")

end

/-! ### The chain of branchings -/

/-- The continuation that `foldrk` builds. -/
theorem foldrk_eq {α β γ : Type} (f : α → β → (β → γ) → γ) (a : β) (xs : List α) (k : β → γ) :
    foldrk f a xs k = xs.reverse.foldr (fun x k a => f x a k) k a := by
  induction xs generalizing k with
  | nil => rfl
  | cons x xs ih =>
    rw [foldrk, ih, reverse_cons, foldr_append]
    rfl

section
variable {V τ M : Type} [HashOrder Term] (S : Solver V τ (CilState M (List Term)))

/-- The branchings of a `switch`, in their order. -/
def runCases (origPc : PathCondition) (gs : List (Term × InstructionPointer M)) :
    State V τ (CilState M (List Term)) →
      Except Failure (List (State V τ (CilState M (List Term)))) :=
  gs.foldr (fun c k cilState => checkOneCase S false origPc c cilState k) fun _ => .ok []

variable (valid : Interp V → Prop) (allows : τ → Interp V → Prop)
  (records : Term → Interp V → Prop) (origPc : PathCondition)

/-- A valuation that the instruction may be reached with. -/
def Possible (I : Interp V) : Prop := valid I ∧ PC.Holds I origPc

/-- Some valuation takes the case. -/
def Feasible (c : Term × InstructionPointer M) : Prop :=
  ∃ I, Possible valid origPc I ∧ c.1.holds I = true

/-- The state in which a case goes on. -/
structure Continues (frame : CilState M (List Term)) (c : Term × InstructionPointer M)
    (r : State V τ (CilState M (List Term))) : Prop where
  memory : r.memory = frame.setCurrentIp c.2
  holds_iff : ∀ I, valid I → (PC.Holds I r.pc ↔ PC.Holds I origPc ∧ c.1.holds I = true)

/-- Every case that can be taken goes on in its own state. -/
inductive Explored (frame : CilState M (List Term)) : List (Term × InstructionPointer M) →
    List (State V τ (CilState M (List Term))) → Prop where
  | nil : Explored frame [] []
  | skip {c : Term × InstructionPointer M} {gs : List (Term × InstructionPointer M)}
      {rs : List (State V τ (CilState M (List Term)))} (hc : ¬ Feasible valid origPc c)
      (h : Explored frame gs rs) : Explored frame (c :: gs) rs
  | take {c : Term × InstructionPointer M} {gs : List (Term × InstructionPointer M)}
      {r : State V τ (CilState M (List Term))} {rs : List (State V τ (CilState M (List Term)))}
      (hr : Continues valid origPc frame c r) (h : Explored frame gs rs) :
      Explored frame (c :: gs) (r :: rs)

/-- Neither the guard nor its negation is about types: nothing is recorded for it. -/
def RecordsNothing (guard : Term) : Prop :=
  ∀ I, valid I → records guard I ∧ ∀ n, simplifyNegation guard = .ok n → records n I

variable {S valid allows records origPc} {frame : CilState M (List Term)}
  {c : Term × InstructionPointer M} {gs : List (Term × InstructionPointer M)}
variable {s : State V τ (CilState M (List Term))}

omit [HashOrder Term] in
theorem Explored.of_infeasible (h : ∀ d ∈ gs, ¬ Feasible valid origPc d) :
    Explored (τ := τ) valid origPc frame gs [] := by
  induction gs with
  | nil => exact .nil
  | cons c gs ih =>
    exact .skip (h c mem_cons_self) (ih fun d hd => h d (mem_cons_of_mem _ hd))

/-- What one case makes of the branches. -/
def afterFork (origPc : PathCondition) (c : Term × InstructionPointer M)
    (k : State V τ (CilState M (List Term)) →
      Except Failure (List (State V τ (CilState M (List Term))))) :
    Fork V τ (CilState M (List Term)) → Except Failure (List (State V τ (CilState M (List Term))))
  | .thenOnly t => .ok [{ t with memory := t.memory.setCurrentIp c.2 }]
  | .elseOnly e => k { e with pc := origPc }
  | .both t e => (k { e with pc := origPc }).map
      ({ t with memory := t.memory.setCurrentIp c.2 } :: ·)

theorem checkOneCase_eq {f : Fork V τ (CilState M (List Term))}
    (hf : fork S false s c.1 s = .ok f) (k : State V τ (CilState M (List Term)) →
      Except Failure (List (State V τ (CilState M (List Term))))) :
    checkOneCase S false origPc c s k = afterFork origPc c k f := by
  have hrun : checkOneCase S false origPc c s k = (do
      let results ← f.run
        (fun t => .ok [{ t with memory := t.memory.setCurrentIp c.2 }])
        (fun e => k { e with pc := origPc }) fun x y => [x, y]
      .ok results.flatten) := by
    show (do
      let results ← (fork S false s c.1 s >>= fun f => f.run _ _ _)
      Except.ok results.flatten) = _
    rw [bind_ok hf]
  rw [hrun]
  cases f with
  | thenOnly t => rfl
  | elseOnly e =>
    dsimp only [Fork.run, afterFork]
    cases k { e with pc := origPc } with
    | error _ => rfl
    | ok rs => exact congrArg Except.ok (by simp)
  | both t e =>
    dsimp only [Fork.run, afterFork]
    cases k { e with pc := origPc } with
    | error _ => rfl
    | ok rs => exact congrArg Except.ok (by simp)

/-- What the chain leaves, from a state with the path condition of the instruction: all cases that
can be taken. -/
theorem runCases_spec (hS : TypedSolver S valid allows records) (hpc : PC.Conditions origPc)
    (hconds : ∀ c ∈ gs, Condition c.1) (hgs : ∀ c ∈ gs, RecordsNothing valid records c.1)
    (hdisjoint : gs.Pairwise fun c d =>
      ∀ I, valid I → c.1.holds I = true → d.1.holds I = false) (horig : s.pc = origPc)
    (hw : s.Witnessed valid) (hts : ∀ I, Possible valid origPc I → allows s.typeStorage I) :
    ∃ rs, runCases S origPc gs s = .ok rs ∧ (∀ r ∈ rs, r.Witnessed valid) ∧
      Explored valid origPc s.memory gs rs := by
  induction gs generalizing s with
  | nil => exact ⟨[], rfl, nofun, .nil⟩
  | cons c gs ih =>
    obtain ⟨hc, hrest⟩ := pairwise_cons.mp hdisjoint
    have hcond := hconds c mem_cons_self
    have hnothing := hgs c mem_cons_self
    obtain ⟨n, hn, -, -⟩ := simplifyNegation_spec hcond
    obtain ⟨f, hf, hforks⟩ := fork_types hS (horig ▸ hpc) hw (hts _ ⟨hw.1, horig ▸ hw.2⟩) hcond hn
      (fun I hI _ => (hnothing I hI).1) fun I hI _ => (hnothing I hI).2 n hn
    have hrun : runCases S origPc (c :: gs) s =
        checkOneCase S false origPc c s (runCases S origPc gs) := rfl
    rw [hrun, checkOneCase_eq hf]
    -- what the chain goes on with in the state of the other branch
    have continued {e : State V τ (CilState M (List Term))} {assumed : Interp V → Prop}
        (helse : Branch valid allows records s n assumed e) :
        ∃ rs, runCases S origPc gs { e with pc := origPc } = .ok rs ∧
          (∀ r ∈ rs, r.Witnessed valid) ∧ Explored valid origPc s.memory gs rs := by
      rw [← helse.memory]
      refine ih (fun d hd => hconds d (mem_cons_of_mem _ hd))
        (fun d hd => hgs d (mem_cons_of_mem _ hd)) hrest (s := { e with pc := origPc }) rfl
        ⟨helse.witnessed.1, horig ▸ ((helse.holds_iff _ helse.witnessed.1).mp
          helse.witnessed.2).1⟩ fun I hI => ?_
      exact (helse.allows_iff I hI.1 (horig ▸ hI.2)).mpr ⟨hts I hI, (hnothing I hI.1).2 n hn⟩
    cases hforks with
    | @thenOnly t hmodel hthen hno =>
      -- every valuation takes the case
      have htaken (I : Interp V) (hI : Possible valid origPc I) : c.1.holds I = true := by
        by_contra hne
        exact hno I hI.1 (horig ▸ hI.2) (Bool.eq_false_iff.mpr hne) (hts I hI)
      have hafter : ∀ d ∈ gs, ¬ Feasible valid origPc d := by
        rintro d hd ⟨I, hI, hdI⟩
        rw [hc d hd I hI.1 (htaken I hI)] at hdI
        cases hdI
      refine ⟨_, rfl, forall_mem_singleton.mpr hthen.witnessed,
        .take ⟨congrArg (·.setCurrentIp c.2) hthen.memory, fun I hI => ?_⟩ (.of_infeasible hafter)⟩
      refine (hthen.holds_iff I hI).trans ?_
      rw [horig, and_true]
      exact ⟨fun h => ⟨h, htaken I ⟨hI, h⟩⟩, And.left⟩
    | @elseOnly e hmodel helse hno =>
      have hinf : ¬ Feasible valid origPc c := by
        rintro ⟨I, hI, hcI⟩
        exact hno I hI.1 (horig ▸ hI.2) hcI (hts I hI)
      obtain ⟨rs, h₁, h₂, h₃⟩ := continued helse
      exact ⟨rs, h₁, h₂, .skip hinf h₃⟩
    | @both t e hthen helse =>
      obtain ⟨rs, h₁, h₂, h₃⟩ := continued helse
      refine ⟨_, congrArg (Except.map _) h₁, forall_mem_cons.mpr ⟨hthen.witnessed, h₂⟩,
        .take ⟨congrArg (·.setCurrentIp c.2) hthen.memory, fun I hI => ?_⟩ h₃⟩
      exact horig ▸ hthen.holds_iff I hI

/-- Exactly one state of the list has a path condition that the valuation satisfies, and it has the
frame. -/
def ExactlyOne (I : Interp V) (frame : CilState M (List Term))
    (rs : List (State V τ (CilState M (List Term)))) : Prop :=
  ∃ before r after, rs = before ++ r :: after ∧ PC.Holds I r.pc ∧ r.memory = frame ∧
    ∀ r' ∈ before ++ after, ¬ PC.Holds I r'.pc

section
variable {rs : List (State V τ (CilState M (List Term)))} {I : Interp V}

omit [HashOrder Term]

theorem Explored.not_holds (h : Explored valid origPc frame gs rs) (hI : valid I)
    (hall : ∀ d ∈ gs, d.1.holds I = false) : ∀ r ∈ rs, ¬ PC.Holds I r.pc := by
  induction h with
  | nil => exact nofun
  | skip _ _ ih => exact ih fun d hd => hall d (mem_cons_of_mem _ hd)
  | take hr _ ih =>
    refine forall_mem_cons.mpr ⟨fun hholds => ?_, ih fun d hd => hall d (mem_cons_of_mem _ hd)⟩
    have := ((hr.holds_iff I hI).mp hholds).2
    rw [hall _ mem_cons_self] at this
    cases this

theorem Explored.exactlyOne (h : Explored valid origPc frame gs rs)
    (hdisjoint : gs.Pairwise fun c d =>
      ∀ I, valid I → c.1.holds I = true → d.1.holds I = false)
    (hI : Possible valid origPc I) (hc : c ∈ gs) (hcI : c.1.holds I = true) :
    ExactlyOne I (frame.setCurrentIp c.2) rs := by
  induction h with
  | nil => cases hc
  | skip hinf _ ih =>
    rcases mem_cons.mp hc with rfl | hc
    · exact absurd ⟨I, hI, hcI⟩ hinf
    · exact ih (pairwise_cons.mp hdisjoint).2 hc
  | @take d gs r rs hr hrest ih =>
    obtain ⟨hd, hdisjoint⟩ := pairwise_cons.mp hdisjoint
    rcases mem_cons.mp hc with rfl | hc
    · exact ⟨[], r, rs, rfl, (hr.holds_iff I hI.1).mpr ⟨hI.2, hcI⟩, hr.memory,
        hrest.not_holds hI.1 fun d hdgs => hd d hdgs I hI.1 hcI⟩
    · obtain ⟨before, r', after, rfl, h₁, h₂, h₃⟩ := ih hdisjoint hc
      refine ⟨r :: before, r', after, rfl, h₁, h₂, forall_mem_cons.mpr ⟨?_, h₃⟩⟩
      intro hholds
      have hdI := ((hr.holds_iff I hI.1).mp hholds).2
      rw [hd c hc I hI.1 hdI] at hcI
      cases hcI

end

end

/-! ### The guards -/

theorem moveInstruction_ok {M : Type} {ip : InstructionPointer M} {o : ℕ} (h : ip.offset = some o)
    (offset : ℕ) : ∃ ip', ip.moveInstruction offset = some ip' ∧ ip'.offset = some offset := by
  induction ip with
  | instruction _ m => exact ⟨_, rfl, rfl⟩
  | inFilterHandler ip _ _ _ _ _ ih | secondBypassIn ip _ _ _ _ _ ih =>
    obtain ⟨ip', h₁, h₂⟩ := ih h
    rw [InstructionPointer.moveInstruction, h₁]
    exact ⟨_, rfl, h₂⟩
  | leave ip ehcs dst m ih =>
    obtain ⟨ip', h₁, h₂⟩ := ih h
    refine ⟨.leave ip' ehcs dst m, ?_, h₂⟩
    rw [InstructionPointer.moveInstruction, h₁]
    cases ip' <;> first | rfl | cases h₂
  | _ => cases h

section
variable [HashOrder FieldId] {valid : Valuation → Prop} {t : Ty} {x : Term} {n : ℕ} {M : Type}
  {oldIp : InstructionPointer M}

/-- The operand at the unsigned type of its width. -/
theorem makeUnsignedInteger_spec (ht : 32 ≤ t.width) (hx : IntegralUnion valid t x) : ∃ u y,
    makeUnsignedInteger x = .ok y ∧ u.width = t.width ∧ IntegralUnion valid u y ∧
      ∀ ρ, valid ρ → (y.value ρ u.width).toNat = (x.value ρ t.width).toNat := by
  obtain ⟨u, hcast, hw, hun⟩ : ∃ u, makeUnsignedInteger x = Term.cast x u ∧ u.width = t.width ∧
      u.isUnsigned = true := by
    rw [makeUnsignedInteger, bind_ok hx.commonTypeOf_eq]
    cases t <;>
      first
      | exact ⟨_, rfl, rfl, rfl⟩
      | exact absurd ht (by decide)
      | exact absurd (show 32 ≤ 0 from ht) (by decide)
  obtain ⟨y, h₁, h₂, h₃⟩ := cast_spec hx (t := u) (by omega) fun h => by omega
  refine ⟨u, y, hcast.trans h₁, hw, h₂, fun ρ hρ => ?_⟩
  rw [h₃ ρ hρ, hun, extendTo_true, BitVec.toNat_setWidth, hw]
  exact Nat.mod_eq_of_lt (BitVec.isLt _)

omit [HashOrder FieldId] in
theorem value_toNat_literal {u : Ty} (hu : 32 ≤ u.width) {i : ℕ} (hi : i < 2 ^ 31) (ρ : Valuation)
    {s : Ty} (hfit : Fits u s (literal i s)) : ((literal i s).value ρ u.width).toNat = i := by
  have hlt : i < 2 ^ u.width := by
    exact hi.trans_le (Nat.pow_le_pow_right Nat.zero_lt_two (by omega))
  rw [hfit.value_literal]
  simp [BitVec.ofInt_natCast, Nat.mod_eq_of_lt hlt]

omit [HashOrder FieldId] in
theorem castNumber_uint32 (hn : n < 2 ^ 31) : castNumber .int32 .uint32 n = n := by
  have hin : InRange true 32 (castNumber .int32 .uint32 n) := inRange_read
  rw [← read_ofInt (by decide) hin]
  refine (congrArg (read true) (ofInt_castNumber (j := .uint32) (fun h => absurd h (by decide)) _)
    ).trans ?_
  rw [show IntegralType.uint32.isUnsigned = true from rfl, extendTo_true]
  exact (congrArg (read true) (BitVec.setWidth_eq _)).trans
    (read_ofInt (by decide) ⟨Int.natCast_nonneg n, show (n : ℤ) < 2 ^ 32 by omega⟩)

/-- The number of the cases, unsigned. -/
theorem makeUnsignedInteger_literal (hn : n < 2 ^ 31) :
    makeUnsignedInteger (literal n .int32) = .ok (literal n .uint32) := by
  show Except.ok (literal (castNumber .int32 .uint32 n) .uint32) = _
  rw [castNumber_uint32 hn]

/-- What the guards of a `switch` say, of an operand with the unsigned value `k`. -/
structure SplitsOn {M : Type} (valid : Valuation → Prop) (targets : BranchTargets)
    (oldIp : InstructionPointer M) (k : Valuation → ℕ)
    (gs : List (Term × InstructionPointer M)) : Prop where
  simple : ∀ c ∈ gs, Simple c.1
  disjoint : gs.Pairwise fun c d => ∀ ρ, valid ρ →
    ¬ (c.1.holds ρ.machine = true ∧ d.1.holds ρ.machine = true)
  total : ∀ ρ, valid ρ → ∃ c ∈ gs, c.1.holds ρ.machine = true ∧
    oldIp.moveInstruction (targets.rests.getD (k ρ) targets.fallThrough) = some c.2

/-- What one of the cases says. -/
def SaysEqual {M : Type} (valid : Valuation → Prop) (k : Valuation → ℕ)
    (offsetAndIndex : InstructionPointer M × ℕ) (c : Term × InstructionPointer M) : Prop :=
  c.2 = offsetAndIndex.1 ∧ Simple c.1 ∧
    ∀ ρ, valid ρ → c.1.holds ρ.machine = decide (k ρ = offsetAndIndex.2)

omit [HashOrder FieldId] in
theorem SplitsOn.of_cases {targets : BranchTargets} {k : Valuation → ℕ}
    {fallThroughIp : InstructionPointer M} {restIps : List (InstructionPointer M)}
    (hfall : oldIp.moveInstruction targets.fallThrough = some fallThroughIp)
    (hrests : List.Forall₂ (fun offset ip => oldIp.moveInstruction offset = some ip)
      targets.rests restIps) {g : Term} (hsimple : Simple g)
    (hg : ∀ ρ, valid ρ → g.holds ρ.machine = decide (restIps.length ≤ k ρ))
    {cs : List (Term × InstructionPointer M)}
    (hcs : List.Forall₂ (SaysEqual valid k) restIps.zipIdx cs) :
    SplitsOn valid targets oldIp k ((g, fallThroughIp) :: cs) := by
  have hlength : cs.length = restIps.length := by
    rw [← hcs.length_eq, length_zipIdx]
  have hcase (i : ℕ) (hi : i < cs.length) :
      SaysEqual valid k (restIps.get ⟨i, hlength ▸ hi⟩, i) cs[i] := by
    have := (forall₂_iff_get.mp hcs).2 i (by simpa [hlength] using hi) hi
    simpa using this
  refine ⟨?_, ?_, fun ρ hρ => ?_⟩
  · refine forall_mem_cons.mpr ⟨hsimple, fun c hc => ?_⟩
    obtain ⟨i, hi, rfl⟩ := mem_iff_getElem.mp hc
    exact (hcase i hi).2.1
  · refine pairwise_cons.mpr ⟨fun c hc ρ hρ h => ?_, pairwise_iff_getElem.mpr ?_⟩
    · obtain ⟨i, hi, rfl⟩ := mem_iff_getElem.mp hc
      rw [hg ρ hρ, (hcase i hi).2.2 ρ hρ, decide_eq_true_iff, decide_eq_true_iff] at h
      omega
    · intro i j hi hj hij ρ hρ h
      rw [(hcase i hi).2.2 ρ hρ, (hcase j hj).2.2 ρ hρ, decide_eq_true_iff, decide_eq_true_iff] at h
      omega
  · by_cases hk : k ρ < restIps.length
    · have hk' : k ρ < cs.length := hlength ▸ hk
      have hk'' : k ρ < targets.rests.length := hrests.length_eq ▸ hk
      refine ⟨cs[k ρ], mem_cons_of_mem _ (getElem_mem hk'), ?_, ?_⟩
      · rw [(hcase _ hk').2.2 ρ hρ]
        simp
      · have htarget : targets.rests.getD (k ρ) targets.fallThrough = targets.rests[k ρ] := by
          simp [hk'']
        rw [(hcase _ hk').1, htarget]
        exact (forall₂_iff_get.mp hrests).2 _ hk'' hk
    · refine ⟨_, mem_cons_self, ?_, ?_⟩
      · rw [hg ρ hρ]
        simpa using hk
      · have htarget : targets.rests.getD (k ρ) targets.fallThrough = targets.fallThrough := by
          simp [getElem?_eq_none (hrests.length_eq ▸ Nat.le_of_not_lt hk)]
        rw [htarget, hfall]

theorem guardedIps_spec (ht : 32 ≤ t.width) (hx : IntegralUnion valid t x) (targets : BranchTargets)
    {o : ℕ} (ho : oldIp.offset = some o) :
    ∀ᶠ n in Filter.atTop, (guardedIps n targets oldIp x).Gives fun gs _ =>
      SplitsOn valid targets oldIp (fun ρ => (x.value ρ t.width).toNat) gs := by
  have hmove (offset : ℕ) : ∃ ip, move oldIp offset = .ok ip ∧
      oldIp.moveInstruction offset = some ip := by
    obtain ⟨ip, h, -⟩ := moveInstruction_ok ho offset
    exact ⟨ip, by rw [move, h]; rfl, h⟩
  obtain ⟨u, y, hy, hw, hyu, hvalue⟩ := makeUnsignedInteger_spec ht hx
  have hu : 32 ≤ u.width := hw ▸ ht
  obtain ⟨fallThroughIp, hfall, hfallIp⟩ := hmove targets.fallThrough
  obtain ⟨restIps, hrests, hrestIps⟩ := mapM_ok (f := move oldIp) (l := targets.rests)
    (R := fun offset ip => oldIp.moveInstruction offset = some ip) fun offset _ => hmove offset
  have hlength : restIps.length = targets.rests.length := hrestIps.length_eq.symm
  have hlt : restIps.length < 2 ^ 31 := hlength ▸ targets.length_lt
  have hrange {i : ℕ} (hi : i < 2 ^ 31) : InRange Ty.int32.isUnsigned Ty.int32.width i :=
    ⟨show (-2 ^ 31 : ℤ) ≤ i by omega, show (i : ℤ) < 2 ^ 31 by omega⟩
  have hfit {i : ℕ} (hi : i < 2 ^ 31) {s : Ty} (hs : s.width = 32) : Fits u s (literal i s) :=
    .inr ⟨hs ▸ hu, i, rfl, by omega, by rw [hs]; omega⟩
  have hcase (i : ℕ) (hi : i < restIps.length) : ∀ᶠ n in Filter.atTop,
      (equality n y (literal i .int32)).Gives fun g _ => Simple g ∧ ∀ ρ, valid ρ →
        g.holds ρ.machine = decide ((x.value ρ t.width).toNat = i) := by
    have hi' : i < 2 ^ 31 := hi.trans hlt
    filter_upwards [comparison_spec hu (c := .equal) (by decide) hyu
      (.term (.literal (t := .int32) (by decide) (hrange hi'))) (hfit hi' rfl)] with n hn
    have hrun : equality n y (literal i .int32) = simplifyEqual n y (literal i .int32) := by
      obtain ⟨j, -, hnum, -⟩ := Ty.exists_integral hyu.width_pos
      rw [equality, hyu.commonTypeOf_eq, Run.lift_ok, pure_bind,
        show commonTypeOf (literal (i : ℤ) .int32) = .ok .int32 from rfl, Run.lift_ok, pure_bind,
        if_pos ⟨by rw [hnum]; rfl, rfl⟩]
    rw [hrun]
    refine hn.mono fun g _ hg => ⟨hg.1, fun ρ hρ => ?_⟩
    rw [hg.2 ρ hρ, ← hvalue ρ hρ]
    refine decide_eq_decide.mpr (BitVec.toNat_inj.symm.trans ?_)
    rw [value_toNat_literal hu hi' ρ (hfit hi' rfl)]
  have hbound := comparison_spec hu (c := .greaterOrEqualUn) (by decide) hyu
    (.term (.literal (t := .uint32) (by decide) ⟨Int.natCast_nonneg restIps.length,
      show (restIps.length : ℤ) < 2 ^ 32 by omega⟩)) (hfit hlt rfl)
  filter_upwards [(finite_toSet (List.range restIps.length)).eventually_all.mpr
    fun i hi => hcase i (mem_range.mp hi), hbound] with n hcases hbound
  rw [guardedIps, hy, Run.lift_ok, pure_bind, hfall, Run.lift_ok, pure_bind, hrests, Run.lift_ok,
    pure_bind, makeUnsignedInteger_literal hlt]
  refine Run.Gives.bind (Run.Gives.mapM (R := SaysEqual valid
    fun ρ => (x.value ρ t.width).toNat) fun p hp => ?_) fun cs _ hcs => ?_
  · have hi := hcases p.2 (mem_range.mpr (snd_lt_of_mem_zipIdx hp))
    exact hi.bind fun g _ hg => .pure ⟨rfl, hg⟩
  · rw [Run.lift_ok, pure_bind]
    refine hbound.bind fun g _ hg => .pure (.of_cases hfallIp hrestIps hg.1 (fun ρ hρ => ?_) hcs)
    rw [hg.2 ρ hρ, ← hvalue ρ hρ]
    refine decide_eq_decide.mpr ?_
    rw [value_toNat_literal hu hlt ρ (hfit hlt rfl)]

end

/-! ### The instruction -/

section
variable [HashOrder Term] [HashOrder FieldId] {M τ : Type} {valid : Valuation → Prop}
  {allows : τ → Interp MachineValue → Prop} {records : Term → Interp MachineValue → Prop}
  {S : Solver MachineValue τ (CilState M (List Term))}

/-- The valuations, as interpretations. -/
def Machines (valid : Valuation → Prop) (I : Interp MachineValue) : Prop :=
  ∃ ρ, valid ρ ∧ ρ.machine = I

/-- A `switch` whose guards are no type tests leaves, for every valuation of the path condition,
exactly one state whose path condition it satisfies, at the target that the unsigned operand
selects. -/
theorem switch_exact (hS : TypedSolver S (Machines valid) allows records)
    {s : State MachineValue τ (CilState M (List Term))} (hpc : PC.Conditions s.pc)
    (hw : s.Witnessed (Machines valid))
    (hts : ∀ I, Possible (Machines valid) s.pc I → allows s.typeStorage I) {t : Ty} {x : Term}
    (ht : 32 ≤ t.width) (hx : IntegralUnion valid t x) (targets : BranchTargets)
    {stack : List Term} {oldIp : InstructionPointer M} {ips : List (InstructionPointer M)} {o : ℕ}
    (hstack : s.memory.memory = x :: stack) (hips : s.memory.ipStack = oldIp :: ips)
    (ho : oldIp.offset = some o) :
    ∀ᶠ n in Filter.atTop, ∃ gs d, guardedIps n targets oldIp x = .ok (gs, d) ∧
      ((∀ c ∈ gs, RecordsNothing (Machines valid) records c.1) →
        ∃ rs, switch S false n targets s = .ok rs ∧ (∀ r ∈ rs, r.Witnessed (Machines valid)) ∧
          ∀ ρ, valid ρ → PC.Holds ρ.machine s.pc → ∃ newIp,
            oldIp.moveInstruction
                (targets.rests.getD (x.value ρ t.width).toNat targets.fallThrough) = some newIp ∧
            ExactlyOne ρ.machine ({ s.memory with memory := stack }.setCurrentIp newIp) rs) := by
  filter_upwards [guardedIps_spec ht hx targets ho] with n hn
  obtain ⟨gs, d, hguards, hsplits⟩ := hn
  refine ⟨gs, d, hguards, fun hgs => ?_⟩
  have hdisjoint : gs.reverse.Pairwise fun c d =>
      ∀ I, Machines valid I → c.1.holds I = true → d.1.holds I = false := by
    refine pairwise_reverse.mpr (hsplits.disjoint.imp fun {c d} h => ?_)
    rintro _ ⟨ρ, hρ, rfl⟩ hd
    exact Bool.eq_false_iff.mpr fun hc => h ρ hρ ⟨hc, hd⟩
  obtain ⟨rs, h₁, h₂, h₃⟩ := runCases_spec hS hpc
    (fun c hc => .simple (hsplits.simple c (mem_reverse.mp hc)))
    (fun c hc => hgs c (mem_reverse.mp hc)) hdisjoint
    (s := { s with memory := { s.memory with memory := stack } }) rfl hw hts
  refine ⟨rs, ?_, h₂, fun ρ hρ hI => ?_⟩
  · rw [switch, hstack, hips]
    dsimp only
    rw [bind_ok hguards]
    dsimp only
    rw [foldrk_eq]
    exact h₁
  · obtain ⟨c, hc, hcI, hmove⟩ := hsplits.total ρ hρ
    exact ⟨c.2, hmove, h₃.exactlyOne hdisjoint ⟨⟨ρ, hρ, rfl⟩, hI⟩ (mem_reverse.mpr hc) hcI⟩

end

/-- All truth constants have one value. -/
def boolValuation (b : Bool) : Valuation := { Valuation.constants 0 with truth := fun _ => b }

def truthModel (b : Bool) : Model MachineValue where
  valuation := (boolValuation b).machine
  eval c := makeBool (c.holds (boolValuation b).machine)
  eval_condition _ := rfl

/-- The one condition about types, and its negation. -/
def typeTests : List Term := [boolConstant 9, negate (boolConstant 9)]

/-- A solver that tries two models, and records the conditions about types. -/
def recorder : Solver MachineValue (List Term) (CilState Unit (List Term)) where
  checkSat s :=
    match [true, false].find? fun b =>
      (PC.toSeq s.pc ++ s.typeStorage).all (holds (boolValuation b).machine) with
    | some b => (.sat (truthModel b), s.typeStorage)
    | none => (.unsat, s.typeStorage)
  addTypeConstraint ts c := if c ∈ typeTests then c :: ts else ts
  refineTypes s := .ok s

def Recorded (ts : List Term) (I : Interp MachineValue) : Prop := ∀ c ∈ ts, c.holds I = true

theorem recorder_typed : TypedSolver recorder (Machines fun ρ => ∃ b, ρ = boolValuation b) Recorded
    fun c I => c ∈ typeTests → c.holds I = true where
  record ts c I := by
    rw [Recorded, Recorded, recorder]
    dsimp only
    by_cases hc : c ∈ typeTests
    · rw [if_pos hc, forall_mem_cons, and_comm, forall_prop_of_true hc]
    · rw [if_neg hc, forall_prop_of_false hc, and_true]
  sat {s m ts} h := by
    dsimp only [recorder] at h
    split at h
    · next b hfind =>
        obtain ⟨hm, rfl⟩ := Prod.mk.inj h
        obtain rfl := SmtResult.sat.inj hm
        have hfound := find?_some hfind
        have hall := all_eq_true.mp hfound
        exact ⟨⟨_, ⟨b, rfl⟩, rfl⟩, fun c hc => hall c (mem_append_left _ hc),
          fun c hc => hall c (mem_append_right _ hc), fun _ => Iff.rfl⟩
    · cases h
  unsat {s ts} h := by
    dsimp only [recorder] at h
    split at h
    · cases h
    · next hfind =>
        rintro _ ⟨_, ⟨b, rfl⟩, rfl⟩ hpc hts
        refine find?_eq_none.mp hfind b (by cases b <;> simp) (all_eq_true.mpr ?_)
        exact fun c hc => (mem_append.mp hc).elim (hpc c) (hts c)
  known s := by
    dsimp only [recorder]
    split <;> exact nofun
  refine {s} hw ha := ⟨s, rfl, rfl, rfl, hw, ha, fun _ => Iff.rfl⟩

/-- Two targets. -/
def twoTargets : BranchTargets := ⟨10, [20, 30], by decide⟩

/-- A state with a union as the operand: 0 or 1. -/
def truthOperand (b : Bool) : State MachineValue (List Term) (CilState Unit (List Term)) where
  pc := PC.empty
  model := truthModel b
  typeStorage := []
  memory := ⟨[.instruction 0 ()], [], none,
    [.ite [(boolConstant 0, literal 0 .int32)] (literal 1 .int32)]⟩

theorem truthOperand_integral : IntegralUnion (fun ρ => ∃ b, ρ = boolValuation b) .int32
    (.ite [(boolConstant 0, literal 0 .int32)] (literal 1 .int32)) :=
  .ite (cons_ne_nil _ _)
    (forall_mem_singleton.mpr (Reduced.atom rfl).simple)
    (forall_mem_singleton.mpr (.literal (by decide) (by decide)))
    (.literal (by decide) (by decide))

theorem truthOperand_witnessed (b : Bool) :
    (truthOperand b).Witnessed (Machines fun ρ => ∃ b, ρ = boolValuation b) :=
  ⟨⟨_, ⟨b, rfl⟩, rfl⟩, fun c hc => by cases hc⟩

/-- The instruction on the union, in both models: the state at the target of the value is the one
whose path condition the model satisfies. -/
theorem switch_exact_union : letI : HashOrder FieldId := ⟨fun _ => 0⟩
    letI := PC.insertionOrder
    let s := truthOperand true
    let x : Term := .ite [(boolConstant 0, literal 0 .int32)] (literal 1 .int32)
    ∃ n rs, switch recorder false n twoTargets s = .ok rs ∧
      ∀ ρ, (∃ b, ρ = boolValuation b) → PC.Holds ρ.machine s.pc → ∃ newIp,
        (InstructionPointer.instruction 0 ()).moveInstruction
            (twoTargets.rests.getD (x.value ρ 32).toNat twoTargets.fallThrough) = some newIp ∧
        ExactlyOne ρ.machine ({ s.memory with memory := [] }.setCurrentIp newIp) rs := by
  let _ : HashOrder FieldId := ⟨fun _ => 0⟩
  let _ := PC.insertionOrder
  let x : Term := .ite [(boolConstant 0, literal 0 .int32)] (literal 1 .int32)
  have hev := switch_exact recorder_typed (s := truthOperand true) (fun c hc => by cases hc)
    (truthOperand_witnessed true) (fun I _ c hc => by cases hc) (by decide) truthOperand_integral
    twoTargets (show (truthOperand true).memory.memory = [x] from rfl)
    (show (truthOperand true).memory.ipStack = [.instruction 0 ()] from rfl) rfl
  obtain ⟨N, hN⟩ := Filter.eventually_atTop.mp hev
  obtain ⟨gs, d, hguards, hswitch⟩ := hN (N + 2) (by omega)
  -- The fuel does not matter: the values of the union are literals.
  have hvalue : makeUnsignedInteger x =
      .ok (.ite [(boolConstant 0, literal 0 .uint32)] (literal 1 .uint32)) := by
    decide +kernel
  have hbound : makeUnsignedInteger (literal 2 .int32) = .ok (literal 2 .uint32) := by
    decide +kernel
  have hrests : twoTargets.rests.mapM (move (InstructionPointer.instruction 0 ())) =
      .ok [.instruction 20 (), .instruction 30 ()] := by
    rfl
  have hfuel : guardedIps (N + 2) twoTargets (.instruction 0 ()) x =
      guardedIps 2 twoTargets (.instruction 0 ()) x := by
    unfold guardedIps
    rw [hvalue, hrests]
    simp only [Run.lift_ok, pure_bind, length_cons, length_nil]
    rw [show ((0 + 1 + 1 : ℕ) : ℤ) = 2 from rfl, hbound]
    simp only [equality, Run.lift_ok, pure_bind, simplifyEqual, simplifyGreaterOrEqualUn,
      simplifyComparison, simplifyGenericBinary, literal, mapM_cons, mapM_nil]
  have hgs : (guardedIps 2 twoTargets (.instruction 0 ()) x).toOption.map (fun p =>
      p.1.all fun c => decide (c.1 ∉ typeTests) &&
        (simplifyNegation c.1).toOption.all fun n => decide (n ∉ typeTests)) = some true := by
    decide +kernel
  rw [← hfuel, hguards] at hgs
  obtain ⟨rs, hrs, -, hone⟩ := hswitch fun c hc I _ => by
    have hc := all_eq_true.mp (Option.some.inj hgs) c hc
    rw [Bool.and_eq_true, decide_eq_true_eq] at hc
    refine ⟨fun h => absurd h hc.1, fun n hn h => ?_⟩
    rw [hn] at hc
    exact absurd h (of_decide_eq_true hc.2)
  exact ⟨N + 2, rs, hrs, hone⟩

end VSharp.Switch
