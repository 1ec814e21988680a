import VSharp.Utils.PersistentDictionary

/-!
# Core — Stacks

The stacks of `memory`: the frames of `CallStack.fs` hold the locations of each call, those of
`EvaluationStack.fs` what its instructions push.  A call leaves its caller with one result at most,
and with all locations that the call does not write (`call_keeps_caller`).
-/

namespace VSharp.Stacks
open PersistentDict List Option

/-- `entry`; without a value it is symbolic. -/
structure Entry (T Y : Type) where
  value : Option T
  typ : Y

structure Frame (M K T Y : Type) where
  func : Option M
  entries : Pdict K (Entry T Y)

structure Memory (M K T Y : Type) where
  stack : List (Frame M K T Y)
  evaluationStack : List (List T)

inductive Operation (M K T Y : Type) where
  | newStackFrame (m : Option M) (frame : List (K × Entry T Y))
  | popFrame
  | forcePopFrames (count : ℕ)
  | allocateOnStack (key : K) (value : T)
  | writeStackLocation (key : K) (value : T)
  | push (x : T)
  | pop
  | clearActiveFrame

variable {M K T Y : Type}

/-- `EvaluationStack.popStackFrame`: the result, if any, goes to the caller. -/
def popStackFrame : List (List T) → Option (List (List T))
  | [] :: ls => some ls
  | [[res]] => some [[res]]
  | [res] :: l :: ls => some ((res :: l) :: ls)
  | _ => none

section
variable [DecidableEq K] [HashOrder K] (typeOf : T → Y)

def findFrameAndWrite (key : K) (entry : Entry T Y) :
    List (Frame M K T Y) → Option (List (Frame M K T Y))
  | [] => none
  | frame :: frames =>
    if key ∈ keys frame.entries then
      some ({ frame with entries := add key entry frame.entries } :: frames)
    else
      (findFrameAndWrite key entry frames).map (frame :: ·)

/-- An operation on an empty stack raises, and so does a write to a location that no frame has. -/
def Memory.step (m : Memory M K T Y) : Operation M K T Y → Option (Memory M K T Y)
  | .newStackFrame func frame =>
    some ⟨⟨func, ofSeq frame⟩ :: m.stack, [] :: m.evaluationStack⟩
  | .popFrame =>
    match m.stack with
    | [] => none
    | _ :: frames => (popStackFrame m.evaluationStack).map (⟨frames, ·⟩)
  | .forcePopFrames count =>
    if count ≤ m.stack.length ∧ count ≤ m.evaluationStack.length then
      some ⟨m.stack.drop count, m.evaluationStack.drop count⟩
    else
      none
  | .allocateOnStack key value =>
    match m.stack with
    | [] => none
    | frame :: frames =>
      let entries := add key ⟨some value, typeOf value⟩ frame.entries
      some { m with stack := { frame with entries := entries } :: frames }
  | .writeStackLocation key value =>
    (findFrameAndWrite key ⟨some value, typeOf value⟩ m.stack).map ({ m with stack := · })
  | .push x =>
    match m.evaluationStack with
    | [] => none
    | l :: ls => some { m with evaluationStack := (x :: l) :: ls }
  | .pop =>
    match m.evaluationStack with
    | (_ :: l) :: ls => some { m with evaluationStack := l :: ls }
    | _ => none
  | .clearActiveFrame =>
    match m.evaluationStack with
    | [] => none
    | _ :: ls => some { m with evaluationStack := [] :: ls }

/-- A run that keeps more than `depth` frames. -/
def Memory.runAbove (depth : ℕ) (m : Memory M K T Y) :
    List (Operation M K T Y) → Option (Memory M K T Y)
  | [] => some m
  | op :: ops =>
    (m.step typeOf op).bind fun m' =>
      if depth < m'.stack.length then m'.runAbove depth ops else none

end

/-! ### Callers -/

/-- The locations that are not of the call are as they were. -/
def Frame.Keeps [DecidableEq K] (own : K → Prop) (frame frame' : Frame M K T Y) : Prop :=
  frame'.func = frame.func ∧ ∀ k, ¬ own k → tryFind frame'.entries k = tryFind frame.entries k

/-- Writes are to locations of the call. -/
def Operation.WritesOnly (own : K → Prop) : Operation M K T Y → Prop
  | .writeStackLocation key _ => own key
  | _ => True

/-- The call has frames above those of the caller, which it keeps. -/
inductive Above [DecidableEq K] (own : K → Prop) (caller : Memory M K T Y) :
    Memory M K T Y → Prop where
  | mk {F L : List (Frame M K T Y)} {C : List (List T)} (hF : 0 < F.length)
      (hlength : C.length = F.length) (hkeeps : List.Forall₂ (Frame.Keeps own) caller.stack L) :
      Above own caller ⟨F ++ L, C ++ caller.evaluationStack⟩

section
variable [DecidableEq K] [HashOrder K] {typeOf : T → Y} {own : K → Prop}
  {caller m m' : Memory M K T Y} {ops : List (Operation M K T Y)}

/-- A write changes a frame of the call, or a location of the call in the caller. -/
theorem findFrameAndWrite_append {key : K} {entry : Entry T Y} (hkey : own key)
    {F B L A : List (Frame M K T Y)} (hkeeps : List.Forall₂ (Frame.Keeps own) B L)
    (h : findFrameAndWrite key entry (F ++ L) = some A) :
    ∃ F' L', A = F' ++ L' ∧ F'.length = F.length ∧ List.Forall₂ (Frame.Keeps own) B L' := by
  induction F generalizing A with
  | nil =>
    refine ⟨[], A, rfl, rfl, ?_⟩
    induction hkeeps generalizing A with
    | nil => cases h
    | cons hframe hkeeps ih =>
      rw [nil_append, findFrameAndWrite] at h
      split at h
      case isTrue =>
        obtain rfl := some.inj h
        refine .cons ⟨hframe.1, fun k hk => ?_⟩ hkeeps
        rw [tryFind_add, if_neg (by rintro rfl; exact hk hkey)]
        exact hframe.2 k hk
      case isFalse =>
        obtain ⟨A', hA, rfl⟩ := map_eq_some_iff.mp h
        exact .cons hframe (ih hA)
  | cons f F ih =>
    rw [cons_append, findFrameAndWrite] at h
    split at h
    case isTrue =>
      obtain rfl := some.inj h
      exact ⟨_ :: F, L, rfl, rfl, hkeeps⟩
    case isFalse =>
      obtain ⟨A', hA, rfl⟩ := map_eq_some_iff.mp h
      obtain ⟨F', L', rfl, hlength, hkeeps'⟩ := ih hA
      exact ⟨f :: F', L', rfl, congrArg (· + 1) hlength, hkeeps'⟩

/-- An operation that leaves a frame above the caller. -/
theorem Above.step (h : Above own caller m) {op : Operation M K T Y}
    (hwrites : op.WritesOnly own) (hstep : m.step typeOf op = some m')
    (hdepth : caller.stack.length < m'.stack.length) : Above own caller m' := by
  obtain @⟨F, L, C, hF, hlength, hkeeps⟩ := h
  have hL := hkeeps.length_eq
  obtain ⟨f, F, rfl⟩ := exists_cons_of_length_pos hF
  obtain ⟨c, C, rfl⟩ := exists_cons_of_length_eq_add_one hlength
  cases op with
  | newStackFrame func frame =>
    obtain rfl := some.inj hstep
    exact .mk (F := _ :: f :: F) (C := [] :: c :: C) (Nat.succ_pos _)
      (congrArg (· + 1) hlength) hkeeps
  | popFrame =>
    obtain ⟨contents, hpop, rfl⟩ := map_eq_some_iff.mp hstep
    have hlength' := Nat.succ.inj hlength
    rcases F with _ | ⟨f', F⟩
    · exact absurd hdepth (by simp [hL])
    obtain ⟨c', C, rfl⟩ := exists_cons_of_length_eq_add_one hlength'
    rcases c with _ | ⟨x, _ | ⟨y, c⟩⟩
    · obtain rfl := some.inj hpop
      exact .mk (C := c' :: C) (Nat.succ_pos _) hlength' hkeeps
    · obtain rfl := some.inj hpop
      exact .mk (C := (x :: c') :: C) (Nat.succ_pos _) hlength' hkeeps
    · cases hpop
  | forcePopFrames count =>
    obtain ⟨-, hstep⟩ := ite_none_right_eq_some.mp hstep
    obtain rfl := some.inj hstep
    have hcount : count < (f :: F).length := by
      simp [hL] at hdepth ⊢
      omega
    rw [drop_append_of_le_length (Nat.le_of_lt hcount),
      drop_append_of_le_length (hlength ▸ Nat.le_of_lt hcount)]
    refine .mk ?_ ?_ hkeeps
    · exact Nat.lt_of_lt_of_eq (Nat.sub_pos_of_lt hcount) length_drop.symm
    · rw [length_drop, hlength, length_drop]
  | allocateOnStack key value =>
    obtain rfl := some.inj hstep
    exact .mk (F := _ :: F) (C := c :: C) (Nat.succ_pos _) hlength hkeeps
  | writeStackLocation key value =>
    obtain ⟨A, hA, rfl⟩ := map_eq_some_iff.mp hstep
    obtain ⟨F', L', rfl, hlength', hkeeps'⟩ :=
      findFrameAndWrite_append (show own key from hwrites) hkeeps hA
    exact .mk (hlength' ▸ hF) (hlength.trans hlength'.symm) hkeeps'
  | push x =>
    obtain rfl := some.inj hstep
    exact .mk (C := (x :: c) :: C) hF hlength hkeeps
  | pop =>
    cases c with
    | nil => cases hstep
    | cons x c =>
      obtain rfl := some.inj hstep
      exact .mk (C := c :: C) hF hlength hkeeps
  | clearActiveFrame =>
    obtain rfl := some.inj hstep
    exact .mk (C := [] :: C) hF hlength hkeeps

theorem Above.runAbove (h : Above own caller m) (hwrites : ∀ op ∈ ops, op.WritesOnly own)
    (hrun : m.runAbove typeOf caller.stack.length ops = some m') : Above own caller m' := by
  induction ops generalizing m with
  | nil => exact some.inj hrun ▸ h
  | cons op ops ih =>
    obtain ⟨m₁, hstep, hrun⟩ := bind_eq_some_iff.mp hrun
    split at hrun
    case isTrue hdepth =>
      exact ih (h.step (hwrites op mem_cons_self) hstep hdepth)
        (fun op hop => hwrites op (mem_cons_of_mem _ hop)) hrun
    case isFalse => cases hrun

/-- A call, from its new frame to the end of that frame. -/
theorem call_keeps_caller {func : Option M} {frame : List (K × Entry T Y)}
    {m₁ m₂ m₃ : Memory M K T Y} {l : List T} {ls : List (List T)}
    (hcaller : caller.evaluationStack = l :: ls) (hwrites : ∀ op ∈ ops, op.WritesOnly own)
    (hcall : caller.step typeOf (.newStackFrame func frame) = some m₁)
    (hrun : m₁.runAbove typeOf caller.stack.length ops = some m₂)
    (hpop : m₂.step typeOf .popFrame = some m₃) (hdepth : m₃.stack.length = caller.stack.length) :
    List.Forall₂ (Frame.Keeps own) caller.stack m₃.stack ∧
      ∃ results, results.length ≤ 1 ∧ m₃.evaluationStack = (results ++ l) :: ls := by
  obtain rfl := some.inj hcall
  have hrefl : List.Forall₂ (Frame.Keeps own) caller.stack caller.stack :=
    forall₂_same.mpr fun _ _ => ⟨rfl, fun _ _ => rfl⟩
  obtain @⟨F, L, C, hF, hlength, hkeeps⟩ :=
    Above.runAbove (.mk (F := [_]) (C := [[]]) (Nat.succ_pos _) rfl hrefl) hwrites hrun
  obtain ⟨f, F, rfl⟩ := exists_cons_of_length_pos hF
  obtain ⟨contents, hcontents, rfl⟩ := map_eq_some_iff.mp hpop
  obtain rfl : F = [] := length_eq_zero_iff.mp (by simpa [hkeeps.length_eq] using hdepth)
  obtain ⟨c, rfl⟩ := length_eq_one_iff.mp hlength
  refine ⟨hkeeps, ?_⟩
  rw [hcaller] at hcontents
  rcases c with _ | ⟨x, _ | ⟨y, c⟩⟩
  · exact ⟨[], Nat.zero_le _, (some.inj hcontents).symm⟩
  · exact ⟨[x], Nat.le_refl _, (some.inj hcontents).symm⟩
  · cases hcontents

end

/-- A caller with one location, and one value on its evaluation stack. -/
def oneCaller : Memory Unit ℕ ℕ Unit := ⟨[⟨none, [(0, ⟨some 5, ()⟩)]⟩], [[7]]⟩

/-- A call that writes its own location, and returns a value. -/
theorem call_keeps_caller_one : letI : HashOrder ℕ := ⟨id⟩
    ∃ m : Memory Unit ℕ ℕ Unit, m.evaluationStack = [[3, 7]] ∧
      List.Forall₂ (Frame.Keeps (· = 1)) oneCaller.stack m.stack := by
  let _ : HashOrder ℕ := ⟨id⟩
  have hwrites : ∀ op ∈ [Operation.writeStackLocation 1 9, .push 3],
      Operation.WritesOnly (M := Unit) (Y := Unit) (· = 1) op := by
    simp [Operation.WritesOnly]
  exact ⟨_, rfl, (call_keeps_caller
    (show oneCaller.evaluationStack = [7] :: [] from rfl) hwrites
    (show oneCaller.step (fun _ => ()) (.newStackFrame none [(1, ⟨none, ()⟩)]) = some _ from rfl)
    rfl rfl rfl).1⟩

end VSharp.Stacks
