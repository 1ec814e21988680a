import Mathlib.Algebra.GroupWithZero.Nat
import VSharp.SILI.EcmaRules

/-!
# SILI — Exception dispatch

`MakeStep` dispatches an exception as ECMA-335 says, where the order in which `SortEHCBlocks` puts
the clauses, by the ends of their handlers, is the order of the table.

- The clauses that protect a location form a chain (`leftClauses_pairwise`).
- One frame of the second pass executes the handlers of its clauses in order (`runs_frame`).
- So does the whole second pass, and the first pass finds the clause that must be found
  (`dispatch_follows_ecma`).
-/

namespace VSharp.SILI
open Library InstructionPointer List

variable {M S : Type} {c : Clause}

/-! ### Chains of clauses -/

/-- The try block of the first clause lies in that of the second, strictly unless both catch. -/
def Clause.Inner (c c' : Clause) : Prop :=
  Within c.tryBlock c'.tryBlock ∧
    (c.isFinal = true ∨ c'.isFinal = true → ¬ Within c'.tryBlock c.tryBlock)

theorem Clause.not_isFinal_of_isCatch (h : c.isCatch = true) : c.isFinal = false := by
  unfold isCatch at h
  unfold isFinal
  split at h
  case h_1 heq => simp [heq]
  case h_2 => cases h

theorem Clause.Before.inner {offset : ℕ} {c' : Clause} (h : c.Before c') (hc : c.WellFormed)
    (hp : ILInterpreter.protects offset c = true) (hp' : ILInterpreter.protects offset c' = true) :
    c.Inner c' := by
  obtain ⟨-, hhandler, hapart, -⟩ := hc
  simp only [ILInterpreter.protects, inTryBlock, inHandlerBlock, Bool.and_eq_true,
    Bool.not_eq_true', decide_eq_true_eq, decide_eq_false_iff_not] at hp hp'
  simp only [Apart, tryBlock, handlerBlock] at hapart
  rcases h with (⟨htry, hhandler'⟩ | ⟨htry, -⟩) | ⟨⟨htry, -⟩, -⟩ | ⟨⟨hcatch, hcatch'⟩, htry, -⟩
  · refine ⟨htry, fun _ hback => ?_⟩
    simp only [Within, tryBlock, handlerBlock] at htry hhandler' hback
    omega
  · simp only [Within, tryBlock, handlerBlock] at htry
    omega
  · simp only [Apart, tryBlock] at htry
    omega
  · refine ⟨by simp [Within, htry], fun hfinal => ?_⟩
    rw [not_isFinal_of_isCatch hcatch, not_isFinal_of_isCatch hcatch'] at hfinal
    simp at hfinal

namespace ILInterpreter
variable (x : ILInterpreter M S) {loc : CodeLocation M}

/-- The clauses that protect a location are ordered from the inner to the outer ones. -/
theorem leftClauses_pairwise (h : ProperlyNested (x.exceptionHandlers loc.method)) :
    (x.leftClauses loc).Pairwise Clause.Inner := by
  refine (h.2.sublist filter_sublist).imp_of_mem fun hc hc' hbefore => ?_
  obtain ⟨hmem, hp⟩ := mem_filter.mp hc
  exact hbefore.inner (h.1 _ hmem) hp (mem_filter.mp hc').2

theorem mem_of_mem_sortEHCBlocks (c : Clause) (hc : c ∈ x.sortEHCBlocks loc) :
    c ∈ x.exceptionHandlers loc.method :=
  mem_of_mem_filter ((x.sortBy_perm _ _).mem_iff.mp hc)

/-- Sorting does not move clauses that end in the order of the table. -/
theorem filter_sortEHCBlocks_eq {p : Clause → Bool}
    (hp : ∀ c, p c = true → c.inEHCBlock loc.offset = true)
    (h : ((x.exceptionHandlers loc.method).filter p).Pairwise fun c c' =>
      c.handlerEnd < c'.handlerEnd) :
    (x.sortEHCBlocks loc).filter p = (x.exceptionHandlers loc.method).filter p := by
  have hperm : ((x.sortEHCBlocks loc).filter p).Perm ((x.exceptionHandlers loc.method).filter p) := by
    refine ((x.sortBy_perm _ _).filter _).trans (List.Perm.of_eq ?_)
    rw [filter_filter]
    refine filter_congr fun c _ => ?_
    cases hc : p c with
    | true => simp [hp c hc]
    | false => rfl
  have hsorted : (x.sortEHCBlocks loc).Pairwise fun c c' => c.handlerEnd ≤ c'.handlerEnd :=
    x.sortBy_sorted _ _
  refine List.Perm.eq_of_pairwise (fun c c' hc hc' hle hle' => ?_)
    (hsorted.sublist filter_sublist) (h.imp Nat.le_of_lt) hperm
  -- Two clauses with the same end would be two in the table that are not in order.
  have hmem := hperm.mem_iff.mp hc
  by_contra hne
  obtain ⟨i, hi, rfl⟩ := mem_iff_getElem.mp hmem
  obtain ⟨j, hj, rfl⟩ := mem_iff_getElem.mp hc'
  have hget := pairwise_iff_getElem.mp h
  rcases Nat.lt_trichotomy i j with hij | rfl | hji
  · exact absurd (hget i j hi hj hij) (by omega)
  · exact hne rfl
  · exact absurd (hget j i hj hi hji) (by omega)

/-- Sorted clauses without those whose handler holds the location. -/
theorem filter_sortEHCBlocks (h : x.HandlersInOrder loc) :
    (x.sortEHCBlocks loc).filter (fun c => !c.inHandlerBlock loc.offset) = x.leftClauses loc := by
  rw [leftClauses, ← x.filter_sortEHCBlocks_eq (fun c hc => ?_) h]
  · refine filter_congr fun c hc => ?_
    have hin := (mem_filter.mp ((x.sortBy_perm _ _).mem_iff.mp hc)).2
    rw [Clause.inEHCBlock] at hin
    rw [protects]
    cases htry : c.inTryBlock loc.offset with
    | true => rfl
    | false =>
      rw [htry, Bool.false_or] at hin
      rw [hin]
      rfl
  · rw [protects, Bool.and_eq_true] at hc
    rw [Clause.inEHCBlock, hc.1, Bool.true_or]

end ILInterpreter

/-! ### Registers -/

local instance lawfulBEq_tryBlock : LawfulBEq (ℕ × ℕ) := Prod.instLawfulBEq

/-- How many registers the second pass moves down in a frame at the offset, for the given clauses;
the try blocks counted so far are forgotten at each handler. -/
def frameMoves (offset : ℕ) (start : List (ℕ × ℕ)) : List Clause → List (ℕ × ℕ) → ℕ
  | [], _ => 0
  | c :: cs, tryBlocks =>
    if c.inHandlerBlock offset then frameMoves offset start cs tryBlocks + 1
    else if c.isFinal then frameMoves offset start cs start + 1
    else if c.tryBlock ∈ tryBlocks then frameMoves offset start cs tryBlocks
    else frameMoves offset start cs (c.tryBlock :: tryBlocks) + 1

section
variable {offset : ℕ} {start start' tryBlocks tryBlocks' : List (ℕ × ℕ)} {cs : List Clause}

theorem frameMoves_anti (hs : start' ⊆ start) (ht : tryBlocks' ⊆ tryBlocks) :
    frameMoves offset start cs tryBlocks ≤ frameMoves offset start' cs tryBlocks' := by
  induction cs generalizing tryBlocks tryBlocks' with
  | nil => exact Nat.le_refl _
  | cons c cs ih =>
    simp only [frameMoves]
    split
    · exact Nat.succ_le_succ (ih ht)
    · split
      · exact Nat.succ_le_succ (ih hs)
      · split
        case isTrue hmem =>
          split
          · exact ih ht
          · exact Nat.le_succ_of_le (ih (cons_subset.mpr ⟨hmem, ht⟩))
        case isFalse hmem =>
          rw [if_neg fun h => hmem (ht h)]
          exact Nat.succ_le_succ (ih (cons_subset_cons _ ht))

theorem frameMoves_eq_add : frameMoves offset start cs tryBlocks =
    (cs.filter fun c => c.inHandlerBlock offset).length +
      frameMoves offset start (cs.filter fun c => !c.inHandlerBlock offset) tryBlocks := by
  induction cs generalizing tryBlocks with
  | nil => rfl
  | cons c cs ih =>
    cases hc : c.inHandlerBlock offset with
    | true => simp [frameMoves, hc, ih]; omega
    | false =>
      simp only [frameMoves, hc, Bool.false_eq_true, if_false, ih, filter_cons, if_false,
        Bool.not_false, if_true]
      split
      · omega
      · split
        · rfl
        · omega

/-- In a chain, the try block of a finally or fault clause is its own, and no try block before it
comes after it. -/
theorem tryBlock_fresh {before : List Clause} (hchain : (before ++ c :: cs).Pairwise Clause.Inner)
    (hfinal : c.isFinal = true) :
    c.tryBlock ∉ cs.map Clause.tryBlock ∧ ∀ b ∈ before.map Clause.tryBlock,
      b ≠ c.tryBlock ∧ b ∉ cs.map Clause.tryBlock := by
  obtain ⟨-, htail, hacross⟩ := pairwise_append.mp hchain
  obtain ⟨hafter, -⟩ := pairwise_cons.mp htail
  refine ⟨?_, ?_⟩
  · intro hmem
    obtain ⟨c', hc', heq⟩ := mem_map.mp hmem
    refine (hafter c' hc').2 (.inl hfinal) ?_
    rw [heq]
    exact ⟨Nat.le_refl _, Nat.le_refl _⟩
  · intro b hb
    obtain ⟨d, hd, rfl⟩ := mem_map.mp hb
    have hstrict := (hacross d hd c mem_cons_self).2 (.inr hfinal)
    refine ⟨fun heq => hstrict ?_, fun hmem => hstrict ?_⟩
    · rw [heq]
      exact ⟨Nat.le_refl _, Nat.le_refl _⟩
    · obtain ⟨c', hc', heq⟩ := mem_map.mp hmem
      rw [← heq]
      exact (hafter c' hc').1

/-- Along a chain of clauses there is one register for each try block. -/
theorem frameMoves_le_card (before : List Clause) (hchain : (before ++ cs).Pairwise Clause.Inner)
    (hout : ∀ c ∈ cs, c.inHandlerBlock offset = false)
    (ht : ∀ b ∈ tryBlocks, b ∈ before.map Clause.tryBlock) :
    frameMoves offset [] cs tryBlocks ≤
      ((cs.map Clause.tryBlock).toFinset \ tryBlocks.toFinset).card := by
  induction cs generalizing before tryBlocks with
  | nil => simp [frameMoves]
  | cons c cs ih =>
    have hchain' : ((before ++ [c]) ++ cs).Pairwise Clause.Inner := by
      simpa using hchain
    have hrest : ∀ c ∈ cs, c.inHandlerBlock offset = false := fun c hc =>
      hout c (mem_cons_of_mem _ hc)
    have ht' : ∀ b ∈ tryBlocks, b ∈ (before ++ [c]).map Clause.tryBlock := fun b hb => by
      rw [map_append]
      exact mem_append_left _ (ht b hb)
    simp only [frameMoves, hout c mem_cons_self, Bool.false_eq_true, if_false,
      map_cons, toFinset_cons]
    split
    case isTrue hfinal =>
      obtain ⟨hnotin, hdisjoint⟩ := tryBlock_fresh hchain hfinal
      have hle : frameMoves offset [] cs [] ≤
          ((cs.map Clause.tryBlock).toFinset \ ([] : List (ℕ × ℕ)).toFinset).card :=
        ih (before ++ [c]) hchain' hrest (by simp)
      rw [toFinset_nil, Finset.sdiff_empty] at hle
      have hself : insert c.tryBlock (cs.map Clause.tryBlock).toFinset \ tryBlocks.toFinset =
          insert c.tryBlock (cs.map Clause.tryBlock).toFinset := by
        refine Finset.sdiff_eq_self_of_disjoint (Finset.disjoint_left.mpr fun b hb hmem => ?_)
        have hbefore := hdisjoint b (ht b (mem_toFinset.mp hmem))
        rw [Finset.mem_insert, mem_toFinset] at hb
        exact hb.elim hbefore.1 hbefore.2
      rw [hself, Finset.card_insert_of_notMem (by simpa using hnotin)]
      exact Nat.succ_le_succ hle
    case isFalse =>
      split
      case isTrue hmem =>
        rw [Finset.insert_sdiff_of_mem _ (mem_toFinset.mpr hmem)]
        exact ih (before ++ [c]) hchain' hrest ht'
      case isFalse hmem =>
        have hmore : ∀ b ∈ c.tryBlock :: tryBlocks,
            b ∈ (before ++ [c]).map Clause.tryBlock :=
          forall_mem_cons.mpr ⟨by simp, ht'⟩
        have hle := ih (before ++ [c]) hchain' hrest hmore
        have hsplit : insert c.tryBlock (cs.map Clause.tryBlock).toFinset \
            tryBlocks.toFinset = insert c.tryBlock ((cs.map Clause.tryBlock).toFinset \
              (c.tryBlock :: tryBlocks).toFinset) := by
          ext b
          by_cases hb : b = c.tryBlock
          · simp [hb, hmem]
          · simp [hb]
        rw [hsplit, Finset.card_insert_of_notMem (by simp)]
        exact Nat.succ_le_succ hle

end

/-- The handlers that the second pass executes in a frame at the offset. -/
def executes (offset : ℕ) (c : Clause) : Bool := !c.inHandlerBlock offset && c.isFinal

theorem Clause.isFinal_iff :
    c.isFinal = true ↔ c.ehcType = .finallyClause ∨ c.ehcType = .faultClause := by
  simp [isFinal]

namespace ILInterpreter

section
variable {loc : CodeLocation M} {start tryBlocks : List (ℕ × ℕ)} {cs : List Clause}
  {s : CilState M S} {r : ExceptionRegister M} {regs : List (ExceptionRegister M)} {n : ℕ}
  {res : Option (Option (InstructionPointer M) × List Clause × CilState M S)}

/-- Some clauses of a frame need no more registers than it has. -/
theorem frameMoves_le_of_sublist (x : ILInterpreter M S)
    (hnested : ProperlyNested (x.exceptionHandlers loc.method))
    (hleft : (cs.filter fun c => !c.inHandlerBlock loc.offset).Sublist (x.leftClauses loc))
    (hhandlers : (cs.filter fun c => c.inHandlerBlock loc.offset).length ≤
      ((x.exceptionHandlers loc.method).filter fun c => c.inHandlerBlock loc.offset).length) :
    frameMoves loc.offset start cs start ≤ x.enteredBlocks loc := by
  have hchain : ([] ++ cs.filter fun c : Clause => !c.inHandlerBlock loc.offset).Pairwise
      Clause.Inner :=
    (x.leftClauses_pairwise hnested).sublist hleft
  have hout : ∀ c ∈ cs.filter (fun c => !c.inHandlerBlock loc.offset),
      c.inHandlerBlock loc.offset = false := by
    intro c hc
    simpa using of_mem_filter hc
  have hmoves : frameMoves loc.offset [] (cs.filter fun c => !c.inHandlerBlock loc.offset) [] ≤ _ :=
    frameMoves_le_card [] hchain hout (by simp)
  rw [toFinset_nil, Finset.sdiff_empty] at hmoves
  have hcard : ((cs.filter fun c => !c.inHandlerBlock loc.offset).map
      Clause.tryBlock).toFinset.card ≤ ((x.leftClauses loc).map Clause.tryBlock).toFinset.card := by
    refine Finset.card_le_card fun b hb => ?_
    rw [mem_toFinset] at hb ⊢
    exact (hleft.map _).subset hb
  calc frameMoves loc.offset start cs start
      ≤ frameMoves loc.offset [] cs [] := frameMoves_anti (nil_subset _) (nil_subset _)
    _ = (cs.filter fun c => c.inHandlerBlock loc.offset).length +
          frameMoves loc.offset [] (cs.filter fun c => !c.inHandlerBlock loc.offset) [] :=
        frameMoves_eq_add
    _ ≤ x.enteredBlocks loc := Nat.add_le_add hhandlers (hmoves.trans hcard)

/-- The registers that a frame and a part of its sorted clauses need are there. -/
theorem frameMoves_le_enteredBlocks (x : ILInterpreter M S)
    (hnested : ProperlyNested (x.exceptionHandlers loc.method)) (horder : x.HandlersInOrder loc)
    (hcs : cs.Sublist (x.sortEHCBlocks loc)) :
    frameMoves loc.offset start cs start ≤ x.enteredBlocks loc := by
  refine frameMoves_le_of_sublist x hnested ?_ ?_
  · rw [← x.filter_sortEHCBlocks horder]
    exact hcs.filter _
  · have hperm := (x.sortBy_perm Clause.handlerEnd ((x.exceptionHandlers loc.method).filter
      fun c => c.inEHCBlock loc.offset)).filter fun c => c.inHandlerBlock loc.offset
    refine (hcs.filter _).length_le.trans ?_
    rw [sortEHCBlocks, hperm.length_eq]
    exact (filter_sublist.filter _).length_le

theorem dropRegister_eq {reg : ExceptionRegister M} (h : s.exceptionsRegister = r :: reg :: regs) :
    dropRegister true s = some { s with exceptionsRegister := r :: regs } := by
  simp [dropRegister, CilState.moveDownExceptionRegister, h]

/-- What `MoveToFinally` gives in the second pass, when the frame needs all but `n` registers: the
first handler to execute, or none. -/
inductive MoveOutcome (loc : CodeLocation M) (start : List (ℕ × ℕ)) (s : CilState M S)
    (r : ExceptionRegister M) (n : ℕ) (cs : List Clause) :
    Option (Option (InstructionPointer M) × List Clause × CilState M S) → Prop where
  | done (regs : List (ExceptionRegister M)) (hlength : regs.length = n)
      (hnone : cs.filter (executes loc.offset) = []) :
      MoveOutcome loc start s r n cs (some (none, [], { s with exceptionsRegister := r :: regs }))
  | found (c : Clause) (post : List Clause) (regs : List (ExceptionRegister M))
      (hlength : regs.length = frameMoves loc.offset start post start + n + 1)
      (hfirst : cs.filter (executes loc.offset) = c :: post.filter (executes loc.offset))
      (hfinal : c.isFinal = true) (hsub : (c :: post).Sublist cs) :
      MoveOutcome loc start s r n cs (some (some (.instruction c.handlerOffset loc.method), post,
        { s with exceptionsRegister := r :: regs }))

theorem MoveOutcome.skip (h : MoveOutcome loc start s r n cs res)
    (hc : executes loc.offset c = false) : MoveOutcome loc start s r n (c :: cs) res := by
  have hfilter : (c :: cs).filter (executes loc.offset) = cs.filter (executes loc.offset) := by
    rw [filter_cons, hc, if_neg Bool.false_ne_true]
  cases h with
  | done regs hlength hnone => exact .done regs hlength (hfilter.trans hnone)
  | found c' post regs hlength hfirst hfinal hsub =>
    exact .found c' post regs hlength (hfilter.trans hfirst) hfinal (hsub.cons c)

theorem MoveOutcome.of_register
    (h : MoveOutcome loc start { s with exceptionsRegister := regs } r n cs res) :
    MoveOutcome loc start s r n cs res := by
  cases h with
  | done regs hlength hnone => exact .done regs hlength hnone
  | found c post regs hlength hfirst hfinal hsub =>
    exact .found c post regs hlength hfirst hfinal hsub

theorem moveToFinally_outcome (hregs : s.exceptionsRegister = r :: regs)
    (hcount : frameMoves loc.offset start cs tryBlocks + n = regs.length) :
    MoveOutcome loc start s r n cs (moveToFinally loc true cs tryBlocks s) := by
  induction cs generalizing s regs tryBlocks with
  | nil =>
    have hs : s = { s with exceptionsRegister := r :: regs } := by rw [← hregs]
    rw [moveToFinally, hs]
    exact .done regs (by simpa [frameMoves] using hcount.symm) rfl
  | cons c cs ih =>
    -- A clause whose register is moved down.
    have hdrop : ∀ tryBlocks', frameMoves loc.offset start cs tryBlocks' + 1 + n = regs.length →
        MoveOutcome loc start s r n cs ((dropRegister true s).bind fun s =>
          moveToFinally loc true cs tryBlocks' s) := by
      intro tryBlocks' hcount'
      match regs, hcount' with
      | [], hcount' =>
        rw [length_nil] at hcount'
        omega
      | reg :: regs, hcount' =>
        have hcount : frameMoves loc.offset start cs tryBlocks' + n = regs.length := by
          rw [length_cons] at hcount'
          omega
        rw [dropRegister_eq hregs]
        exact (ih rfl hcount).of_register
    simp only [frameMoves] at hcount
    simp only [moveToFinally, ← Clause.isFinal_iff, and_true]
    cases hhandler : c.inHandlerBlock loc.offset with
    | true =>
      simp only [hhandler, if_true] at hcount
      exact (hdrop _ hcount).skip (by simp [executes, hhandler])
    | false =>
      simp only [hhandler, Bool.false_eq_true, if_false] at hcount ⊢
      cases hfinal : c.isFinal with
      | true =>
        simp only [hfinal, if_true] at hcount ⊢
        have hs : s = { s with exceptionsRegister := r :: regs } := by rw [← hregs]
        rw [hs]
        exact .found c cs regs (by omega) (by simp [executes, hhandler, hfinal]) hfinal
          (List.Sublist.refl _)
      | false =>
        simp only [hfinal, Bool.false_eq_true, if_false] at hcount ⊢
        have hskip : executes loc.offset c = false := by simp [executes, hfinal]
        split
        case isTrue hmem =>
          rw [if_pos hmem] at hcount
          exact (ih hregs hcount).skip hskip
        case isFalse hmem =>
          rw [if_neg hmem] at hcount
          exact (hdrop _ hcount).skip hskip

end

/-! ### Steps of a dispatch -/

section
variable {x : ILInterpreter M S} {s s' : CilState M S} {inner ip : InstructionPointer M}
  {ips : List (InstructionPointer M)}

theorem endFinally_eq_false_of_wraps (h : Wraps inner ip) (hinner : inner.isDispatch = true) :
    x.endFinally ip = false := by
  cases h with
  | refl =>
    unfold isDispatch at hinner
    split at hinner <;> first | rfl | cases hinner
  | leave => rfl
  | bypass => rfl

theorem current_of_wraps (hs : s.ipStack = ip :: ips) (h : Wraps inner ip)
    (hinner : inner.isDispatch = true) : s.ipStack.head?.map current = some inner := by
  rw [hs]
  exact congrArg some (h.current_eq hinner)

variable [DecidableEq M]

/-- A pointer that dispatches an exception is stepped through the handlers it is executed in. -/
theorem makeStepAt_wraps (h : Wraps inner ip) (hinner : inner.isDispatch = true) :
    x.makeStepAt s ip = x.makeStepAt s inner := by
  induction h with
  | refl => rfl
  | leave h _ _ _ ih => simpa [makeStepAt, endFinally_eq_false_of_wraps h hinner] using ih
  | bypass h _ _ _ _ _ ih => simpa [makeStepAt, endFinally_eq_false_of_wraps h hinner] using ih

theorem makeStep_wraps (hs : s.ipStack = ip :: ips) (h : Wraps inner ip)
    (hinner : inner.isDispatch = true) : x.makeStep s = x.makeStepAt s inner := by
  rw [makeStep, hs]
  exact makeStepAt_wraps h hinner

variable {ehcs : Option (List Clause)} {lastBlocks : List Clause}
  {lastLocation : Option (CodeLocation M)} {locations : List (CodeLocation M)}
  {handlerLoc : Option (CodeLocation M)}

/-- The second pass is not over. -/
def Unfinished (ehcs : Option (List Clause)) (lastBlocks : List Clause)
    (locations : List (CodeLocation M)) : Prop :=
  ¬ (ehcs = none ∧ lastBlocks = [] ∧ locations = [])

theorem makeStepAt_secondBypass (h : Unfinished ehcs lastBlocks locations) :
    x.makeStepAt s (.secondBypass ehcs lastBlocks lastLocation locations handlerLoc) =
      x.bypassStep s ehcs lastBlocks lastLocation locations handlerLoc := by
  match ehcs, lastBlocks, locations with
  | some _, _, _ => rfl
  | none, _ :: _, _ => rfl
  | none, [], _ :: _ => rfl
  | none, [], [] => exact absurd ⟨rfl, rfl, rfl⟩ h

omit [DecidableEq M] in
theorem observe_secondBypass (hs : s.ipStack.head?.map current =
      some (.secondBypass ehcs lastBlocks lastLocation locations handlerLoc))
    (h : Unfinished ehcs lastBlocks locations) :
    observe s s' = if s'.ipStack.length < s.ipStack.length then [.popFrame]
      else match s'.ipStack.head?.map current with
        | some (.secondBypassIn (.instruction o m) ..) => [.handler ⟨o, m⟩]
        | _ => [] := by
  unfold observe
  rw [hs]
  match ehcs, lastBlocks, locations with
  | some _, _, _ => rfl
  | none, _ :: _, _ => rfl
  | none, [], _ :: _ => rfl
  | none, [], [] => exact absurd ⟨rfl, rfl, rfl⟩ h

omit [DecidableEq M] in
/-- Between handlers the same frame is looked at. -/
theorem bypassFrame_some {cs post last : List Clause} {loc : CodeLocation M}
    (h : x.bypassFrame ehcs lastBlocks lastLocation locations = some (cs, last, loc)) :
    x.bypassFrame (some post) last lastLocation locations = some (post, last, loc) := by
  unfold bypassFrame at h ⊢
  match ehcs, locations, lastLocation with
  | some _, _ :: _, _ => simp_all
  | some _, [], some _ => simp_all
  | some _, [], none => cases h
  | none, _ :: _, _ => simp_all
  | none, [], some _ => simp_all
  | none, [], none => cases h

/-- A state in which the second pass looks for a handler, with `n` registers under the first. -/
structure BypassAt (s : CilState M S) (ips : List (InstructionPointer M))
    (bypass : InstructionPointer M) (r : ExceptionRegister M) (n : ℕ) : Prop where
  stack : ∃ ip, s.ipStack = ip :: ips ∧ Wraps bypass ip
  register : ∃ regs, s.exceptionsRegister = r :: regs ∧ regs.length = n

/-- What a step of the second pass does with the result of `BypassToFinally`. -/
def afterMove (x : ILInterpreter M S) (last : List Clause) (lastLocation : Option (CodeLocation M))
    (locations : List (CodeLocation M)) (handlerLoc : Option (CodeLocation M)) :
    Option (InstructionPointer M) × List Clause × CilState M S → Option (CilState M S)
  | (none, _, s) => (x.leaveFrame s locations handlerLoc).bind fun p =>
    p.2.setCurrentIpSafe (.secondBypass none last lastLocation p.1 handlerLoc)
  | (some ip, otherEhcs, s) => s.toCaughtException.bind fun s =>
    s.setCurrentIpSafe (.secondBypassIn ip (some otherEhcs) last lastLocation locations handlerLoc)

variable {cs last : List Clause} {loc : CodeLocation M} {start : List (ℕ × ℕ)}
  {r : ExceptionRegister M} {n : ℕ}

theorem makeStep_bypass
    (hframe : x.bypassFrame ehcs lastBlocks lastLocation locations = some (cs, last, loc))
    (hstart : x.catchTryBlocks loc.method handlerLoc = some start)
    (hopen : Unfinished ehcs lastBlocks locations) (hs : s.ipStack = ip :: ips)
    (hwraps : Wraps (.secondBypass ehcs lastBlocks lastLocation locations handlerLoc) ip) :
    x.makeStep s = (moveToFinally loc true cs start s).bind
      (x.afterMove last lastLocation locations handlerLoc) := by
  rw [makeStep_wraps hs hwraps rfl, makeStepAt_secondBypass hopen]
  simp only [bypassStep, hframe, bypassToFinally, hstart, Option.bind_eq_bind, Option.bind_some]
  congr 1
  funext res
  match res with
  | (none, _, s) => rfl
  | (some ip, otherEhcs, s) => rfl

variable {error : Term} {isRuntime : Bool} {trace : List (CodeLocation M)}

section
variable (hfinish : x.HandlersFinish loc.method)

include hfinish

/-- One handler of the second pass is executed. -/
theorem runs_handler {post : List Clause} {regs : List (ExceptionRegister M)}
    (hmem : c ∈ x.exceptionHandlers loc.method) (hfinal : c.isFinal = true)
    (hframe : x.bypassFrame ehcs lastBlocks lastLocation locations = some (cs, last, loc))
    (hstart : x.catchTryBlocks loc.method handlerLoc = some start)
    (hopen : Unfinished ehcs lastBlocks locations) (hs : s.ipStack = ip :: ips)
    (hwraps : Wraps (.secondBypass ehcs lastBlocks lastLocation locations handlerLoc) ip)
    (hmove : moveToFinally loc true cs start s =
      some (some (.instruction c.handlerOffset loc.method), post,
      { s with exceptionsRegister := .unhandled error isRuntime trace :: regs }))
    (hregs : regs.length = n + 1) :
    ∃ s', x.machine.Runs s [handlerEvent loc c] s' ∧
      BypassAt s' ips (.secondBypass (some post) last lastLocation locations handlerLoc)
        (.unhandled error isRuntime trace) n := by
  -- The step that enters the handler.
  let entered : InstructionPointer M := .secondBypassIn (.instruction c.handlerOffset loc.method)
    (some post) last lastLocation locations handlerLoc
  let s₁ : CilState M S := { s with
    ipStack := ip.changeInnerIp entered :: ips
    exceptionsRegister := .caught error isRuntime trace :: regs }
  have hstep : x.machine.step s = some s₁ := by
    show x.makeStep s = some s₁
    rw [makeStep_bypass hframe hstart hopen hs hwraps, hmove]
    simp [afterMove, CilState.toCaughtException, ExceptionRegister.transformToCaught,
      CilState.setCurrentIpSafe, hs, s₁, entered]
  have hwraps₁ : Wraps entered (ip.changeInnerIp entered) := hwraps.changeInnerIp rfl
  have hobserve : x.machine.observe s s₁ = [handlerEvent loc c] := by
    show observe s s₁ = _
    rw [observe_secondBypass (current_of_wraps hs hwraps rfl) hopen, if_neg (by simp [s₁, hs]),
      current_of_wraps rfl hwraps₁ rfl]
    rfl
  -- The handler runs to its end.
  obtain ⟨s₂, ip₂, o, hrun, hs₂, hwraps₂, hend, hregister⟩ :=
    hfinish c hmem hfinal s₁ _ ips _ _ _ _ _ rfl hwraps₁
  obtain ⟨reg, regs', rfl⟩ := exists_cons_of_length_eq_add_one hregs
  let s₃ : CilState M S := { s₂ with
    ipStack := .secondBypass (some post) last lastLocation locations handlerLoc :: ips
    exceptionsRegister := .unhandled error isRuntime trace :: regs' }
  have hstep₂ : x.machine.step s₂ = some s₃ := by
    show x.makeStep s₂ = some s₃
    rw [makeStep_wraps hs₂ hwraps₂ rfl]
    simp [makeStepAt, endFinally, hend, endFinallyStep, CilState.moveDownExceptionRegister,
      hregister, CilState.toUnhandledException, ExceptionRegister.transformToUnhandled,
      CilState.setCurrentIp, hs₂, s₃, s₁]
  have hobserve₂ : x.machine.observe s₂ s₃ = [] := by
    show observe s₂ s₃ = []
    unfold observe
    rw [current_of_wraps hs₂ hwraps₂ rfl]
  refine ⟨s₃, ?_, ⟨_, rfl, .refl⟩, ⟨regs', rfl, by simpa using hregs⟩⟩
  have hfirst := Machine.Runs.more hstep (hrun.trans (Machine.Runs.one hstep₂))
  rwa [hobserve, hobserve₂] at hfirst

section
variable (hstart : x.catchTryBlocks loc.method handlerLoc = some start)

include hstart

/-- The second pass executes the handlers of a frame in order and then leaves the frame. -/
theorem runs_frame (hmem : ∀ c ∈ cs, c ∈ x.exceptionHandlers loc.method)
    (hframe : x.bypassFrame ehcs lastBlocks lastLocation locations = some (cs, last, loc))
    (hopen : Unfinished ehcs lastBlocks locations)
    (hs : BypassAt s ips (.secondBypass ehcs lastBlocks lastLocation locations handlerLoc)
      (.unhandled error isRuntime trace) (frameMoves loc.offset start cs start + n)) :
    ∃ s' ehcs' lastBlocks', x.machine.Runs s
        ((cs.filter (executes loc.offset)).map (handlerEvent loc)) s' ∧
      Unfinished ehcs' lastBlocks' locations ∧
      (∃ ip', s'.ipStack = ip' :: ips ∧
        Wraps (.secondBypass ehcs' lastBlocks' lastLocation locations handlerLoc) ip') ∧
      ∃ regs, regs.length = n ∧ x.makeStep s' = x.afterMove last lastLocation locations handlerLoc
        (none, [], { s' with exceptionsRegister := .unhandled error isRuntime trace :: regs }) := by
  induction hlength : cs.length using Nat.strong_induction_on generalizing cs ehcs lastBlocks s with
  | _ k ih =>
    obtain ⟨⟨ip, hstack, hwraps⟩, regs, hregs, hcount⟩ := hs
    have hstep := makeStep_bypass hframe hstart hopen hstack hwraps
    generalize hres : moveToFinally loc true cs start s = res at hstep
    have houtcome := moveToFinally_outcome hregs hcount.symm
    rw [hres] at houtcome
    cases houtcome with
    | done regs' hlength' hnone =>
      refine ⟨s, ehcs, lastBlocks, ?_, hopen, ⟨ip, hstack, hwraps⟩, regs', hlength', hstep⟩
      rw [hnone]
      exact .refl s
    | found c post regs' hlength' hfirst hfinal hsub =>
      have hmem' : ∀ c' ∈ c :: post, c' ∈ x.exceptionHandlers loc.method := fun c' hc' =>
        hmem c' (hsub.subset hc')
      obtain ⟨s₁, hrun, hs₁⟩ := runs_handler hfinish (hmem' c mem_cons_self) hfinal hframe
        hstart hopen hstack hwraps hres hlength'
      have hshorter : post.length < k := by
        rw [← hlength]
        exact hsub.length_le
      obtain ⟨s', ehcs', lastBlocks', hrun', hopen', hstack', hfinish'⟩ := ih _ hshorter
        (fun c' hc' => hmem' c' (mem_cons_of_mem _ hc')) (bypassFrame_some hframe)
        (fun h => Option.some_ne_none _ h.1) hs₁ rfl
      refine ⟨s', ehcs', lastBlocks', ?_, hopen', hstack', hfinish'⟩
      rw [hfirst, map_cons]
      exact hrun.trans hrun'

/-- A frame that is popped, with the handlers of its clauses executed. -/
theorem runs_popped {ip₂ : InstructionPointer M} {o : ℕ} {m : M}
    (hpop : locations ≠ [] ∨ handlerLoc.isSome = true) (hip₂ : Wraps (.instruction o m) ip₂)
    (hs : BypassAt s (ip₂ :: ips)
      (.secondBypass none lastBlocks lastLocation (loc :: locations) handlerLoc)
      (.unhandled error isRuntime trace)
      (frameMoves loc.offset start (x.sortEHCBlocks loc) start + n)) :
    ∃ s', x.machine.Runs s (((x.sortEHCBlocks loc).filter (executes loc.offset)).map
        (handlerEvent loc) ++ [.popFrame]) s' ∧
      BypassAt s' ips (.secondBypass none lastBlocks lastLocation locations handlerLoc)
        (.unhandled error isRuntime trace) n := by
  have hframe : x.bypassFrame none lastBlocks lastLocation (loc :: locations) =
      some (x.sortEHCBlocks loc, lastBlocks, loc) := by
    cases lastLocation <;> rfl
  obtain ⟨s', ehcs', lastBlocks', hrun, hopen, ⟨ip', hstack, hwraps⟩, regs, hregs, hstep⟩ :=
    runs_frame hfinish hstart x.mem_of_mem_sortEHCBlocks hframe (fun h => by simp at h) hs
  let bypass : InstructionPointer M := .secondBypass none lastBlocks lastLocation locations handlerLoc
  let s₂ : CilState M S := { s' with
    ipStack := ip₂.changeInnerIp bypass :: ips
    exceptionsRegister := .unhandled error isRuntime trace :: regs
    memory := x.clearEvaluationStackLastFrame (x.popFrame s'.memory) }
  have hleave : (!locations.isEmpty || handlerLoc.isSome) = true := by
    simpa [Bool.or_eq_true] using hpop
  have hstep₂ : x.machine.step s' = some s₂ := by
    show x.makeStep s' = some s₂
    rw [hstep]
    simp [afterMove, leaveFrame, hleave, popFrame', hstack, clearStack, CilState.setCurrentIpSafe,
      s₂, bypass]
  have hobserve : x.machine.observe s' s₂ = [.popFrame] := by
    show observe s' s₂ = _
    rw [observe_secondBypass (current_of_wraps hstack hwraps rfl) hopen, if_pos (by simp [s₂, hstack])]
  refine ⟨s₂, ?_, ⟨_, rfl, hip₂.changeInnerIp rfl⟩, regs, rfl, hregs⟩
  have hlast := hrun.trans (Machine.Runs.one hstep₂)
  rwa [hobserve] at hlast

/-- A frame that stays: its handlers are executed and no location is left. -/
theorem runs_stays (hmem : ∀ c ∈ cs, c ∈ x.exceptionHandlers loc.method)
    (hframe : x.bypassFrame none lastBlocks lastLocation locations = some (cs, last, loc))
    (hopen : Unfinished none lastBlocks locations)
    (hstay : locations = [] ∨ locations.tail = [] ∧ handlerLoc = none)
    (hs : BypassAt s ips (.secondBypass none lastBlocks lastLocation locations handlerLoc)
      (.unhandled error isRuntime trace) (frameMoves loc.offset start cs start + n)) :
    ∃ s', x.machine.Runs s ((cs.filter (executes loc.offset)).map (handlerEvent loc)) s' ∧
      BypassAt s' ips (.secondBypass none last lastLocation [] handlerLoc)
        (.unhandled error isRuntime trace) n := by
  obtain ⟨s', ehcs', lastBlocks', hrun, hopen, ⟨ip', hstack, hwraps⟩, regs, hregs, hstep⟩ :=
    runs_frame hfinish hstart hmem hframe hopen hs
  let bypass : InstructionPointer M := .secondBypass none last lastLocation [] handlerLoc
  let s₂ : CilState M S := { s' with
    ipStack := ip'.changeInnerIp bypass :: ips
    exceptionsRegister := .unhandled error isRuntime trace :: regs }
  have hwraps₂ : Wraps bypass (ip'.changeInnerIp bypass) := hwraps.changeInnerIp rfl
  have hstep₂ : x.machine.step s' = some s₂ := by
    show x.makeStep s' = some s₂
    rw [hstep]
    rcases hstay with rfl | ⟨htail, rfl⟩
    · simp [afterMove, leaveFrame, CilState.setCurrentIpSafe, hstack, s₂, bypass]
    · cases locations with
      | nil => simp [afterMove, leaveFrame, CilState.setCurrentIpSafe, hstack, s₂, bypass]
      | cons l locations =>
        cases htail
        simp [afterMove, leaveFrame, CilState.setCurrentIpSafe, hstack, s₂, bypass]
  have hobserve : x.machine.observe s' s₂ = [] := by
    show observe s' s₂ = []
    rw [observe_secondBypass (current_of_wraps hstack hwraps rfl) hopen,
      if_neg (by simp [s₂, hstack]), current_of_wraps rfl hwraps₂ rfl]
  refine ⟨s₂, ?_, ⟨_, rfl, hwraps₂⟩, regs, rfl, hregs⟩
  have hlast := hrun.trans (Machine.Runs.one hstep₂)
  rwa [hobserve, append_nil] at hlast

end

end

end

/-! ### The second pass -/

section
variable [DecidableEq M] {x : ILInterpreter M S} {s : CilState M S}
  {ips : List (InstructionPointer M)} {lastBlocks : List Clause}
  {lastLocation : Option (CodeLocation M)} {handlerLoc : Option (CodeLocation M)}
  {error : Term} {isRuntime : Bool} {trace : List (CodeLocation M)} {n : ℕ}
variable {loc : CodeLocation M} {locs : List (CodeLocation M)} {below : ℕ}

/-- What a method on the stack is known to be. -/
structure Regular (x : ILInterpreter M S) (loc : CodeLocation M) : Prop where
  nested : ProperlyNested (x.exceptionHandlers loc.method)
  ordered : x.HandlersInOrder loc
  finish : x.HandlersFinish loc.method

omit [DecidableEq M] in
theorem executed_eq_unwindFrame (h : x.HandlersInOrder loc) :
    ((x.sortEHCBlocks loc).filter (executes loc.offset)).map (handlerEvent loc) =
      x.unwindFrame loc := by
  rw [unwindFrame, ← x.filter_sortEHCBlocks h, filter_filter]
  refine congrArg (List.map _) (filter_congr fun c _ => ?_)
  exact Bool.and_comm _ _

/-- The clause that was found is one of its method. -/
def HandlerKnown (x : ILInterpreter M S) (handlerLoc : Option (CodeLocation M)) : Prop :=
  ∀ loc, handlerLoc = some loc → ∃ k ∈ x.exceptionHandlers loc.method, k.handlerOffset = loc.offset

theorem exists_catchTryBlocks (h : x.HandlerKnown handlerLoc) (m : M) :
    ∃ start, x.catchTryBlocks m handlerLoc = some start := by
  unfold catchTryBlocks
  split
  · rename_i loc
    split
    case isTrue hm =>
      subst hm
      obtain ⟨k, hk, hoffset⟩ := h loc rfl
      have hsome := find?_isSome (p := fun ehc : Clause => ehc.handlerOffset = loc.offset).mpr
        ⟨k, hk, by simpa using hoffset⟩
      obtain ⟨k', hk'⟩ := Option.isSome_iff_exists.mp hsome
      exact ⟨[k'.tryBlock], by rw [hk']; rfl⟩
    case isFalse => exact ⟨[], rfl⟩
  · exact ⟨[], rfl⟩

/-- The registers of a frame and of those below it, split. -/
theorem exists_registers {cs : List Clause} (start : List (ℕ × ℕ)) {bypass : InstructionPointer M}
    {r : ExceptionRegister M} (h : x.Regular loc) (hcs : cs.Sublist (x.sortEHCBlocks loc))
    (hle : x.enteredBlocks loc + below ≤ n) (hs : BypassAt s ips bypass r n) :
    ∃ n', below ≤ n' ∧ BypassAt s ips bypass r (frameMoves loc.offset start cs start + n') := by
  have hmoves : frameMoves loc.offset start cs start ≤ x.enteredBlocks loc :=
    frameMoves_le_enteredBlocks x h.nested h.ordered hcs
  refine ⟨n - frameMoves loc.offset start cs start, by omega, hs.stack, ?_⟩
  obtain ⟨regs, hregs, hlength⟩ := hs.register
  exact ⟨regs, hregs, by omega⟩

/-- The frames above the one that handles the exception are unwound and popped. -/
theorem runs_above {above : List (CodeLocation M)} (hknown : x.HandlerKnown handlerLoc)
    (hsome : handlerLoc.isSome = true) (hregular : ∀ loc ∈ above, x.Regular loc)
    (hframes : List.Forall₂ FrameOf ips locs) (hlength : above.length ≤ ips.length)
    (hle : (above.map x.enteredBlocks).sum + below ≤ n)
    (hs : BypassAt s ips (.secondBypass none lastBlocks lastLocation above handlerLoc)
      (.unhandled error isRuntime trace) n) :
    ∃ s' n', x.machine.Runs s (above.flatMap fun l => x.unwindFrame l ++ [.popFrame]) s' ∧
      below ≤ n' ∧ BypassAt s' (ips.drop above.length)
        (.secondBypass none lastBlocks lastLocation [] handlerLoc)
        (.unhandled error isRuntime trace) n' := by
  induction above generalizing s ips locs n with
  | nil => exact ⟨s, n, .refl s, by simpa using hle, hs⟩
  | cons loc above ih =>
    have hloc := hregular loc mem_cons_self
    obtain ⟨start, hstart⟩ := x.exists_catchTryBlocks hknown loc.method
    rw [map_cons, sum_cons, Nat.add_assoc] at hle
    obtain ⟨n₁, hn₁, hs₁⟩ := exists_registers start hloc (List.Sublist.refl _) hle hs
    cases hframes with
    | nil => simp at hlength
    | @cons ip₂ loc₂ ips locs hip₂ hframes =>
      obtain ⟨s₂, hrun, hs₂⟩ := runs_popped hloc.finish hstart (.inr hsome) hip₂.1 hs₁
      obtain ⟨s', n', hrun', hn', hs'⟩ := ih (fun l hl => hregular l (mem_cons_of_mem _ hl))
        hframes (by simpa using hlength) hn₁ hs₂
      refine ⟨s', n', ?_, hn', hs'⟩
      rw [flatMap_cons, ← executed_eq_unwindFrame hloc.ordered]
      exact hrun.trans hrun'

/-- When nothing was found, the handlers of all frames are executed; the last frame stays. -/
theorem runs_unwindAll (hregular : ∀ l ∈ loc :: locs, x.Regular l)
    (hframes : List.Forall₂ FrameOf ips locs) (hle : ((loc :: locs).map x.enteredBlocks).sum ≤ n)
    (hs : BypassAt s ips (.secondBypass none [] none (loc :: locs) none)
      (.unhandled error isRuntime trace) n) :
    ∃ s' n', x.machine.Runs s (x.unhandledEvents (loc :: locs)) s' ∧
      BypassAt s' [] (.secondBypass none [] none [] none) (.unhandled error isRuntime trace) n' := by
  induction hframes generalizing s loc n with
  | nil =>
    have hloc := hregular loc mem_cons_self
    have hle' : x.enteredBlocks loc + 0 ≤ n := by simpa using hle
    obtain ⟨n', -, hs'⟩ := exists_registers [] hloc (List.Sublist.refl _) hle' hs
    obtain ⟨s', hrun, hs'⟩ := runs_stays hloc.finish rfl (x.mem_of_mem_sortEHCBlocks) rfl
      (fun h => by simp at h) (.inr ⟨rfl, rfl⟩) hs'
    rw [executed_eq_unwindFrame hloc.ordered] at hrun
    exact ⟨s', n', hrun, hs'⟩
  | @cons ip₂ loc₂ ips locs hip₂ _ ih =>
    have hloc := hregular loc mem_cons_self
    rw [map_cons, sum_cons] at hle
    obtain ⟨n₁, hn₁, hs₁⟩ := exists_registers [] hloc (List.Sublist.refl _) hle hs
    obtain ⟨s₂, hrun, hs₂⟩ := runs_popped hloc.finish rfl (.inl (cons_ne_nil _ _)) hip₂.1 hs₁
    obtain ⟨s', n', hrun', hs'⟩ := ih (fun l hl => hregular l (mem_cons_of_mem _ hl)) hn₁ hs₂
    refine ⟨s', n', ?_, hs'⟩
    have hall := hrun.trans hrun'
    rw [executed_eq_unwindFrame hloc.ordered, append_assoc] at hall
    exact hall

end

/-! ### The first pass -/

section
variable {x : ILInterpreter M S} {s : CilState M S} {loc : CodeLocation M}
  {cs observed : List Clause} {locations framesToPop : List (CodeLocation M)} {errorRef : Term}
  {c : Clause} {exceptionType : Ty}

/-- The clauses that `FindCatch` accepts. -/
def accepts (x : ILInterpreter M S) (exceptionType : Ty) (offset : ℕ) (c : Clause) : Bool :=
  !c.inHandlerBlock offset && x.catches exceptionType c

theorem isCatch_of_catches (h : x.catches exceptionType c = true) : c.isCatch = true := by
  unfold catches at h
  unfold Clause.isCatch
  split at h
  case h_1 => rfl
  case h_2 => cases h

theorem find?_leftClauses (h : x.HandlersInOrder loc) (exceptionType : Ty) :
    (x.leftClauses loc).find? (x.catches exceptionType) =
      (x.sortEHCBlocks loc).find? (x.accepts exceptionType loc.offset) := by
  rw [← x.filter_sortEHCBlocks h, find?_filter]
  congr 1
  funext c
  simp [accepts]

theorem mem_searchedFrames_self (exceptionType : Ty) (locs : List (CodeLocation M)) :
    loc ∈ x.searchedFrames exceptionType (loc :: locs) := by
  rw [searchedFrames, findHandler]
  cases (x.leftClauses loc).find? (x.catches exceptionType) with
  | some k => exact mem_singleton_self loc
  | none => cases x.findHandler exceptionType locs <;> exact mem_cons_self

theorem searchedFrames_cons (h : (x.leftClauses loc).find? (x.catches exceptionType) = none)
    (locs : List (CodeLocation M)) :
    x.searchedFrames exceptionType (loc :: locs) = loc :: x.searchedFrames exceptionType locs := by
  rw [searchedFrames, searchedFrames, findHandler, h]
  cases x.findHandler exceptionType locs <;> rfl

theorem searchedFrames_subset (exceptionType : Ty) (locs : List (CodeLocation M)) :
    x.searchedFrames exceptionType locs ⊆ locs := by
  induction locs with
  | nil => exact List.Subset.refl _
  | cons loc locs ih =>
    cases hfind : (x.leftClauses loc).find? (x.catches exceptionType) with
    | some k =>
      rw [searchedFrames, findHandler, hfind]
      exact cons_subset_cons loc (nil_subset locs)
    | none =>
      rw [searchedFrames_cons hfind]
      exact cons_subset_cons loc ih

theorem findCatch_cons_of_not_accepts (hc : c.WellFormed)
    (h : x.accepts (x.mostConcreteTypeOfRef s.memory errorRef) loc.offset c = false) :
    x.findCatch s errorRef loc locations framesToPop (c :: cs) observed =
      x.findCatch s errorRef loc locations framesToPop cs (observed ++ [c]) := by
  unfold accepts catches at h
  simp only [findCatch]
  split
  · rfl
  · split
    · simp_all
    · rename_i o heq
      have hkind := hc.2.2.2
      simp [Clause.isCatch, Clause.isFinal, heq] at hkind
    · rfl

/-- `FindCatch` finds the first clause that it accepts. -/
theorem findCatch_eq (x : ILInterpreter M S) (s : CilState M S) (errorRef : Term)
    (loc : CodeLocation M) (locations framesToPop : List (CodeLocation M)) (observed : List Clause)
    (hcs : ∀ c ∈ cs, c.WellFormed) :
    (cs.find? (x.accepts (x.mostConcreteTypeOfRef s.memory errorRef) loc.offset) = none ∧
      x.findCatch s errorRef loc locations framesToPop cs observed = (none, s)) ∨
    ∃ pre k post, cs = pre ++ k :: post ∧
      cs.find? (x.accepts (x.mostConcreteTypeOfRef s.memory errorRef) loc.offset) = some k ∧
      x.accepts (x.mostConcreteTypeOfRef s.memory errorRef) loc.offset k = true ∧
      x.findCatch s errorRef loc locations framesToPop cs observed =
        (some (.secondBypass none (observed ++ (pre ++ [k])) (some loc) framesToPop
          (some ⟨k.handlerOffset, loc.method⟩)), s) := by
  induction cs generalizing observed with
  | nil => exact .inl ⟨rfl, rfl⟩
  | cons c cs ih =>
    cases haccepts : x.accepts (x.mostConcreteTypeOfRef s.memory errorRef) loc.offset c with
    | true =>
      refine .inr ⟨[], c, cs, rfl, find?_cons_of_pos haccepts, haccepts, ?_⟩
      unfold accepts catches at haccepts
      simp only [findCatch]
      split at haccepts
      case h_1 t heq => simp_all
      case h_2 => simp at haccepts
    | false =>
      rw [find?_cons_of_neg (by simp [haccepts]),
        findCatch_cons_of_not_accepts (hcs c mem_cons_self) haccepts]
      have hrest : ∀ c' ∈ cs, c'.WellFormed := fun c' hc' =>
        hcs c' (mem_cons_of_mem _ hc')
      obtain ⟨hnone, heq⟩ | ⟨pre, k, post, rfl, hsome, hk, heq⟩ := ih (observed ++ [c]) hrest
      · exact .inl ⟨hnone, heq⟩
      · exact .inr ⟨c :: pre, k, post, rfl, hsome, hk, by rw [heq]; simp⟩

variable [DecidableEq M] {ips : List (InstructionPointer M)} {error : Term} {isRuntime : Bool}
  {trace popped : List (CodeLocation M)} {n : ℕ}

/-- A step of the search, to a pointer that it sets. -/
theorem runs_searchStep {blocks : Option (List Clause)} {next : InstructionPointer M}
    {r : ExceptionRegister M}
    (hs : BypassAt s ips (.searchingForHandler blocks observed locations popped) r n)
    (hstep : x.searchStep s blocks observed locations popped = s.setCurrentIpSafe next) :
    ∃ s', x.machine.Runs s [] s' ∧ s'.memory = s.memory ∧ BypassAt s' ips next r n := by
  obtain ⟨⟨ip, hstack, hwraps⟩, hregister⟩ := hs
  let s' : CilState M S := { s with ipStack := ip.changeInnerIp next :: ips }
  have hmake : x.machine.step s = some s' := by
    show x.makeStep s = some s'
    rw [makeStep_wraps hstack hwraps rfl]
    show x.searchStep s blocks observed locations popped = some s'
    rw [hstep, CilState.setCurrentIpSafe, hstack]
  have hobserve : x.machine.observe s s' = [] := by
    show observe s s' = []
    unfold observe
    rw [current_of_wraps hstack hwraps rfl]
  refine ⟨s', ?_, rfl, ⟨_, rfl, hwraps.changeInnerIp rfl⟩, hregister⟩
  rw [← hobserve]
  exact Machine.Runs.one hmake

/-- The state after the first pass: where the second one starts. -/
def SearchedTo (x : ILInterpreter M S) (s : CilState M S) (ips : List (InstructionPointer M))
    (r : ExceptionRegister M) (n : ℕ) (popped locs : List (CodeLocation M)) :
    Option (List (CodeLocation M) × CodeLocation M × Clause) → Prop
  | some (above, loc, k) => ∃ pre post, x.sortEHCBlocks loc = pre ++ k :: post ∧
      (∃ rest, locs = above ++ loc :: rest) ∧ k.isCatch = true ∧ protects loc.offset k = true ∧
      BypassAt s ips (.secondBypass none (pre ++ [k]) (some loc) (popped ++ above)
        (some ⟨k.handlerOffset, loc.method⟩)) r n
  | none => BypassAt s ips (.secondBypass none [] none (popped ++ locs) none) r n

/-- The first pass finds what the rules say. -/
theorem runs_search {locs : List (CodeLocation M)} (hregular :
      ∀ l ∈ x.searchedFrames (x.mostConcreteTypeOfRef s.memory error) locs, x.Regular l)
    (hs : BypassAt s ips (.searchingForHandler none [] locs popped)
      (.unhandled error isRuntime trace) n) :
    ∃ s', x.machine.Runs s [] s' ∧
      x.SearchedTo s' ips (.unhandled error isRuntime trace) n popped locs
        (x.findHandler (x.mostConcreteTypeOfRef s.memory error) locs) := by
  induction locs generalizing s popped with
  | nil =>
    obtain ⟨s', hrun, -, hs'⟩ := runs_searchStep hs rfl
    exact ⟨s', hrun, by simpa [findHandler, SearchedTo] using hs'⟩
  | cons loc locs ih =>
    have hloc := hregular loc (mem_searchedFrames_self _ locs)
    have herror : s.getError = some error := by
      obtain ⟨regs, hregs, -⟩ := hs.register
      simp [CilState.getError, hregs, ExceptionRegister.getError]
    have hwell : ∀ c ∈ x.sortEHCBlocks loc, c.WellFormed := fun c hc =>
      hloc.nested.1 c (x.mem_of_mem_sortEHCBlocks c hc)
    have hsearched (h : (x.leftClauses loc).find?
        (x.catches (x.mostConcreteTypeOfRef s.memory error)) = none) := searchedFrames_cons h locs
    rw [find?_leftClauses hloc.ordered] at hsearched
    rw [findHandler, find?_leftClauses hloc.ordered]
    have hstep : x.searchStep s none [] (loc :: locs) popped =
        match x.findCatch s error loc (loc :: locs) popped (x.sortEHCBlocks loc) [] with
        | (some ip, s) => s.setCurrentIpSafe ip
        | (none, s) => s.setCurrentIpSafe
            (.searchingForHandler none [] locs (popped ++ [loc])) := by
      simp only [searchStep, herror, Option.bind_eq_bind, Option.bind_some, Option.getD_none]
      generalize x.findCatch s error loc (loc :: locs) popped (x.sortEHCBlocks loc) [] = res
      obtain ⟨_ | ip, s₁⟩ := res <;> rfl
    obtain ⟨hnone, hfind⟩ | ⟨pre, k, post, hsplit, hsome, hk, hfind⟩ :=
      findCatch_eq x s error loc (loc :: locs) popped [] hwell
    · rw [hfind] at hstep
      obtain ⟨s₁, hrun, hmemory, hs₁⟩ := runs_searchStep hs hstep
      rw [hsearched hnone] at hregular
      have hrest : ∀ l ∈ x.searchedFrames (x.mostConcreteTypeOfRef s₁.memory error) locs,
          x.Regular l := hmemory ▸ fun l hl => hregular l (mem_cons_of_mem _ hl)
      obtain ⟨s', hrun', hs'⟩ := ih hrest hs₁
      rw [hmemory] at hs'
      refine ⟨s', hrun.trans hrun', ?_⟩
      rw [hnone]
      cases hfound : x.findHandler (x.mostConcreteTypeOfRef s.memory error) locs with
      | none => simpa [SearchedTo, hfound] using hs'
      | some found =>
        obtain ⟨above, loc', k⟩ := found
        simp only [hfound, SearchedTo] at hs'
        obtain ⟨pre, post, hsplit, ⟨rest, hlocs⟩, hcatch, hprotects, hs'⟩ := hs'
        exact ⟨pre, post, hsplit, ⟨rest, by rw [hlocs]; rfl⟩, hcatch, hprotects,
          by simpa using hs'⟩
    · rw [hfind] at hstep
      obtain ⟨s', hrun, -, hs'⟩ := runs_searchStep hs hstep
      refine ⟨s', hrun, ?_⟩
      rw [hsome]
      rw [accepts, Bool.and_eq_true] at hk
      have hleft : k ∈ x.leftClauses loc := by
        rw [← x.filter_sortEHCBlocks hloc.ordered, mem_filter, hsplit]
        exact ⟨by simp, hk.1⟩
      exact ⟨pre, post, hsplit, ⟨locs, rfl⟩, isCatch_of_catches hk.2, of_mem_filter hleft,
        by simpa using hs'⟩

end

/-! ### Dispatch -/

section
variable [DecidableEq M] {x : ILInterpreter M S} {s : CilState M S} {loc : CodeLocation M}
  {ips : List (InstructionPointer M)} {error : Term} {isRuntime : Bool}
  {trace : List (CodeLocation M)} {n : ℕ}

/-- Of the clauses before the one that was found, the handlers in its try block are executed. -/
theorem executed_eq_unwindTo {pre post : List Clause} {k : Clause} (h : x.Regular loc)
    (hsplit : x.sortEHCBlocks loc = pre ++ k :: post) (hcatch : k.isCatch = true)
    (hprotects : protects loc.offset k = true) :
    ((pre ++ [k]).filter (executes loc.offset)).map (handlerEvent loc) = x.unwindTo loc k := by
  have hout : (!k.inHandlerBlock loc.offset) = true := (Bool.and_eq_true_iff.mp hprotects).2
  have hnotFinal := Clause.not_isFinal_of_isCatch hcatch
  have hleft := x.filter_sortEHCBlocks h.ordered
  rw [hsplit, filter_append, filter_cons, if_pos hout] at hleft
  have hchain := x.leftClauses_pairwise h.nested
  rw [← hleft] at hchain
  obtain ⟨-, hafter, hbefore⟩ := pairwise_append.mp hchain
  have hpost : (post.filter fun c => !c.inHandlerBlock loc.offset).filter
      (fun c => c.isFinal && decide (Within c.tryBlock k.tryBlock)) = [] := by
    refine filter_eq_nil_iff.mpr fun c hc hkeep => ?_
    rw [Bool.and_eq_true, decide_eq_true_eq] at hkeep
    exact ((pairwise_cons.mp hafter).1 c hc).2 (.inr hkeep.1) hkeep.2
  have hpre : (pre.filter fun c => !c.inHandlerBlock loc.offset).filter
      (fun c => c.isFinal && decide (Within c.tryBlock k.tryBlock)) =
        pre.filter (executes loc.offset) := by
    rw [filter_filter]
    refine filter_congr fun c hc => ?_
    cases hin : c.inHandlerBlock loc.offset with
    | true => simp [executes, hin]
    | false =>
      have hmem : c ∈ pre.filter fun c => !c.inHandlerBlock loc.offset :=
        mem_filter.mpr ⟨hc, by simp [hin]⟩
      have hwithin := (hbefore c hmem k mem_cons_self).1
      simp [executes, hin, hwithin]
  rw [unwindTo, ← hleft, filter_append, filter_append,
    filter_cons_of_neg (by simp [executes, hnotFinal]),
    filter_cons_of_neg (by simp [hnotFinal]), filter_nil, hpost, hpre]

/-- The catch clause is entered. -/
theorem runs_catch {lastLocation : Option (CodeLocation M)} {handlerLoc : CodeLocation M}
    (hs : BypassAt s ips (.secondBypass none [] lastLocation [] (some handlerLoc))
      (.unhandled error isRuntime trace) n) :
    ∃ s' ip, x.machine.Runs s [.catchEntered handlerLoc] s' ∧ s'.ipStack = ip :: ips ∧
      ip.instructionEnding = some handlerLoc ∧
      s'.exceptionsRegister.head? = some (.caught error isRuntime trace) := by
  obtain ⟨⟨ip, hstack, hwraps⟩, regs, hregs, -⟩ := hs
  let target : InstructionPointer M := .instruction handlerLoc.offset handlerLoc.method
  let s' : CilState M S := { s with
    ipStack := ip.changeInnerIp target :: ips
    exceptionsRegister := .caught error isRuntime trace :: regs
    memory := x.push error (x.clearEvaluationStackLastFrame s.memory) }
  have hstep : x.machine.step s = some s' := by
    show x.makeStep s = some s'
    rw [makeStep_wraps hstack hwraps rfl]
    simp [makeStepAt, catchStep, CilState.setCurrentIpSafe, hstack, clearStack,
      CilState.toCaughtException, hregs, ExceptionRegister.transformToCaught, CilState.getError,
      ExceptionRegister.getError, s', target]
  have hobserve : x.machine.observe s s' = [.catchEntered handlerLoc] := by
    show observe s s' = _
    unfold observe
    rw [current_of_wraps hstack hwraps rfl]
  have hwraps' : Wraps target (ip.changeInnerIp target) := hwraps.changeInnerIp rfl
  refine ⟨s', _, ?_, rfl, hwraps'.instructionEnding_eq, rfl⟩
  rw [← hobserve]
  exact Machine.Runs.one hstep

/-- Nothing was found and nothing is left to execute. -/
theorem runs_unhandled
    (hs : BypassAt s [] (.secondBypass none [] none [] none) (.unhandled error isRuntime trace) n) :
    ∃ s', x.machine.Runs s [] s' ∧ s'.ipStack = [.emptySearchingForHandler] ∧
      s'.exceptionsRegister.head? = some (.unhandled error isRuntime trace) := by
  obtain ⟨⟨ip, hstack, hwraps⟩, regs, hregs, -⟩ := hs
  let s' : CilState M S := { s with ipStack := [.emptySearchingForHandler] }
  have hfilter : s.tryGetFilterIp = none := by
    simp [CilState.tryGetFilterIp, hstack, hwraps.isInFilter_eq rfl]
  have hstep : x.machine.step s = some s' := by
    show x.makeStep s = some s'
    rw [makeStep_wraps hstack hwraps rfl]
    simp [makeStepAt, unhandledStep, hfilter, CilState.setCurrentIp, hstack,
      CilState.toUnhandledException, hregs, ExceptionRegister.transformToUnhandled, s']
  have hobserve : x.machine.observe s s' = [] := by
    show observe s s' = []
    rw [observe, current_of_wraps hstack hwraps rfl]
    simp [s', hstack, InstructionPointer.current, emptySearchingForHandler]
  refine ⟨s', ?_, rfl, by simp [s', hregs]⟩
  rw [← hobserve]
  exact Machine.Runs.one hstep

omit [DecidableEq M] in
theorem takeWhile_frames {locs : List (CodeLocation M)} (hframes : List.Forall₂ FrameOf ips locs) :
    (ips.takeWhile fun ip => !ip.isFilter).mapM toCodeLocation = some locs := by
  induction hframes with
  | nil => rfl
  | @cons ip loc ips locs hip _ ih =>
    have hfilter : ip.isFilter = false := by
      cases hip.1 <;> rfl
    rw [takeWhile_cons, hfilter]
    simp [hip.2, ih]

/-- An exception is dispatched as ECMA-335 says, when the handlers of the clauses that protect the
frames in which one is looked for end in the order of their tables. -/
theorem dispatch_follows_ecma (x : ILInterpreter M S) (s : CilState M S)
    (locs : List (CodeLocation M)) (error : Term) (isRuntime : Bool)
    (hframes : List.Forall₂ FrameOf s.ipStack locs) (hne : locs ≠ [])
    (hnested : ∀ loc ∈ locs, ProperlyNested (x.exceptionHandlers loc.method))
    (hfinish : ∀ loc ∈ locs, x.HandlersFinish loc.method)
    (hregisters : (locs.map x.enteredBlocks).sum < s.exceptionsRegister.length)
    (horder : ∀ loc ∈ x.searchedFrames (x.mostConcreteTypeOfRef s.memory error) locs,
      x.HandlersInOrder loc) :
    ∃ s₀, commonThrow s error isRuntime = some s₀ ∧
      x.FollowsEcma s.ipStack locs error isRuntime s₀ := by
  have hlocations : s.codeLocations = some locs := takeWhile_frames hframes
  obtain ⟨ipStack, registers, filterResult, memory⟩ := s
  dsimp only at hframes hregisters
  cases hframes with
  | nil => exact absurd rfl hne
  | @cons ip loc ips locs hip hrest =>
    obtain ⟨reg, regs, rfl⟩ := exists_cons_of_length_pos (Nat.zero_lt_of_lt hregisters)
    rw [length_cons, Nat.lt_succ_iff] at hregisters
    let searching : InstructionPointer M := .searchingForHandler none [] (loc :: locs) []
    let s₀ : CilState M S := ⟨ip.changeInnerIp searching :: ips,
      .unhandled error isRuntime (loc :: locs) :: regs, filterResult, memory⟩
    refine ⟨s₀, ?_, ?_⟩
    · simp [commonThrow, hlocations, CilState.setCurrentIpSafe, CilState.setException, s₀, searching]
    · have hs₀ : BypassAt s₀ ips searching (.unhandled error isRuntime (loc :: locs)) regs.length :=
        ⟨⟨_, rfl, hip.1.changeInnerIp rfl⟩, regs, rfl, rfl⟩
      have hregular : ∀ l ∈ x.searchedFrames (x.mostConcreteTypeOfRef s₀.memory error)
          (loc :: locs), x.Regular l := fun l hl =>
        have hmem := searchedFrames_subset _ _ hl
        ⟨hnested l hmem, horder l hl, hfinish l hmem⟩
      obtain ⟨s₁, hrun₁, hs₁⟩ := runs_search hregular hs₀
      rw [searchedFrames] at hregular
      unfold FollowsEcma
      split
      case h_1 above loc' k hfound =>
        rw [hfound] at hs₁ hregular
        obtain ⟨pre, post, hsplit, ⟨rest, hlocs⟩, hcatch, hprotects, hs₁⟩ := hs₁
        rw [hlocs] at hregisters
        have hloc' := hregular loc' (by simp)
        have hmem : k ∈ x.exceptionHandlers loc'.method :=
          x.mem_of_mem_sortEHCBlocks k (by simp [hsplit])
        have hknown : x.HandlerKnown (some ⟨k.handlerOffset, loc'.method⟩) := by
          rintro _ ⟨⟩
          exact ⟨k, hmem, rfl⟩
        have hlength : above.length ≤ ips.length := by
          have hsame := congrArg List.length hlocs
          rw [hrest.length_eq]
          simp only [length_cons, length_append] at hsame
          omega
        have hle : (above.map x.enteredBlocks).sum + x.enteredBlocks loc' ≤ regs.length := by
          simp only [map_append, map_cons, sum_append, sum_cons] at hregisters
          omega
        -- The frames above are popped, then the handlers of this frame are executed.
        obtain ⟨s₂, n, hrun₂, hn, hs₂⟩ := runs_above hknown rfl
          (fun l hl => hregular l (mem_append_left _ hl)) hrest hlength hle hs₁
        obtain ⟨start, hstart⟩ := x.exists_catchTryBlocks hknown loc'.method
        have hpart : (pre ++ [k]).Sublist (x.sortEHCBlocks loc') := by
          rw [hsplit]
          exact (singleton_sublist.mpr mem_cons_self).append_left pre
        obtain ⟨n', -, hs₂⟩ := exists_registers (n := n) start hloc' hpart
          (show x.enteredBlocks loc' + 0 ≤ n from hn) hs₂
        obtain ⟨s₃, hrun₃, hs₃⟩ := runs_stays hloc'.finish hstart
          (fun c hc => x.mem_of_mem_sortEHCBlocks c (hpart.subset hc)) rfl
          (fun h => by simp at h) (.inl rfl) hs₂
        obtain ⟨s', ip', hrun', hstack, hending, hregister⟩ := runs_catch (x := x) hs₃
        refine ⟨s', ip', ?_, hstack, hending, hregister⟩
        rw [executed_eq_unwindTo hloc' hsplit hcatch hprotects] at hrun₃
        have hall := hrun₁.trans (hrun₂.trans (hrun₃.trans hrun'))
        rw [nil_append, ← append_assoc] at hall
        exact hall
      case h_2 hfound =>
        rw [hfound] at hs₁ hregular
        obtain ⟨s₂, n, hrun₂, hs₂⟩ := runs_unwindAll hregular hrest hregisters hs₁
        obtain ⟨s', hrun', hstack, hregister⟩ := runs_unhandled (x := x) hs₂
        refine ⟨s', ?_, hstack, hregister⟩
        have hall := hrun₁.trans (hrun₂.trans hrun')
        rwa [nil_append, append_nil] at hall

end

/-! ### Two programs -/

/-- Methods with the given tables, whose handlers end at once. -/
def ofTables (tables : M → List Clause) : ILInterpreter M Unit where
  exceptionHandlers := tables
  isEndFinally _ _ := true
  isStaticConstructor _ := false
  fallThroughTarget _ offset := offset + 1
  isSubtypeOrEqual t t' := t = t'
  mostConcreteTypeOfRef _ _ := .named 0
  sortBy key l := l.insertionSort fun c c' => key c ≤ key c'
  sortBy_perm _ l := perm_insertionSort _ l
  sortBy_sorted key l := by
    have : IsTrans Clause fun c c' => key c ≤ key c' := ⟨fun _ _ _ => Nat.le_trans⟩
    have : Std.Total fun c c' : Clause => key c ≤ key c' := ⟨fun c c' => Nat.le_total _ _⟩
    exact pairwise_insertionSort _ l
  popFrame := id
  clearEvaluationStackLastFrame := id
  push _ := id
  pushNewObjIfNeeded _ _ := id
  filterBranch _ s := (true, s)
  executeInstruction _ _ := id

theorem handlersFinish_ofTables [DecidableEq M] (tables : M → List Clause) (m : M) :
    (ofTables tables).HandlersFinish m := by
  intro c _ _ s ip ips _ _ _ _ _ hs hwraps
  exact ⟨s, ip, c.handlerOffset, .refl s, hs, hwraps, rfl, rfl⟩

/-- A callee with a finally block and a caller with a catch clause. -/
def finallyAndCatch : Bool → List Clause
  | true => [⟨10, 5, 15, 5, .finallyClause⟩]
  | false => [⟨10, 5, 15, 5, .catchClause (.named 0)⟩]

/-- The call stack of the two methods, in their try blocks. -/
def callerAndCallee : CilState Bool Unit where
  ipStack := [.instruction 12 true, .instruction 12 false]
  exceptionsRegister := [.noException, .noException, .noException]
  filterResult := none
  memory := ()

theorem callerAndCallee_follows_ecma :
    ∃ s₀, commonThrow callerAndCallee .nop false = some s₀ ∧
      (ofTables finallyAndCatch).FollowsEcma callerAndCallee.ipStack [⟨12, true⟩, ⟨12, false⟩] .nop
        false s₀ := by
  refine dispatch_follows_ecma _ _ _ _ _ ?_ (cons_ne_nil _ _) ?_
    (fun loc _ => handlersFinish_ofTables _ _) ?_ ?_
  · exact .cons ⟨.refl, rfl⟩ (.cons ⟨.refl, rfl⟩ .nil)
  · decide
  · decide
  · intro loc hloc
    have hmem := searchedFrames_subset _ _ hloc
    simp only [mem_cons, not_mem_nil, or_false] at hmem
    rcases hmem with rfl | rfl <;> exact pairwise_singleton _ _

/-- Two nested catch clauses; the handler of the outer one lies before its try block. -/
def handlerBeforeTry : Unit → List Clause := fun _ =>
  [⟨20, 10, 30, 10, .catchClause (.named 0)⟩, ⟨10, 40, 2, 8, .catchClause (.named 0)⟩]

/-- A frame in both try blocks. -/
def inBothBlocks : CilState Unit Unit where
  ipStack := [.instruction 25 ()]
  exceptionsRegister := [.noException, .noException, .noException]
  filterResult := none
  memory := ()

/-- The handler of the outer clause is entered in place of that of the inner one. -/
theorem handlerBeforeTry_not_followsEcma :
    ProperlyNested (handlerBeforeTry ()) ∧ (ofTables handlerBeforeTry).HandlersFinish () ∧
      (ofTables handlerBeforeTry).enteredBlocks ⟨25, ()⟩ < inBothBlocks.exceptionsRegister.length ∧
      ¬ ∃ s₀, commonThrow inBothBlocks .nop false = some s₀ ∧
        (ofTables handlerBeforeTry).FollowsEcma inBothBlocks.ipStack [⟨25, ()⟩] .nop false s₀ := by
  refine ⟨by decide, handlersFinish_ofTables _ _, by decide, ?_⟩
  rintro ⟨s₀, hthrow, s', ip, hrun, -⟩
  cases hthrow
  -- Two silent steps, then the clause that was found is entered.
  obtain ⟨hnil, -⟩ | ⟨evs, hevs, hrun⟩ := hrun.of_step rfl
  · cases hnil
  obtain ⟨hnil, -⟩ | ⟨evs', hevs', hrun⟩ := hrun.of_step rfl
  · cases hnil
    cases hevs
  obtain ⟨hnil, -⟩ | ⟨evs'', hevs'', hrun⟩ := hrun.of_step rfl
  · cases hnil
    cases hevs'
    cases hevs
  · cases hevs''
    cases hevs'
    cases hevs

end ILInterpreter

end VSharp.SILI
