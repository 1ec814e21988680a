import VSharp.CoverageInstrumenter.Segments

/-!
# CoverageInstrumenter — Block ends

The loops of `RewriteIL` over segments: the one that collects insertions, the one over the priority
probes, and the one over the targets of branches.

- `Scanned`: what holds after some instructions have been looked at.
- `Covers`: the offset of a call after `tail.` is covered before any target is looked at.
- `not_isTailcallRet`: hence no branch gets a return of its own.
-/

namespace VSharp.CoverageInstrumenter.Rewriting
open List Option Segment
variable {probes : CoverageProbes} {body : Body} {r : ILRewriter} {segs : List Segment}
variable {s : Segment} {i : ℕ}
variable {l₁ l₂ l : List ILInstr} {x : ILInstr} {pointer : ℕ} {covered : List ℕ} {r' : ILRewriter}
  {segs' : List Segment}

/-! ### Neighbours -/

theorem prevOf_append (h : ∀ y ∈ l₁, y.pointer ≠ x.pointer) (before : ℕ) :
    prevOf x.pointer before (l₁ ++ x :: l₂) = l₁.getLast?.elim before (·.pointer) := by
  induction l₁ generalizing before with
  | nil => simp [prevOf]
  | cons y l₁ ih =>
    have hy : y.pointer ≠ x.pointer := h y mem_cons_self
    rw [cons_append, prevOf, if_neg hy, ih fun z hz => h z (mem_cons_of_mem y hz)]
    cases hl : l₁.getLast? with
    | none =>
      rw [getLast?_eq_none_iff.mp hl]
      rfl
    | some z => simp [getLast?_cons, hl]

theorem prevOf_not_mem (h : ∀ y ∈ l, y.pointer ≠ pointer) (before : ℕ) :
    prevOf pointer before l = l.getLast?.elim before (·.pointer) := by
  induction l generalizing before with
  | nil => rfl
  | cons y l ih =>
    rw [prevOf, if_neg (h y mem_cons_self), ih fun z hz => h z (mem_cons_of_mem y hz)]
    cases hl : l.getLast? with
    | none =>
      rw [getLast?_eq_none_iff.mp hl]
      rfl
    | some z => simp [getLast?_cons, hl]

theorem ILRewriter.Sound.prev_eq (h : r.Sound) (hil : r.il = l₁ ++ x :: l₂) :
    r.prev x.pointer = l₁.getLast?.elim r.sentinel (·.pointer) := by
  rw [ILRewriter.prev, hil, prevOf_append (h.ne_left hil)]

theorem Segment.exists_cons (s : Segment) : ∃ x l, s.nodes = x :: l ∧ x.pointer = s.first := by
  cases hnodes : s.nodes with
  | nil => simp [nodes] at hnodes
  | cons x l => exact ⟨x, l, rfl, by simp [first, hnodes]⟩

/-- The list before a segment ends with the segment before. -/
theorem getLast?_take_flatMap (hs : segs[i]? = some s) :
    ∃ z, ((segs.take (i + 1)).flatMap nodes).getLast? = some z ∧ z.pointer = s.last := by
  rcases eq_nil_or_concat s.nodes with hnil | ⟨l, z, hl⟩
  · simp [nodes] at hnil
  · have hnodes : s.nodes = l ++ [z] := by simpa using hl
    refine ⟨z, ?_, by simp [last, hnodes]⟩
    rw [take_add_one, hs, flatMap_append]
    simp [hnodes, ← append_assoc]

/-- The instruction before the first node of a segment is the last node of the one before. -/
theorem Laid.prev_eq (h : Laid probes body r segs) (hs : segs[i]? = some s)
    (hi : i + 1 ≤ body.il.length) : r.prev (i + 1) = s.last := by
  obtain ⟨z, hz, hlast⟩ := getLast?_take_flatMap hs
  rcases Nat.lt_or_eq_of_le hi with hlt | heq
  · obtain ⟨t, ht⟩ : ∃ t, segs[i + 1]? = some t :=
      ⟨_, getElem?_eq_getElem (h.length ▸ hlt)⟩
    obtain ⟨x, l, hnodes, hx⟩ := t.exists_cons
    have hil : r.il = (segs.take (i + 1)).flatMap nodes ++
        x :: (l ++ (segs.drop (i + 1 + 1)).flatMap nodes) := by
      rw [h.il, flatMap_eq ht, hnodes]
      rfl
    rw [(h.fits _ t ht).first_eq] at hx
    rw [← hx, h.sound.prev_eq hil, hz]
    exact hlast
  · have hil : r.il = (segs.take (i + 1)).flatMap nodes := by
      rw [h.il, take_of_length_le (by rw [h.length]; omega)]
    rw [ILRewriter.prev, heq, ← h.sentinel, prevOf_not_mem h.sound.ne_sentinel, hil, hz]
    exact hlast

theorem Laid.prev_zero (h : Laid probes body r segs) : r.prev 0 = r.sentinel := by
  cases segs with
  | nil =>
    rw [ILRewriter.prev, h.il]
    rfl
  | cons s segs =>
    obtain ⟨x, l, hnodes, hx⟩ := s.exists_cons
    rw [(h.fits 0 s rfl).first_eq] at hx
    rw [ILRewriter.prev, h.il, flatMap_cons, hnodes, cons_append, prevOf, if_pos hx]

theorem Laid.get?_carrier (h : Laid probes body r segs) (hs : segs[i]? = some s) :
    r.get? s.carrier.pointer = some s.carrier :=
  h.sound.get?_eq (h.il_eq hs rfl)

/-! ### The imported body -/

/-- The imported nodes with their offsets. -/
def importedNodes (body : Body) : List ILInstr := countOffsets (importIL 0 body.il)

/-- The offset of an instruction. -/
def offsetAt (body : Body) (i : ℕ) : ℕ := bytesBefore i (importIL 0 body.il)

/-- The rewriter after `countOffsets`. -/
def imported (body : Body) : ILRewriter := { importBody body with il := importedNodes body }

/-- A segment without inserted nodes. -/
def Segment.single (x : ILInstr) : Segment := ⟨[], x, []⟩

theorem importIL_getElem? (il : List (Opcode × Arg)) (k i : ℕ) :
    (importIL k il)[i]? = il[i]?.map fun x => ⟨k + i, x.1, 0, x.2⟩ := by
  induction il generalizing k i with
  | nil => simp [importIL]
  | cons x il ih =>
    cases i with
    | zero => rfl
    | succ i =>
      rw [importIL, getElem?_cons_succ, getElem?_cons_succ, ih]
      congr 1
      funext y
      rw [Nat.add_right_comm, Nat.add_assoc]

theorem importedNodes_getElem? (body : Body) (i : ℕ) :
    (importedNodes body)[i]? = body.il[i]?.map fun x => ⟨i, x.1, offsetAt body i, x.2⟩ := by
  rw [importedNodes, countOffsets, getElem?_map, importIL_getElem?, Option.map_map]
  simp [Function.comp_def, offsetAt]

theorem length_importIL (il : List (Opcode × Arg)) (k : ℕ) : (importIL k il).length = il.length := by
  induction il generalizing k with
  | nil => rfl
  | cons x il ih => rw [importIL, length_cons, length_cons, ih]

theorem length_importedNodes (body : Body) : (importedNodes body).length = body.il.length := by
  rw [importedNodes, countOffsets, length_map, length_importIL]

theorem importedNodes_pointers (body : Body) :
    (importedNodes body).map (·.pointer) = List.range body.il.length := by
  apply ext_getElem?
  intro i
  rw [getElem?_map, importedNodes_getElem?, Option.map_map]
  rcases Nat.lt_or_ge i body.il.length with hi | hi
  · simp [getElem?_eq_getElem hi, getElem?_range hi]
  · rw [getElem?_eq_none hi, getElem?_eq_none (by simpa using hi)]
    rfl

theorem sound_imported (body : Body) : (imported body).Sound := by
  have hmem : ∀ x ∈ importedNodes body, x.pointer < body.il.length := by
    intro x hx
    have : x.pointer ∈ (importedNodes body).map (·.pointer) := List.mem_map_of_mem hx
    rw [importedNodes_pointers] at this
    exact mem_range.mp this
  constructor
  · show ((importedNodes body).map (·.pointer)).Nodup
    rw [importedNodes_pointers]
    exact nodup_range
  · exact fun x hx => Nat.lt_succ_of_lt (hmem x hx)
  · exact Nat.lt_succ_self _
  · exact fun x hx => Nat.ne_of_lt (hmem x hx)

theorem flatMap_single (l : List ILInstr) : (l.map Segment.single).flatMap nodes = l := by
  induction l with
  | nil => rfl
  | cons x l ih => rw [map_cons, flatMap_cons, ih]; rfl

theorem laid_imported (body : Body) :
    Laid probes body (imported body) ((importedNodes body).map Segment.single) := by
  have hsegs : ∀ i s, ((importedNodes body).map Segment.single)[i]? = some s →
      ∃ x, body.il[i]? = some x ∧ s = Segment.single ⟨i, x.1, offsetAt body i, x.2⟩ := by
    intro i s hs
    rw [getElem?_map, importedNodes_getElem?] at hs
    cases hx : body.il[i]? with
    | none => simp [hx] at hs
    | some x => exact ⟨x, rfl, by simpa [hx] using hs.symm⟩
  constructor
  · exact sound_imported body
  · exact (flatMap_single _).symm
  · rw [length_map, length_importedNodes]
  · intro i s hs
    obtain ⟨x, hx, rfl⟩ := hsegs i s hs
    exact ⟨hx, rfl, .inl rfl, .nil, .nil, fun _ => rfl, fun _ => rfl⟩
  · rfl
  · refine map_congr_left fun c hc => ?_
    have hc' := body.handler_lt c hc
    have hlast : lastPointer ((importedNodes body).map Segment.single) (c.handlerEnd - 1) =
        c.handlerEnd - 1 := by
      have hlt : c.handlerEnd - 1 < ((importedNodes body).map Segment.single).length := by
        rw [length_map, length_importedNodes]
        omega
      have hget := getElem?_eq_getElem hlt
      obtain ⟨x, -, heq⟩ := hsegs _ _ hget
      rw [lastPointer, hget, heq]
      rfl
    rw [hlast]
    rfl

/-! ### Looking for the ends of blocks -/

def IsTailcall (body : Body) (i : ℕ) : Prop := ∃ arg, body.il[i]? = some (.tailcall, arg)

/-- The first `m` instructions have been looked at. -/
structure Scanned (probes : CoverageProbes) (body : Body) (m : ℕ) (s : Scan) (segs : List Segment) :
    Prop where
  laid : Laid probes body s.rewriter segs
  rest : ∀ j, m ≤ j → segs[j]? = (importedNodes body)[j]?.map Segment.single
  after_nil : ∀ (j : ℕ) (t : Segment), segs[j]? = some t → t.after = []
  moved : ∀ (j : ℕ) (t : Segment), j < m → IsTailcall body j → segs[j]? = some t → t.before ≠ []
  offset : ∀ j < body.il.length, (IsTailcall body j → m ≤ j) → s.rewriter.offset j = offsetAt body j
  priority : ∀ e ∈ s.addPriorityProbe, e.Ok probes body segs
  target : ∀ e ∈ s.addTargetProbe, e.isBeforeInstr = false ∧
    (e.target = body.il.length ∨ e.Ok probes body segs)
  /-- The new instruction of a tail call has the offset of the call. -/
  tail : ∀ k < m, IsTailcall body k → k + 1 < body.il.length → ∃ e ∈ s.addPriorityProbe,
    body.il.length < e.target ∧ (∃ x ∈ s.rewriter.il, x.pointer = e.target) ∧
    s.rewriter.offset e.target = offsetAt body (k + 1)

section
variable {m : ℕ} {sc : Scan}
variable {probe leaveMethod : ProbeCall} {arg : Arg} {x : ILInstr}

theorem scanned_imported (body : Body) :
    Scanned probes body 0 ⟨imported body, false, [], []⟩
      ((importedNodes body).map Segment.single) where
  laid := laid_imported body
  rest j _ := getElem?_map
  after_nil j t ht := by
    rw [getElem?_map, map_eq_some_iff] at ht
    obtain ⟨x, -, rfl⟩ := ht
    rfl
  moved j t hj := absurd hj (Nat.not_lt_zero j)
  offset j hj _ := by
    have hget : (importedNodes body)[j]? = some ⟨j, (body.il[j]).1, offsetAt body j, (body.il[j]).2⟩ := by
      rw [importedNodes_getElem?, getElem?_eq_getElem hj]
      rfl
    exact (sound_imported body).offset_of_mem (mem_of_getElem? hget)
  priority e he := absurd he not_mem_nil
  target e he := absurd he not_mem_nil
  tail k hk := absurd hk (Nat.not_lt_zero k)

section
variable (h : Scanned probes body m sc segs)

include h

theorem Scanned.advance (hm : ¬ IsTailcall body m) :
    Scanned probes body (m + 1) sc segs where
  laid := h.laid
  rest j hj := h.rest j (by omega)
  after_nil := h.after_nil
  moved j t hj htail := by
    rcases Nat.lt_succ_iff_lt_or_eq.mp hj with hlt | rfl
    · exact h.moved j t hlt htail
    · exact absurd htail hm
  offset j hj hle := by
    refine h.offset j hj fun htail => ?_
    have := hle htail
    omega
  priority := h.priority
  target := h.target
  tail k hk htail := by
    rcases Nat.lt_succ_iff_lt_or_eq.mp hk with hlt | rfl
    · exact h.tail k hlt htail
    · exact absurd htail hm

theorem Scanned.pushPriority {target : ℕ}
    {isBeforeInstr : Bool} (hok : ProbeInsertion.Ok probes body segs
      ⟨target, sc.rewriter.sentinel, probe, isBeforeInstr⟩) :
    Scanned probes body m (sc.pushPriority target probe isBeforeInstr) segs where
  laid := h.laid
  rest := h.rest
  after_nil := h.after_nil
  moved := h.moved
  offset := h.offset
  priority e he := by
    rcases mem_append.mp he with he | he
    · exact h.priority e he
    · rw [mem_singleton.mp he]
      exact hok
  target := h.target
  tail k hk htail hlt := by
    obtain ⟨e, he, hnew⟩ := h.tail k hk htail hlt
    exact ⟨e, mem_append_left _ he, hnew⟩

/-- While instructions are collected, the one before a target is the carrier of a segment. -/
theorem Scanned.last_eq (hs : segs[i]? = some s) :
    s.last = s.carrier.pointer := by
  simp [last, nodes, h.after_nil i s hs]

theorem Scanned.pushTarget (parent : ℕ)
    (harg : ∀ pointer, arg = .target pointer →
      pointer ≤ body.il.length ∧ ¬ IsSwitchArg body.il pointer) :
    Scanned probes body m (sc.pushTarget probes parent arg) segs := by
  cases arg with
  | int n => exact h
  | target pointer =>
    obtain ⟨hle, hstart⟩ := harg pointer rfl
    refine
      { laid := h.laid
        rest := h.rest
        after_nil := h.after_nil
        moved := h.moved
        offset := h.offset
        priority := h.priority
        target := ?_
        tail := h.tail }
    intro e he
    rcases mem_append.mp he with he | he
    · exact h.target e he
    · rw [mem_singleton.mp he]
      refine ⟨rfl, ?_⟩
      cases pointer with
      | zero => exact .inl (h.laid.prev_zero.trans h.laid.sentinel)
      | succ i =>
        obtain ⟨s, hs⟩ : ∃ s, segs[i]? = some s :=
          ⟨_, getElem?_eq_getElem (h.laid.length ▸ hle)⟩
        have hprev : sc.rewriter.prev (i + 1) = s.carrier.pointer :=
          (h.laid.prev_eq hs hle).trans (h.last_eq hs)
        refine .inr ⟨by simp [CoverageProbes.binary], i, s, hs, ?_, hstart⟩
        exact .inl hprev.symm

end

/-- The list after `tail.` has been moved into a node of its own. -/
theorem scanTailcall_rewriter (probes : CoverageProbes) (h : sc.rewriter.Sound)
    (hil : sc.rewriter.il = l₁ ++ x :: l₂) :
    ∃ callOffset retOffset,
      (sc.scanTailcall probes x.pointer).rewriter =
        { sc.rewriter with
          il := l₁ ++ { x with opcode := .nop, offset := retOffset } ::
            ⟨sc.rewriter.fresh, .tailcall, callOffset, .int 0⟩ :: l₂
          fresh := sc.rewriter.fresh + 1 } ∧
      ∀ y l, l₂ = y :: l → callOffset = y.offset := by
  have hx : x ∈ sc.rewriter.il := by simp [hil]
  have hxfresh : x.pointer ≠ sc.rewriter.fresh := Nat.ne_of_lt (h.lt_fresh x hx)
  have hleft : ∀ y ∈ l₁, y.pointer ≠ x.pointer := h.ne_left hil
  have hright : ∀ y ∈ l₂, y.pointer ≠ x.pointer := h.ne_right hil
  have hfresh : ∀ y ∈ l₁ ++ x :: l₂, y.pointer ≠ sc.rewriter.fresh := by
    intro y hy
    exact Nat.ne_of_lt (h.lt_fresh y (hil ▸ hy))
  have hnew : ∀ (o : ℕ), ∀ y ∈ (⟨sc.rewriter.fresh, .tailcall, o, .int 0⟩ :: l₂ : List ILInstr),
      y.pointer ≠ x.pointer := by
    intro o y hy
    rcases mem_cons.mp hy with rfl | hy
    · exact hxfresh.symm
    · exact hright y hy
  -- the rewriter after the new instruction has been inserted and the old one made a nop
  let r₁ : ILRewriter :=
    { sc.rewriter with
      il := l₁ ++ { x with opcode := .nop } :: ⟨sc.rewriter.fresh, .tailcall, 0, .int 0⟩ :: l₂
      fresh := sc.rewriter.fresh + 1 }
  have hr₁ : (sc.rewriter.insertNewAfter x.pointer .tailcall (.int 0)).modify x.pointer
      (fun x => { x with opcode := .nop }) = r₁ := by
    simp only [ILRewriter.insertNewAfter, ILRewriter.modify, hil, r₁]
    rw [insertAfter_append hleft, map_modify _ hleft (hnew 0)]
  have hil₁ : r₁.il = (l₁ ++ [{ x with opcode := .nop }]) ++
      ⟨sc.rewriter.fresh, .tailcall, 0, .int 0⟩ :: l₂ := by simp [r₁]
  have hleft₁ : ∀ y ∈ l₁ ++ [{ x with opcode := .nop }], y.pointer ≠ sc.rewriter.fresh := by
    intro y hy
    rcases mem_append.mp hy with hy | hy
    · exact hfresh y (mem_append_left _ hy)
    · rw [mem_singleton.mp hy]
      exact hxfresh
  have hright₁ : ∀ y ∈ l₂, y.pointer ≠ sc.rewriter.fresh := fun y hy =>
    hfresh y (mem_append_right _ (mem_cons_of_mem x hy))
  have hnext : r₁.next sc.rewriter.fresh = l₂.head?.elim r₁.sentinel (·.pointer) := by
    have hsuffix : suffixAt r₁.il sc.rewriter.fresh =
        ⟨sc.rewriter.fresh, .tailcall, 0, .int 0⟩ :: l₂ := hil₁ ▸ suffixAt_append hleft₁
    rw [ILRewriter.next, hsuffix]
    rfl
  let callOffset := r₁.offset (r₁.next sc.rewriter.fresh)
  let r₂ : ILRewriter :=
    { r₁ with
      il := l₁ ++ { x with opcode := .nop } ::
        ⟨sc.rewriter.fresh, .tailcall, callOffset, .int 0⟩ :: l₂ }
  have hr₂ : r₁.modify sc.rewriter.fresh (fun x => { x with offset := callOffset }) = r₂ := by
    have hmap : r₁.il.map (fun y => if y.pointer = sc.rewriter.fresh then
        { y with offset := callOffset } else y) = _ := hil₁ ▸ map_modify _ hleft₁ hright₁
    rw [ILRewriter.modify, hmap]
    simp [r₂]
  refine ⟨callOffset, r₂.offset (r₂.next (r₁.next sc.rewriter.fresh)), ?_, ?_⟩
  · have hmap : r₂.il.map (fun y => if y.pointer = x.pointer then
        { y with offset := r₂.offset (r₂.next (r₁.next sc.rewriter.fresh)) } else y) = _ :=
      map_modify (x := { x with opcode := .nop }) _ hleft (hnew callOffset)
    simp only [Scan.scanTailcall, Scan.pushPriority, hr₁, callOffset] at hr₂ ⊢
    rw [hr₂, ILRewriter.modify]
    exact congrArg (fun il => { r₂ with il := il }) hmap
  · rintro y l rfl
    have hy : ∀ z ∈ l₁ ++ [{ x with opcode := .nop }, ⟨sc.rewriter.fresh, .tailcall, 0, .int 0⟩],
        z.pointer ≠ y.pointer := by
      have hil₂ : sc.rewriter.il = (l₁ ++ [x]) ++ y :: l := by simp [hil]
      have hold := h.ne_left hil₂
      intro z hz
      simp only [mem_append, mem_cons, not_mem_nil, or_false] at hz
      rcases hz with hz | rfl | rfl
      · exact hold z (mem_append_left _ hz)
      · exact hold x (by simp)
      · exact (hright₁ y mem_cons_self).symm
    show r₁.offset (r₁.next sc.rewriter.fresh) = y.offset
    rw [hnext, head?_cons, elim_some, ILRewriter.offset, ILRewriter.get?]
    have hil' : r₁.il = (l₁ ++ [{ x with opcode := .nop },
        ⟨sc.rewriter.fresh, .tailcall, 0, .int 0⟩]) ++ y :: l := by simp [r₁]
    rw [hil', find?_append hy]
    rfl

/-- No handler ends at `tail.`. -/
theorem Laid.handlerEnd_ne (h : Laid probes body r segs) (hs : segs[i]? = some s)
    (htail : IsTailcall body i) (hx : x ∈ s.nodes) :
    ∀ c ∈ r.eh, c.handlerEnd ≠ x.pointer := by
  intro c hc heq
  rw [h.eh] at hc
  obtain ⟨c', hc', rfl⟩ := List.mem_map.mp hc
  have hlt := body.handler_lt c' hc'
  obtain ⟨t, ht⟩ : ∃ t, segs[c'.handlerEnd - 1]? = some t := by
    refine ⟨_, getElem?_eq_getElem ?_⟩
    rw [h.length]
    omega
  have hlast : t.last = x.pointer := by
    rw [← heq]
    simp only [lastPointer, ht, elim_some]
  obtain ⟨z, hz, hzlast⟩ := last_mem t
  have hindex := h.index_eq ht hs hz hx (hzlast.trans hlast)
  obtain ⟨arg, harg⟩ := htail
  exact body.handlerEnd_prefixed c' hc' arg (hindex ▸ harg)

theorem splice_eq_of_ne {inserted : List ILInstr} {new : ℕ}
    (h : ∀ c ∈ r.eh, c.handlerEnd ≠ x.pointer) :
    r.splice l₁ x inserted l₂ new =
      { r with il := l₁ ++ x :: (inserted ++ l₂), fresh := r.fresh + inserted.length } := by
  have hmap : r.eh.map (fun c => if c.handlerEnd = x.pointer then { c with handlerEnd := new }
      else c) = r.eh := by
    rw [map_congr_left fun c hc => if_neg (h c hc), List.map_id']
  rw [ILRewriter.splice, hmap]

/-- The segment of `tail.` after the case `CEE_TAILCALL`. -/
theorem Scanned.laid_scanTailcall (h : Scanned probes body m sc segs)
    (hm : body.il[m]? = some (.tailcall, .int 0)) :
    ∃ x' q : ILInstr, x'.pointer = m ∧ x'.opcode = .nop ∧ q.pointer = sc.rewriter.fresh ∧
      (m + 1 < body.il.length → q.offset = offsetAt body (m + 1)) ∧
      segs[m]? = some (.single ⟨m, .tailcall, offsetAt body m, .int 0⟩) ∧
      Laid probes body (sc.scanTailcall probes m).rewriter (segs.set m ⟨[x'], q, []⟩) ∧
      ∀ y ∈ sc.rewriter.il, y.pointer ≠ m → y ∈ (sc.scanTailcall probes m).rewriter.il := by
  have hs : segs[m]? = some (.single ⟨m, .tailcall, offsetAt body m, .int 0⟩) := by
    rw [h.rest m (Nat.le_refl m), importedNodes_getElem?, hm]
    rfl
  have hnodes : (Segment.single ⟨m, .tailcall, offsetAt body m, .int 0⟩).nodes =
      [] ++ ⟨m, .tailcall, offsetAt body m, .int 0⟩ :: [] := rfl
  have hil := h.laid.il_eq hs hnodes
  obtain ⟨callOffset, retOffset, hrewriter, hcall⟩ :=
    scanTailcall_rewriter probes h.laid.sound hil
  dsimp only at hrewriter
  refine ⟨⟨m, .nop, retOffset, .int 0⟩, ⟨sc.rewriter.fresh, .tailcall, callOffset, .int 0⟩,
    rfl, rfl, rfl, ?_, hs, ?_, ?_⟩
  · intro hlt
    obtain ⟨y, hy⟩ : ∃ y, body.il[m + 1]? = some y := ⟨_, getElem?_eq_getElem hlt⟩
    have ht : segs[m + 1]? = some (.single ⟨m + 1, y.1, offsetAt body (m + 1), y.2⟩) := by
      rw [h.rest (m + 1) (Nat.le_succ m), importedNodes_getElem?, hy]
      rfl
    obtain ⟨hlength, hget⟩ := List.getElem?_eq_some_iff.mp ht
    refine hcall ⟨m + 1, y.1, offsetAt body (m + 1), y.2⟩ ((segs.drop (m + 1 + 1)).flatMap nodes) ?_
    rw [drop_eq_getElem_cons hlength, hget]
    rfl
  · have hfits : Segment.Fits ⟨[⟨m, .nop, retOffset, .int 0⟩],
        ⟨sc.rewriter.fresh, .tailcall, callOffset, .int 0⟩, []⟩ probes body m :=
      { instr := hm
        first_eq := rfl
        operable := .inr ⟨_, mem_singleton.mpr rfl, rfl, rfl⟩
        before_silent := .nop rfl .nil
        after_silent := .nil
        before_nil := by
          rintro ⟨arg, harg⟩
          rw [hm] at harg
          cases harg
        after_nil := fun _ => rfl }
    have hfresh : FreshNodes sc.rewriter.fresh
        ([] ++ [⟨sc.rewriter.fresh, .tailcall, callOffset, .int 0⟩]) := by
      constructor <;> simp
    have hnodes' : nodes ⟨[⟨m, .nop, retOffset, .int 0⟩],
        ⟨sc.rewriter.fresh, .tailcall, callOffset, .int 0⟩, []⟩ = [] ++ ⟨m, .nop, retOffset, .int 0⟩ ::
        ([] ++ [⟨sc.rewriter.fresh, .tailcall, callOffset, .int 0⟩] ++ []) := rfl
    have hlaid := h.laid.splice hs hnodes hnodes' rfl hfresh hfits
    have hne : ∀ c ∈ sc.rewriter.eh,
        c.handlerEnd ≠ ILInstr.pointer ⟨m, .nop, retOffset, .int 0⟩ :=
      h.laid.handlerEnd_ne hs ⟨_, hm⟩ (x := ⟨m, .tailcall, offsetAt body m, .int 0⟩)
        (mem_singleton.mpr rfl)
    rw [splice_eq_of_ne hne] at hlaid
    rw [hrewriter]
    exact hlaid
  · intro y hy hym
    rw [hil] at hy
    rw [hrewriter]
    simp only [mem_append, mem_cons] at hy ⊢
    rcases hy with hy | rfl | hy
    · exact .inl hy
    · exact absurd rfl hym
    · exact .inr (.inr (.inr hy))

theorem Laid.exists_pointer (h : Laid probes body r segs) (hi : i < body.il.length) :
    ∃ x ∈ r.il, x.pointer = i := by
  obtain ⟨s, hs⟩ : ∃ s, segs[i]? = some s := ⟨_, getElem?_eq_getElem (h.length ▸ hi)⟩
  obtain ⟨x, l, hnodes, hx⟩ := s.exists_cons
  refine ⟨x, ?_, hx.trans (h.fits i s hs).first_eq⟩
  have hnodes' : s.nodes = [] ++ x :: l := hnodes
  simp [h.il_eq hs hnodes']

theorem scanTailcall_priority (probes : CoverageProbes) (sc : Scan) (pointer : ℕ) :
    ∃ p, (sc.scanTailcall probes pointer).addPriorityProbe = sc.addPriorityProbe ++
      [⟨sc.rewriter.fresh, p, probes.tailcall, true⟩, ⟨pointer, p, probes.coverage, true⟩] :=
  ⟨_, append_assoc _ _ _⟩

section
variable (h : Scanned probes body m sc segs) {opcode : Opcode}

include h

theorem Scanned.scanTailcall (hm : body.il[m]? = some (.tailcall, .int 0)) :
    ∃ segs', Scanned probes body (m + 1) (sc.scanTailcall probes m) segs' := by
  obtain ⟨x', q, hx', hnop, hq, hoffset, hs, hlaid, hmem⟩ := h.laid_scanTailcall hm
  have hlt : m < segs.length := (List.getElem?_eq_some_iff.mp hs).1
  have hops : Operates segs (segs.set m ⟨[x'], q, []⟩) := by
    refine operates_set hs ?_ (by simp)
    rintro p (rfl | ⟨y, hy, -⟩)
    · exact .inr ⟨x', mem_singleton.mpr rfl, hx', hnop⟩
    · cases hy
  have hkeeps : ∀ pointer, pointer ≠ m → (∃ y ∈ sc.rewriter.il, y.pointer = pointer) →
      (sc.scanTailcall probes m).rewriter.offset pointer = sc.rewriter.offset pointer := by
    rintro pointer hne ⟨y, hy, rfl⟩
    rw [hlaid.sound.offset_of_mem (hmem y hy hne), h.laid.sound.offset_of_mem hy]
  have hget : (segs.set m ⟨[x'], q, []⟩)[m]? = some ⟨[x'], q, []⟩ := getElem?_set_self hlt
  have hstart : ¬ IsSwitchArg body.il m := by
    rintro ⟨arg, harg⟩
    rw [hm] at harg
    cases harg
  refine ⟨segs.set m ⟨[x'], q, []⟩, ?_⟩
  refine
    { laid := hlaid
      rest := ?_
      after_nil := ?_
      moved := ?_
      offset := ?_
      priority := ?_
      target := ?_
      tail := ?_ }
  · intro j hj
    rw [getElem?_set_ne (by omega), h.rest j (by omega)]
  · intro j t ht
    rcases eq_or_ne j m with rfl | hj
    · rw [hget] at ht
      cases ht
      rfl
    · rw [getElem?_set_ne hj.symm] at ht
      exact h.after_nil j t ht
  · intro j t hj htail ht
    rcases eq_or_ne j m with rfl | hne
    · rw [hget] at ht
      cases ht
      simp
    · rw [getElem?_set_ne hne.symm] at ht
      exact h.moved j t (by omega) htail ht
  · intro j hj hle
    have hne : j ≠ m := by
      rintro rfl
      have := hle ⟨_, hm⟩
      omega
    rw [hkeeps j hne (h.laid.exists_pointer hj)]
    refine h.offset j hj fun htail => ?_
    have := hle htail
    omega
  · intro e he
    obtain ⟨p, hpriority⟩ := scanTailcall_priority probes sc m
    rw [hpriority] at he
    simp only [mem_append, mem_cons, not_mem_nil, or_false] at he
    rcases he with he | rfl | rfl
    · exact (h.priority e he).mono hops
    · exact ⟨by simp [CoverageProbes.binary], m, _, hget, .inl hq, hstart⟩
    · refine ⟨by simp [CoverageProbes.binary], m, _, hget, .inr ?_, hstart⟩
      exact ⟨x', mem_singleton.mpr rfl, hx', hnop⟩
  · intro e he
    obtain ⟨hafter, htarget⟩ := h.target e he
    exact ⟨hafter, htarget.imp_right fun hok => hok.mono hops⟩
  · intro k hk htail hklt
    obtain ⟨p, hpriority⟩ := scanTailcall_priority probes sc m
    rw [hpriority]
    rcases Nat.lt_succ_iff_lt_or_eq.mp hk with hlt' | rfl
    · obtain ⟨e, he, hnew, hmem', hoff⟩ := h.tail k hlt' htail hklt
      have hne : e.target ≠ m := by
        have hlength := h.laid.length
        omega
      refine ⟨e, mem_append_left _ he, hnew, ?_, (hkeeps e.target hne hmem').trans hoff⟩
      obtain ⟨y, hy, hytarget⟩ := hmem'
      exact ⟨y, hmem y hy (hytarget ▸ hne), hytarget⟩
    · have hqmem : q ∈ (sc.scanTailcall probes k).rewriter.il := by
        rw [hlaid.il, mem_flatMap]
        exact ⟨_, mem_of_getElem? hget, by simp [nodes]⟩
      refine ⟨⟨sc.rewriter.fresh, p, probes.tailcall, true⟩, by simp, ?_, ⟨q, hqmem, hq⟩, ?_⟩
      · show body.il.length < sc.rewriter.fresh
        rw [← h.laid.sentinel]
        exact h.laid.sound.sentinel_lt
      · show (sc.scanTailcall probes k).rewriter.offset sc.rewriter.fresh = _
        rw [← hq, hlaid.sound.offset_of_mem hqmem, hoffset hklt]

/-- The instructions from the current one on are as they were imported. -/
theorem Scanned.suffixAt_eq (hx : (importedNodes body)[m]? = some x) :
    suffixAt sc.rewriter.il m = x :: (importedNodes body).drop (m + 1) := by
  have hdrop : segs.drop m = ((importedNodes body).drop m).map Segment.single := by
    apply ext_getElem?
    intro j
    rw [getElem?_drop, h.rest (m + j) (Nat.le_add_right m j), getElem?_map, getElem?_drop]
  obtain ⟨hlt, hget⟩ := List.getElem?_eq_some_iff.mp hx
  have hil : sc.rewriter.il = (segs.take m).flatMap nodes ++
      x :: (importedNodes body).drop (m + 1) := by
    have hsplit := congrArg (List.flatMap nodes) (take_append_drop m segs)
    rw [flatMap_append, hdrop, flatMap_single, drop_eq_getElem_cons hlt, hget] at hsplit
    rw [h.laid.il, hsplit]
  have hpointer : x.pointer = m := by
    rw [importedNodes_getElem?, map_eq_some_iff] at hx
    obtain ⟨-, -, rfl⟩ := hx
    rfl
  rw [← hpointer]
  exact hpointer ▸ h.laid.sound.suffixAt_eq hil

section
variable (hm : body.il[m]? = some (opcode, arg)) (hopcode : opcode ≠ .switchArg)

include hm hopcode

theorem Scanned.ok_before (hprobe : probe ∈ probes.binary) (parent : ℕ) :
    ProbeInsertion.Ok probes body segs ⟨m, parent, probe, true⟩ := by
  have hs : segs[m]? = some (.single ⟨m, opcode, offsetAt body m, arg⟩) := by
    rw [h.rest m (Nat.le_refl m), importedNodes_getElem?, hm]
    rfl
  refine ⟨hprobe, m, _, hs, .inl rfl, ?_⟩
  rintro ⟨arg', harg'⟩
  rw [if_pos rfl, hm] at harg'
  cases harg'
  exact hopcode rfl

theorem Scanned.ok_after (hswitch : opcode ≠ .switch) (hprobe : probe ∈ probes.binary) (parent : ℕ)
    :
    ProbeInsertion.Ok probes body segs ⟨m, parent, probe, false⟩ := by
  have hs : segs[m]? = some (.single ⟨m, opcode, offsetAt body m, arg⟩) := by
    rw [h.rest m (Nat.le_refl m), importedNodes_getElem?, hm]
    rfl
  refine ⟨hprobe, m, _, hs, .inl rfl, fun hnext => ?_⟩
  rcases body.switchArg_table m hnext with ⟨arg', harg'⟩ | ⟨arg', harg'⟩
  · rw [hm] at harg'
    cases harg'
    exact hopcode rfl
  · rw [hm] at harg'
    cases harg'
    exact hswitch rfl

end

/-- The prefix of `stsfld`, if it has one. -/
theorem Scanned.ok_stsfld (hm : body.il[m]? = some (.stsfld, arg)) (parent : ℕ) :
    ProbeInsertion.Ok probes body segs
      ⟨if (sc.rewriter.opcode? (sc.rewriter.prev m)).elim false (·.isPrefixOpcode) then
        sc.rewriter.prev m else m, parent, probes.stsfld, true⟩ := by
  have hprobe : probes.stsfld ∈ probes.binary := by simp [CoverageProbes.binary]
  split
  case isFalse => exact h.ok_before hm (by decide) hprobe parent
  case isTrue hprefixed =>
    have hlt : m < body.il.length := (List.getElem?_eq_some_iff.mp hm).1
    cases m with
    | zero =>
      rw [h.laid.prev_zero] at hprefixed
      have hnone : sc.rewriter.opcode? sc.rewriter.sentinel = none := by
        rw [ILRewriter.opcode?, ILRewriter.get?, find?_eq_none.mpr]
        · rfl
        · simpa using h.laid.sound.ne_sentinel
      rw [hnone] at hprefixed
      cases hprefixed
    | succ k =>
      obtain ⟨s, hs⟩ : ∃ s, segs[k]? = some s :=
        ⟨_, getElem?_eq_getElem (by rw [h.laid.length]; omega)⟩
      have hprev : sc.rewriter.prev (k + 1) = s.carrier.pointer :=
        (h.laid.prev_eq hs (Nat.le_of_lt hlt)).trans (h.last_eq hs)
      rw [hprev, ILRewriter.opcode?, h.laid.get?_carrier hs] at hprefixed
      refine ⟨hprobe, k, s, hs, .inl hprev.symm, ?_⟩
      rintro ⟨arg', harg'⟩
      rw [if_pos rfl, (h.laid.fits k s hs).instr] at harg'
      obtain ⟨hopcode, -⟩ := Prod.mk.inj (some.inj harg')
      simp only [map_some, elim_some, hopcode] at hprefixed
      cases hprefixed

theorem Scanned.pushTargets (parent : ℕ) (l : List ILInstr)
    (hl : ∀ y ∈ l, ∃ opcode, (opcode, y.arg) ∈ body.il) :
    Scanned probes body m (l.foldl (fun s y => s.pushTarget probes parent y.arg) sc) segs := by
  induction l generalizing sc with
  | nil => exact h
  | cons y l ih =>
    rw [foldl_cons]
    refine ih (h.pushTarget parent fun pointer harg => ?_) fun z hz =>
      hl z (mem_cons_of_mem y hz)
    obtain ⟨opcode, hmem⟩ := hl y mem_cons_self
    exact body.target_start opcode pointer (harg ▸ hmem)

end

theorem mem_body_of_mem_importedNodes {y : ILInstr} (hy : y ∈ importedNodes body) :
    (y.opcode, y.arg) ∈ body.il := by
  obtain ⟨j, hj⟩ := mem_iff_getElem?.mp hy
  rw [importedNodes_getElem?, map_eq_some_iff] at hj
  obtain ⟨z, hz, rfl⟩ := hj
  exact mem_of_getElem? hz

/-- One instruction is looked at. -/
theorem Scanned.scanInstr (h : Scanned probes body m sc segs)
    (hleave : leaveMethod ∈ probes.binary) (hx : (importedNodes body)[m]? = some x) :
    ∃ segs', Scanned probes body (m + 1) (sc.scanInstr probes leaveMethod x) segs' := by
  have hsuffix := h.suffixAt_eq hx
  rw [importedNodes_getElem?, map_eq_some_iff] at hx
  obtain ⟨⟨opcode, arg⟩, hm, rfl⟩ := hx
  have hmem : (opcode, arg) ∈ body.il := mem_of_getElem? hm
  have hprobes : probes.branch ∈ probes.binary ∧ probes.call ∈ probes.binary ∧
      probes.coverage ∈ probes.binary ∧ probes.throw ∈ probes.binary := by
    simp [CoverageProbes.binary]
  obtain ⟨hbranch, hcall, hcoverage, hthrow⟩ := hprobes
  have hnext : ∀ {sc' : Scan}, opcode ≠ .tailcall → Scanned probes body m sc' segs →
      ∃ segs', Scanned probes body (m + 1) sc' segs' := by
    intro sc' hne h'
    refine ⟨segs, h'.advance ?_⟩
    rintro ⟨arg', harg'⟩
    rw [hm] at harg'
    cases harg'
    exact hne rfl
  have hbefore : ∀ {probe : ProbeCall}, probe ∈ probes.binary → opcode ≠ .switchArg →
      Scanned probes body m (sc.pushPriority m probe true) segs := fun hprobe hne =>
    h.pushPriority (h.ok_before hm hne hprobe _)
  have htarget : ∀ pointer, arg = .target pointer →
      pointer ≤ body.il.length ∧ ¬ IsSwitchArg body.il pointer := by
    rintro pointer rfl
    exact body.target_start opcode pointer hmem
  cases opcode with
  | tailcall =>
    obtain rfl : arg = .int 0 := body.tailcall_arg arg hmem
    exact h.scanTailcall hm
  | br short => exact hnext (by simp) ((hbefore hbranch (by simp)).pushTarget m htarget)
  | condBr code short => exact hnext (by simp) ((hbefore hbranch (by simp)).pushTarget m htarget)
  | leave short => exact hnext (by simp) ((hbefore hbranch (by simp)).pushTarget m htarget)
  | switch =>
    refine hnext (by simp) ((hbefore hbranch (by simp)).pushTargets m _ fun y hy => ?_)
    have hy' : y ∈ importedNodes body := by
      unfold Scan.switchArgs at hy
      split at hy
      · change y ∈ List.take _ (List.drop 1 (suffixAt sc.rewriter.il m)) at hy
        rw [hsuffix] at hy
        exact mem_of_mem_drop (mem_of_mem_take hy)
      · cases hy
    exact ⟨_, mem_body_of_mem_importedNodes hy'⟩
  | stsfld => exact hnext (by simp) (h.pushPriority (h.ok_stsfld hm _))
  | call | calli | callvirt | newobj =>
    refine hnext (by simp) ?_
    simp only [Scan.scanInstr, Opcode.isBranch, Bool.false_eq_true, if_false]
    split
    · exact h
    · exact h.pushPriority (h.ok_after hm (by simp) (by simp) hcall _)
  | ret =>
    refine hnext (by simp) ?_
    simp only [Scan.scanInstr, Opcode.isBranch, Bool.false_eq_true, if_false]
    split
    · exact { h with }
    · exact hbefore hleave (by simp)
  | endfinally | endfilter => exact hnext (by simp) (hbefore hcoverage (by simp))
  | throw | rethrow => exact hnext (by simp) (hbefore hthrow (by simp))
  | nop | ldcI4 | ldcI4Zero | ldcI8 | unaligned | volatile | readonly | constrained | switchArg
  | other code size => exact hnext (by simp) h

theorem Scanned.scanInstrs (hleave : leaveMethod ∈ probes.binary) (l : List ILInstr)
    (h : Scanned probes body m sc segs) (hm : m ≤ body.il.length)
    (hl : (importedNodes body).drop m = l) :
    ∃ segs', Scanned probes body body.il.length (l.foldl (Scan.scanInstr probes leaveMethod) sc)
      segs' := by
  induction l generalizing m sc segs with
  | nil =>
    have hle := drop_eq_nil_iff.mp hl
    rw [length_importedNodes] at hle
    obtain rfl : m = body.il.length := Nat.le_antisymm hm hle
    exact ⟨segs, h⟩
  | cons x l ih =>
    have hx : (importedNodes body)[m]? = some x := by
      rw [← head?_drop, hl]
      rfl
    have hlt : m < body.il.length := by
      rw [← length_importedNodes]
      exact (List.getElem?_eq_some_iff.mp hx).1
    obtain ⟨segs', h'⟩ := h.scanInstr hleave hx
    refine ih h' hlt ?_
    rw [← tail_drop, hl, tail_cons]

theorem Scanned.scanHandlers (h : Scanned probes body m sc segs) :
    Scanned probes body m (sc.scanHandlers probes) segs := by
  have hstep : ∀ (l : List EHClause) (sc : Scan), Scanned probes body m sc segs →
      (∀ c ∈ l, c ∈ sc.rewriter.eh) →
      Scanned probes body m
        (l.foldl (fun s c => s.pushPriority c.handlerBegin probes.throw true) sc) segs := by
    intro l
    induction l with
    | nil => exact fun _ h _ => h
    | cons c l ih =>
      intro sc h hl
      refine ih _ (h.pushPriority ?_) fun c' hc' => hl c' (mem_cons_of_mem c hc')
      have hc := hl c mem_cons_self
      rw [h.laid.eh] at hc
      obtain ⟨c', hc', rfl⟩ := List.mem_map.mp hc
      have hlt : c'.handlerBegin < segs.length := by
        have := body.handler_lt c' hc'
        rw [h.laid.length]
        omega
      have hs := getElem?_eq_getElem hlt
      refine ⟨by simp [CoverageProbes.binary], _, _, hs, (h.laid.fits _ _ hs).operable, ?_⟩
      exact body.handlerBegin_start c' hc'
  exact hstep _ sc h fun _ hc => hc

theorem scanned_scan (body : Body) (hleave : leaveMethod ∈ probes.binary) :
    ∃ segs, Scanned probes body body.il.length (scan probes leaveMethod (imported body)) segs := by
  obtain ⟨segs, h⟩ := (scanned_imported body).scanInstrs hleave (importedNodes body)
    (Nat.zero_le _) drop_zero
  exact ⟨segs, h.scanHandlers⟩

end

/-! ### Priority probes -/

theorem Segment.Operable.exists_mem (h : s.Operable pointer) :
    ∃ x ∈ s.nodes, x.pointer = pointer := by
  rcases h with h | ⟨x, hx, h, -⟩
  · exact ⟨s.carrier, by simp [nodes], h⟩
  · exact ⟨x, mem_append_left _ hx, h⟩

theorem Laid.exists_of_operable (h : Laid probes body r segs) (hs : segs[i]? = some s)
    (hop : s.Operable pointer) : ∃ x ∈ r.il, x.pointer = pointer := by
  obtain ⟨x, hx, hpointer⟩ := hop.exists_mem
  refine ⟨x, ?_, hpointer⟩
  rw [h.il, mem_flatMap]
  exact ⟨s, mem_of_getElem? hs, hx⟩

/-- All priority probes are inserted, and the offsets of their targets are covered. -/
theorem Laid.insertPriorities (methodId : ℤ) (l : List ProbeInsertion) (covered : List ℕ)
    (h : Laid probes body r segs) (hl : ∀ e ∈ l, e.Ok probes body segs) :
    ∃ segs', Laid probes body (l.foldl (insertPriority methodId) (r, covered)).1 segs' ∧
      Grows r segs (l.foldl (insertPriority methodId) (r, covered)).1 segs' ∧
      (∀ o ∈ covered, o ∈ (l.foldl (insertPriority methodId) (r, covered)).2) ∧
      ∀ e ∈ l, r.offset e.target ∈ (l.foldl (insertPriority methodId) (r, covered)).2 := by
  induction l generalizing r segs covered with
  | nil => exact ⟨segs, h, .refl r segs, fun _ ho => ho, fun e he => absurd he not_mem_nil⟩
  | cons e l ih =>
    have hok := hl e mem_cons_self
    obtain ⟨segs₁, h₁, hgrows₁⟩ := h.makeProbeInsertion hok methodId
    have hoffset : (r.makeProbeInsertion e methodId).offset e.target = r.offset e.target := by
      obtain ⟨-, j, t, ht, hop, -⟩ := hok
      exact hgrows₁.offset _ (h.exists_of_operable ht hop)
    obtain ⟨segs₂, h₂, hgrows₂, hcovered, htargets⟩ :=
      ih ((r.makeProbeInsertion e methodId).offset e.target :: covered) h₁ fun e' he' =>
        (hl e' (mem_cons_of_mem e he')).mono hgrows₁.operable
    rw [foldl_cons]
    refine ⟨segs₂, h₂, hgrows₁.trans hgrows₂, ?_, ?_⟩
    · intro o ho
      exact hcovered o (mem_cons_of_mem _ ho)
    · intro e' he'
      rcases mem_cons.mp he' with rfl | he'
      · rw [← hoffset]
        exact hcovered _ mem_cons_self
      · obtain ⟨-, j, t, ht, hop, -⟩ := hl e' (mem_cons_of_mem e he')
        rw [← hgrows₁.offset _ (h.exists_of_operable ht hop)]
        exact htargets e' he'

/-! ### Targets of branches -/

/-- Tail calls have been moved, and the offsets of their calls are covered. -/
structure Covers (body : Body) (r : ILRewriter) (segs : List Segment) (covered : List ℕ) : Prop where
  moved : ∀ (j : ℕ) (t : Segment), IsTailcall body j → segs[j]? = some t → t.before ≠ []
  call : ∀ k, IsTailcall body k → k + 1 < body.il.length → ¬ IsTailcall body (k + 1) →
    r.offset (k + 1) ∈ covered

theorem Covers.mono {covered' : List ℕ} (h : Covers body r segs covered)
    (hlaid : Laid probes body r segs) (hlaid' : Laid probes body r' segs')
    (hgrows : Grows r segs r' segs') (hsub : ∀ o ∈ covered, o ∈ covered') :
    Covers body r' segs' covered' where
  moved j t htail ht hnil := by
    have hj : j < segs.length := by
      rw [hlaid.length, ← hlaid'.length]
      exact (List.getElem?_eq_some_iff.mp ht).1
    have hs := getElem?_eq_getElem hj
    obtain ⟨t', ht', -, hbefore⟩ := hgrows.operable j _ hs
    rw [ht] at ht'
    cases ht'
    exact h.moved j _ htail hs (hbefore hnil)
  call k htail hk hnext := by
    rw [hgrows.offset _ (hlaid.exists_pointer hk)]
    exact hsub _ (h.call k htail hk hnext)

/-- After the priority probes, the calls of tail calls are covered. -/
theorem Scanned.covers {sc : Scan} (h : Scanned probes body body.il.length sc segs)
    (hlaid : Laid probes body r' segs') (hgrows : Grows sc.rewriter segs r' segs')
    (hcovered : ∀ e ∈ sc.addPriorityProbe, sc.rewriter.offset e.target ∈ covered) :
    Covers body r' segs' covered := by
  refine Covers.mono ⟨?_, ?_⟩ h.laid hlaid hgrows fun _ ho => ho
  · intro j t htail ht
    have hj : j < body.il.length := by
      rw [← h.laid.length]
      exact (List.getElem?_eq_some_iff.mp ht).1
    exact h.moved j t hj htail ht
  · intro k htail hk hnext
    obtain ⟨e, he, -, -, hoffset⟩ := h.tail k (by omega) htail hk
    rw [h.offset (k + 1) hk fun htail' => absurd htail' hnext, ← hoffset]
    exact hcovered e he

theorem Silent.opcode_ne (h : Silent probes l) (hx : x ∈ l) :
    x.opcode ≠ .ret ∧ x.opcode ≠ .tailcall := by
  induction h with
  | nil => cases hx
  | nop hnop _ ih =>
    rcases mem_cons.mp hx with rfl | hx
    · simp [hnop]
    · exact ih hx
  | probe _ ha _ hb _ hf _ hg _ _ ih =>
    simp only [mem_cons] at hx
    rcases hx with rfl | rfl | rfl | rfl | hx
    · simp [ha]
    · simp [hb]
    · simp [hf]
    · simp [hg]
    · exact ih hx

/-- The node with a given opcode that is not silent carries an instruction. -/
theorem Laid.exists_carrier (h : Laid probes body r segs) (hx : x ∈ r.il)
    (hopcode : x.opcode = .ret ∨ x.opcode = .tailcall) :
    ∃ (k : ℕ) (t : Segment), segs[k]? = some t ∧ t.carrier = x := by
  rw [h.il, mem_flatMap] at hx
  obtain ⟨t, ht, hx⟩ := hx
  obtain ⟨k, hk⟩ := mem_iff_getElem?.mp ht
  refine ⟨k, t, hk, ?_⟩
  have hfits := h.fits k t hk
  rcases mem_append.mp hx with hx | hx
  · obtain ⟨hret, htail⟩ := hfits.before_silent.opcode_ne hx
    exact (hopcode.elim hret htail).elim
  · rcases mem_cons.mp hx with rfl | hx
    · rfl
    · obtain ⟨hret, htail⟩ := hfits.after_silent.opcode_ne hx
      exact (hopcode.elim hret htail).elim

/-- A pointer at which probes may be inserted is not behind the carrier. -/
theorem Laid.not_mem_after (h : Laid probes body r segs) {k : ℕ} {t : Segment}
    (hs : segs[i]? = some s) (hop : s.Operable pointer) (ht : segs[k]? = some t)
    (hx : x ∈ t.after) : x.pointer ≠ pointer := by
  rintro rfl
  have hxt : x ∈ t.nodes := mem_append_right _ (mem_cons_of_mem _ hx)
  obtain ⟨y, hy, hxy⟩ := hop.exists_mem
  obtain rfl := h.index_eq hs ht hy hxt hxy
  rw [hs] at ht
  cases ht
  have hsub : (s.nodes.map (·.pointer)).Nodup := by
    have hnodup := h.sound.nodup
    rw [h.il, map_flatMap, nodup_flatMap] at hnodup
    exact hnodup.1 s (mem_of_getElem? hs)
  have hsplit : s.nodes = (s.before ++ [s.carrier]) ++ s.after := by simp [nodes]
  rw [hsplit, map_append] at hsub
  refine disjoint_of_nodup_append hsub (a := x.pointer) ?_ (List.mem_map_of_mem hx)
  rcases hop with hcarrier | ⟨z, hz, hpointer, -⟩
  · exact hcarrier ▸ List.mem_map_of_mem (by simp)
  · exact hpointer ▸ List.mem_map_of_mem (mem_append_left _ hz)

theorem ILRewriter.Sound.next_eq (h : r.Sound) (hil : r.il = l₁ ++ x :: l₂) :
    r.next x.pointer = l₂.head?.elim r.sentinel (·.pointer) := by
  rw [ILRewriter.next, h.suffixAt_eq hil, tail_cons]

theorem ILRewriter.Sound.opcode?_sentinel (h : r.Sound) : r.opcode? r.sentinel = none := by
  rw [ILRewriter.opcode?, ILRewriter.get?, find?_eq_none.mpr]
  · rfl
  · simpa using h.ne_sentinel

theorem ILRewriter.Sound.opcode?_eq (h : r.Sound) (hil : r.il = l₁ ++ x :: l₂) :
    r.opcode? x.pointer = some x.opcode := by
  rw [ILRewriter.opcode?, h.get?_eq hil]
  rfl

/-- The return after a tail call, with its neighbours. -/
theorem ILRewriter.Sound.exists_tailcall (h : r.Sound) (hil : r.il = l₁ ++ x :: l₂)
    (hret : r.isTailcallRet (r.next x.pointer) = true) :
    ∃ z y l₁' l₂', r.il = l₁' ++ z :: x :: y :: l₂' ∧ z.opcode = .tailcall ∧ y.opcode = .ret := by
  rw [ILRewriter.isTailcallRet, Bool.and_eq_true, decide_eq_true_iff, decide_eq_true_iff,
    h.next_eq hil] at hret
  obtain ⟨hy, hz⟩ := hret
  cases l₂ with
  | nil =>
    rw [head?_nil, elim_none, h.opcode?_sentinel] at hy
    cases hy
  | cons y l₂ =>
    have hily : r.il = (l₁ ++ [x]) ++ y :: l₂ := by simp [hil]
    rw [head?_cons, elim_some] at hy hz
    rw [h.opcode?_eq hily] at hy
    rw [h.prev_eq hily, getLast?_concat, elim_some, h.prev_eq hil] at hz
    rcases eq_nil_or_concat l₁ with rfl | ⟨l₁, z, rfl⟩
    · rw [getLast?_nil, elim_none, h.opcode?_sentinel] at hz
      cases hz
    · have hilz : r.il = l₁ ++ z :: x :: y :: l₂ := by simp [hil]
      simp only [concat_eq_append, getLast?_concat, elim_some] at hz
      rw [h.opcode?_eq hilz] at hz
      exact ⟨z, y, l₁, l₂, hilz, some.inj hz, some.inj hy⟩

/-- The call after `tail.` is covered, so that no return is added for a branch behind it. -/
theorem Laid.not_isTailcallRet (h : Laid probes body r segs)
    (hcovers : Covers body r segs covered) (hs : segs[i]? = some s) (hop : s.Operable pointer)
    (hoffset : r.offset pointer ∉ covered) :
    r.isTailcallRet (r.next pointer) = false := by
  by_contra hret
  rw [Bool.not_eq_false] at hret
  obtain ⟨x, hx, rfl⟩ := h.exists_of_operable hs hop
  obtain ⟨l₁, l₂, hil⟩ := append_of_mem hx
  obtain ⟨z, y, l₁', l₂', hilz, hz, hy⟩ := h.sound.exists_tailcall hil hret
  obtain ⟨k, t, ht, rfl⟩ := h.exists_carrier (by simp [hilz]) (.inr hz)
  have htail : IsTailcall body k := ⟨t.carrier.arg, hz ▸ (h.fits k t ht).instr⟩
  -- what follows the carrier of `tail.`, read in both ways
  have hrest : t.after ++ (segs.drop (k + 1)).flatMap nodes = x :: y :: l₂' := by
    have hsuffix := h.sound.suffixAt_eq (h.il_eq ht rfl)
    rw [h.sound.suffixAt_eq hilz] at hsuffix
    exact (List.cons.inj hsuffix).2.symm
  cases hafter : t.after with
  | cons w l =>
    rw [hafter, cons_append] at hrest
    obtain ⟨rfl, -⟩ := List.cons.inj hrest
    exact h.not_mem_after hs hop ht (hafter ▸ mem_cons_self) rfl
  | nil =>
    rw [hafter, nil_append] at hrest
    cases hdrop : segs.drop (k + 1) with
    | nil =>
      rw [hdrop] at hrest
      cases hrest
    | cons u us =>
      have hu : segs[k + 1]? = some u := by
        rw [← head?_drop, hdrop]
        rfl
      have hlt : k + 1 < body.il.length := by
        rw [← h.length]
        exact (List.getElem?_eq_some_iff.mp hu).1
      have hfits := h.fits (k + 1) u hu
      rw [hdrop, flatMap_cons] at hrest
      by_cases hnext : IsTailcall body (k + 1)
      · cases hbefore : u.before with
        | nil => exact hcovers.moved (k + 1) u hnext hu hbefore
        | cons w l =>
          have hsilent := hfits.before_silent
          rw [nodes, hbefore] at hrest
          rw [hbefore] at hsilent
          cases l with
          | nil =>
            obtain ⟨-, hcarrier⟩ := List.cons.inj hrest
            obtain ⟨hcarrier, -⟩ := List.cons.inj hcarrier
            obtain ⟨arg, harg⟩ := hnext
            rw [hfits.instr] at harg
            have hopcode := (Prod.mk.inj (some.inj harg)).1
            rw [hcarrier, hy] at hopcode
            cases hopcode
          | cons v l =>
            obtain ⟨-, hv⟩ := List.cons.inj hrest
            obtain ⟨rfl, -⟩ := List.cons.inj hv
            exact (hsilent.opcode_ne (by simp)).1 hy
      · obtain ⟨w, l, hnodes, hw⟩ := u.exists_cons
        rw [hnodes] at hrest
        obtain ⟨rfl, -⟩ := List.cons.inj hrest
        rw [hfits.first_eq] at hw
        exact hoffset (hw ▸ hcovers.call k htail hlt hnext)

/-- The probes at the targets of branches are inserted, and nothing else. -/
theorem Laid.insertTargets (leaveMethod : ProbeCall) (methodId : ℤ) (l : List ProbeInsertion)
    (covered : List ℕ) (h : Laid probes body r segs) (hcovers : Covers body r segs covered)
    (hl : ∀ e ∈ l, e.isBeforeInstr = false ∧ (e.target = body.il.length ∨ e.Ok probes body segs)) :
    ∃ segs', Laid probes body (l.foldl (insertTarget leaveMethod methodId) (r, covered)).1 segs' := by
  induction l generalizing r segs covered with
  | nil => exact ⟨segs, h⟩
  | cons e l ih =>
    rw [foldl_cons]
    have htail := fun e' he' => hl e' (mem_cons_of_mem e he')
    unfold insertTarget
    dsimp only
    split
    case isTrue => exact ih covered h hcovers htail
    case isFalse hskip =>
      obtain ⟨hsentinel, hoffset⟩ := not_or.mp hskip
      obtain ⟨hafter, htarget⟩ := hl e mem_cons_self
      rw [h.sentinel] at hsentinel
      obtain ⟨hprobe, j, t, ht, hop, harg⟩ := htarget.resolve_left hsentinel
      rw [hafter, if_neg (by simp)] at harg
      rw [h.not_isTailcallRet hcovers ht hop hoffset, if_neg (by simp)]
      obtain ⟨segs₁, h₁, hgrows⟩ := h.addCoverageProbeAfter ht hop harg hprobe methodId
      refine ih _ h₁ (hcovers.mono h h₁ hgrows fun o ho => mem_cons_of_mem _ ho) ?_
      intro e' he'
      obtain ⟨hafter', htarget'⟩ := htail e' he'
      exact ⟨hafter', htarget'.imp_right fun hok => hok.mono hgrows.operable⟩

end VSharp.CoverageInstrumenter.Rewriting
