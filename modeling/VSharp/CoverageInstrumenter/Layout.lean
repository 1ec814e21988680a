import VSharp.CoverageInstrumenter.BlockEnds

/-!
# CoverageInstrumenter — Layout

The end of `RewriteIL`: the enter probe, and `Export`, which widens branches.  The list that is left is
the call of the enter probe and a segment for each instruction of the body (`layout_rewriteIL`).
-/

namespace VSharp.CoverageInstrumenter.Rewriting
open List Segment
variable {probes : CoverageProbes} {body : Body} {r : ILRewriter} {segs : List Segment}
variable {f : ILInstr → ILInstr} {l : List ILInstr} {probe : ProbeCall}

/-! ### The rewritten list -/

/-- The branches may have got their long forms. -/
def Opcode.Widened (opcode opcode' : Opcode) : Prop := opcode' = opcode ∨ opcode' = opcode.widen

/-- The call of the enter probe. -/
def IsEnter (probes : CoverageProbes) (l : List ILInstr) : Prop :=
  ∃ (a b z f g : ILInstr) (n k : ℤ) (probe : ProbeCall), l = [a, b, z, f, g] ∧
    probe ∈ probes.ternary ∧ a.opcode = .ldcI4 ∧ a.arg = .int n ∧ b.opcode = .ldcI4 ∧
    b.arg = .int k ∧ z.opcode = .ldcI4Zero ∧ f.opcode = .ldcI8 ∧ f.arg = .int probe.addr ∧
    g.opcode = .calli ∧ g.arg = .int probe.sig

/-- The segment of the instruction `i` in the rewritten list. -/
structure Segment.Stands (s : Segment) (probes : CoverageProbes) (body : Body) (i : ℕ) : Prop where
  instr : ∃ opcode, body.il[i]? = some (opcode, s.carrier.arg) ∧ opcode.Widened s.carrier.opcode
  /-- What led to the instruction leads to the first node. -/
  first_eq : s.first = i
  before_silent : Silent probes s.before
  after_silent : Silent probes s.after
  /-- The targets of a switch follow it. -/
  before_nil : IsSwitchArg body.il i → s.before = []
  after_nil : IsSwitchArg body.il (i + 1) → s.after = []

/-- The rewritten list: without the silent nodes, these are the instructions of the body in order. -/
structure Layout (probes : CoverageProbes) (body : Body) (r : ILRewriter) (enter : List ILInstr)
    (segs : List Segment) : Prop where
  sound : r.Sound
  il : r.il = enter ++ segs.flatMap nodes
  isEnter : IsEnter probes enter
  length : segs.length = body.il.length
  stands : ∀ (i : ℕ) (s : Segment), segs[i]? = some s → s.Stands probes body i
  sentinel : r.sentinel = body.il.length
  eh : r.eh = body.eh.map fun c =>
    { importEH c with handlerEnd := lastPointer segs (c.handlerEnd - 1) }

/-! ### `Export` -/

/-- Only the opcodes of branches and the offsets change. -/
def Widens (f : ILInstr → ILInstr) : Prop :=
  ∀ x, (f x).pointer = x.pointer ∧ (f x).arg = x.arg ∧ x.opcode.Widened (f x).opcode

theorem Opcode.widen_widen (opcode : Opcode) : opcode.widen.widen = opcode.widen := by
  cases opcode <;> rfl

theorem Widens.comp {g : ILInstr → ILInstr} (hf : Widens f) (hg : Widens g) : Widens (g ∘ f) := by
  intro x
  obtain ⟨hpointer, harg, hopcode⟩ := hf x
  obtain ⟨hpointer', harg', hopcode'⟩ := hg (f x)
  refine ⟨hpointer'.trans hpointer, harg'.trans harg, ?_⟩
  rcases hopcode with h | h <;> rcases hopcode' with h' | h'
  · exact .inl (h'.trans h)
  · exact .inr (by rw [Function.comp_apply, h', h])
  · exact .inr (h'.trans h)
  · exact .inr (by rw [Function.comp_apply, h', h, Opcode.widen_widen])

theorem widens_widenBranch (il : List ILInstr) : Widens (widenBranch il) := by
  intro x
  rcases widenBranch_eq_or il x with h | ⟨-, h⟩
  · rw [h]
    exact ⟨rfl, rfl, .inl rfl⟩
  · rw [h]
    exact ⟨rfl, rfl, .inr rfl⟩

theorem exists_exportIL (il : List ILInstr) : ∃ f, exportIL il = il.map f ∧ Widens f := by
  induction il using exportIL.induct with
  | case1 il h =>
    rw [exportIL, if_pos h]
    exact ⟨_, rfl, fun x => ⟨rfl, rfl, .inl rfl⟩⟩
  | case2 il h ih =>
    obtain ⟨f, hf, hwidens⟩ := ih
    rw [exportIL, if_neg h, hf, widenBranches, map_map]
    exact ⟨_, rfl, (widens_widenBranch il).comp hwidens⟩

theorem Opcode.Widened.eq {opcode opcode' : Opcode} (h : opcode.Widened opcode')
    (hopcode : opcode.widen = opcode) : opcode' = opcode :=
  h.elim id fun h => h.trans hopcode

theorem Silent.map (h : Silent probes l) (hf : Widens f) : Silent probes (l.map f) := by
  have hopcode : ∀ {x : ILInstr} {opcode : Opcode}, x.opcode = opcode → opcode.widen = opcode →
      (f x).opcode = opcode := by
    rintro x _ rfl hwiden
    exact (hf x).2.2.eq hwiden
  have harg : ∀ {x : ILInstr} {n : ℤ}, x.arg = .int n → (f x).arg = .int n := by
    intro x n hx
    rw [(hf x).2.1, hx]
  induction h with
  | nil => exact .nil
  | nop hx _ ih => exact .nop (hopcode hx rfl) ih
  | probe hprobe ha ha' hb hb' hf hf' hg hg' _ ih =>
    exact .probe hprobe (hopcode ha rfl) (harg ha') (hopcode hb rfl) (harg hb') (hopcode hf rfl)
      (harg hf') (hopcode hg rfl) (harg hg') ih

theorem IsEnter.map (h : IsEnter probes l) (hf : Widens f) : IsEnter probes (l.map f) := by
  obtain ⟨a, b, z, c, g, n, k, probe, rfl, hprobe, ha, ha', hb, hb', hz, hc, hc', hg, hg'⟩ := h
  have hopcode : ∀ {x : ILInstr} {opcode : Opcode}, x.opcode = opcode → opcode.widen = opcode →
      (f x).opcode = opcode := by
    rintro x _ rfl hwiden
    exact (hf x).2.2.eq hwiden
  refine ⟨f a, f b, f z, f c, f g, n, k, probe, rfl, hprobe, hopcode ha rfl, ?_, hopcode hb rfl, ?_,
    hopcode hz rfl, hopcode hc rfl, ?_, hopcode hg rfl, ?_⟩
  · rw [(hf a).2.1, ha']
  · rw [(hf b).2.1, hb']
  · rw [(hf c).2.1, hc']
  · rw [(hf g).2.1, hg']

/-- A segment after `Export`. -/
def Segment.map (f : ILInstr → ILInstr) (s : Segment) : Segment :=
  ⟨s.before.map f, f s.carrier, s.after.map f⟩

theorem Segment.nodes_map (f : ILInstr → ILInstr) (s : Segment) :
    (s.map f).nodes = s.nodes.map f := by
  simp [nodes, Segment.map]

/-! ### The enter probe -/

/-- The nodes of `AddEnterProbe`. -/
def enterNodes (fresh : ℕ) (offset methodId : ℤ) (probe : ProbeCall) : List ILInstr :=
  [⟨fresh, .ldcI4, 0, .int offset⟩, ⟨fresh + 1, .ldcI4, 0, .int methodId⟩,
    ⟨fresh + 2, .ldcI4Zero, 0, .int 0⟩, ⟨fresh + 3, .ldcI8, 0, .int probe.addr⟩,
    ⟨fresh + 4, .calli, 0, .int probe.sig⟩]

theorem isEnter_enterNodes (h : probe ∈ probes.ternary) (fresh : ℕ) (offset methodId : ℤ) :
    IsEnter probes (enterNodes fresh offset methodId probe) :=
  ⟨_, _, _, _, _, offset, methodId, probe, rfl, h, rfl, rfl, rfl, rfl, rfl, rfl, rfl, rfl, rfl⟩

/-- Nodes are inserted before the first node, or at the end of an empty list. -/
theorem insertBefore_first {il : List ILInstr} {pointer : ℕ} (what : ILInstr)
    (hl : ∀ x ∈ l, x.pointer ≠ pointer) (hfirst : il.head?.elim True fun x => x.pointer = pointer) :
    insertBefore pointer what (l ++ il) = l ++ what :: il := by
  cases il with
  | nil =>
    induction l with
    | nil => rfl
    | cons x l ih =>
      rw [cons_append, insertBefore, if_neg (hl x mem_cons_self),
        ih fun y hy => hl y (mem_cons_of_mem x hy)]
      rfl
  | cons y il =>
    have hy : y.pointer = pointer := hfirst
    subst hy
    exact insertBefore_append hl

theorem addEnterProbe_eq (h : r.Sound) (probe : ProbeCall) (methodId : ℤ) :
    ∃ offset : ℤ, r.addEnterProbe probe methodId =
      { r with
        il := enterNodes r.fresh offset methodId probe ++ r.il
        fresh := r.fresh + 5 } := by
  let first := r.il.head?.elim r.sentinel (·.pointer)
  have hfirst : r.il.head?.elim True fun x => x.pointer = first := by
    cases hil : r.il with
    | nil => trivial
    | cons x il => simp [first, hil]
  have hlt : first < r.fresh := by
    cases hil : r.il with
    | nil => simpa [first, hil] using h.sentinel_lt
    | cons x il => simpa [first, hil] using h.lt_fresh x (by simp [hil])
  refine ⟨r.offset first, ?_⟩
  have hinsert : ∀ (l : List ILInstr) (what : ILInstr), (∀ x ∈ l, first < x.pointer) →
      insertBefore first what (l ++ r.il) = l ++ what :: r.il := fun l what hl =>
    insertBefore_first what (fun x hx => Nat.ne_of_gt (hl x hx)) hfirst
  have h₀ := hinsert [] ⟨r.fresh, .ldcI4, 0, .int (r.offset first)⟩ (by simp)
  have h₁ := hinsert [⟨r.fresh, .ldcI4, 0, .int (r.offset first)⟩]
    ⟨r.fresh + 1, .ldcI4, 0, .int methodId⟩ (by simpa using hlt)
  have h₂ := hinsert [⟨r.fresh, .ldcI4, 0, .int (r.offset first)⟩,
    ⟨r.fresh + 1, .ldcI4, 0, .int methodId⟩] ⟨r.fresh + 2, .ldcI4Zero, 0, .int 0⟩ (by simp; omega)
  have h₃ := hinsert [⟨r.fresh, .ldcI4, 0, .int (r.offset first)⟩,
    ⟨r.fresh + 1, .ldcI4, 0, .int methodId⟩, ⟨r.fresh + 2, .ldcI4Zero, 0, .int 0⟩]
    ⟨r.fresh + 3, .ldcI8, 0, .int probe.addr⟩ (by simp; omega)
  have h₄ := hinsert [⟨r.fresh, .ldcI4, 0, .int (r.offset first)⟩,
    ⟨r.fresh + 1, .ldcI4, 0, .int methodId⟩, ⟨r.fresh + 2, .ldcI4Zero, 0, .int 0⟩,
    ⟨r.fresh + 3, .ldcI8, 0, .int probe.addr⟩] ⟨r.fresh + 4, .calli, 0, .int probe.sig⟩
    (by simp; omega)
  simp only [nil_append, cons_append] at h₀ h₁ h₂ h₃ h₄
  simp only [ILRewriter.addEnterProbe, ILRewriter.addProbe, ILRewriter.insertNewBefore, h₀, h₁, h₂,
    h₃, h₄, enterNodes, cons_append, nil_append, first] at *

theorem flatMap_map_nodes (f : ILInstr → ILInstr) (segs : List Segment) :
    (segs.map (Segment.map f)).flatMap nodes = (segs.flatMap nodes).map f := by
  rw [flatMap_map, map_flatMap]
  congr 1
  funext s
  exact s.nodes_map f

theorem Widens.first_eq (hf : Widens f) (s : Segment) :
    (s.map f).first = s.first := by
  rw [first, first, s.nodes_map, head?_map]
  cases s.nodes.head? with
  | none => rfl
  | some x => exact (hf x).1

theorem Widens.last_eq (hf : Widens f) (s : Segment) :
    (s.map f).last = s.last := by
  rw [last, last, s.nodes_map, getLast?_map]
  cases s.nodes.getLast? with
  | none => rfl
  | some x => exact (hf x).1

theorem Widens.stands (hf : Widens f) {s : Segment} {i : ℕ} (h : s.Fits probes body i) :
    (s.map f).Stands probes body i where
  instr := by
    obtain ⟨-, harg, hopcode⟩ := hf s.carrier
    refine ⟨s.carrier.opcode, ?_, hopcode⟩
    rw [h.instr, Segment.map, harg]
  first_eq := (hf.first_eq s).trans h.first_eq
  before_silent := h.before_silent.map hf
  after_silent := h.after_silent.map hf
  before_nil hi := by rw [Segment.map, h.before_nil hi, map_nil]
  after_nil hi := by rw [Segment.map, h.after_nil hi, map_nil]

theorem nodup_enterNodes (fresh : ℕ) (offset methodId : ℤ) (probe : ProbeCall) :
    FreshNodes fresh (enterNodes fresh offset methodId probe) := by
  constructor <;> simp [enterNodes]

/-- What `RewriteIL` makes of the segments at its end. -/
theorem Laid.layout (h : Laid probes body r segs) (hprobe : probe ∈ probes.ternary) (methodId : ℤ) :
    ∃ enter segs', Layout probes body
      { r.addEnterProbe probe methodId with il := exportIL (r.addEnterProbe probe methodId).il }
      enter segs' := by
  obtain ⟨offset, henter⟩ := addEnterProbe_eq h.sound probe methodId
  rw [henter]
  obtain ⟨f, hf, hwidens⟩ :=
    exists_exportIL (enterNodes r.fresh offset methodId probe ++ r.il)
  have hfresh := nodup_enterNodes r.fresh offset methodId probe
  have hpointers : (exportIL (enterNodes r.fresh offset methodId probe ++ r.il)).map (·.pointer) =
      (enterNodes r.fresh offset methodId probe ++ r.il).map (·.pointer) := by
    rw [hf, map_map]
    exact map_congr_left fun x _ => (hwidens x).1
  refine ⟨(enterNodes r.fresh offset methodId probe).map f, segs.map (Segment.map f), ?_⟩
  have hmem : ∀ x ∈ exportIL (enterNodes r.fresh offset methodId probe ++ r.il),
      ∃ y ∈ enterNodes r.fresh offset methodId probe ++ r.il, y.pointer = x.pointer := by
    intro x hx
    exact mem_map.mp (hpointers ▸ mem_map_of_mem hx)
  refine
    { sound := ⟨?_, ?_, ?_, ?_⟩
      il := ?_
      isEnter := (isEnter_enterNodes hprobe _ _ _).map hwidens
      length := by rw [length_map, h.length]
      stands := ?_
      sentinel := h.sentinel
      eh := ?_ }
  · show ((exportIL _).map (·.pointer)).Nodup
    rw [hpointers, map_append]
    refine List.Nodup.append hfresh.nodup h.sound.nodup ?_
    intro pointer hnew hold
    obtain ⟨x, hx, rfl⟩ := mem_map.mp hnew
    obtain ⟨y, hy, heq⟩ := mem_map.mp hold
    have hle := hfresh.le x hx
    have hlt := h.sound.lt_fresh y hy
    omega
  · intro x hx
    obtain ⟨y, hy, heq⟩ := hmem x hx
    show x.pointer < r.fresh + 5
    rw [← heq]
    rcases mem_append.mp hy with hy | hy
    · exact hfresh.lt y hy
    · exact Nat.lt_add_right 5 (h.sound.lt_fresh y hy)
  · exact Nat.lt_add_right 5 h.sound.sentinel_lt
  · intro x hx
    obtain ⟨y, hy, heq⟩ := hmem x hx
    show x.pointer ≠ r.sentinel
    rw [← heq]
    rcases mem_append.mp hy with hy | hy
    · have hle := hfresh.le y hy
      have hlt := h.sound.sentinel_lt
      omega
    · exact h.sound.ne_sentinel y hy
  · rw [hf, map_append, flatMap_map_nodes, h.il]
  · intro i s hs
    rw [getElem?_map, Option.map_eq_some_iff] at hs
    obtain ⟨t, ht, rfl⟩ := hs
    exact hwidens.stands (h.fits i t ht)
  · have hlast : ∀ j, lastPointer (segs.map (Segment.map f)) j = lastPointer segs j := by
      intro j
      rw [lastPointer, lastPointer, getElem?_map]
      cases segs[j]? with
      | none => rfl
      | some s => exact hwidens.last_eq s
    simp only [hlast]
    exact h.eh

/-- The list that `RewriteIL` hands to the runtime. -/
theorem layout_rewriteIL (probes : CoverageProbes) (methodId : ℤ) (isMain : Bool) (body : Body) :
    ∃ enter segs, Layout probes body (rewriteIL probes methodId isMain body) enter segs := by
  have hleave : (if isMain then probes.leaveMain else probes.leave) ∈ probes.binary := by
    cases isMain <;> simp [CoverageProbes.binary]
  have henter : (if isMain then probes.enterMain else probes.enter) ∈ probes.ternary := by
    cases isMain <;> simp [CoverageProbes.ternary]
  obtain ⟨segs, hscanned⟩ := scanned_scan body hleave
  obtain ⟨segs₁, h₁, hgrows, -, hpriority⟩ :=
    hscanned.laid.insertPriorities methodId _ [] hscanned.priority
  have hcovers : Covers body _ segs₁ _ := hscanned.covers h₁ hgrows hpriority
  obtain ⟨segs₂, h₂⟩ := h₁.insertTargets _ methodId _ _ hcovers fun e he =>
    ⟨(hscanned.target e he).1, (hscanned.target e he).2.imp_right fun hok =>
      hok.mono hgrows.operable⟩
  exact h₂.layout henter methodId

end VSharp.CoverageInstrumenter.Rewriting
