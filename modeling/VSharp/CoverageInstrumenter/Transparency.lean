import Mathlib.Data.List.TakeWhile
import VSharp.CoverageInstrumenter.Layout
import VSharp.Library.Stuttering

/-!
# CoverageInstrumenter — Transparency

What the rewritten method does, compared with the original one.

- `Body.Step` and `Step`: the original body and the list of nodes, executed.
- `Layout.inTry_iff` and its companions: the clauses cover the same instructions.
- `rewriteIL_transparent`: both run alike, with the same evaluation stack before every original
  instruction.
-/

namespace VSharp.CoverageInstrumenter.Rewriting
open List
open Library (Drains Stutters)

variable {probes : CoverageProbes} {body : Body} {r : ILRewriter} {segs : List Segment}

/-! ### Running -/

/-- Where control goes after an instruction: to the next one, to an instruction of the body, to a case
of a switch, or into a clause. -/
inductive Exit where
  | next
  | goto (pointer : ℕ)
  | case (index : ℕ)
  | handler (clause : ℕ)
  | filter (clause : ℕ)

/-- What instructions do to the evaluation stack and to the rest of the state.  Only nops, constants
and probes are fixed: a probe takes its arguments from the stack and returns nothing. -/
structure Semantics (probes : CoverageProbes) (V σ : Type) where
  ofInt : ℤ → V
  exec : Opcode → Arg → List V × σ → Exit → List V × σ → Prop
  exec_nop : ∀ arg c e c', exec .nop arg c e c' ↔ e = .next ∧ c' = c
  exec_ldcI4 : ∀ n stack m e c', exec .ldcI4 (.int n) (stack, m) e c' ↔
    e = .next ∧ c' = (ofInt n :: stack, m)
  exec_ldcI4Zero : ∀ arg stack m e c', exec .ldcI4Zero arg (stack, m) e c' ↔
    e = .next ∧ c' = (ofInt 0 :: stack, m)
  exec_ldcI8 : ∀ n stack m e c', exec .ldcI8 (.int n) (stack, m) e c' ↔
    e = .next ∧ c' = (ofInt n :: stack, m)
  exec_binary : ∀ probe ∈ probes.binary, ∀ a b stack m e c',
    exec .calli (.int probe.sig) (ofInt probe.addr :: b :: a :: stack, m) e c' ↔
      e = .next ∧ c' = (stack, m)
  exec_ternary : ∀ probe ∈ probes.ternary, ∀ a b d stack m e c',
    exec .calli (.int probe.sig) (ofInt probe.addr :: d :: b :: a :: stack, m) e c' ↔
      e = .next ∧ c' = (stack, m)
  exec_widen : ∀ opcode, exec opcode.widen = exec opcode

variable {V σ : Type}

/-- The instruction `i` of the body is executed. -/
inductive Body.Step (body : Body) (S : Semantics probes V σ) :
    ℕ × List V × σ → ℕ × List V × σ → Prop where
  | next {i : ℕ} {opcode : Opcode} {arg : Arg} {c c' : List V × σ}
      (hi : body.il[i]? = some (opcode, arg)) (hopcode : opcode ≠ .switch)
      (h : S.exec opcode arg c .next c') : Step body S (i, c) (i + 1, c')
  | skip {i n : ℕ} {c c' : List V × σ} (hi : body.il[i]? = some (.switch, .int n))
      (h : S.exec .switch (.int n) c .next c') : Step body S (i, c) (i + 1 + n, c')
  | goto {i pointer : ℕ} {opcode : Opcode} {arg : Arg} {c c' : List V × σ}
      (hi : body.il[i]? = some (opcode, arg)) (hpointer : pointer ≤ body.il.length)
      (h : S.exec opcode arg c (.goto pointer) c') : Step body S (i, c) (pointer, c')
  | case {i n j pointer : ℕ} {c c' : List V × σ} (hi : body.il[i]? = some (.switch, .int n))
      (hj : j < n) (harg : body.il[i + 1 + j]? = some (.switchArg, .target pointer))
      (h : S.exec .switch (.int n) c (.case j) c') : Step body S (i, c) (pointer, c')
  | handler {i k : ℕ} {opcode : Opcode} {arg : Arg} {clause : Clause} {c c' : List V × σ}
      (hi : body.il[i]? = some (opcode, arg)) (hk : body.eh[k]? = some clause)
      (hin : (clause.tryBegin ≤ i ∧ i < clause.tryEnd) ∨
        ∃ f, clause.filter = some f ∧ f ≤ i ∧ i < clause.handlerBegin)
      (h : S.exec opcode arg c (.handler k) c') : Step body S (i, c) (clause.handlerBegin, c')
  | filter {i k f : ℕ} {opcode : Opcode} {arg : Arg} {clause : Clause} {c c' : List V × σ}
      (hi : body.il[i]? = some (opcode, arg)) (hk : body.eh[k]? = some clause)
      (hf : clause.filter = some f) (hin : clause.tryBegin ≤ i ∧ i < clause.tryEnd)
      (h : S.exec opcode arg c (.filter k) c') : Step body S (i, c) (f, c')

/-- The node at the head of `suffix` is in the block of the clause. -/
def InTry (il : List ILInstr) (clause : EHClause) (suffix : List ILInstr) : Prop :=
  (suffixAt il clause.tryEnd).length < suffix.length ∧
    suffix.length ≤ (suffixAt il clause.tryBegin).length

/-- The node at the head of `suffix` is in the handler of the clause, whose last node is known. -/
def InHandler (il : List ILInstr) (clause : EHClause) (suffix : List ILInstr) : Prop :=
  (suffixAt il clause.handlerEnd).tail.length < suffix.length ∧
    suffix.length ≤ (suffixAt il clause.handlerBegin).length

/-- The node at the head of `suffix` is in the filter of the clause, which ends at its handler. -/
def InFilter (il : List ILInstr) (clause : EHClause) (suffix : List ILInstr) : Prop :=
  ∃ f, clause.filter = some f ∧ (suffixAt il clause.handlerBegin).length < suffix.length ∧
    suffix.length ≤ (suffixAt il f).length

/-- The first node of the list is executed. -/
inductive Step (r : ILRewriter) (S : Semantics probes V σ) :
    List ILInstr × List V × σ → List ILInstr × List V × σ → Prop where
  | next {x : ILInstr} {l : List ILInstr} {c c' : List V × σ} (hopcode : x.opcode ≠ .switch)
      (h : S.exec x.opcode x.arg c .next c') : Step r S (x :: l, c) (l, c')
  | skip {x : ILInstr} {l : List ILInstr} {n : ℕ} {c c' : List V × σ} (hopcode : x.opcode = .switch)
      (harg : x.arg = .int n) (h : S.exec x.opcode x.arg c .next c') :
      Step r S (x :: l, c) (l.drop n, c')
  | goto {x : ILInstr} {l : List ILInstr} {pointer : ℕ} {c c' : List V × σ}
      (hpointer : pointer ≤ r.sentinel) (h : S.exec x.opcode x.arg c (.goto pointer) c') :
      Step r S (x :: l, c) (suffixAt r.il pointer, c')
  | case {x y : ILInstr} {l : List ILInstr} {n j pointer : ℕ} {c c' : List V × σ}
      (hopcode : x.opcode = .switch) (harg : x.arg = .int n) (hj : j < n) (hy : l[j]? = some y)
      (hopcode' : y.opcode = .switchArg) (harg' : y.arg = .target pointer)
      (h : S.exec x.opcode x.arg c (.case j) c') :
      Step r S (x :: l, c) (suffixAt r.il pointer, c')
  | handler {x : ILInstr} {l : List ILInstr} {k : ℕ} {clause : EHClause} {c c' : List V × σ}
      (hk : r.eh[k]? = some clause)
      (hin : InTry r.il clause (x :: l) ∨ InFilter r.il clause (x :: l))
      (h : S.exec x.opcode x.arg c (.handler k) c') :
      Step r S (x :: l, c) (suffixAt r.il clause.handlerBegin, c')
  | filter {x : ILInstr} {l : List ILInstr} {k f : ℕ} {clause : EHClause} {c c' : List V × σ}
      (hk : r.eh[k]? = some clause) (hf : clause.filter = some f)
      (hin : InTry r.il clause (x :: l)) (h : S.exec x.opcode x.arg c (.filter k) c') :
      Step r S (x :: l, c) (suffixAt r.il f, c')

/-- An instruction that can only go on to the next one. -/
theorem step_iff_of_exec {S : Semantics probes V σ} {x : ILInstr} {l : List ILInstr}
    {c c₁ : List V × σ} (hopcode : x.opcode ≠ .switch)
    (h : ∀ e c', S.exec x.opcode x.arg c e c' ↔ e = .next ∧ c' = c₁)
    (b : List ILInstr × List V × σ) : Step r S (x :: l, c) b ↔ b = (l, c₁) := by
  constructor
  · intro hstep
    cases hstep with
    | next _ hexec =>
      obtain ⟨-, rfl⟩ := (h _ _).mp hexec
      rfl
    | skip hswitch => exact absurd hswitch hopcode
    | goto _ hexec => cases ((h _ _).mp hexec).1
    | case hswitch => exact absurd hswitch hopcode
    | handler _ _ hexec => cases ((h _ _).mp hexec).1
    | filter _ _ _ hexec => cases ((h _ _).mp hexec).1
  · rintro rfl
    exact .next hopcode ((h _ _).mpr ⟨rfl, rfl⟩)

/-! ### Places in the list -/

/-- The nodes from the segment `i` on. -/
def rest (segs : List Segment) (i : ℕ) : List ILInstr := (segs.drop i).flatMap Segment.nodes

/-- The nodes behind the carrier of the segment `i`. -/
def behind (segs : List Segment) (i : ℕ) : List ILInstr :=
  segs[i]?.elim [] fun s => s.after ++ rest segs (i + 1)

/-- The nodes from the carrier of the segment `i` on; none at the end of the code. -/
def carrierSuffix (segs : List Segment) (i : ℕ) : List ILInstr :=
  segs[i]?.elim [] fun s => s.carrier :: behind segs i

section
variable {s : Segment} {i j : ℕ}

theorem carrierSuffix_eq (hs : segs[i]? = some s) :
    carrierSuffix segs i = s.carrier :: behind segs i := by
  rw [carrierSuffix, hs]
  rfl

theorem behind_eq (hs : segs[i]? = some s) : behind segs i = s.after ++ rest segs (i + 1) := by
  rw [behind, hs]
  rfl

theorem carrierSuffix_end (hi : segs.length ≤ i) : carrierSuffix segs i = [] := by
  rw [carrierSuffix, getElem?_eq_none hi]
  rfl

theorem rest_end (hi : segs.length ≤ i) : rest segs i = [] := by
  rw [rest, drop_eq_nil_of_le hi]
  rfl

theorem rest_eq (hs : segs[i]? = some s) : rest segs i = s.before ++ carrierSuffix segs i := by
  obtain ⟨hi, hget⟩ := List.getElem?_eq_some_iff.mp hs
  rw [rest, drop_eq_getElem_cons hi, hget, flatMap_cons, carrierSuffix_eq hs, behind_eq hs]
  simp [Segment.nodes, rest]

theorem length_rest_le (hij : i ≤ j) : (rest segs j).length ≤ (rest segs i).length := by
  obtain ⟨k, rfl⟩ := Nat.exists_eq_add_of_le hij
  have hdrop : segs.drop i = (segs.drop i).take k ++ segs.drop (i + k) := by
    rw [← drop_drop, take_append_drop]
  rw [rest, rest, hdrop, flatMap_append, length_append]
  exact Nat.le_add_left _ _

theorem length_carrierSuffix_le (segs : List Segment) (i : ℕ) :
    (carrierSuffix segs i).length ≤ (rest segs i).length := by
  cases hs : segs[i]? with
  | none => simp [carrierSuffix, hs]
  | some s => simp [rest_eq hs]

theorem length_behind_lt (hs : segs[i]? = some s) :
    (behind segs i).length < (carrierSuffix segs i).length := by
  rw [carrierSuffix_eq hs]
  exact Nat.lt_succ_self _

theorem length_rest_lt (hi : i < segs.length) (hij : i < j) :
    (rest segs j).length < (carrierSuffix segs i).length := by
  have hs := getElem?_eq_getElem hi
  have hle : (rest segs j).length ≤ (rest segs (i + 1)).length := length_rest_le hij
  rw [carrierSuffix_eq hs, behind_eq hs, length_cons, length_append]
  omega

/-- Places are told apart by what is left of the list. -/
theorem length_carrierSuffix_le_rest_iff (hi : i < segs.length) :
    (carrierSuffix segs i).length ≤ (rest segs j).length ↔ j ≤ i := by
  constructor
  · intro hle
    by_contra hlt
    have := length_rest_lt hi (Nat.lt_of_not_le hlt)
    omega
  · intro hji
    exact (length_carrierSuffix_le segs i).trans (length_rest_le hji)

theorem length_rest_lt_carrierSuffix_iff (hi : i < segs.length) :
    (rest segs j).length < (carrierSuffix segs i).length ↔ i < j := by
  rw [← Nat.not_le, length_carrierSuffix_le_rest_iff hi, Nat.not_le]

theorem carrierSuffix_injOn (hi : i ≤ segs.length) (hj : j ≤ segs.length)
    (h : carrierSuffix segs i = carrierSuffix segs j) : i = j := by
  have hlt : ∀ {i j : ℕ}, i < j → j ≤ segs.length →
      carrierSuffix segs i ≠ carrierSuffix segs j := by
    intro i j hij hj heq
    have hi : i < segs.length := Nat.lt_of_lt_of_le hij hj
    have hrest := length_rest_lt hi hij
    have hle := length_carrierSuffix_le segs j
    rw [heq] at hrest
    omega
  rcases Nat.lt_trichotomy i j with h' | h' | h'
  · exact absurd h (hlt h' hj)
  · exact h'
  · exact absurd h.symm (hlt h' hi)

end

/-! ### Clauses -/

namespace Layout
variable {enter : List ILInstr} {i k : ℕ} {clause : Clause}

section
variable (h : Layout probes body r enter segs)

include h

/-- What leads to the instruction `i` leads to its segment. -/
theorem suffixAt_eq (hi : i ≤ body.il.length) :
    suffixAt r.il i = rest segs i := by
  rcases Nat.lt_or_eq_of_le hi with hlt | rfl
  · have hlength : i < segs.length := h.length ▸ hlt
    have hs := getElem?_eq_getElem hlength
    obtain ⟨x, l, hnodes, hx⟩ := segs[i].exists_cons
    rw [(h.stands i _ hs).first_eq] at hx
    have hrest : rest segs i = x :: (l ++ rest segs (i + 1)) := by
      rw [rest, drop_eq_getElem_cons hlength, flatMap_cons, hnodes]
      rfl
    have hil : r.il = (enter ++ (segs.take i).flatMap Segment.nodes) ++
        x :: (l ++ rest segs (i + 1)) := by
      have hsplit := congrArg (List.flatMap Segment.nodes) (take_append_drop i segs)
      rw [flatMap_append] at hsplit
      rw [h.il, ← hsplit, ← hrest, append_assoc]
      rfl
    rw [hrest, ← hx]
    exact hx ▸ h.sound.suffixAt_eq hil
  · rw [rest_end (Nat.le_of_eq h.length), suffixAt, dropWhile_eq_nil_iff]
    intro x hx
    have hne := h.sound.ne_sentinel x hx
    rw [h.sentinel] at hne
    simpa using hne

section
variable (hk : body.eh[k]? = some clause)

include hk

theorem exists_clause :
    r.eh[k]? = some { importEH clause with
      handlerEnd := lastPointer segs (clause.handlerEnd - 1) } := by
  rw [h.eh, getElem?_map, hk]
  rfl

theorem inTry_iff (hi : i < body.il.length) (handlerEnd : ℕ) :
    InTry r.il { importEH clause with handlerEnd := handlerEnd } (carrierSuffix segs i) ↔
      clause.tryBegin ≤ i ∧ i < clause.tryEnd := by
  obtain ⟨hbegin, hend⟩ := body.tryBegin_le clause (mem_of_getElem? hk)
  have hi' : i < segs.length := h.length ▸ hi
  rw [InTry, importEH, h.suffixAt_eq hbegin, h.suffixAt_eq hend,
    length_carrierSuffix_le_rest_iff hi', length_rest_lt_carrierSuffix_iff hi', and_comm]

theorem inFilter_iff (hi : i < body.il.length) (handlerEnd : ℕ) :
    InFilter r.il { importEH clause with handlerEnd := handlerEnd } (carrierSuffix segs i) ↔
      ∃ f, clause.filter = some f ∧ f ≤ i ∧ i < clause.handlerBegin := by
  have hmem := mem_of_getElem? hk
  have hi' : i < segs.length := h.length ▸ hi
  have hbegin : clause.handlerBegin ≤ body.il.length := by
    have := body.handler_lt clause hmem
    omega
  rw [InFilter, importEH]
  refine exists_congr fun f => and_congr_right fun hf => ?_
  rw [h.suffixAt_eq hbegin, h.suffixAt_eq (body.filter_le clause hmem f hf),
    length_carrierSuffix_le_rest_iff hi', length_rest_lt_carrierSuffix_iff hi', and_comm]

end

/-- The handler ends with the last node of a segment. -/
theorem suffixAt_last {s : Segment} (hs : segs[i]? = some s) :
    (suffixAt r.il s.last).tail = rest segs (i + 1) := by
  obtain ⟨hi, hget⟩ := List.getElem?_eq_some_iff.mp hs
  rcases eq_nil_or_concat s.nodes with hnil | ⟨l, z, hl⟩
  · simp [Segment.nodes] at hnil
  · have hnodes : s.nodes = l ++ [z] := by simpa using hl
    have hlast : s.last = z.pointer := by simp [Segment.last, hnodes]
    have hil : r.il = (enter ++ (segs.take i).flatMap Segment.nodes ++ l) ++
        z :: rest segs (i + 1) := by
      rw [h.il, flatMap_eq hs, hnodes]
      simp [rest]
    rw [hlast, h.sound.suffixAt_eq hil, tail_cons]

theorem inHandler_iff (hk : body.eh[k]? = some clause)
    (hi : i < body.il.length) :
    InHandler r.il { importEH clause with handlerEnd := lastPointer segs (clause.handlerEnd - 1) }
        (carrierSuffix segs i) ↔
      clause.handlerBegin ≤ i ∧ i < clause.handlerEnd := by
  obtain ⟨hlt, hle⟩ := body.handler_lt clause (mem_of_getElem? hk)
  have hi' : i < segs.length := h.length ▸ hi
  have hbegin : clause.handlerBegin ≤ body.il.length := by omega
  have hend : clause.handlerEnd - 1 < segs.length := by
    rw [h.length]
    omega
  have hs := getElem?_eq_getElem hend
  have htail : (suffixAt r.il (lastPointer segs (clause.handlerEnd - 1))).tail =
      rest segs clause.handlerEnd := by
    rw [lastPointer, hs, Option.elim_some, h.suffixAt_last hs]
    congr 1
    omega
  rw [InHandler, importEH]
  dsimp only
  rw [htail, h.suffixAt_eq hbegin, length_carrierSuffix_le_rest_iff hi',
    length_rest_lt_carrierSuffix_iff hi', and_comm]

end

end Layout

/-! ### Silent nodes -/

section
variable {S : Semantics probes V σ} {visible : List ILInstr × List V × σ → Prop}
variable {x : ILInstr} {gap rest : List ILInstr}

/-- The nodes of `gap` are not visible. -/
def Hides (visible : List ILInstr × List V × σ → Prop) (gap rest : List ILInstr) : Prop :=
  ∀ b, visible b → b.1.length ≤ rest.length ∨ (gap ++ rest).length < b.1.length

theorem Hides.not_visible (h : Hides visible (x :: gap) rest) (c : List V × σ) :
    ¬ visible (x :: (gap ++ rest), c) := by
  intro hvisible
  have := h _ hvisible
  simp only [length_cons, length_append, cons_append] at this
  omega

theorem Hides.tail (h : Hides visible (x :: gap) rest) :
    Hides visible gap rest := by
  intro b hb
  refine (h b hb).imp_right fun hlt => ?_
  rw [cons_append, length_cons] at hlt
  omega

/-- A node that can only go on to the next one, and is not visible. -/
theorem drains_cons {c : List V × σ} (c₁ : List V × σ) {b : List ILInstr × List V × σ}
    (hhides : Hides visible (x :: gap) rest) (hopcode : x.opcode ≠ .switch)
    (hexec : ∀ e c', S.exec x.opcode x.arg c e c' ↔ e = .next ∧ c' = c₁)
    (t : Drains (Step r S) visible (gap ++ rest, c₁) b) :
    Drains (Step r S) visible (x :: (gap ++ rest), c) b :=
  .more (hhides.not_visible c) (step_iff_of_exec hopcode hexec) t

/-- Silent nodes are run through, and leave the stack as it was. -/
theorem Silent.drains (h : Silent probes gap) (rest : List ILInstr) (c : List V × σ)
    (hhides : Hides visible gap rest) :
    Drains (Step r S) visible (gap ++ rest, c) (rest, c) := by
  obtain ⟨stack, m⟩ := c
  induction h with
  | nil => exact .refl _
  | nop hx _ ih =>
    refine drains_cons (stack, m) hhides (by simp [hx]) (fun e c' => ?_) (ih hhides.tail)
    rw [hx]
    exact S.exec_nop _ _ _ _
  | @probe a b f g l n k probe hprobe ha ha' hb hb' hf hf' hg hg' _ ih =>
    have h₁ := hhides.tail
    have h₂ := h₁.tail
    have h₃ := h₂.tail
    refine drains_cons (S.ofInt n :: stack, m) hhides (by simp [ha]) (fun e c' => ?_) ?_
    · rw [ha, ha']
      exact S.exec_ldcI4 _ _ _ _ _
    refine drains_cons (S.ofInt k :: S.ofInt n :: stack, m) h₁ (by simp [hb]) (fun e c' => ?_) ?_
    · rw [hb, hb']
      exact S.exec_ldcI4 _ _ _ _ _
    refine drains_cons (S.ofInt probe.addr :: S.ofInt k :: S.ofInt n :: stack, m) h₂
      (by simp [hf]) (fun e c' => ?_) ?_
    · rw [hf, hf']
      exact S.exec_ldcI8 _ _ _ _ _
    refine drains_cons (stack, m) h₃ (by simp [hg]) (fun e c' => ?_) (ih h₃.tail)
    rw [hg, hg']
    exact S.exec_binary probe hprobe _ _ _ _ _ _

theorem IsEnter.drains {enter : List ILInstr} (h : IsEnter probes enter) (rest : List ILInstr)
    (c : List V × σ) (hhides : Hides visible enter rest) :
    Drains (Step r S) visible (enter ++ rest, c) (rest, c) := by
  obtain ⟨stack, m⟩ := c
  obtain ⟨a, b, z, f, g, n, k, probe, rfl, hprobe, ha, ha', hb, hb', hz, hf, hf', hg, hg'⟩ := h
  have h₁ := hhides.tail
  have h₂ := h₁.tail
  have h₃ := h₂.tail
  have h₄ := h₃.tail
  refine drains_cons (S.ofInt n :: stack, m) hhides (by simp [ha]) (fun e c' => ?_) ?_
  · rw [ha, ha']
    exact S.exec_ldcI4 _ _ _ _ _
  refine drains_cons (S.ofInt k :: S.ofInt n :: stack, m) h₁ (by simp [hb]) (fun e c' => ?_) ?_
  · rw [hb, hb']
    exact S.exec_ldcI4 _ _ _ _ _
  refine drains_cons (S.ofInt 0 :: S.ofInt k :: S.ofInt n :: stack, m) h₂ (by simp [hz])
    (fun e c' => ?_) ?_
  · rw [hz]
    exact S.exec_ldcI4Zero _ _ _ _ _
  refine drains_cons (S.ofInt probe.addr :: S.ofInt 0 :: S.ofInt k :: S.ofInt n :: stack, m) h₃
    (by simp [hf]) (fun e c' => ?_) ?_
  · rw [hf, hf']
    exact S.exec_ldcI8 _ _ _ _ _
  refine drains_cons (stack, m) h₄ (by simp [hg]) (fun e c' => ?_) (.refl _)
  rw [hg, hg']
  exact S.exec_ternary probe hprobe _ _ _ _ _ _ _

end

/-! ### Both machines -/

/-- The original instruction `i` with a state, in the rewritten list. -/
def point (segs : List Segment) (a : ℕ × List V × σ) : List ILInstr × List V × σ :=
  (carrierSuffix segs a.1, a.2)

/-- The instructions of the body, and the end of the code. -/
def inBody (body : Body) : Set (ℕ × List V × σ) := {a | a.1 ≤ body.il.length}

namespace Layout
variable {enter : List ILInstr} {i : ℕ} {s : Segment} {S : Semantics probes V σ}

section
variable (h : Layout probes body r enter segs)

include h

/-- A gap before the carrier of `i` that ends the one of `i - 1`. -/
theorem hides {gap : List ILInstr}
    (hgap : ∀ j < i, (gap ++ carrierSuffix segs i).length < (carrierSuffix segs j).length) :
    Hides (V := V) (σ := σ) (· ∈ point segs '' inBody body) gap (carrierSuffix segs i) := by
  rintro b ⟨⟨j, c⟩, hj, rfl⟩
  rcases Nat.lt_or_ge j i with hlt | hge
  · exact .inr (hgap j hlt)
  · refine .inl ?_
    show (carrierSuffix segs j).length ≤ (carrierSuffix segs i).length
    rcases eq_or_ne j i with rfl | hne
    · exact Nat.le_refl _
    · have hlt : i < j := by omega
      have hi : i < segs.length := by
        rw [h.length]
        exact Nat.lt_of_lt_of_le hlt hj
      have hrest := length_rest_lt hi hlt
      have hle := length_carrierSuffix_le segs j
      omega

/-- From the first node of a segment to its carrier. -/
theorem drains_rest (hi : i ≤ body.il.length)
    (c : List V × σ) :
    Drains (Step r S) (· ∈ point segs '' inBody body) (rest segs i, c) (point segs (i, c)) := by
  rcases Nat.lt_or_eq_of_le hi with hlt | rfl
  · have hs := getElem?_eq_getElem (h.length ▸ hlt : i < segs.length)
    rw [rest_eq hs]
    refine (h.stands i _ hs).before_silent.drains _ c (h.hides fun j hj => ?_)
    rw [← rest_eq hs]
    exact length_rest_lt (by rw [h.length]; omega) hj
  · rw [rest_end (Nat.le_of_eq h.length), point, carrierSuffix_end (Nat.le_of_eq h.length)]
    exact .refl _

/-- From behind a carrier to the next one. -/
theorem drains_behind (hi : i < body.il.length)
    (c : List V × σ) :
    Drains (Step r S) (· ∈ point segs '' inBody body) (behind segs i, c)
      (point segs (i + 1, c)) := by
  have hlength : i < segs.length := h.length ▸ hi
  have hs := getElem?_eq_getElem hlength
  have hbefore : ∀ j < i + 1, (behind segs i).length < (carrierSuffix segs j).length := by
    intro j hj
    have hbehind := length_behind_lt hs
    rcases Nat.lt_succ_iff_lt_or_eq.mp hj with hlt | rfl
    · have hrest := length_rest_lt (Nat.lt_trans hlt hlength) hlt
      have hle := length_carrierSuffix_le segs i
      omega
    · exact hbehind
  rcases Nat.lt_or_eq_of_le (Nat.succ_le_of_lt hi) with hnext | hend
  · obtain ⟨t, ht⟩ : ∃ t, segs[i + 1]? = some t :=
      ⟨_, getElem?_eq_getElem (h.length ▸ hnext)⟩
    have hsilent := (h.stands i _ hs).after_silent.append (h.stands (i + 1) t ht).before_silent
    have heq : behind segs i = (segs[i].after ++ t.before) ++ carrierSuffix segs (i + 1) := by
      rw [behind_eq hs, rest_eq ht, append_assoc]
    rw [heq] at hbefore ⊢
    exact hsilent.drains _ c (h.hides hbefore)
  · have hle : segs.length ≤ i + 1 := by
      rw [h.length]
      omega
    have heq : behind segs i = segs[i].after ++ carrierSuffix segs (i + 1) := by
      rw [behind_eq hs, rest_end hle, carrierSuffix_end hle]
    rw [heq] at hbefore ⊢
    exact (h.stands i _ hs).after_silent.drains _ c (h.hides hbefore)

/-- The carriers of a switch and of its targets stand side by side. -/
theorem behind_drop {n : ℕ} (hi : i < body.il.length)
    (htable : ∀ j < n, IsSwitchArg body.il (i + 1 + j)) :
    (behind segs i).drop n = behind segs (i + n) ∧ i + n < body.il.length := by
  induction n with
  | zero => exact ⟨rfl, hi⟩
  | succ n ih =>
    obtain ⟨hdrop, hlt⟩ := ih fun j hj => htable j (Nat.lt_succ_of_lt hj)
    have harg : IsSwitchArg body.il (i + n + 1) := by
      have := htable n (Nat.lt_succ_self n)
      rwa [Nat.add_right_comm] at this
    have hlt' : i + n + 1 < body.il.length := by
      obtain ⟨arg, harg⟩ := harg
      exact (List.getElem?_eq_some_iff.mp harg).1
    have hs := getElem?_eq_getElem (h.length ▸ hlt : i + n < segs.length)
    obtain ⟨t, ht⟩ : ∃ t, segs[i + n + 1]? = some t :=
      ⟨_, getElem?_eq_getElem (h.length ▸ hlt')⟩
    refine ⟨?_, hlt'⟩
    rw [← drop_drop, hdrop, behind_eq hs, (h.stands _ _ hs).after_nil harg, rest_eq ht,
      (h.stands _ t ht).before_nil harg, carrierSuffix_eq ht]
    rfl

theorem behind_getElem? {n j : ℕ} (hi : i < body.il.length)
    (htable : ∀ j < n, IsSwitchArg body.il (i + 1 + j)) (hj : j < n) :
    ∃ t, segs[i + 1 + j]? = some t ∧ (behind segs i)[j]? = some t.carrier := by
  obtain ⟨hdrop, hlt⟩ := h.behind_drop hi fun k hk => htable k (Nat.lt_trans hk hj)
  obtain ⟨arg, harg⟩ := htable j hj
  have harg' : IsSwitchArg body.il (i + j + 1) := by
    rw [Nat.add_right_comm]
    exact htable j hj
  obtain ⟨t, ht⟩ : ∃ t, segs[i + 1 + j]? = some t :=
    ⟨_, getElem?_eq_getElem (h.length ▸ (List.getElem?_eq_some_iff.mp harg).1)⟩
  have ht' : segs[i + j + 1]? = some t := by
    rw [Nat.add_right_comm]
    exact ht
  have hs := getElem?_eq_getElem (h.length ▸ hlt : i + j < segs.length)
  refine ⟨t, ht, ?_⟩
  rw [← head?_drop, hdrop, behind_eq hs, (h.stands _ _ hs).after_nil harg', rest_eq ht',
    (h.stands _ t ht').before_nil harg', carrierSuffix_eq ht']
  rfl

/-- The carrier of an instruction does what the instruction does. -/
theorem exists_carrier (S : Semantics probes V σ)
    {opcode : Opcode} {arg : Arg} (hi : body.il[i]? = some (opcode, arg)) :
    ∃ s, segs[i]? = some s ∧ s.carrier.arg = arg ∧ opcode.Widened s.carrier.opcode ∧
      (s.carrier.opcode = .switch ↔ opcode = .switch) ∧
      S.exec s.carrier.opcode = S.exec opcode := by
  have hlt : i < segs.length := h.length ▸ (List.getElem?_eq_some_iff.mp hi).1
  have hs := getElem?_eq_getElem hlt
  obtain ⟨opcode', hi', hwidened⟩ := (h.stands i _ hs).instr
  rw [hi] at hi'
  obtain ⟨rfl, harg⟩ := Prod.mk.inj (Option.some.inj hi')
  refine ⟨segs[i], hs, harg.symm, hwidened, ?_, ?_⟩
  · rcases hwidened with heq | heq
    · rw [heq]
    · rw [heq]
      cases opcode <;> simp [Opcode.widen]
  · rcases hwidened with heq | heq
    · rw [heq]
    · rw [heq, S.exec_widen]

end

theorem point_eq (hs : segs[i]? = some s) (c : List V × σ) :
    point segs (i, c) = (s.carrier :: behind segs i, c) := by
  rw [point, carrierSuffix_eq hs]

section
variable (h : Layout probes body r enter segs) {a : ℕ × List V × σ}

include h

/-- A step of the body is a step of its carrier, and silent ones. -/
theorem forward {a' : ℕ × List V × σ} (hstep : body.Step S a a') :
    a' ∈ inBody body ∧ ∃ b, Step r S (point segs a) b ∧
      Drains (Step r S) (· ∈ point segs '' inBody body) b (point segs a') := by
  cases hstep with
  | @next i opcode arg c c' hi hopcode hexec =>
    have hlt := (List.getElem?_eq_some_iff.mp hi).1
    obtain ⟨s, hs, rfl, -, hswitch, hsame⟩ := h.exists_carrier S hi
    rw [← hsame] at hexec
    rw [point_eq hs]
    exact ⟨Nat.succ_le_of_lt hlt, _, .next (fun heq => hopcode (hswitch.mp heq)) hexec,
      h.drains_behind hlt c'⟩
  | @skip i n c c' hi hexec =>
    have hlt := (List.getElem?_eq_some_iff.mp hi).1
    obtain ⟨n', hn, htable⟩ := body.switch_table i _ hi
    obtain rfl : n = n' := Int.ofNat.inj (Arg.int.inj hn)
    obtain ⟨s, hs, harg, -, hswitch, hsame⟩ := h.exists_carrier S hi
    obtain ⟨hdrop, hlt'⟩ := h.behind_drop hlt htable
    rw [← hsame, ← harg] at hexec
    rw [point_eq hs, Nat.add_right_comm]
    refine ⟨Nat.succ_le_of_lt hlt', _, .skip (hswitch.mpr rfl) harg hexec, ?_⟩
    rw [hdrop]
    exact h.drains_behind hlt' c'
  | @goto i pointer opcode arg c c' hi hpointer hexec =>
    obtain ⟨s, hs, rfl, -, -, hsame⟩ := h.exists_carrier S hi
    rw [← hsame] at hexec
    rw [point_eq hs]
    refine ⟨hpointer, _, .goto (h.sentinel ▸ hpointer) hexec, ?_⟩
    rw [h.suffixAt_eq hpointer]
    exact h.drains_rest hpointer c'
  | @case i n j pointer c c' hi hj harg hexec =>
    have hlt := (List.getElem?_eq_some_iff.mp hi).1
    obtain ⟨n', hn, htable⟩ := body.switch_table i _ hi
    obtain rfl : n = n' := Int.ofNat.inj (Arg.int.inj hn)
    obtain ⟨s, hs, hsarg, -, hswitch, hsame⟩ := h.exists_carrier S hi
    obtain ⟨t, ht, hget⟩ := h.behind_getElem? hlt htable hj
    obtain ⟨t', ht', htarg, hwidened, -, -⟩ := h.exists_carrier S harg
    rw [ht] at ht'
    cases ht'
    have hpointer := (body.target_start _ pointer (mem_of_getElem? harg)).1
    rw [← hsame, ← hsarg] at hexec
    rw [point_eq hs]
    refine ⟨hpointer, _, .case (hswitch.mpr rfl) hsarg hj hget (hwidened.eq rfl) htarg hexec, ?_⟩
    rw [h.suffixAt_eq hpointer]
    exact h.drains_rest hpointer c'
  | @handler i k opcode arg clause c c' hi hk hin hexec =>
    have hlt := (List.getElem?_eq_some_iff.mp hi).1
    obtain ⟨s, hs, rfl, -, -, hsame⟩ := h.exists_carrier S hi
    have hpointer : clause.handlerBegin ≤ body.il.length := by
      have := body.handler_lt clause (mem_of_getElem? hk)
      omega
    rw [← hsame] at hexec
    rw [point_eq hs]
    refine ⟨hpointer, _, .handler (h.exists_clause hk) ?_ hexec, ?_⟩
    · rw [← carrierSuffix_eq hs, h.inTry_iff hk hlt, h.inFilter_iff hk hlt]
      exact hin
    · show Drains _ _ (suffixAt r.il clause.handlerBegin, c') _
      rw [h.suffixAt_eq hpointer]
      exact h.drains_rest hpointer c'
  | @filter i k f opcode arg clause c c' hi hk hf hin hexec =>
    have hlt := (List.getElem?_eq_some_iff.mp hi).1
    obtain ⟨s, hs, rfl, -, -, hsame⟩ := h.exists_carrier S hi
    have hpointer := body.filter_le clause (mem_of_getElem? hk) f hf
    rw [← hsame] at hexec
    rw [point_eq hs]
    refine ⟨hpointer, _, .filter (h.exists_clause hk) hf ?_ hexec, ?_⟩
    · rw [← carrierSuffix_eq hs, h.inTry_iff hk hlt]
      exact hin
    · rw [h.suffixAt_eq hpointer]
      exact h.drains_rest hpointer c'

/-- A step of a carrier is one of the body, and silent ones. -/
theorem backward {b : List ILInstr × List V × σ} (ha : a ∈ inBody body)
    (hstep : Step r S (point segs a) b) :
    ∃ a' ∈ inBody body, body.Step S a a' ∧
      Drains (Step r S) (· ∈ point segs '' inBody body) b (point segs a') := by
  obtain ⟨i, c⟩ := a
  rcases Nat.lt_or_eq_of_le ha with hlt | hend
  · obtain ⟨⟨opcode, arg⟩, hi⟩ : ∃ x, body.il[i]? = some x := ⟨_, getElem?_eq_getElem hlt⟩
    obtain ⟨s, hs, rfl, -, hswitch, hsame⟩ := h.exists_carrier S hi
    rw [point_eq hs] at hstep
    cases hstep with
    | @next _ _ _ c' hopcode hexec =>
      rw [hsame] at hexec
      exact ⟨(i + 1, c'), Nat.succ_le_of_lt hlt,
        .next hi (fun heq => hopcode (hswitch.mpr heq)) hexec, h.drains_behind hlt c'⟩
    | @skip _ _ n _ c' hopcode harg hexec =>
      obtain rfl := hswitch.mp hopcode
      rw [hsame, harg] at hexec
      rw [harg] at hi
      obtain ⟨n', hn, htable⟩ := body.switch_table i _ hi
      obtain rfl : n = n' := Int.ofNat.inj (Arg.int.inj hn)
      obtain ⟨hdrop, hlt'⟩ := h.behind_drop hlt htable
      refine ⟨(i + 1 + n, c'), ?_, .skip hi hexec, ?_⟩
      · show i + 1 + n ≤ body.il.length
        omega
      · rw [hdrop, Nat.add_right_comm]
        exact h.drains_behind hlt' c'
    | @goto _ _ pointer _ c' hpointer hexec =>
      rw [hsame] at hexec
      rw [h.sentinel] at hpointer
      refine ⟨(pointer, c'), hpointer, .goto hi hpointer hexec, ?_⟩
      rw [h.suffixAt_eq hpointer]
      exact h.drains_rest hpointer c'
    | @case _ y _ n j pointer _ c' hopcode harg hj hy hopcode' harg' hexec =>
      obtain rfl := hswitch.mp hopcode
      rw [hsame, harg] at hexec
      rw [harg] at hi
      obtain ⟨n', hn, htable⟩ := body.switch_table i _ hi
      obtain rfl : n = n' := Int.ofNat.inj (Arg.int.inj hn)
      obtain ⟨t, ht, hget⟩ := h.behind_getElem? hlt htable hj
      rw [hget] at hy
      cases hy
      obtain ⟨arg', htarget⟩ := htable j hj
      obtain ⟨t', ht', rfl, -, -, -⟩ := h.exists_carrier S htarget
      rw [ht] at ht'
      cases ht'
      rw [harg'] at htarget
      have hpointer := (body.target_start _ pointer (mem_of_getElem? htarget)).1
      refine ⟨(pointer, c'), hpointer, .case hi hj htarget hexec, ?_⟩
      rw [h.suffixAt_eq hpointer]
      exact h.drains_rest hpointer c'
    | @handler _ _ k _ _ c' hk hin hexec =>
      rw [hsame] at hexec
      rw [h.eh, getElem?_map, Option.map_eq_some_iff] at hk
      obtain ⟨clause, hk, rfl⟩ := hk
      have hpointer : clause.handlerBegin ≤ body.il.length := by
        have := body.handler_lt clause (mem_of_getElem? hk)
        omega
      rw [← carrierSuffix_eq hs, h.inTry_iff hk hlt, h.inFilter_iff hk hlt] at hin
      refine ⟨(clause.handlerBegin, c'), hpointer, .handler hi hk hin hexec, ?_⟩
      show Drains _ _ (suffixAt r.il clause.handlerBegin, c') _
      rw [h.suffixAt_eq hpointer]
      exact h.drains_rest hpointer c'
    | @filter _ _ k f _ _ c' hk hf hin hexec =>
      rw [hsame] at hexec
      rw [h.eh, getElem?_map, Option.map_eq_some_iff] at hk
      obtain ⟨clause, hk, rfl⟩ := hk
      have hpointer := body.filter_le clause (mem_of_getElem? hk) f hf
      rw [← carrierSuffix_eq hs, h.inTry_iff hk hlt] at hin
      refine ⟨(f, c'), hpointer, .filter hi hk hf hin hexec, ?_⟩
      rw [h.suffixAt_eq hpointer]
      exact h.drains_rest hpointer c'
  · obtain rfl : i = body.il.length := hend
    rw [point, carrierSuffix_end (Nat.le_of_eq h.length)] at hstep
    cases hstep

theorem stutters (S : Semantics probes V σ) :
    Stutters (body.Step S) (Step r S) (inBody body) (point segs) where
  injOn := by
    rintro ⟨i, c⟩ hi ⟨j, c'⟩ hj heq
    obtain ⟨hsuffix, hc⟩ := Prod.mk.inj heq
    have hij : i = j := carrierSuffix_injOn (h.length ▸ hi) (h.length ▸ hj) hsuffix
    exact Prod.ext hij hc
  forward _ hstep := h.forward hstep
  backward := h.backward

/-- The run from the first node and the one from the first instruction reach the same. -/
theorem reaches_iff (S : Semantics probes V σ) (c₀ : List V × σ) (ha : a ∈ inBody body) :
    Relation.ReflTransGen (body.Step S) (0, c₀) a ↔
      Relation.ReflTransGen (Step r S) (r.il, c₀) (point segs a) := by
  refine (h.stutters S).reaches_iff (Nat.zero_le _) ha ?_
  have hrest : segs.flatMap Segment.nodes = rest segs 0 := by rw [rest, drop_zero]
  rw [h.il, hrest]
  refine (h.isEnter.drains _ c₀ ?_).trans (h.drains_rest (Nat.zero_le _) c₀)
  rintro b ⟨⟨j, c⟩, hj, rfl⟩
  left
  exact (length_carrierSuffix_le segs j).trans (length_rest_le (Nat.zero_le j))

end

end Layout

/-- **The rewritten method.**  Without the silent nodes its list is the body (`Layout`); the clauses
cover the same instructions; and whatever the instructions do, a run reaches an instruction with an
evaluation stack and a state if and only if the original run does. -/
theorem rewriteIL_transparent (probes : CoverageProbes) (methodId : ℤ) (isMain : Bool) (body : Body) :
    ∃ enter segs, Layout probes body (rewriteIL probes methodId isMain body) enter segs ∧
      (∀ (k : ℕ) (clause : Clause), body.eh[k]? = some clause →
        ∃ clause', (rewriteIL probes methodId isMain body).eh[k]? = some clause' ∧
          ∀ i < body.il.length,
            (InTry (rewriteIL probes methodId isMain body).il clause' (carrierSuffix segs i) ↔
              clause.tryBegin ≤ i ∧ i < clause.tryEnd) ∧
            (InHandler (rewriteIL probes methodId isMain body).il clause' (carrierSuffix segs i) ↔
              clause.handlerBegin ≤ i ∧ i < clause.handlerEnd) ∧
            (InFilter (rewriteIL probes methodId isMain body).il clause' (carrierSuffix segs i) ↔
              ∃ f, clause.filter = some f ∧ f ≤ i ∧ i < clause.handlerBegin)) ∧
      ∀ (V σ : Type) (S : Semantics probes V σ) (c₀ : List V × σ) (i : ℕ) (c : List V × σ),
        i < body.il.length →
        (Relation.ReflTransGen (body.Step S) (0, c₀) (i, c) ↔
          Relation.ReflTransGen (Step (rewriteIL probes methodId isMain body) S)
            ((rewriteIL probes methodId isMain body).il, c₀) (carrierSuffix segs i, c)) := by
  obtain ⟨enter, segs, h⟩ := layout_rewriteIL probes methodId isMain body
  refine ⟨enter, segs, h, ?_, ?_⟩
  · intro k clause hk
    refine ⟨_, h.exists_clause hk, fun i hi => ⟨?_, ?_, ?_⟩⟩
    · exact h.inTry_iff hk hi _
    · exact h.inHandler_iff hk hi
    · exact h.inFilter_iff hk hi _
  · intro V σ S c₀ i c hi
    exact h.reaches_iff S c₀ (a := (i, c)) (Nat.le_of_lt hi)

/-! ### A body with a branch and a tail call -/

/-- A semantics in which all other instructions do nothing. -/
def Semantics.idle (probes : CoverageProbes)
    (h : ∀ p ∈ probes.binary, ∀ q ∈ probes.ternary, p.sig ≠ q.sig) : Semantics probes ℤ Unit where
  ofInt n := n
  exec opcode arg c e c' :=
    match opcode, arg with
    | .ldcI4, .int n | .ldcI8, .int n => e = .next ∧ c' = (n :: c.1, c.2)
    | .ldcI4Zero, _ => e = .next ∧ c' = (0 :: c.1, c.2)
    | .calli, .int sig =>
      e = .next ∧ ((∃ p ∈ probes.binary, p.sig = sig ∧ c' = (c.1.drop 3, c.2)) ∨
        ∃ q ∈ probes.ternary, q.sig = sig ∧ c' = (c.1.drop 4, c.2))
    | _, _ => e = .next ∧ c' = c
  exec_nop _ _ _ _ := Iff.rfl
  exec_ldcI4 _ _ _ _ _ := Iff.rfl
  exec_ldcI4Zero _ _ _ _ _ := Iff.rfl
  exec_ldcI8 _ _ _ _ _ := Iff.rfl
  exec_binary p hp _ _ _ _ e c' := by
    refine and_congr_right fun _ => ⟨?_, fun hc => .inl ⟨p, hp, rfl, hc⟩⟩
    rintro (⟨_, -, -, hc⟩ | ⟨q, hq, hsig, -⟩)
    · exact hc
    · exact absurd hsig.symm (h p hp q hq)
  exec_ternary q hq _ _ _ _ _ e c' := by
    refine and_congr_right fun _ => ⟨?_, fun hc => .inr ⟨q, hq, rfl, hc⟩⟩
    rintro (⟨p, hp, hsig, -⟩ | ⟨_, -, -, hc⟩)
    · exact absurd hsig (h p hp q hq)
    · exact hc
  exec_widen opcode := by cases opcode <;> rfl

/-- A branch over a tail call into a block with a finally handler. -/
def tailBody : Body where
  il := [(.condBr 0 true, .target 4), (.tailcall, .int 0), (.call, .int 0), (.ret, .int 0),
    (.leave true, .target 6), (.endfinally, .int 0), (.ret, .int 0)]
  eh := [⟨4, 5, 5, 6, none⟩]
  target_start opcode pointer h := by
    simp only [mem_cons, Prod.mk.injEq, Arg.target.injEq, not_mem_nil, reduceCtorEq,
      and_false, or_false, false_or] at h
    rcases h with ⟨-, rfl⟩ | ⟨-, rfl⟩ <;> simp [IsSwitchArg]
  branch_target opcode arg h htarget := by
    simp only [mem_cons, Prod.mk.injEq, not_mem_nil, or_false] at h
    rcases h with ⟨rfl, rfl⟩ | ⟨rfl, rfl⟩ | ⟨rfl, rfl⟩ | ⟨rfl, rfl⟩ | ⟨rfl, rfl⟩ | ⟨rfl, rfl⟩ |
      ⟨rfl, rfl⟩ <;> simp [Opcode.hasTarget] at htarget ⊢
  switch_table i arg h := by
    have := mem_of_getElem? h
    simp at this
  switchArg_table i h := by
    obtain ⟨arg, harg⟩ := h
    have := mem_of_getElem? harg
    simp at this
  not_switchArg_zero := by simp [IsSwitchArg]
  tailcall_arg arg h := by simpa using h
  tryBegin_le := by simp
  handler_lt := by simp
  filter_le := by simp
  handlerBegin_start := by simp [IsSwitchArg]
  handlerEnd_prefixed := by simp

def someProbes : CoverageProbes :=
  ⟨⟨1, 2⟩, ⟨2, 2⟩, ⟨3, 2⟩, ⟨4, 3⟩, ⟨5, 3⟩, ⟨6, 2⟩, ⟨7, 2⟩, ⟨8, 2⟩, ⟨9, 2⟩, ⟨10, 2⟩⟩

/-- The rewritten body reaches its second instruction, as the original one does. -/
theorem tailBody_transparent :
    ∃ segs, Relation.ReflTransGen
      (Step (rewriteIL someProbes 0 false tailBody) (.idle someProbes (by decide)))
      ((rewriteIL someProbes 0 false tailBody).il, ([], ()))
      (carrierSuffix segs 1, ([], ())) := by
  obtain ⟨enter, segs, -, -, hruns⟩ := rewriteIL_transparent someProbes 0 false tailBody
  refine ⟨segs, (hruns ℤ Unit _ ([], ()) 1 ([], ()) (by decide)).mp (.single ?_)⟩
  exact .next (i := 0) rfl (by decide) ⟨rfl, rfl⟩

end VSharp.CoverageInstrumenter.Rewriting
