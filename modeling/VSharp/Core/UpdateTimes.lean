import Mathlib.Data.List.Pairwise
import VSharp.Core.Hanging

/-!
# Core — UpdateTimes

`VSharp.SILI.Core/MemoryRegion.fs`: the update times of the records of a memory region.

- `compose`: a later region replayed over an earlier one;
- `InOrder`: the records are older than the next update time, and of two records with non-splitting
  values at one point the one nearer the root is newer;
- `Built`: the regions that are made of empty ones by `memset`, `write` and `compose`;
- `built_inOrder`: regions built by steps that keep the times are in order.  A composition in which
  both regions have updates keeps the later times as they were counted from the origin of the later
  region, and counts on from twice the next time of the earlier one.
-/

namespace VSharp
open Term Propositional Library List

namespace UpdateTree
open RegionTree ExactRegion

variable {κ R : Type} (K : IMemoryKey κ R) (predicate : Record κ → Bool)

section
variable [DecidableEq κ] [DecidableEq R] [HashOrder R] [IRegion R]

/-- `writeOneKey` of `UpdateTree.compose`. -/
def composeOneKey (reg : R) (utKey : Record κ)
    (acc : Except Failure (UpdateTree κ Term R × VectorTime)) :
    Except Failure (UpdateTree κ Term R × VectorTime) := do
  let (accTree, time) ← acc
  .ok (← write K predicate reg { utKey with time := time } accTree, VectorTime.next time)

def compose (earlier later : UpdateTree κ Term R) (nextUpdateTime : VectorTime) :
    Except Failure (UpdateTree κ Term R × VectorTime) :=
  foldr (composeOneKey K predicate) (.ok (earlier, nextUpdateTime)) later

end

omit K predicate in
/-- `UpdateTree.forall`. -/
def forall' {R : Type} (predicate : Record κ → Bool) (tree : UpdateTree κ Term R) : Bool :=
  foldl (fun acc _ k => acc && predicate k) true tree

variable {K predicate}

/-! ### What a write does to the order -/

/-- Of two records with non-splitting values the first is newer. -/
def Newer (predicate : Record κ → Bool) (x y : Record κ) : Prop :=
  predicate x = false → predicate y = false → y.time < x.time

/-- The records with non-splitting values are older than a record. -/
def Fresh (predicate : Record κ → Bool) (w : Record κ) (l : List (Record κ)) : Prop :=
  ∀ x ∈ l, predicate x = false → x.time < w.time

/-- The predicate does not look at guards. -/
def Unguarded (predicate : Record κ → Bool) : Prop :=
  ∀ (x : Record κ) (g : Option Term), predicate { x with guard := g } = predicate x

section
variable {w : Record κ} {l l' : List (Record κ)}

theorem Placed.newer (hguard : Unguarded predicate) (h : Placed K predicate w l l')
    (hl : l.Pairwise (Newer predicate)) (hfresh : predicate w = false → Fresh predicate w l) :
    l'.Pairwise (Newer predicate) := by
  induction h with
  | here => exact pairwise_cons.mpr ⟨fun y hy hw hy' => hfresh hw y hy hy', hl⟩
  | drop _ _ _ _ ih =>
    exact ih hl.of_cons fun hw x hx => hfresh hw x (mem_cons_of_mem _ hx)
  | keep hx _ _ ih =>
    refine pairwise_cons.mpr ⟨fun y _ hx' => ?_, ih hl.of_cons fun hw x hx =>
      hfresh hw x (mem_cons_of_mem _ hx)⟩
    rw [hguard, hx] at hx'
    cases hx'

/-- A splitting record leaves the others of its history as they were. -/
theorem Placed.fresh (hguard : Unguarded predicate) {v : Record κ} (h : Placed K predicate w l l')
    (hw : predicate w = true) (hl : Fresh predicate v l) : Fresh predicate v l' := by
  induction h with
  | here =>
    refine forall_mem_cons.mpr ⟨fun hw' => ?_, hl⟩
    rw [hw] at hw'
    cases hw'
  | drop _ _ _ _ ih => exact ih (forall_mem_cons.mp hl).2
  | keep hx _ _ ih =>
    refine forall_mem_cons.mpr ⟨fun hx' => ?_, ih (forall_mem_cons.mp hl).2⟩
    rw [hguard, hx] at hx'
    cases hx'

end

section
variable {P : Type} [DecidableEq κ] [DecidableEq R] [HashOrder R] [ExactRegion R P] {region : R}
  {w : Record κ} {acc acc' : UpdateTree κ Term R}
variable {l : List (Term × κ)} {time : VectorTime} {n : ℤ}
variable {gk : Term × κ} {t earlier : UpdateTree κ Term R}

section
omit [DecidableEq R] [HashOrder R]

/-- A tree on which keys of the write `w` are being written: in order, and all that `w` hides lies in
its region. -/
structure Writable (predicate : Record κ → Bool) (region : R) (w : Record κ)
    (acc : UpdateTree κ Term R) : Prop where
  invariant : Invariant acc
  pieces : Everywhere (fun r k => (IRegionTreeKey.hides w k = true → Subset r region) ∧
    k.time ≤ w.time) acc
  order : ∀ p, (path p acc).Pairwise (Newer predicate)

theorem Writable.contained (h : Writable predicate region w acc) :
    Contained (IRegionTreeKey.hides w) region acc :=
  Everywhere.contained h.invariant (h.pieces.mono fun _ _ h => h.1)

end

/-- The history that the keys of the write are put on. -/
theorem Writable.sublist (h : Writable predicate region w acc) {p : P}
    (hp : contains region p = true) :
    (path p (.node (localizeFilterHidden region w acc).1)).Sublist (path p acc) :=
  ((splitNode_spec h.invariant h.contained).1.path p hp).sublist

/-- Writing one key of `w`. -/
theorem Writable.writeOneKey (hguard : Unguarded predicate) (h : Writable predicate region w acc)
    (heq : writeOneKey K predicate region w gk acc = .ok acc') :
    (∀ p, contains region p = true →
      if predicate { w with key := gk.2 } then ∃ x, predicate x = true ∧
        path p acc' = x :: path p (.node (localizeFilterHidden region w acc).1)
      else Placed K predicate w (path p (.node (localizeFilterHidden region w acc).1))
        (path p acc')) ∧
    ((predicate { w with key := gk.2 } = false → predicate w = false →
        ∀ p, contains region p = true →
          Fresh predicate w (path p (.node (localizeFilterHidden region w acc).1))) →
      Writable predicate region w acc') := by
  obtain ⟨g, hinv, hpieces, hout, hin⟩ := writeOneKey_history h.invariant h.contained
    (fun r r' k hk hr' _ => ⟨fun hides => hr'.trans (hk.1 hides), hk.2⟩) h.pieces
    (fun r hr => ⟨fun _ => hr, le_rfl⟩) (fun g => ⟨fun _ => .refl region, le_rfl⟩)
    (fun r x g hx => hx) heq
  have hsame : predicate { w with guard := some g, key := gk.2 } =
      predicate { w with key := gk.2 } := hguard { w with key := gk.2 } (some g)
  rw [hsame] at hin
  refine ⟨fun p hp => ?_, fun hfresh => ⟨hinv, hpieces, fun p => ?_⟩⟩
  · have hin := hin p hp
    by_cases hsplits : predicate { w with key := gk.2 } = true
    · rw [if_pos hsplits] at hin ⊢
      exact ⟨_, hsame.trans hsplits, hin⟩
    · rw [if_neg hsplits] at hin ⊢
      exact hin
  · cases hp : contains region p with
    | false =>
      rw [hout p hp]
      exact h.order p
    | true =>
      have hin := hin p hp
      have hold := (h.order p).sublist (h.sublist hp)
      split at hin <;> rename_i hsplits
      · rw [hin]
        refine pairwise_cons.mpr ⟨fun y _ hx => ?_, hold⟩
        rw [hsame, hsplits] at hx
        cases hx
      · exact hin.newer hguard hold fun hw => hfresh (by simpa using hsplits) hw p hp

/-- Writing keys of which at most one is hung: the hung record finds only older ones. -/
theorem Writable.foldr_one (hguard : Unguarded predicate) (h : Writable predicate region w acc)
    (hfresh : ∀ p, contains region p = true → Fresh predicate w (path p acc))
    (hone : predicate w = true ∨ (l.filter fun gk => !predicate { w with key := gk.2 }).length ≤ 1)
    (heq : l.foldrM (UpdateTree.writeOneKey K predicate region w) acc = .ok acc') :
    Writable predicate region w acc' ∧
      ((predicate w = true ∨ ∀ gk ∈ l, predicate { w with key := gk.2 } = true) →
        ∀ p, contains region p = true → Fresh predicate w (path p acc')) := by
  induction l generalizing acc' with
  | nil =>
    cases heq
    exact ⟨h, fun _ => hfresh⟩
  | cons gk l ih =>
    rw [foldrM_cons] at heq
    obtain ⟨acc₁, heq₁, heq⟩ := bind_eq_ok heq
    have hone₁ : predicate w = true ∨
        (l.filter fun gk => !predicate { w with key := gk.2 }).length ≤ 1 :=
      hone.imp_right fun hle => ((sublist_cons_self gk l).filter _).length_le.trans hle
    obtain ⟨h₁, hfresh₁⟩ := ih hone₁ heq₁
    obtain ⟨hin, hwritable⟩ := h₁.writeOneKey hguard heq
    refine ⟨hwritable fun hhung hw p hp => ?_, fun hsome p hp => ?_⟩
    · have hrest : ∀ gk ∈ l, predicate { w with key := gk.2 } = true := fun gk' hgk' => by
        have hle := hone.resolve_left (by simp [hw])
        rw [filter_cons_of_pos (by simp [hhung]), length_cons] at hle
        have hnil := eq_nil_of_length_eq_zero (Nat.le_zero.mp (Nat.le_of_succ_le_succ hle))
        simpa using filter_eq_nil_iff.mp hnil gk' hgk'
      exact fun x hx => hfresh₁ (.inr hrest) p hp x ((h₁.sublist hp).subset hx)
    · have hfresh₁ := hfresh₁
        (hsome.imp_right fun hall gk hgk => hall gk (mem_cons_of_mem _ hgk)) p hp
      have hincluded : Fresh predicate w
          (path p (.node (localizeFilterHidden region w acc₁).1)) :=
        fun x hx => hfresh₁ x ((h₁.sublist hp).subset hx)
      have hin := hin p hp
      by_cases hsplits : predicate { w with key := gk.2 } = true
      · rw [if_pos hsplits] at hin
        obtain ⟨x, hx, hin⟩ := hin
        rw [hin]
        refine forall_mem_cons.mpr ⟨fun hx' => ?_, hincluded⟩
        rw [hx] at hx'
        cases hx'
      · rw [if_neg hsplits] at hin
        have hw := hsome.resolve_right fun hall => hsplits (hall gk mem_cons_self)
        exact hin.fresh hguard hw hincluded

/-- Where no root splits, the record is hung over them, and the next key of an unguarded write takes
it off again. -/
theorem Writable.localize_again (h : Writable predicate region w acc)
    (hguard : Unguarded predicate) (hne : ∃ p, contains region p = true)
    (htrue : w.hasTrueGuard = true) (hhung : predicate { w with key := gk.2 } = false)
    (hroots : ∀ e ∈ (localizeFilterHidden region w acc).1, predicate e.2.1 = false)
    (heq : UpdateTree.writeOneKey K predicate region w gk acc = .ok acc') :
    (localizeFilterHidden region w acc').1 = (localizeFilterHidden region w acc).1 := by
  obtain ⟨hinc, hdis⟩ := splitNode_spec h.invariant h.contained
  unfold UpdateTree.writeOneKey at heq
  unfold localizeFilterHidden at heq hroots ⊢
  generalize splitNode (IRegionTreeKey.hides w) region acc = split at heq hinc hdis hroots
  obtain ⟨included, disjoint⟩ := split
  obtain ⟨g, -, heq⟩ := bind_eq_ok heq
  have hnot : ¬ predicate { w with guard := some g, key := gk.2 } = true := by
    rw [hguard { w with key := gk.2 } (some g), hhung]
    simp
  rw [if_neg hnot, bind_ok (hangRecord_of_symbolic region w hne hroots)] at heq
  cases heq
  have hfind : PersistentDict.tryFind
      (PersistentDict.append [(region, w, RegionTree.node included)] disjoint) region =
        some (w, .node included) := by
    refine (PersistentDict.tryFind_eq_some_iff ((PersistentDict.wf_singleton _).append _)).mpr
      (PersistentDict.mem_append_of_unique (.inl (mem_singleton_self _)) fun b hb hbe => ?_)
    obtain ⟨p, hp⟩ := hne
    have hno := hdis.side b hb p (by rw [hbe, hp])
    rw [hp] at hno
    cases hno
  have hsome : (PersistentDict.append [(region, w, RegionTree.node included)] disjoint).isEmpty =
      false := by
    cases hd : PersistentDict.append [(region, w, RegionTree.node included)] disjoint with
    | nil =>
      rw [hd] at hfind
      cases hfind
    | cons => rfl
  have hhides : IRegionTreeKey.hides w w = true := by
    show (decide (w.key = w.key) && w.hasTrueGuard) = true
    rw [htrue, decide_eq_true rfl]
    rfl
  simp [splitNode, hsome, hfind, hhides]

/-- Writing hung keys under a true guard where no root splits: each takes the place of the one
before. -/
theorem Writable.foldr_replaced (hguard : Unguarded predicate)
    (h : Writable predicate region w acc) (hne : ∃ p, contains region p = true)
    (hfresh : ∀ p, contains region p = true → Fresh predicate w (path p acc))
    (htrue : w.hasTrueGuard = true) (hhung : ∀ gk ∈ l, predicate { w with key := gk.2 } = false)
    (hroots : ∀ e ∈ (localizeFilterHidden region w acc).1, predicate e.2.1 = false)
    (heq : l.foldrM (UpdateTree.writeOneKey K predicate region w) acc = .ok acc') :
    Writable predicate region w acc' ∧
      (localizeFilterHidden region w acc').1 = (localizeFilterHidden region w acc).1 := by
  induction l generalizing acc' with
  | nil =>
    cases heq
    exact ⟨h, rfl⟩
  | cons gk l ih =>
    rw [foldrM_cons] at heq
    obtain ⟨acc₁, heq₁, heq⟩ := bind_eq_ok heq
    obtain ⟨hgk, hrest⟩ := forall_mem_cons.mp hhung
    obtain ⟨h₁, hsame⟩ := ih hrest heq₁
    rw [← hsame] at hroots ⊢
    refine ⟨(h₁.writeOneKey hguard heq).2 fun _ _ p hp x hx => ?_,
      h₁.localize_again hguard hne htrue hgk hroots heq⟩
    rw [hsame] at hx
    exact hfresh p hp x ((h.sublist hp).subset hx)

/-! ### Trees in order -/

omit [DecidableEq κ] [DecidableEq R] [HashOrder R] in
/-- The records of a tree are older than a time, and in order. -/
structure Timed (predicate : Record κ → Bool) (time : VectorTime) (t : UpdateTree κ Term R) :
    Prop where
  invariant : Invariant t
  below : Everywhere (fun _ k => k.time < time) t
  order : ∀ p, (path p t).Pairwise (Newer predicate)

section

omit [DecidableEq κ] [DecidableEq R] [HashOrder R]

theorem timed_empty (time : VectorTime) :
    Timed predicate time (RegionTree.empty : UpdateTree κ Term R) :=
  ⟨invariant_empty, .nil, fun _ => .nil⟩

theorem Timed.mono {time' : VectorTime} (h : Timed predicate time t) (hle : time ≤ time') :
    Timed predicate time' t :=
  ⟨h.invariant, h.below.mono fun _ _ hlt => lt_of_lt_of_le hlt hle, h.order⟩

/-- A write that keeps the times: what it hides lies in its region, and of its keys one is hung at
most, or each takes the place of the one before. -/
structure KeepsTimes (K : IMemoryKey κ R) (predicate : Record κ → Bool) (region : R)
    (w : Record κ) (t : UpdateTree κ Term R) : Prop where
  hidden : ∀ e ∈ flatten t, IRegionTreeKey.hides w e.2 = true → Subset e.1 region
  hung : ∀ alternatives, K.unguard w.key = .ok alternatives →
    predicate w = true ∨
    (alternatives.filter fun gk => !predicate { w with key := gk.2 }).length ≤ 1 ∨
    w.hasTrueGuard = true ∧ (∀ gk ∈ alternatives, predicate { w with key := gk.2 } = false) ∧
      ∀ e ∈ (localizeFilterHidden region w t).1, predicate e.2.1 = false

omit P [ExactRegion R P] in
/-- Making the guards disjoint leaves the keys. -/
theorem disjointUnguardedKey_keys {disjGuard : Term} {l' : List (Term × κ)}
    (h : disjointUnguardedKey disjGuard l = .ok l') : l'.map Prod.snd = l.map Prod.snd := by
  induction l generalizing disjGuard l' with
  | nil =>
    rw [disjointUnguardedKey] at h
    cases h
    rfl
  | cons gk l ih =>
    obtain ⟨g, k⟩ := gk
    rw [disjointUnguardedKey] at h
    obtain ⟨guard, -, h⟩ := bind_eq_ok h
    obtain ⟨negation, -, h⟩ := bind_eq_ok h
    obtain ⟨others, -, h⟩ := bind_eq_ok h
    obtain ⟨rest, hrest, h⟩ := bind_eq_ok h
    cases h
    rw [map_cons, map_cons, ih hrest]

end

/-- A write that keeps the times keeps a tree in order. -/
theorem write_timed (hguard : Unguarded predicate) {t' : UpdateTree κ Term R}
    (ht : Timed predicate w.time t)
    (hkeeps : w.hasFalseGuard = false → KeepsTimes K predicate region w t)
    (heq : write K predicate region w t = .ok t') (hlt : w.time < time) :
    Timed predicate time t' := by
  unfold write at heq
  by_cases hfalse : w.hasFalseGuard = true
  · rw [if_pos hfalse] at heq
    cases heq
    exact ht.mono hlt.le
  · rw [if_neg hfalse] at heq
    obtain ⟨hhidden, hhung⟩ := hkeeps (by simpa using hfalse)
    obtain ⟨alternatives, halternatives, heq⟩ := bind_eq_ok heq
    obtain ⟨disjoint, hdisjoint, heq⟩ := bind_eq_ok heq
    have hkeys := disjointUnguardedKey_keys hdisjoint
    have hstart : Writable predicate region w t :=
      ⟨ht.invariant, (Everywhere.of_flatten ht.invariant hhidden).and
        (ht.below.mono fun _ _ h => h.le), ht.order⟩
    have hfresh (p : P) : Fresh predicate w (path p t) := fun x hx _ => by
      obtain ⟨r, -, hr⟩ := ht.below.path ht.invariant x hx
      exact hr
    have hcount : (disjoint.filter fun gk => !predicate { w with key := gk.2 }).length =
        (alternatives.filter fun gk => !predicate { w with key := gk.2 }).length := by
      have hlength (l : List (Term × κ)) : (l.filter fun gk => !predicate { w with key := gk.2 }).length =
          ((l.map Prod.snd).filter fun k => !predicate { w with key := k }).length := by
        rw [filter_map, length_map]
        rfl
      rw [hlength, hlength, hkeys]
    have hend : Writable predicate region w t' := by
      by_cases hne : ∃ p, contains region p = true
      · rcases hhung alternatives halternatives with hw | hone | ⟨htrue, hall, hroots⟩
        · exact (hstart.foldr_one hguard (fun p _ => hfresh p) (.inl hw) heq).1
        · exact (hstart.foldr_one hguard (fun p _ => hfresh p) (.inr (hcount ▸ hone)) heq).1
        · have hall : ∀ gk ∈ disjoint, predicate { w with key := gk.2 } = false := fun gk hgk => by
            have hmem : gk.2 ∈ alternatives.map Prod.snd := hkeys ▸ mem_map_of_mem hgk
            obtain ⟨gk', hgk', hsame⟩ := mem_map.mp hmem
            exact hsame ▸ hall gk' hgk'
          exact (hstart.foldr_replaced hguard hne (fun p _ => hfresh p) htrue hall hroots heq).1
      · refine foldrM_keeps (fun gk acc acc' hacc hstep => ?_) hstart heq
        exact (hacc.writeOneKey hguard hstep).2 fun _ _ p hp => absurd ⟨p, hp⟩ hne
    exact ⟨hend.invariant, hend.pieces.mono fun _ _ h => lt_of_le_of_lt h.2 hlt, hend.order⟩

/-- Appending a tree whose records are newer at every point. -/
theorem append_timed {later : UpdateTree κ Term R} {t₁ t₂ : VectorTime}
    (he : Timed predicate t₁ earlier) (hl : Timed predicate t₂ later)
    (hrun : ContainedRun earlier (flatten later)) (hle : t₁ ≤ time)
    (hbelow : ∀ e ∈ flatten later, e.2.time < time)
    (hcross : ∀ p, ∀ x ∈ path p later, ∀ y ∈ path p earlier, Newer predicate x y) :
    Timed predicate time (append earlier later) := by
  have hinv : Invariant (append earlier later) := by
    rw [append, foldr_eq_flatten]
    exact (run_history he.invariant hrun).1
  refine ⟨hinv, ?_, fun p => ?_⟩
  · rw [append, foldr_eq_flatten]
    exact run_everywhere (fun _ _ _ hk _ _ => hk) (he.mono hle).below hbelow
  · have hpruned := append_history he.invariant hl.invariant hrun p
    exact (pairwise_append.mpr ⟨hl.order p, he.order p, hcross p⟩).sublist hpruned.sublist

/-- The writes of a composition, newest first, each of which keeps the times where it is made. -/
def ComposeKeepsTimes (K : IMemoryKey κ R) (predicate : Record κ → Bool)
    (earlier : UpdateTree κ Term R) (nextUpdateTime : VectorTime) : List (R × Record κ) → Prop
  | [] => True
  | (reg, utKey) :: l => ComposeKeepsTimes K predicate earlier nextUpdateTime l ∧
      ∀ tree time, l.foldr (fun e acc => composeOneKey K predicate e.1 e.2 acc)
        (.ok (earlier, nextUpdateTime)) = .ok (tree, time) → time.headI + 1 < 2 ^ 31 ∧
        (utKey.hasFalseGuard = false → KeepsTimes K predicate reg { utKey with time := time } tree)

omit κ R K predicate P [DecidableEq κ] [DecidableEq R] [HashOrder R] [ExactRegion R P] region w
  acc acc' in
theorem next_singleton (hn : 0 < n) (hlt : n + 1 < 2 ^ 31) :
    VectorTime.next [n] = [n + 1] := by
  show [Int.bmod (n + 1) (2 ^ 32)] = [n + 1]
  rw [Int.bmod_eq_of_le_mul_two (by omega) (by omega)]

theorem singleton_lt {m : ℤ} (h : n < m) : ([n] : VectorTime) < [m] :=
  cons_lt_cons_iff.mpr (.inl h)

/-- The writes of a composition, made at the times that follow the earlier tree's. -/
theorem compose_timed (hguard : Unguarded predicate) {tree : UpdateTree κ Term R} (hn : 0 < n)
    (he : Timed predicate [n] earlier) {l : List (R × Record κ)}
    (hkeeps : ComposeKeepsTimes K predicate earlier [n] l)
    (heq : l.foldr (fun e acc => composeOneKey K predicate e.1 e.2 acc) (.ok (earlier, [n])) =
      .ok (tree, time)) : ∃ m, 0 < m ∧ time = [m] ∧ Timed predicate time tree := by
  induction l generalizing tree time with
  | nil =>
    cases heq
    exact ⟨n, hn, rfl, he⟩
  | cons e l ih =>
    obtain ⟨reg, utKey⟩ := e
    obtain ⟨hrest, hhere⟩ := hkeeps
    rw [foldr_cons, composeOneKey] at heq
    obtain ⟨⟨tree₁, time₁⟩, heq₁, heq⟩ := bind_eq_ok heq
    obtain ⟨tree₂, hwrite, heq⟩ := bind_eq_ok heq
    cases heq
    obtain ⟨m, hm, rfl, htimed⟩ := ih hrest heq₁
    obtain ⟨hlt, hkeeps⟩ := hhere tree₁ _ heq₁
    have hlt : m + 1 < 2 ^ 31 := hlt
    rw [next_singleton hm hlt]
    exact ⟨m + 1, by omega, rfl,
      write_timed hguard htimed hkeeps hwrite (singleton_lt (Int.lt_succ m))⟩

omit [DecidableEq κ] in
/-- Entries in disjoint regions, added to an empty tree. -/
theorem memset_timed {ws : List (R × Record κ)}
    (hdisjoint : ws.Pairwise fun e e' => ExactRegion.Disjoint e.1 e'.1)
    (hbelow : ∀ e ∈ ws, e.2.time < time) :
    Timed predicate time (RegionTree.memset ws RegionTree.empty) := by
  let leaf (e : R × Record κ) : R × Record κ × UpdateTree κ Term R := (e.1, e.2, .node [])
  have heq : RegionTree.memset ws RegionTree.empty =
      .node (PersistentDict.ofSeq (ws.map leaf)) := by
    rw [RegionTree.memset, PersistentDict.ofSeq, foldl_map]
    rfl
  have hlaid : Laid (ws.map leaf) := by
    refine ⟨fun e he e' he' hne => ?_, fun e he => ?_, fun e he => ?_⟩
    · obtain ⟨o, ho, rfl⟩ := mem_map.mp he
      obtain ⟨o', ho', rfl⟩ := mem_map.mp he'
      let _ : Std.Symm fun e e' : R × Record κ => ExactRegion.Disjoint e.1 e'.1 :=
        ⟨fun _ _ h => h.symm⟩
      exact hdisjoint.forall ho ho' fun h => hne (h ▸ rfl)
    · obtain ⟨o, -, rfl⟩ := mem_map.mp he
      exact fun e he => absurd he not_mem_nil
    · obtain ⟨o, -, rfl⟩ := mem_map.mp he
      exact invariant_empty
  have hentry : ∀ e ∈ PersistentDict.ofSeq (ws.map leaf), ∃ o ∈ ws, leaf o = e :=
    fun e he => mem_map.mp (PersistentDict.mem_of_mem_ofSeq he)
  rw [heq]
  refine ⟨hlaid.invariant_ofSeq, .of_entries fun e he => ?_, fun p => ?_⟩
  · obtain ⟨o, ho, rfl⟩ := hentry e he
    exact ⟨hbelow o ho, .nil⟩
  · by_cases hex : ∃ e ∈ PersistentDict.ofSeq (ws.map leaf), contains e.1 p = true
    · obtain ⟨e, he, hp⟩ := hex
      rw [path_of_mem hlaid.invariant_ofSeq he hp]
      obtain ⟨o, -, rfl⟩ := hentry e he
      exact pairwise_singleton _ _
    · rw [path_nil fun e he => by simpa using fun hp => hex ⟨e, he, hp⟩]
      exact .nil

end

end UpdateTree

namespace MemoryRegion
open UpdateTree RegionTree ExactRegion

variable {κ R P : Type} (K : IMemoryKey κ R) (isUnion : κ → Bool)

section
variable [DecidableEq κ] [DecidableEq R] [HashOrder R] [IRegion R] [HashOrder VectorTime]

omit K isUnion in
def deterministicCompose (earlier later : MemoryRegion κ R) :
    Except Failure (MemoryRegion κ R) :=
  if earlier.typ = later.typ then
    if RegionTree.isEmpty earlier.updates then
      .ok { later with defaultValue := earlier.defaultValue }
    else .ok
      { typ := earlier.typ
        updates := RegionTree.append earlier.updates later.updates
        defaultValue := earlier.defaultValue
        nextUpdateTime :=
          VectorTime.singletonsSum earlier.nextUpdateTime earlier.nextUpdateTime
        explicitAddresses :=
          PersistentDict.append earlier.explicitAddresses later.explicitAddresses }
  else .error (.internal "Composing two incomparable memory objects!")

/-- `MemoryRegion.compose`; `isUnion` is `IMemoryKey.IsUnion`. -/
def compose (earlier later : MemoryRegion κ R) : Except Failure (MemoryRegion κ R) :=
  if forall' (fun k => !isUnion k.key) later.updates then deterministicCompose earlier later
  else if earlier.typ = later.typ then do
    let (composedTree, nextTime) ← UpdateTree.compose K (valueIsConcreteHeapAddress K)
      earlier.updates later.updates earlier.nextUpdateTime
    .ok { earlier with updates := composedTree, nextUpdateTime := nextTime }
  else .error (.internal "Composing two incomparable memory objects!")

end

/-! ### Regions and the steps that make them -/

/-- A step that makes a region of others. -/
inductive Step (κ R : Type) where
  | memset (mr : MemoryRegion κ R) (keysAndValues : List (κ × Term))
  | write (mr : MemoryRegion κ R) (guard : Option Term) (key : κ) (value : Term)
  | compose (earlier later : MemoryRegion κ R)

/-- The regions that a step starts from. -/
def Step.operands : Step κ R → List (MemoryRegion κ R)
  | .memset mr _ => [mr]
  | .write mr _ _ _ => [mr]
  | .compose earlier later => [earlier, later]

section
variable [DecidableEq κ] [DecidableEq R] [HashOrder R] [ExactRegion R P] [HashOrder VectorTime]

/-- What a step makes. -/
def Step.result : Step κ R → Except Failure (MemoryRegion κ R)
  | .memset mr keysAndValues => mr.memset K keysAndValues
  | .write mr guard key value => mr.write K guard key value
  | .compose earlier later => earlier.compose K isUnion later

/-- The regions made of empty ones by steps that satisfy `ok`. -/
inductive Built (ok : Step κ R → Prop) : MemoryRegion κ R → Prop where
  | empty (typ : Ty) : Built ok (empty typ)
  | step {s : Step κ R} {mr : MemoryRegion κ R} (operands : ∀ o ∈ s.operands, Built ok o)
      (hok : ok s) (h : s.result K isUnion = .ok mr) : Built ok mr

omit isUnion [DecidableEq κ] [DecidableEq R] [HashOrder R] [HashOrder VectorTime] in
/-- What the callers of a step keep to: `memset` is for regions without updates and disjoint keys. -/
def Step.Legal : Step κ R → Prop
  | .memset mr keysAndValues => RegionTree.isEmpty mr.updates = true ∧
      keysAndValues.Pairwise fun kv kv' => ∀ r r', K.region kv.1 = .ok r →
        K.region kv'.1 = .ok r' → ExactRegion.Disjoint r r'
  | _ => True

/-- The records of a region are older than its next update time, and of two records with
non-splitting values at one point the one nearer the root is newer. -/
structure InOrder (mr : MemoryRegion κ R) : Prop where
  invariant : Invariant mr.updates
  below : ∀ e ∈ mr.flatten, VectorTime.less e.2.time mr.nextUpdateTime = true
  order : ∀ p, (path p mr.updates).Pairwise fun x y =>
    valueIsConcreteHeapAddress K x = false → valueIsConcreteHeapAddress K y = false →
      VectorTime.less y.time x.time = true

/-- A region can be appended: the next time does not overflow, what its writes hide lies in their
regions, and its records are older than the next time and newer than the earlier ones. -/
structure AppendKeepsTimes (earlier later : MemoryRegion κ R) : Prop where
  fits : earlier.nextUpdateTime.headI + earlier.nextUpdateTime.headI < 2 ^ 31
  contained : ContainedRun earlier.updates later.flatten
  below : ∀ e ∈ later.flatten, VectorTime.less e.2.time
    [earlier.nextUpdateTime.headI + earlier.nextUpdateTime.headI] = true
  newer : ∀ p, ∀ x ∈ path p later.updates, ∀ y ∈ path p earlier.updates,
    valueIsConcreteHeapAddress K x = false → valueIsConcreteHeapAddress K y = false →
      VectorTime.less y.time x.time = true

/-- The steps that keep the times: no time overflows, the writes keep the times where they are made,
and a region that is appended to one with updates has times that go on from there. -/
def Step.KeepsTimes : Step κ R → Prop
  | .memset _ _ => True
  | .write mr guard key value => mr.nextUpdateTime.headI + 1 < 2 ^ 31 ∧
      ∀ region, K.region key = .ok region →
        let w : Record κ := ⟨key, value, guard, mr.nextUpdateTime⟩
        w.hasFalseGuard = false →
          UpdateTree.KeepsTimes K (valueIsConcreteHeapAddress K) region w mr.updates
  | .compose earlier later =>
    if forall' (fun k => !isUnion k.key) later.updates then
      RegionTree.isEmpty earlier.updates = true ∨ AppendKeepsTimes K earlier later
    else ComposeKeepsTimes K (valueIsConcreteHeapAddress K) earlier.updates
      earlier.nextUpdateTime later.flatten

/-- A region in order, whose next update time is a positive number. -/
def Ordered (mr : MemoryRegion κ R) : Prop :=
  ∃ n, 0 < n ∧ mr.nextUpdateTime = [n] ∧
    Timed (valueIsConcreteHeapAddress K) mr.nextUpdateTime mr.updates

variable {K isUnion}
variable {mr mr' earlier later : MemoryRegion κ R}

section

omit [DecidableEq κ] [HashOrder VectorTime]

omit [DecidableEq R] [HashOrder R] in
theorem Ordered.inOrder (h : Ordered K mr) : InOrder K mr := by
  obtain ⟨n, -, -, htimed⟩ := h
  refine ⟨htimed.invariant, fun e he => decide_eq_true (htimed.below.flatten e he),
    fun p => (htimed.order p).imp fun hxy hx hy => decide_eq_true (hxy hx hy)⟩

omit P [DecidableEq R] [HashOrder R] [ExactRegion R P] in
/-- Whether a value splits does not depend on the guard it is written under. -/
theorem unguarded_valueIsConcreteHeapAddress :
    Unguarded (valueIsConcreteHeapAddress K : Record κ → Bool) := fun _ _ => rfl

theorem memset_ordered {keysAndValues : List (κ × Term)}
    (hlegal : (Step.memset mr keysAndValues).Legal K) (h : mr.memset K keysAndValues = .ok mr') :
    Ordered K mr' := by
  obtain ⟨hempty, hdisjoint⟩ := hlegal
  obtain ⟨ws, hws, h⟩ := bind_eq_ok h
  cases h
  have hupdates : mr.updates = RegionTree.empty := by
    obtain ⟨d, hd⟩ : ∃ d, mr.updates = .node d := ⟨mr.updates.entries, by cases mr.updates; rfl⟩
    rw [hd] at hempty
    have hnil : d = [] := List.isEmpty_iff.mp hempty
    rw [hd, hnil]
    rfl
  have hall := forall₂_of_mapM hws
  have hkeys : keysAndValues.zipIdx.Pairwise fun e e' => ∀ r r', K.region e.1.1 = .ok r →
      K.region e'.1.1 = .ok r' → ExactRegion.Disjoint r r' := by
    rw [← zipIdx_map_fst 0 keysAndValues] at hdisjoint
    exact pairwise_map.mp hdisjoint
  refine ⟨1 + (keysAndValues.length : ℤ), by omega, rfl, ?_⟩
  rw [hupdates]
  refine memset_timed (pairwise_of_forall₂ hall hkeys fun e e' w w' hw hw' hapart => ?_)
    fun w hw => ?_
  · obtain ⟨r, hr, hw⟩ := bind_eq_ok hw
    obtain ⟨r', hr', hw'⟩ := bind_eq_ok hw'
    cases hw
    cases hw'
    exact hapart r r' hr hr'
  · obtain ⟨e, he, heq⟩ := forall₂_mem_right hall hw
    obtain ⟨r, -, heq⟩ := bind_eq_ok heq
    cases heq
    have hlt : e.2 < keysAndValues.length := by simpa using snd_lt_of_mem_zipIdx he
    exact singleton_lt (by omega)

end

omit [HashOrder VectorTime] in
theorem write_ordered {guard : Option Term} {key : κ} {value : Term} (hmr : Ordered K mr)
    (hkeeps : (Step.write mr guard key value).KeepsTimes K isUnion)
    (h : mr.write K guard key value = .ok mr') : Ordered K mr' := by
  obtain ⟨n, hn, hnext, htimed⟩ := hmr
  obtain ⟨hlt, hkeeps⟩ := hkeeps
  rw [hnext] at hlt
  have hlt : n + 1 < 2 ^ 31 := hlt
  obtain ⟨region, hregion, h⟩ := bind_eq_ok h
  obtain ⟨updates, hupdates, h⟩ := bind_eq_ok h
  cases h
  have hsucc : VectorTime.next mr.nextUpdateTime = [n + 1] := by rw [hnext, next_singleton hn hlt]
  refine ⟨n + 1, by omega, hsucc, ?_⟩
  refine write_timed unguarded_valueIsConcreteHeapAddress htimed (hkeeps region hregion) hupdates ?_
  show mr.nextUpdateTime < VectorTime.next mr.nextUpdateTime
  rw [hsucc, hnext]
  exact singleton_lt (Int.lt_succ n)

theorem deterministicCompose_ordered (he : Ordered K earlier) (hl : Ordered K later)
    (hkeeps : RegionTree.isEmpty earlier.updates = true ∨ AppendKeepsTimes K earlier later)
    (h : deterministicCompose earlier later = .ok mr) : Ordered K mr := by
  unfold deterministicCompose at h
  split at h
  · split at h
    · cases h
      exact hl
    · next hempty =>
        cases h
        obtain ⟨n, hn, hnext, htimed⟩ := he
        obtain ⟨m, -, -, hltimed⟩ := hl
        obtain ⟨hlt, hrun, hbelow, hnewer⟩ := hkeeps.resolve_left hempty
        rw [hnext] at hlt hbelow
        have hlt : n + n < 2 ^ 31 := hlt
        have hsum : VectorTime.singletonsSum earlier.nextUpdateTime earlier.nextUpdateTime =
            [n + n] := by
          rw [hnext]
          show [Int.bmod (n + n) (2 ^ 32)] = [n + n]
          rw [Int.bmod_eq_of_le_mul_two (by omega) (by omega)]
        refine ⟨n + n, by omega, hsum, ?_⟩
        show Timed _ (VectorTime.singletonsSum earlier.nextUpdateTime earlier.nextUpdateTime)
          (append earlier.updates later.updates)
        rw [hsum]
        rw [hnext] at htimed
        exact append_timed htimed hltimed hrun (singleton_lt (by omega)).le
          (fun e he => of_decide_eq_true (hbelow e he))
          fun p x hx y hy hxs hys => of_decide_eq_true (hnewer p x hx y hy hxs hys)
  · cases h

theorem compose_ordered (he : Ordered K earlier) (hl : Ordered K later)
    (hkeeps : (Step.compose earlier later).KeepsTimes K isUnion)
    (h : earlier.compose K isUnion later = .ok mr) : Ordered K mr := by
  unfold compose at h
  dsimp only [Step.KeepsTimes] at hkeeps
  by_cases hunion : forall' (fun k => !isUnion k.key) later.updates = true
  · rw [if_pos hunion] at h hkeeps
    exact deterministicCompose_ordered he hl hkeeps h
  · rw [if_neg hunion] at h hkeeps
    split at h
    · obtain ⟨⟨composedTree, nextTime⟩, hcomposed, h⟩ := bind_eq_ok h
      cases h
      obtain ⟨n, hn, hnext, htimed⟩ := he
      rw [UpdateTree.compose, foldr_eq_flatten, hnext] at hcomposed
      rw [hnext] at htimed hkeeps
      obtain ⟨m, hm, hnext', htimed'⟩ := compose_timed unguarded_valueIsConcreteHeapAddress hn htimed
        hkeeps hcomposed
      exact ⟨m, hm, hnext', htimed'⟩
    · cases h

/-- A region built by steps that keep the times is in order. -/
theorem built_ordered (h : Built K isUnion (fun s => s.Legal K ∧ s.KeepsTimes K isUnion) mr) :
    Ordered K mr := by
  induction h with
  | empty typ => exact ⟨1, Int.one_pos, rfl, timed_empty [1]⟩
  | @step s mr operands hok h ih =>
    obtain ⟨hlegal, hkeeps⟩ := hok
    cases s with
    | memset mr keysAndValues => exact memset_ordered hlegal h
    | write mr guard key value => exact write_ordered (ih mr (by simp [Step.operands])) hkeeps h
    | compose earlier later =>
      exact compose_ordered (ih earlier (by simp [Step.operands]))
        (ih later (by simp [Step.operands])) hkeeps h

/-- In every run whose steps keep the times, the records of every region are in order. -/
theorem built_inOrder {mr : MemoryRegion κ R}
    (h : Built K isUnion (fun s => s.Legal K ∧ s.KeepsTimes K isUnion) mr) : InOrder K mr :=
  (built_ordered h).inOrder

end

/-- A region of numbered cells: key `0` is all of them, any other key its own cell. -/
def numbered : IMemoryKey ℕ (Points ℕ) where
  region k := .ok (if k = 0 then .all else .singleton k)
  unguard k := .ok [(trueTerm, k)]
  inRegionCondition _ _ := .ok trueTerm
  intersectionCondition k k' := .ok (.concrete (.bool (k == 0 || k' == 0 || k == k')) .bool)
  matchCondition k k' _ := .ok (.concrete (.bool (k == 0 || k' == 0 || k == k')) .bool)
  isExplicit _ _ := false
  isRange _ := false

/-- A region with one record. -/
def oneRecord [HashOrder VectorTime] (cell : ℕ) (written next : ℤ) : MemoryRegion ℕ (Points ℕ) :=
  { (empty .int32 : MemoryRegion ℕ (Points ℕ)) with
    updates := .node
      [(.singleton cell, ⟨cell, .concrete (.int 5) .int32, none, [written]⟩, .node [])]
    nextUpdateTime := [next] }

/-- Two writes at one cell, with a write at another cell composed over them. -/
theorem built_inOrder_cells :
    let _ : HashOrder VectorTime := ⟨fun _ => 0⟩
    ∃ mr, (oneRecord 1 2 3).compose numbered (fun _ => false) (oneRecord 2 1 2) = .ok mr ∧
      InOrder numbered mr := by
  intro _
  have hkeeps {cell : ℕ} {mr mr' : MemoryRegion ℕ (Points ℕ)}
      (hbuilt : Built numbered (fun _ => false) (fun s => s.Legal numbered ∧
        s.KeepsTimes numbered fun _ => false) mr)
      (hrun : mr.write numbered none cell (.concrete (.int 5) .int32) = .ok mr')
      (hnext : mr.nextUpdateTime.headI + 1 < 2 ^ 31)
      (hhidden : ∀ region, numbered.region cell = .ok region → ∀ e ∈ mr.flatten,
        ExactRegion.Subset e.1 region) :
      Built numbered (fun _ => false) (fun s => s.Legal numbered ∧
        s.KeepsTimes numbered fun _ => false) mr' := by
    refine .step (s := .write mr none cell (.concrete (.int 5) .int32))
      (forall_mem_singleton.mpr hbuilt) ⟨trivial, hnext, fun region hregion _ =>
        ⟨fun e he _ => hhidden region hregion e he, fun alternatives halternatives => ?_⟩⟩ hrun
    cases halternatives
    exact .inr (.inl (length_filter_le _ _))
  have honce : (empty .int32).write numbered none 1 (.concrete (.int 5) .int32) =
      .ok (oneRecord 1 1 2) := by with_unfolding_all rfl
  have htwice : (oneRecord 1 1 2).write numbered none 1 (.concrete (.int 5) .int32) =
      .ok (oneRecord 1 2 3) := by with_unfolding_all rfl
  have hother : (empty .int32).write numbered none 2 (.concrete (.int 5) .int32) =
      .ok (oneRecord 2 1 2) := by with_unfolding_all rfl
  have hrun : ((oneRecord 1 2 3).compose numbered (fun _ => false)
      (oneRecord 2 1 2)).toBool = true := by
    decide +kernel
  obtain ⟨mr, hrun⟩ := eq_ok_of_toBool hrun
  have hearlier := hkeeps (hkeeps (.empty _) honce (by decide) nofun) htwice (by decide)
    fun region hregion e he => by
      cases hregion
      rw [mem_singleton.mp he]
      exact .refl _
  have hlater := hkeeps (.empty _) hother (by decide) nofun
  have happend : AppendKeepsTimes numbered (oneRecord 1 2 3) (oneRecord 2 1 2) := by
    refine ⟨by decide, ⟨trivial, .grouped (fun e he h => ?_) fun e he _ _ => ?_⟩,
      forall_mem_singleton.mpr (by decide), fun p x hx y hy => ?_⟩
    · obtain rfl := mem_singleton.mp he
      cases h
    · obtain rfl := mem_singleton.mp he
      exact .grouped nofun nofun
    · have hp : p = 2 := by
        by_contra hp
        have hout : ExactRegion.contains (Points.singleton 2) p = false := by
          have hkeys : PersistentDict.keys (PersistentSet.add ([] : Pset ℕ) 2) = [2] := by decide
          simp [ExactRegion.contains, Points.contains, PersistentSet.contains, Points.singleton, hkeys,
            hp]
        rw [oneRecord, path_nil (forall_mem_singleton.mpr hout)] at hx
        cases hx
      subst hp
      cases hy
  refine ⟨mr, hrun, built_inOrder (.step (s := .compose (oneRecord 1 2 3) (oneRecord 2 1 2))
    (forall_mem_cons.mpr ⟨hearlier, forall_mem_singleton.mpr hlater⟩) ⟨trivial, ?_⟩ hrun)⟩
  dsimp only [Step.KeepsTimes]
  rw [if_pos]
  · exact .inr happend
  · decide +kernel

/-- The times at cell `1` after key `0` is written twice and a region in which key `1` is written is
composed over it. -/
def overtaken [HashOrder VectorTime] : Except Failure (MemoryRegion ℕ (Points ℕ)) := do
  let value : Term := .concrete (.int 5) .int32
  let once ← (empty .int32).write numbered none 0 value
  let earlier ← once.write numbered none 0 value
  let later ← (empty .int32).write numbered none 1 value
  earlier.compose numbered (fun _ => false) later

/-- The record of the later region stands over the record of the earlier one, and has the smaller
time. -/
theorem built_out_of_order :
    let _ : HashOrder VectorTime := ⟨fun _ => 0⟩
    ¬ ∀ mr : MemoryRegion ℕ (Points ℕ),
      Built numbered (fun _ => false) (Step.Legal numbered) mr → InOrder numbered mr := by
  intro _ h
  have htimes : (overtaken.map fun mr => (path 1 mr.updates).map fun k =>
      (valueIsConcreteHeapAddress numbered k, k.time)) = .ok [(false, [1]), (false, [2])] := by
    decide +kernel
  obtain ⟨mr, hmr, htimes⟩ := map_eq_ok htimes
  obtain ⟨once, honce, hmr⟩ := bind_eq_ok hmr
  obtain ⟨earlier, hearlier, hmr⟩ := bind_eq_ok hmr
  obtain ⟨later, hlater, hmr⟩ := bind_eq_ok hmr
  have hbuilt : Built numbered (fun _ => false) (Step.Legal numbered) mr := by
    have honce : Built numbered (fun _ => false) (Step.Legal numbered) once :=
      .step (s := .write (empty .int32) none 0 _) (forall_mem_singleton.mpr (.empty _)) trivial
        honce
    have hearlier : Built numbered (fun _ => false) (Step.Legal numbered) earlier :=
      .step (s := .write once none 0 _) (forall_mem_singleton.mpr honce) trivial hearlier
    have hlater : Built numbered (fun _ => false) (Step.Legal numbered) later :=
      .step (s := .write (empty .int32) none 1 _) (forall_mem_singleton.mpr (.empty _)) trivial
        hlater
    exact .step (s := .compose earlier later)
      (forall_mem_cons.mpr ⟨hearlier, forall_mem_singleton.mpr hlater⟩) trivial hmr
  have horder := (h mr hbuilt).order 1
  obtain ⟨x, l, hpath, hx, htimes⟩ := map_eq_cons_iff.mp htimes
  obtain ⟨y, l', rfl, hy, -⟩ := map_eq_cons_iff.mp htimes
  obtain ⟨hsplitsx, htimex⟩ := Prod.mk.inj hx
  obtain ⟨hsplitsy, htimey⟩ := Prod.mk.inj hy
  rw [hpath] at horder
  have hless := (pairwise_cons.mp horder).1 y mem_cons_self hsplitsx hsplitsy
  rw [htimex, htimey] at hless
  exact absurd hless (by decide)

end MemoryRegion

end VSharp
