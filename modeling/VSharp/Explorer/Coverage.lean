import Mathlib.Algebra.Group.Action.Defs
import Mathlib.Algebra.Order.BigOperators.Group.Finset
import Mathlib.Algebra.Order.Field.Basic
import Mathlib.Tactic.NormNum
import VSharp.Explorer.Statistics

/-!
# Explorer — Coverage

`GetCurrentCoverage` of `VSharp.Explorer/Statistics.fs`: the part of the instructions of some
methods that is covered by tests.  A `double` is a rational number, an `int` has no limit.

- The covered places of a method are kept as offsets, and each one counts the whole block it is in.
- `IsPercentage`: the coverage is a percentage after each call of `SetBasicBlocksAsCoveredByTest`.
-/

namespace VSharp.Explorer
open PersistentDict SILI List Option

/-! ### Blocks -/

namespace CfgInfo

/-- The block is the last one that does not start behind the offset. -/
def Contains (cfg : CfgInfo) (b : BasicBlock) (offset : ℕ) : Prop :=
  b ∈ cfg.sortedBasicBlocks ∧ b.startOffset ≤ offset ∧
    ∀ b' ∈ cfg.sortedBasicBlocks, b'.startOffset ≤ offset → b'.startOffset ≤ b.startOffset

instance {cfg : CfgInfo} {b : BasicBlock} {offset : ℕ} : Decidable (cfg.Contains b offset) :=
  inferInstanceAs (Decidable (_ ∧ _))

variable {cfg : CfgInfo} {b b' : BasicBlock} {offset : ℕ}

theorem Contains.unique (h : cfg.Contains b offset) (h' : cfg.Contains b' offset) : b = b' := by
  have hnodup : (cfg.sortedBasicBlocks.map BasicBlock.startOffset).Nodup :=
    cfg.sorted.imp fun h => Nat.ne_of_lt h
  refine inj_on_of_nodup_map hnodup h.1 h'.1 ?_
  exact Nat.le_antisymm (h'.2.2 b h.1 h.2.1) (h.2.2 b' h'.1 h'.2.1)

/-- The binary search finds the block that contains the offset. -/
theorem exists_resolveBasicBlock (cfg : CfgInfo) (offset : ℕ) :
    ∃ b, cfg.resolveBasicBlock offset = some b ∧ cfg.Contains b offset := by
  obtain ⟨first, hfirst, hzero⟩ := cfg.entry
  obtain ⟨i, hi⟩ := @BlockLookup.exists_isLast
    (cfg.sortedBasicBlocks.map BasicBlock.startOffset) offset
    ⟨0, by rw [getElem?_map, hfirst, map_some, hzero], Nat.zero_le _⟩
  obtain ⟨start, hstart, hle⟩ := hi.start
  rw [getElem?_map] at hstart
  obtain ⟨b, hb, rfl⟩ := map_eq_some_iff.mp hstart
  refine ⟨b, ?_, mem_of_getElem? hb, hle, fun b' hb' hle' => ?_⟩
  · rw [resolveBasicBlock, BlockLookup.resolveBasicBlockIndex_eq hi cfg.sorted]
    show (if (i : ℤ) < 0 then none else cfg.sortedBasicBlocks[(i : ℤ).toNat]?) = some b
    rw [if_neg (by omega), Int.toNat_natCast, hb]
  · obtain ⟨j, hj⟩ := getElem?_of_mem hb'
    have hj' : (cfg.sortedBasicBlocks.map BasicBlock.startOffset)[j]? = some b'.startOffset := by
      rw [getElem?_map, hj, map_some]
    have hji := (hi.le_iff cfg.sorted hj').mp hle'
    rcases Nat.lt_or_eq_of_le hji with hlt | rfl
    · refine Nat.le_of_lt (BlockLookup.start_lt cfg.sorted hlt hj' ?_)
      rw [getElem?_map, hb, map_some]
    · rw [hb] at hj
      rw [some.inj hj]

/-- The block that an offset is in. -/
def block (cfg : CfgInfo) (offset : ℕ) : BasicBlock :=
  (cfg.resolveBasicBlock offset).getD ⟨0, 0, 0⟩

theorem resolveBasicBlock_eq (cfg : CfgInfo) (offset : ℕ) :
    cfg.resolveBasicBlock offset = some (cfg.block offset) := by
  obtain ⟨b, hb, -⟩ := cfg.exists_resolveBasicBlock offset
  rw [block, hb, getD_some]

theorem contains_block (cfg : CfgInfo) (offset : ℕ) : cfg.Contains (cfg.block offset) offset := by
  obtain ⟨b, hb, hcontains⟩ := cfg.exists_resolveBasicBlock offset
  rwa [block, hb, getD_some]

theorem contains_iff : cfg.Contains b offset ↔ cfg.block offset = b :=
  ⟨fun h => (cfg.contains_block offset).unique h, fun h => h ▸ cfg.contains_block offset⟩

end CfgInfo

/-! ### The code -/

section
variable {S M G : Type} [DecidableEq M] [DecidableEq G] (P : Methods M G)

namespace SVMStatistics
variable (x : SVMStatistics S M G)

def getCoveredInstructionsCount (m : M) : Option ℕ :=
  match tryFind x.blocksCoveredByTests (P.generalizeIfNeeded m) with
  | some coveredBlocksOffsets => do
      let blocks ← coveredBlocksOffsets.mapM (P.cfg m).resolveBasicBlock
      some (blocks.map BasicBlock.blockSize).sum
  | none => some 0

def getCurrentCoverage (methods : List M) : Option ℚ := do
  let methodsInZone := methods.filter fun m => P.inCoverageZone m
  let totalInstructionsCount := (methodsInZone.map fun m => (P.cfg m).methodSize).sum
  let covered ← methodsInZone.mapM (x.getCoveredInstructionsCount P)
  let coveredInstructionsCount := covered.sum
  if totalInstructionsCount ≠ 0 then
    some ((coveredInstructionsCount : ℚ) / totalInstructionsCount * 100)
  else some 0

/-- The statistics after calls of `SetBasicBlocksAsCoveredByTest`. -/
def afterTests (calls : List (List (CodeLocation M))) : SVMStatistics S M G :=
  calls.foldl (fun x blocks => (x.setBasicBlocksAsCoveredByTest P blocks).1) .new

end SVMStatistics

/-! ### What it should be -/

/-- The offsets that are reported of a method. -/
def reported (calls : List (List (CodeLocation M))) (g : G) : List ℕ :=
  (calls.flatten.filter fun loc => P.generalizeIfNeeded loc.method = g).map CodeLocation.offset

/-- The blocks of a method that contain a reported offset. -/
def coveredBlocks (calls : List (List (CodeLocation M))) (m : M) : Finset BasicBlock :=
  (P.cfg m).sortedBasicBlocks.toFinset.filter fun b =>
    ∃ o ∈ reported P calls (P.generalizeIfNeeded m), (P.cfg m).Contains b o

/-- The size of the blocks of the methods in the coverage zone that contain a reported offset. -/
def coveredSize (methods : List M) (calls : List (List (CodeLocation M))) : ℕ :=
  ((methods.filter fun m => P.inCoverageZone m).map fun m =>
    ∑ b ∈ coveredBlocks P calls m, b.blockSize).sum

/-- The size of the methods in the coverage zone. -/
def totalSize (methods : List M) : ℕ :=
  ((methods.filter fun m => P.inCoverageZone m).map fun m => (P.cfg m).methodSize).sum

/-- After each of the calls, the coverage is the part of the covered blocks, between 0 and 100, and
not less than before. -/
structure IsPercentage (S : Type) (methods : List M) (calls : List (List (CodeLocation M))) :
    Prop where
  value : ∀ done, done <+: calls →
    (SVMStatistics.afterTests P done : SVMStatistics S M G).getCurrentCoverage P methods =
      some (100 * (coveredSize P methods done : ℚ) / totalSize P methods)
  bounds : ∀ done, done <+: calls → ∀ c,
    (SVMStatistics.afterTests P done : SVMStatistics S M G).getCurrentCoverage P methods =
      some c → 0 ≤ c ∧ c ≤ 100
  mono : ∀ done later, done <+: later → later <+: calls → ∀ c c',
    (SVMStatistics.afterTests P done : SVMStatistics S M G).getCurrentCoverage P methods = some c →
    (SVMStatistics.afterTests P later : SVMStatistics S M G).getCurrentCoverage P methods =
      some c' → c ≤ c'

/-! ### What is covered -/

namespace SVMStatistics
variable {P} {x : SVMStatistics S M G}
variable {locs : List (CodeLocation M)}

/-- The offsets that are kept for a method. -/
def covered (x : SVMStatistics S M G) (g : G) : List ℕ :=
  (tryFind x.blocksCoveredByTests g).getD []

/-- What is kept are the offsets of some locations, each once. -/
structure Records (P : Methods M G) (x : SVMStatistics S M G) (locs : List (CodeLocation M)) :
    Prop where
  nodup : ∀ g, (x.covered g).Nodup
  mem_iff : ∀ g o, o ∈ x.covered g ↔
    ∃ loc ∈ locs, P.generalizeIfNeeded loc.method = g ∧ loc.offset = o

section

omit [DecidableEq M]

theorem covered_setBasicBlockAsCoveredByTest (b : Bool) (block : CodeLocation M) (g : G) :
    (setBasicBlockAsCoveredByTest P (x, b) block).1.covered g =
      if g = P.generalizeIfNeeded block.method then HashSet.add (x.covered g) block.offset
      else x.covered g := by
  have hcovered : (setBasicBlockAsCoveredByTest P (x, b) block).1.covered g =
      (tryFind (Dictionary.set (P.generalizeIfNeeded block.method)
        (HashSet.add (x.covered (P.generalizeIfNeeded block.method)) block.offset)
        x.blocksCoveredByTests) g).getD [] := by
    unfold setBasicBlockAsCoveredByTest
    dsimp only
    split <;> rfl
  rw [hcovered, Dictionary.tryFind_set]
  split
  case isTrue h => rw [getD_some, h]
  case isFalse => rfl

theorem Records.setBasicBlock (h : Records P x locs) (b : Bool) (block : CodeLocation M) :
    Records P (setBasicBlockAsCoveredByTest P (x, b) block).1 (locs ++ [block]) := by
  refine ⟨fun g => ?_, fun g o => ?_⟩
  · rw [covered_setBasicBlockAsCoveredByTest]
    split
    · exact HashSet.nodup_add (h.nodup g) _
    · exact h.nodup g
  · rw [covered_setBasicBlockAsCoveredByTest]
    simp only [mem_append, mem_singleton, or_and_right, exists_or, exists_eq_left]
    split
    case isTrue hg => rw [HashSet.mem_add, h.mem_iff, hg, eq_self, true_and, @eq_comm _ o]
    case isFalse hg => rw [h.mem_iff, or_iff_left fun hblock => hg hblock.1.symm]

theorem Records.foldl (h : Records P x locs) (b : Bool) (blocks : List (CodeLocation M)) :
    Records P (blocks.foldl (setBasicBlockAsCoveredByTest P) (x, b)).1 (locs ++ blocks) := by
  induction blocks generalizing x b locs with
  | nil => rwa [append_nil]
  | cons block blocks ih =>
    rw [foldl_cons, append_cons]
    exact ih (h.setBasicBlock b block) _

theorem Records.congr {locs' : List (CodeLocation M)} (h : Records P x locs)
    (hlocs : ∀ loc, loc ∈ locs ↔ loc ∈ locs') : Records P x locs' := by
  refine ⟨h.nodup, fun g o => ?_⟩
  rw [h.mem_iff]
  exact exists_congr fun loc => and_congr_left fun _ => hlocs loc

end

theorem records_afterTests (calls : List (List (CodeLocation M))) :
    Records P (afterTests P calls : SVMStatistics S M G) calls.flatten := by
  have hall (x : SVMStatistics S M G) (locs : List (CodeLocation M)) (h : Records P x locs) :
      Records P (calls.foldl (fun x blocks => (x.setBasicBlocksAsCoveredByTest P blocks).1) x)
        (locs ++ calls.flatten) := by
    induction calls generalizing x locs with
    | nil => rwa [flatten_nil, append_nil]
    | cons blocks calls ih =>
      rw [foldl_cons, List.flatten_cons, ← append_assoc]
      refine ih _ _ ((h.foldl false blocks.eraseDups).congr fun loc => ?_)
      rw [mem_append, mem_append, mem_eraseDups]
  exact hall .new [] ⟨fun g => nodup_nil, fun g o => by simp [covered, new, tryFind]⟩

theorem mem_covered_afterTests {calls : List (List (CodeLocation M))} {g : G} {o : ℕ} :
    o ∈ (afterTests P calls : SVMStatistics S M G).covered g ↔ o ∈ reported P calls g := by
  rw [(records_afterTests calls).mem_iff, reported, List.mem_map]
  simp only [mem_filter, decide_eq_true_eq, and_assoc]

omit [DecidableEq M] in
/-- Each offset counts the size of its block. -/
theorem getCoveredInstructionsCount_eq (m : M) :
    x.getCoveredInstructionsCount P m =
      some ((x.covered (P.generalizeIfNeeded m)).map fun o =>
        ((P.cfg m).block o).blockSize).sum := by
  rw [getCoveredInstructionsCount, covered]
  cases tryFind x.blocksCoveredByTests (P.generalizeIfNeeded m) with
  | none => rfl
  | some offsets =>
    have hmapM : offsets.mapM (P.cfg m).resolveBasicBlock =
        some (offsets.map (P.cfg m).block) := by
      rw [show (P.cfg m).resolveBasicBlock = fun o => pure ((P.cfg m).block o) from
        funext (P.cfg m).resolveBasicBlock_eq]
      exact mapM_pure
    dsimp only
    rw [hmapM, getD_some]
    show some ((offsets.map (P.cfg m).block).map BasicBlock.blockSize).sum = _
    rw [List.map_map]
    rfl

/-- The sizes that are counted for a method. -/
def countedSize (P : Methods M G) (x : SVMStatistics S M G) (m : M) : ℕ :=
  ∑ o ∈ (x.covered (P.generalizeIfNeeded m)).toFinset, ((P.cfg m).block o).blockSize

omit [DecidableEq M] in
theorem getCurrentCoverage_eq (h : Records P x locs) (methods : List M) :
    x.getCurrentCoverage P methods =
      some ((((methods.filter fun m => P.inCoverageZone m).map (countedSize P x)).sum : ℚ) /
        totalSize P methods * 100) := by
  have hcount (m : M) : x.getCoveredInstructionsCount P m = pure (countedSize P x m) := by
    rw [getCoveredInstructionsCount_eq, countedSize, sum_toFinset _ (h.nodup _)]
    rfl
  have hmapM : (methods.filter fun m => P.inCoverageZone m).mapM
      (x.getCoveredInstructionsCount P) =
        some ((methods.filter fun m => P.inCoverageZone m).map (countedSize P x)) := by
    rw [funext hcount]
    exact mapM_pure
  rw [getCurrentCoverage, hmapM]
  show (if totalSize P methods ≠ 0 then some _ else some 0) = _
  split
  case isTrue => rfl
  case isFalse hzero => rw [not_not.mp hzero, Nat.cast_zero, div_zero, zero_mul]

end SVMStatistics

end

/-! ### Sums -/

section
variable {α β : Type} [DecidableEq β] {s : Finset α} {g : α → β} {w : β → ℕ}

/-- A sum counts every value once if and only if no two elements have the same. -/
theorem sum_comp_eq_iff (hw : ∀ b ∈ s.image g, 0 < w b) :
    ∑ a ∈ s, w (g a) = ∑ b ∈ s.image g, w b ↔ Set.InjOn g s := by
  constructor
  · intro hsum
    rw [Finset.sum_comp, eq_comm, Finset.sum_eq_sum_iff_of_le fun b hb => ?_] at hsum
    · intro a ha a' ha' haa
      have hb := Finset.mem_image_of_mem g ha
      have hcard : (s.filter fun c => g c = g a).card = 1 := by
        have hone := hsum (g a) hb
        rw [smul_eq_mul, eq_comm] at hone
        exact Nat.eq_of_mul_eq_mul_right (hw _ hb) (hone.trans (Nat.one_mul _).symm)
      exact Finset.card_le_one.mp (Nat.le_of_eq hcard) a (Finset.mem_filter.mpr ⟨ha, rfl⟩) a'
        (Finset.mem_filter.mpr ⟨ha', haa.symm⟩)
    · obtain ⟨a, ha, rfl⟩ := Finset.mem_image.mp hb
      refine Nat.le_mul_of_pos_left _ (Finset.card_pos.mpr ⟨a, ?_⟩)
      exact Finset.mem_filter.mpr ⟨ha, rfl⟩
  · intro hinj
    exact (Finset.sum_image hinj).symm

theorem sum_image_le_sum : ∑ b ∈ s.image g, w b ≤ ∑ a ∈ s, w (g a) :=
  Finset.sum_image_le_of_nonneg fun _ _ => Nat.zero_le _

omit [DecidableEq β] in
theorem sum_map_eq_iff {f f' : α → ℕ} {l : List α} (h : ∀ a ∈ l, f a ≤ f' a) :
    (l.map f).sum = (l.map f').sum ↔ ∀ a ∈ l, f a = f' a := by
  induction l with
  | nil => exact ⟨fun _ => nofun, fun _ => rfl⟩
  | cons a l ih =>
    obtain ⟨hhead, htail⟩ := forall_mem_cons.mp h
    have hsum := sum_le_sum htail
    rw [map_cons, map_cons, sum_cons, sum_cons, forall_mem_cons, ← ih htail]
    omega

end

/-! ### The percentage -/

section
variable {S M G : Type} [DecidableEq M] [DecidableEq G] {P : Methods M G}
  {calls : List (List (CodeLocation M))} {methods : List M}
variable {done : List (List (CodeLocation M))}

/-- No block of the method contains two of the reported offsets. -/
def OncePerBlock (P : Methods M G) (calls : List (List (CodeLocation M))) (m : M) : Prop :=
  ∀ o ∈ reported P calls (P.generalizeIfNeeded m), ∀ o' ∈ reported P calls (P.generalizeIfNeeded m),
    ∀ b, (P.cfg m).Contains b o → (P.cfg m).Contains b o' → o = o'

theorem coveredBlocks_eq (m : M) : coveredBlocks P calls m =
    ((SVMStatistics.afterTests P calls : SVMStatistics S M G).covered
      (P.generalizeIfNeeded m)).toFinset.image (P.cfg m).block := by
  ext b
  simp only [coveredBlocks, Finset.mem_filter, List.mem_toFinset, Finset.mem_image,
    SVMStatistics.mem_covered_afterTests, CfgInfo.contains_iff]
  constructor
  · rintro ⟨-, o, ho, hb⟩
    exact ⟨o, ho, hb⟩
  · rintro ⟨o, ho, rfl⟩
    exact ⟨((P.cfg m).contains_block o).1, o, ho, rfl⟩

theorem size_coveredBlocks_le (m : M) : ∑ b ∈ coveredBlocks P calls m, b.blockSize ≤
    SVMStatistics.countedSize P (SVMStatistics.afterTests P calls : SVMStatistics S M G) m := by
  rw [@coveredBlocks_eq S]
  exact sum_image_le_sum

/-- A block is counted once if it contains one of the reported offsets. -/
theorem size_coveredBlocks_eq_iff (m : M) : ∑ b ∈ coveredBlocks P calls m, b.blockSize =
    SVMStatistics.countedSize P (SVMStatistics.afterTests P calls : SVMStatistics S M G) m ↔
      OncePerBlock P calls m := by
  rw [@coveredBlocks_eq S, eq_comm, SVMStatistics.countedSize, sum_comp_eq_iff]
  · simp only [Set.InjOn, Finset.mem_coe, List.mem_toFinset, SVMStatistics.mem_covered_afterTests,
      OncePerBlock, CfgInfo.contains_iff]
    constructor
    · rintro h o ho o' ho' b rfl hb
      exact h ho ho' hb.symm
    · exact fun h o ho o' ho' heq => h o ho o' ho' _ rfl heq.symm
  · intro b hb
    obtain ⟨o, -, rfl⟩ := Finset.mem_image.mp hb
    exact (P.cfg m).blockSize_pos _ ((P.cfg m).contains_block o).1

section

omit [DecidableEq M]

/-- The covered blocks are blocks of the method. -/
theorem size_coveredBlocks_le_methodSize (m : M) :
    ∑ b ∈ coveredBlocks P calls m, b.blockSize ≤ (P.cfg m).methodSize := by
  have hnodup : (P.cfg m).sortedBasicBlocks.Nodup :=
    List.Nodup.of_map _ ((P.cfg m).sorted.imp fun h => Nat.ne_of_lt h)
  rw [CfgInfo.methodSize, ← sum_toFinset _ hnodup]
  exact Finset.sum_le_sum_of_subset (Finset.filter_subset _ _)

theorem coveredSize_le : coveredSize P methods calls ≤ totalSize P methods :=
  sum_le_sum fun m _ => size_coveredBlocks_le_methodSize m

omit [DecidableEq G] in
theorem totalSize_pos {m : M} (hm : m ∈ methods) (hzone : P.inCoverageZone m = true) :
    0 < totalSize P methods := by
  obtain ⟨first, hfirst, -⟩ := (P.cfg m).entry
  have hmem := mem_of_getElem? hfirst
  have hsize : 0 < (P.cfg m).methodSize :=
    Nat.lt_of_lt_of_le ((P.cfg m).blockSize_pos _ hmem)
      (single_le_sum (fun _ _ => Nat.zero_le _) _ (List.mem_map_of_mem hmem))
  exact Nat.lt_of_lt_of_le hsize (single_le_sum (fun _ _ => Nat.zero_le _) _
    (List.mem_map_of_mem (f := fun m => (P.cfg m).methodSize) (mem_filter.mpr ⟨hm, hzone⟩)))

end

/-- The sizes are counted as they should be if and only if no block is counted twice. -/
theorem sum_countedSize_eq_iff :
    ((methods.filter fun m => P.inCoverageZone m).map (SVMStatistics.countedSize P
      (SVMStatistics.afterTests P calls : SVMStatistics S M G))).sum = coveredSize P methods calls ↔
      ∀ m ∈ methods, P.inCoverageZone m = true → OncePerBlock P calls m := by
  rw [coveredSize, eq_comm, sum_map_eq_iff fun m _ => size_coveredBlocks_le m]
  simp only [mem_filter, and_imp, size_coveredBlocks_eq_iff]

theorem getCurrentCoverage_afterTests :
    (SVMStatistics.afterTests P calls : SVMStatistics S M G).getCurrentCoverage P methods =
      some ((((methods.filter fun m => P.inCoverageZone m).map (SVMStatistics.countedSize P
        (SVMStatistics.afterTests P calls : SVMStatistics S M G))).sum : ℚ) /
        totalSize P methods * 100) :=
  SVMStatistics.getCurrentCoverage_eq (SVMStatistics.records_afterTests calls) methods

/-- The coverage is the part of the covered blocks if and only if no block is counted twice. -/
theorem getCurrentCoverage_eq_iff :
    (SVMStatistics.afterTests P calls : SVMStatistics S M G).getCurrentCoverage P methods =
        some (100 * (coveredSize P methods calls : ℚ) / totalSize P methods) ↔
      ∀ m ∈ methods, P.inCoverageZone m = true → OncePerBlock P calls m := by
  rw [getCurrentCoverage_afterTests, some_inj, ← @sum_countedSize_eq_iff S]
  constructor
  · intro h
    by_cases hzone : ∃ m ∈ methods, P.inCoverageZone m = true
    · obtain ⟨m, hm, hzone⟩ := hzone
      have htotal : (totalSize P methods : ℚ) ≠ 0 :=
        Nat.cast_ne_zero.mpr (Nat.ne_of_gt (totalSize_pos hm hzone))
      rw [div_mul_eq_mul_div, div_left_inj' htotal, mul_comm] at h
      exact Nat.cast_injective (mul_left_cancel₀ (by norm_num) h)
    · have hnone : (methods.filter fun m => P.inCoverageZone m) = [] :=
        filter_eq_nil_iff.mpr fun m hm hz => hzone ⟨m, hm, hz⟩
      rw [coveredSize, hnone]
      rfl
  · intro h
    rw [h, div_mul_eq_mul_div, mul_comm]

omit [DecidableEq M] in
theorem OncePerBlock.mono {m : M} (hdone : done <+: calls) (h : OncePerBlock P calls m) :
    OncePerBlock P done m := by
  have hsub {o : ℕ} (ho : o ∈ reported P done (P.generalizeIfNeeded m)) :
      o ∈ reported P calls (P.generalizeIfNeeded m) := by
    obtain ⟨rest, rfl⟩ := hdone
    rw [reported, flatten_append, filter_append, map_append]
    exact mem_append_left _ ho
  exact fun o ho o' ho' b hb hb' => h o (hsub ho) o' (hsub ho') b hb hb'

/-- What is counted grows. -/
theorem countedSize_mono (hdone : done <+: calls) (m : M) :
    SVMStatistics.countedSize P (SVMStatistics.afterTests P done : SVMStatistics S M G) m ≤
      SVMStatistics.countedSize P (SVMStatistics.afterTests P calls : SVMStatistics S M G) m := by
  refine Finset.sum_le_sum_of_subset fun o ho => ?_
  rw [List.mem_toFinset, SVMStatistics.mem_covered_afterTests] at ho ⊢
  obtain ⟨rest, rfl⟩ := hdone
  rw [reported, flatten_append, filter_append, map_append]
  exact mem_append_left _ ho

theorem getCurrentCoverage_mono (hdone : done <+: calls) {c c' : ℚ}
    (hc : (SVMStatistics.afterTests P done : SVMStatistics S M G).getCurrentCoverage P methods =
      some c)
    (hc' : (SVMStatistics.afterTests P calls : SVMStatistics S M G).getCurrentCoverage P methods =
      some c') : c ≤ c' := by
  rw [getCurrentCoverage_afterTests] at hc hc'
  rw [← some.inj hc, ← some.inj hc']
  have hsum := sum_le_sum (l := methods.filter fun m => P.inCoverageZone m)
    fun m _ => @countedSize_mono S _ _ _ _ P _ _ hdone m
  have hcast : (((methods.filter fun m => P.inCoverageZone m).map (SVMStatistics.countedSize P
      (SVMStatistics.afterTests P done : SVMStatistics S M G))).sum : ℚ) ≤
      (((methods.filter fun m => P.inCoverageZone m).map (SVMStatistics.countedSize P
        (SVMStatistics.afterTests P calls : SVMStatistics S M G))).sum : ℚ) := by
    exact_mod_cast hsum
  exact mul_le_mul_of_nonneg_right (div_le_div_of_nonneg_right hcast (Nat.cast_nonneg _))
    (by norm_num)

/-- A part of a size is a percentage. -/
theorem percentage_bounds {part total : ℕ} (h : part ≤ total) :
    0 ≤ 100 * (part : ℚ) / total ∧ 100 * (part : ℚ) / total ≤ 100 := by
  have hcast : (part : ℚ) ≤ total := Nat.cast_le.mpr h
  refine ⟨div_nonneg (mul_nonneg (by norm_num) (Nat.cast_nonneg _)) (Nat.cast_nonneg _), ?_⟩
  exact div_le_of_le_mul₀ (Nat.cast_nonneg _) (by norm_num)
    (mul_le_mul_of_nonneg_left hcast (by norm_num))

end

/-- The reported coverage is a percentage of the instructions, and never decreases, if and only if
no two of the offsets reported of a method in the zone are in one of its blocks. -/
theorem isPercentage_iff {S M G : Type} [DecidableEq M] [DecidableEq G] (P : Methods M G)
    (methods : List M) (calls : List (List (CodeLocation M))) :
    IsPercentage P S methods calls ↔
      ∀ m ∈ methods, P.inCoverageZone m = true → OncePerBlock P calls m := by
  constructor
  · intro h
    exact getCurrentCoverage_eq_iff.mp (h.value calls prefix_rfl)
  · intro h
    have hvalue (done : List (List (CodeLocation M))) (hdone : done <+: calls) :
        (SVMStatistics.afterTests P done : SVMStatistics S M G).getCurrentCoverage P methods =
          some (100 * (coveredSize P methods done : ℚ) / totalSize P methods) :=
      getCurrentCoverage_eq_iff.mpr fun m hm hzone => (h m hm hzone).mono hdone
    refine ⟨hvalue, fun done hdone c hc => ?_, fun done later hdone _ c c' hc hc' => ?_⟩
    · rw [hvalue done hdone] at hc
      rw [← some.inj hc]
      exact percentage_bounds coveredSize_le
    · exact getCurrentCoverage_mono hdone hc hc'

/-- Both offsets of the block are reported. -/
theorem not_isPercentage_oneBlock :
    ¬ IsPercentage oneMethod ℕ [()] [[⟨0, ()⟩, ⟨1, ()⟩]] := by
  intro h
  have hc : (SVMStatistics.afterTests oneMethod [[⟨0, ()⟩, ⟨1, ()⟩]] :
      SVMStatistics ℕ Unit Unit).getCurrentCoverage oneMethod [()] = some 200 := by
    decide +kernel
  exact absurd (h.bounds _ prefix_rfl 200 hc).2 (by norm_num)

end VSharp.Explorer
