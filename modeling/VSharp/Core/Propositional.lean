import Mathlib.Algebra.GroupWithZero.Nat
import Mathlib.Algebra.Order.BigOperators.Group.List
import Mathlib.Algebra.Order.Group.Nat
import VSharp.Core.Terms

/-!
# Core — Propositional

`VSharp.SILI.Core/Propositional.fs`, with no external simplifier configured.  The continuations
`matched` and `unmatched` of the source become `some` and `none`, a failing call becomes an error.
Hash sets are lists without repetitions, in insertion order.
-/

namespace VSharp
open List

namespace Term

mutual

/-- The size of a term as the simplifier sees it. -/
def size : Term → ℕ
  | .expression _ xs _ => 1 + sizeList xs
  | .ite bs e => 1 + sizeBranches bs + size e
  | _ => 1
termination_by structural x => x

def sizeList : List Term → ℕ
  | [] => 0
  | x :: xs => size x + sizeList xs
termination_by structural xs => xs

def sizeBranches : List (Term × Term) → ℕ
  | [] => 0
  | (g, v) :: bs => size g + size v + sizeBranches bs
termination_by structural bs => bs

end

theorem size_pos (x : Term) : 0 < size x := by
  cases x <;> simp only [size] <;> omega

theorem sizeList_eq (xs : List Term) : sizeList xs = (xs.map size).sum := by
  induction xs with
  | nil => rfl
  | cons x xs ih => rw [sizeList, ih, map_cons, sum_cons]

theorem size_le_sizeList {x : Term} {xs : List Term} (h : x ∈ xs) : size x ≤ sizeList xs := by
  rw [sizeList_eq]
  exact single_le_sum (by simp) _ (mem_map_of_mem h)

theorem sizeList_le_of_subperm {xs ys : List Term} (h : xs.Subperm ys) :
    sizeList xs ≤ sizeList ys := by
  rw [sizeList_eq, sizeList_eq]
  obtain ⟨zs, hp, hs⟩ := h
  rw [← (hp.map size).sum_eq]
  exact (hs.map size).sum_le_sum (by simp)

theorem size_le_sizeBranches {b : Term × Term} {bs : List (Term × Term)} (h : b ∈ bs) :
    size b.1 + size b.2 ≤ sizeBranches bs := by
  induction bs with
  | nil => cases h
  | cons c bs ih =>
    rw [sizeBranches]
    rcases mem_cons.mp h with rfl | h
    · omega
    · have := ih h
      omega

end Term

namespace Propositional
open Term

/-- The operand of a negation. -/
def negation? : Term → Option Term
  | .expression (.operator .logicalNot) [x] _ => some x
  | _ => none

/-- The operands of an expression of the given operator. -/
def operands? (op : OperationType) : Term → Option (List Term)
  | .expression (.operator op') xs _ => if op' = op then some xs else none
  | _ => none

def makeBin (operation : OperationType) (x y : Term) : Except Failure Term :=
  match operands? operation x, operands? operation y with
  | some list', some list'' => makeNAry operation (list' ++ list'') .bool
  | ox, oy =>
    match x, y with
    | .expression (.operator _) [] _, y => .ok y
    | _, .expression (.operator op) [] t => .ok (.expression (.operator op) [] t)
    | x, y =>
      match ox, oy with
      | some list', _ => makeNAry operation (y :: list') .bool
      | _, some list'' => makeNAry operation (x :: list'') .bool
      | none, none => makeNAry operation [x, y] .bool

def makeCoOpBinaryTerm (x : Term) (list : List Term) (listOp op : OperationType) :
    Except Failure Term :=
  match list with
  | [] => .ok x
  | [y] => makeBin op x y
  | list => makeBin op (.expression (.operator listOp) list .bool) x

/-- `HashSet(list)`. -/
def hashSet : List Term → List Term
  | [] => []
  | x :: xs => x :: (hashSet xs).filter (· ≠ x)

/-- `List.except [x]`, which also drops repetitions. -/
def listExcept (x : Term) (list : List Term) : List Term := (hashSet list).filter (· ≠ x)

/-- The loop of `IntersectionExceptOneNegation`: the common elements are moved from both sets to
the intersection. -/
def moveCommon : List Term → List Term → List Term → List Term →
    List Term × List Term × List Term
  | [], s1, s2, acc => (s1, s2, acc)
  | x :: list2, s1, s2, acc =>
    if x ∈ s1 then moveCommon list2 (s1.erase x) (s2.erase x) (x :: acc)
    else moveCommon list2 s1 s2 acc

/-- `(|IntersectionExceptOneNegation|_|)`. -/
def intersectionExceptOneNegation (list1 list2 : List Term) :
    Option (Term × List Term × List Term) :=
  match moveCommon list2 (hashSet list1) (hashSet list2) [] with
  | ([x], s2, intersection) =>
    match (negation? x).filter (· ∈ s2) with
    | some y => some (x, intersection, s2.filter (· ≠ y))
    | none =>
      if s2.any (negation? · = some x) then
        some (x, intersection, s2.filter (negation? · ≠ some x))
      else none
  | _ => none

def isPermutationOf (list1 list2 : List Term) : Bool :=
  decide (list1.length = list2.length) && list1.all (· ∈ list2) && list2.all (· ∈ list1)

/-! ### The sets of the simplifier -/

variable {xs list2 : List Term} {x : Term}

theorem mem_hashSet : x ∈ hashSet xs ↔ x ∈ xs := by
  induction xs with
  | nil => simp [hashSet]
  | cons y xs ih =>
    by_cases h : x = y <;> simp [hashSet, ih, h]

theorem nodup_hashSet (xs : List Term) : (hashSet xs).Nodup := by
  induction xs with
  | nil => exact nodup_nil
  | cons y xs ih => simpa [hashSet] using ih.filter _

theorem hashSet_sublist (xs : List Term) : (hashSet xs).Sublist xs := by
  induction xs with
  | nil => exact List.Sublist.slnil
  | cons y xs ih => exact (filter_sublist.trans ih).cons_cons y

/-- What the loop over the second list leaves: `s1` without the list, and the common elements moved
from `s2` to the intersection. -/
theorem moveCommon_spec {s1 s2 : List Term} (acc : List Term) (h1 : s1.Nodup)
    (h2 : ∀ x ∈ list2, x ∈ s1 → x ∈ s2) :
    (∀ x, x ∈ (moveCommon list2 s1 s2 acc).1 ↔ x ∈ s1 ∧ x ∉ list2) ∧
    (∀ x, x ∈ (moveCommon list2 s1 s2 acc).2.2 ↔ x ∈ acc ∨ x ∈ s1 ∧ x ∈ list2) ∧
    ((moveCommon list2 s1 s2 acc).2.2 ++ (moveCommon list2 s1 s2 acc).2.1).Perm (acc ++ s2) := by
  induction list2 generalizing s1 s2 acc with
  | nil => simp [moveCommon]
  | cons y list2 ih =>
    rw [moveCommon]
    split
    · next hy =>
        obtain ⟨ha, hb, hc⟩ := ih (y :: acc) (h1.erase y) fun x hx hx1 => by
          rw [h1.mem_erase_iff] at hx1
          exact (mem_erase_of_ne hx1.1).mpr (h2 x (mem_cons_of_mem _ hx) hx1.2)
        refine ⟨fun x => ?_, fun x => ?_, ?_⟩
        · rw [ha, h1.mem_erase_iff, mem_cons, not_or]
          tauto
        · rw [hb, h1.mem_erase_iff, mem_cons, mem_cons]
          by_cases hxy : x = y
          · simp [hxy, hy]
          · simp [hxy]
        · refine hc.trans ?_
          have hp := perm_cons_erase (h2 y mem_cons_self hy)
          exact (perm_middle.symm.trans (hp.symm.append_left acc))
    · next hy =>
        obtain ⟨ha, hb, hc⟩ := ih acc h1 fun x hx => h2 x (mem_cons_of_mem _ hx)
        refine ⟨fun x => ?_, fun x => ?_, hc⟩
        · rw [ha, mem_cons, not_or]
          exact ⟨fun h => ⟨h.1, fun e => hy (e ▸ h.1), h.2⟩, fun h => ⟨h.1, h.2.2⟩⟩
        · rw [hb, mem_cons]
          refine or_congr_right (and_congr_right fun hx => ?_)
          exact ⟨.inr, fun h => h.resolve_left fun e => hy (e ▸ hx)⟩

/-- `x` and `y` are a term and its negation, in either order. -/
def Opposite (x y : Term) : Prop := negation? x = some y ∨ negation? y = some x

/-- The first list is the common elements `ys` and one `x`, whose opposite is in the second list;
`zs` is the rest of the second list. -/
structure OneNegation (list1 list2 : List Term) (x : Term) (ys zs : List Term) : Prop where
  mem_left : ∀ z, z ∈ list1 ↔ z = x ∨ z ∈ ys
  not_mem : x ∉ list2
  nodup : (ys ++ zs).Nodup
  exists_opposite : ∃ b ∈ list2, Opposite x b ∧ (b :: (ys ++ zs)).Subperm list2
  mem_right : ∀ z ∈ list2, z ∈ ys ∨ z ∈ zs ∨ Opposite x z
  not_opposite : ∀ z ∈ zs, negation? x ≠ some z ∧ (negation? z = some x → (negation? x).isSome)

theorem intersectionExceptOneNegation_spec {list1 ys zs : List Term}
    (h : intersectionExceptOneNegation list1 list2 = some (x, ys, zs)) :
    OneNegation list1 list2 x ys zs := by
  obtain ⟨hs1, hacc, hperm⟩ := moveCommon_spec [] (nodup_hashSet list1)
    fun x (hx : x ∈ list2) _ => mem_hashSet.mpr hx
  unfold intersectionExceptOneNegation at h
  split at h
  case h_2 => cases h
  case h_1 x' s2 ys' heq =>
    simp only [heq, nil_append] at hs1 hacc hperm
    -- In both cases `b` leaves `s2`, with whatever else `keep` refuses.
    have key (keep : Term → Bool) (b : Term) (hb : b ∈ s2) (hkeep : keep b = false)
        (hopp : Opposite x' b) (hall : ∀ z, keep z = false → Opposite x' z)
        (hnot : ∀ z ∈ s2, keep z = true →
          negation? x' ≠ some z ∧ (negation? z = some x' → (negation? x').isSome)) :
        OneNegation list1 list2 x' ys' (s2.filter keep) := by
      have hnodup : (ys' ++ s2).Nodup := hperm.nodup_iff.mpr (nodup_hashSet list2)
      have hx' : x' ∈ list1 ∧ x' ∉ list2 := by simpa [mem_hashSet] using hs1 x'
      have hmem : ∀ z, z ∈ ys' ++ s2 ↔ z ∈ list2 := fun z => hperm.mem_iff.trans mem_hashSet
      have hys : ∀ z, z ∈ ys' ↔ z ∈ list1 ∧ z ∈ list2 := by simpa [mem_hashSet] using hacc
      have hrest : ∀ z, z = x' ↔ z ∈ list1 ∧ z ∉ list2 := by simpa [mem_hashSet] using hs1
      have hsub : (ys' ++ s2.filter keep).Sublist (ys' ++ s2) :=
        filter_sublist.append_left ys'
      refine ⟨fun z => ?_, hx'.2, hnodup.sublist hsub, ⟨b, ?_, hopp, ?_⟩, fun z hz => ?_,
        fun z hz => ?_⟩
      · rw [hrest, hys]
        tauto
      · exact (hmem b).mp (mem_append_right _ hb)
      · have hnd : (b :: (ys' ++ s2.filter keep)).Nodup := by
          refine nodup_cons.mpr ⟨fun hb' => ?_, hnodup.sublist hsub⟩
          rcases mem_append.mp hb' with hb' | hb'
          · exact (disjoint_of_nodup_append hnodup) hb' hb
          · simp [hkeep] at hb'
        refine subperm_of_subset hnd fun z hz => ?_
        rcases mem_cons.mp hz with rfl | hz
        · exact (hmem z).mp (mem_append_right _ hb)
        · exact (hmem z).mp (hsub.subset hz)
      · rcases mem_append.mp ((hmem z).mpr hz) with hz | hz
        · exact .inl hz
        · cases hk : keep z with
          | true => exact .inr (.inl (mem_filter.mpr ⟨hz, hk⟩))
          | false => exact .inr (.inr (hall z hk))
      · obtain ⟨hz, hk⟩ := mem_filter.mp hz
        exact hnot z hz hk
    split at h
    · next y hy =>
        obtain ⟨hneg, hmem⟩ := Option.filter_eq_some_iff.mp hy
        cases h
        refine key (· ≠ y) y (by simpa using hmem) (by simp) (.inl hneg) ?_ ?_
        · exact fun z hz => .inl (by simpa [hneg] using Eq.symm (by simpa using hz))
        · intro z _ hzy
          rw [hneg]
          exact ⟨by simpa using fun e => by simp [← e] at hzy, fun _ => rfl⟩
    · next hy =>
        split at h
        · next hany =>
            cases h
            obtain ⟨b, hb, hbx⟩ := any_eq_true.mp hany
            have hbx : negation? b = some x := by simpa using hbx
            refine key (negation? · ≠ some x) b hb (by simp [hbx]) (.inr hbx) ?_ ?_
            · exact fun z hz => .inr (by simpa using hz)
            · intro z hz hzx
              refine ⟨fun e => ?_, fun e => by simp [e] at hzx⟩
              simp [e, hz] at hy
        · cases h

variable {co : OperationType}

theorem size_makeNAry_le {r : Term} (h : makeNAry co xs .bool = .ok r) :
    size r ≤ 1 + sizeList xs := by
  unfold makeNAry at h
  split at h
  · cases h
  · cases h
    simp only [sizeList]
    omega
  · cases h
    simp only [size]
    omega

namespace OneNegation
variable {list1 list2 : List Term} {x : Term} {ys zs : List Term}

section
variable (h : OneNegation list1 list2 x ys zs)

include h

theorem mem : x ∈ list1 := (h.mem_left x).mpr (.inl rfl)

theorem sizeList_lt :
    sizeList (ys ++ zs) < sizeList list2 := by
  obtain ⟨b, -, -, hsub⟩ := h.exists_opposite
  have hle := sizeList_le_of_subperm hsub
  have hpos := size_pos b
  rw [sizeList] at hle
  omega

theorem sizeList_right_lt :
    sizeList zs < sizeList list2 :=
  (sizeList_le_of_subperm (sublist_append_right ys zs).subperm).trans_lt h.sizeList_lt

end

end OneNegation

/-! ### Simplification of logical operations -/

theorem size_of_operands {y : Term} {args : List Term} (h : operands? co y = some args) :
    size y = 1 + sizeList args := by
  unfold operands? at h
  split at h
  · split at h
    · cases h
      rfl
    · cases h
  · cases h

set_option linter.unusedVariables false in
mutual

def simplifyExt (op co : OperationType) (stopValue ignoreValue x y : Term) :
    Except Failure (Option Term) :=
  if y = ignoreValue then .ok (some x)
  else if x = ignoreValue then .ok (some y)
  else if y = stopValue then .ok (some stopValue)
  else if x = stopValue then .ok (some stopValue)
  else if x = y then .ok (some x)
  else if negation? x = some y then .ok (some stopValue)
  else if negation? y = some x then .ok (some stopValue)
  else
    match x, y with
    | .expression opx xs tx, .expression opy ys ty =>
      match simplifyExpression op co stopValue ignoreValue (.expression opx xs tx)
        (.expression opy ys ty) with
      | .ok none => simplifyExpression op co stopValue ignoreValue (.expression opy ys ty)
          (.expression opx xs tx)
      | res => res
    | .expression opx xs tx, y => simplifyExpression op co stopValue ignoreValue
        (.expression opx xs tx) y
    | x, .expression opy ys ty => simplifyExpression op co stopValue ignoreValue
        (.expression opy ys ty) x
    | _, _ => .ok none
termination_by 4 * (size x + size y) + 3
decreasing_by all_goals simp_wf <;> omega

/-- `simplifyExpression`, and `simplifyOpToExpr`, whose body is the same. -/
def simplifyExpression (op co : OperationType) (stopValue ignoreValue x y : Term) :
    Except Failure (Option Term) :=
  match x with
  | .expression (.operator op') list t =>
    if op = op' then simplifyOpOp op co stopValue ignoreValue list y
    else if co = op' then
      simplifyCoOp op co stopValue ignoreValue (.expression (.operator op') list t) list y
    else .ok none
  | _ => .ok none
termination_by 4 * (size x + size y) + 2
decreasing_by all_goals simp only [size]; omega

def simplifyOpOp (op co : OperationType) (stopValue ignoreValue : Term) (xargs : List Term)
    (y : Term) : Except Failure (Option Term) :=
  match xargs with
  | [x] => simplifyExt op co stopValue ignoreValue x y
  | _ => .ok none
termination_by 4 * (sizeList xargs + size y) + 5
decreasing_by all_goals simp_wf; simp only [sizeList]; omega

def simplifyCoOp (op co : OperationType) (stopValue ignoreValue x : Term) (list : List Term)
    (y : Term) : Except Failure (Option Term) :=
  match list with
  | [x] => simplifyExt op co stopValue ignoreValue x y
  | list =>
    -- Co(... y ...) op y = y
    if y ∈ list then .ok (some y)
    else
      match (negation? y).filter (· ∈ list) with
      -- Co(... y ...) op !y = Co(... ...) op !y
      | some y' => some <$> makeCoOpBinaryTerm y (listExcept y' list) co op
      | none =>
        -- Co(... !y ...) op y = Co(... ...) op y
        if negate y ∈ list then
          some <$> makeCoOpBinaryTerm y (listExcept (negate y) list) co op
        else
          match hy : operands? co y with
          | none => .ok none
          | some args =>
            match hone : intersectionExceptOneNegation list args with
            | some (a, ys, zs) =>
              -- Co(!a ys) op Co(a ys) = ys
              if zs.isEmpty then some <$> makeNAry co ys .bool
              else
                match hz : makeNAry co zs .bool with
                | .error e => .error e
                | .ok coZs =>
                  match simplifyExt op co stopValue ignoreValue a coZs with
                  | .error e => .error e
                  -- Co(a ys) op Co(!a ys zs) = ys co (a op Co(zs))
                  | .ok (some aOpZs) => some <$> makeNAry co (aOpZs :: ys) .bool
                  -- Co(a ys) op Co(!a ys zs) = Co(a ys) op Co(ys zs)
                  | .ok none =>
                    match hy' : makeNAry co (ys ++ zs) .bool with
                    | .error e => .error e
                    | .ok y' =>
                      match simplifyCoOp op co stopValue ignoreValue x list y' with
                      | .ok none => some <$> makeNAry op [x, y'] .bool
                      | res => res
            | none => if isPermutationOf list args then .ok (some x) else .ok none
termination_by 4 * (sizeList list + size y) + 5
decreasing_by
  · simp_wf
    simp only [sizeList]
    omega
  · have h := intersectionExceptOneNegation_spec hone
    have h₁ := size_le_sizeList h.mem
    have h₂ := size_makeNAry_le hz
    have h₃ := h.sizeList_right_lt
    have h₄ := size_of_operands hy
    simp_wf
    omega
  · have h := intersectionExceptOneNegation_spec hone
    have h₂ := size_makeNAry_le hy'
    have h₃ := h.sizeList_lt
    have h₄ := size_of_operands hy
    simp_wf
    omega

end

mutual

def simplifyNegation : Term → Except Failure Term
  | .concrete (.bool b) t => .ok (.concrete (.bool !b) t)
  | .concrete _ _ => .error .invalidCast
  | .expression (.operator .logicalNot) [x] _ => .ok x
  | .expression (.operator .logicalAnd) xs _ => do
      makeNAry .logicalOr (← simplifyNegations xs) .bool
  | .expression (.operator .logicalOr) xs _ => do
      makeNAry .logicalAnd (← simplifyNegations xs) .bool
  | .ite branches e => do
      mkIte (← simplifyNegationBranches branches) (← simplifyNegation e)
  | x => .ok (makeUnary .logicalNot x .bool)
termination_by structural x => x

/-- `Cps.List.mapk simplifyNegation`. -/
def simplifyNegations : List Term → Except Failure (List Term)
  | [] => .ok []
  | x :: xs => do
      .ok ((← simplifyNegation x) :: (← simplifyNegations xs))
termination_by structural xs => xs

/-- `simplifyNegation` of the values of a union. -/
def simplifyNegationBranches : List (Term × Term) → Except Failure (List (Term × Term))
  | [] => .ok []
  | (g, v) :: bs => do
      .ok ((g, ← simplifyNegation v) :: (← simplifyNegationBranches bs))
termination_by structural bs => bs

end

theorem size_lt_of_mem_gvs {bs : List (Term × Term)} {e : Term} {gv : Term × Term}
    (h : gv ∈ iteAsGvs bs e) : size gv.1 < size (.ite bs e) ∧ size gv.2 < size (.ite bs e) := by
  rw [size]
  have hg := size_pos gv.1
  have hv := size_pos gv.2
  rcases mem_append.mp h with h | h
  · have := size_le_sizeBranches h
    omega
  · obtain rfl := mem_singleton.mp h
    have : size trueTerm = 1 := rfl
    dsimp only at hv ⊢
    omega

/-- The name of a connective in a message. -/
def connectiveName : OperationType → String
  | .logicalAnd => "LogicalAnd"
  | .logicalOr => "LogicalOr"
  | _ => ""

def simplifyConnective (op co : OperationType) (stopValue ignoreValue x y : Term) :
    Except Failure Term :=
  match x, y with
  | .nop, _ => .error (.internal ("Invalid left operand of " ++ connectiveName op ++ "!"))
  | _, .nop => .error (.internal ("Invalid right operand of " ++ connectiveName op ++ "!"))
  | .ite bs1 e1, .ite bs2 e2 => do
      let gvs ← (iteAsGvs bs1 e1).attach.mapM fun gv1 =>
        (iteAsGvs bs2 e2).attach.mapM fun gv2 => do
          let g ← simplifyConnective .logicalAnd .logicalOr falseTerm trueTerm gv1.1.1 gv2.1.1
          let v ← simplifyConnective op co stopValue ignoreValue gv1.1.2 gv2.1.2
          .ok (g, v)
      let (branches, e) ← fromGvs gvs.flatten
      mkIte branches e
  | .ite bs e, y => do
      let branches ← bs.attach.mapM fun gv => do
        .ok (gv.1.1, ← simplifyConnective op co stopValue ignoreValue gv.1.2 y)
      mkIte branches (← simplifyConnective op co stopValue ignoreValue e y)
  | x, .ite bs e => do
      let branches ← bs.attach.mapM fun gv => do
        .ok (gv.1.1, ← simplifyConnective op co stopValue ignoreValue x gv.1.2)
      mkIte branches (← simplifyConnective op co stopValue ignoreValue x e)
  | x, y =>
    match simplifyExt op co stopValue ignoreValue x y with
    | .error e => .error e
    | .ok (some r) => .ok r
    | .ok none => makeBin op x y
termination_by size x + size y
decreasing_by
  · exact Nat.add_lt_add (size_lt_of_mem_gvs gv1.2).1 (size_lt_of_mem_gvs gv2.2).1
  · exact Nat.add_lt_add (size_lt_of_mem_gvs gv1.2).2 (size_lt_of_mem_gvs gv2.2).2
  · exact Nat.add_lt_add_right (size_lt_of_mem_gvs (mem_append_left _ gv.2)).2 _
  · exact Nat.add_lt_add_right (size_lt_of_mem_gvs (mem_append_right bs
      (mem_singleton_self (trueTerm, e)))).2 _
  · exact Nat.add_lt_add_left (size_lt_of_mem_gvs (mem_append_left _ gv.2)).2 _
  · exact Nat.add_lt_add_left (size_lt_of_mem_gvs (mem_append_right bs
      (mem_singleton_self (trueTerm, e)))).2 _

def simplifyAnd (x y : Term) : Except Failure Term :=
  simplifyConnective .logicalAnd .logicalOr falseTerm trueTerm x y

def simplifyOr (x y : Term) : Except Failure Term :=
  simplifyConnective .logicalOr .logicalAnd trueTerm falseTerm x y

/-! ### General functions -/

def conjunction : List Term → Except Failure Term
  | x :: xs => xs.foldlM simplifyAnd x
  | [] => .ok trueTerm

def disjunction : List Term → Except Failure Term
  | x :: xs => xs.foldlM simplifyOr x
  | [] => .ok falseTerm

/-- `filterDisjunction` of `simplifyAndWithDisjunctions`: the operands whose negation is among the
literals are dropped. -/
def filterDisjunction (literals xs : List Term) : Except Failure Term := do
  let filtered ← xs.filterM fun x => do
    .ok (decide ((← simplifyNegation x) ∉ literals))
  if filtered.length = 0 then .ok falseTerm else makeNAry .logicalOr filtered .bool

def simplifyAndWithDisjunctions (x y : Term) : Except Failure Term := do
  let res ← simplifyAnd x y
  match operands? .logicalAnd res with
  | none => .ok res
  | some clauses =>
    let disjunctions := clauses.filterMap (operands? .logicalOr)
    let literals := clauses.filter fun c => (operands? .logicalOr c).isNone
    let simplifiedDisjunctions ← disjunctions.mapM (filterDisjunction literals)
    conjunction (literals ++ simplifiedDisjunctions)

/-- `ToDisjunctiveIte`: every branch is guarded against the earlier guards; the guard of the else
value is returned beside. -/
def toDisjunctiveIte {α : Type} (disjG : Term) :
    List (Term × α) → Except Failure (List (Term × α) × Term)
  | [] => .ok ([], disjG)
  | (g, v) :: bs => do
      let g' ← simplifyAnd g disjG
      let disjG' ← simplifyAnd (← simplifyNegation g) disjG
      let (bs', elseGuard) ← toDisjunctiveIte disjG' bs
      .ok ((g', v) :: bs', elseGuard)

def toDisjunctiveGvs {α : Type} (branches : List (Term × α)) (elseValue : α) :
    Except Failure (List (Term × α)) := do
  let (disjointBranches, elseGuard) ← toDisjunctiveIte trueTerm branches
  .ok (disjointBranches ++ [(elseGuard, elseValue)])

end Propositional

end VSharp
