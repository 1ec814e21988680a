import VSharp.Core.Propositional
import VSharp.Library.Results

/-!
# Core — Weight

Simplification never makes a formula heavier: the number of leaves under its conjunctions and
disjunctions does not grow (`simplifyOr_weight`, `disjunction_weight`).  Path conditions, which
simplify a shortened disjunction and then look at the result again, terminate by this.
-/

namespace VSharp
open Term Propositional Library List

namespace Term

mutual

/-- The leaves of a formula under conjunctions and disjunctions. -/
def weight : Term → ℕ
  | .expression (.operator .logicalAnd) xs _ => max 1 (weightList xs)
  | .expression (.operator .logicalOr) xs _ => max 1 (weightList xs)
  | _ => 1
termination_by structural x => x

def weightList : List Term → ℕ
  | [] => 0
  | x :: xs => weight x + weightList xs
termination_by structural xs => xs

end

theorem weight_pos (x : Term) : 1 ≤ weight x := by
  unfold weight
  split <;> omega

theorem weightList_eq (xs : List Term) : weightList xs = (xs.map weight).sum := by
  induction xs with
  | nil => rfl
  | cons x xs ih => rw [weightList, ih, map_cons, sum_cons]

theorem weightList_append (xs ys : List Term) :
    weightList (xs ++ ys) = weightList xs + weightList ys := by
  simp [weightList_eq]

theorem weight_le_weightList {x : Term} {xs : List Term} (h : x ∈ xs) :
    weight x ≤ weightList xs := by
  rw [weightList_eq]
  exact single_le_sum (by simp) _ (mem_map_of_mem h)

theorem weightList_le_of_subperm {xs ys : List Term} (h : xs.Subperm ys) :
    weightList xs ≤ weightList ys := by
  rw [weightList_eq, weightList_eq]
  obtain ⟨zs, hp, hs⟩ := h
  rw [← (hp.map weight).sum_eq]
  exact (hs.map weight).sum_le_sum (by simp)

end Term

section
variable {op co : OperationType}
variable {x r : Term} {xs : List Term}

section
variable (hop : op = .logicalAnd ∨ op = .logicalOr)

include hop

theorem weight_nary (xs : List Term) (t : Ty) :
    weight (.expression (.operator op) xs t) = max 1 (weightList xs) := by
  rcases hop with rfl | rfl <;> rfl

theorem weight_of_operands (h : operands? op x = some xs) : weight x = max 1 (weightList xs) := by
  unfold operands? at h
  split at h
  · split at h
    · next heq =>
        cases h
        subst heq
        exact weight_nary hop _ _
    · cases h
  · cases h

theorem makeNAry_weight (h : makeNAry op xs .bool = .ok r) : weight r ≤ weightList xs := by
  unfold makeNAry at h
  split at h
  · cases h
  · cases h
    simp [weightList]
  · next hne _ =>
      cases h
      cases xs with
      | nil => exact absurd rfl hne
      | cons x xs =>
        have := weight_pos x
        rw [weight_nary hop, weightList]
        omega

theorem makeBin_weight {y : Term}
    (h : makeBin op x y = .ok r) : weight r ≤ weight x + weight y := by
  have hx := weight_pos x
  have hy := weight_pos y
  unfold makeBin at h
  split at h
  · next l l' hl hl' =>
      have := makeNAry_weight hop h
      rw [weightList_append] at this
      rw [weight_of_operands hop hl, weight_of_operands hop hl']
      omega
  · split at h
    · cases h
      omega
    · cases h
      omega
    · split at h
      · next l hl =>
          have := makeNAry_weight hop h
          rw [weightList] at this
          rw [weight_of_operands hop hl]
          omega
      · next l hl _ =>
          have := makeNAry_weight hop h
          rw [weightList] at this
          rw [weight_of_operands hop hl]
          omega
      · have := makeNAry_weight hop h
        simp only [weightList] at this
        omega

end

theorem listExcept_weight (x : Term) (list : List Term) :
    weightList (listExcept x list) ≤ weightList list :=
  weightList_le_of_subperm (filter_sublist.trans (hashSet_sublist list)).subperm

theorem makeCoOpBinaryTerm_weight (hop : op = .logicalAnd ∨ op = .logicalOr)
    (hco : co = .logicalAnd ∨ co = .logicalOr) {list : List Term}
    (h : makeCoOpBinaryTerm x list co op = .ok r) : weight r ≤ weightList list + weight x := by
  unfold makeCoOpBinaryTerm at h
  split at h
  · cases h
    omega
  · have := makeBin_weight hop h
    simp only [weightList]
    omega
  · next hne _ =>
      have := makeBin_weight hop h
      rw [weight_nary hco] at this
      cases list with
      | nil => exact absurd rfl hne
      | cons y list =>
        have := weight_pos y
        rw [weightList] at *
        omega

variable {stopValue ignoreValue : Term}

/-- What the four simplification functions owe, for arguments of one size. -/
structure Lighter (op co : OperationType) (stopValue ignoreValue : Term) (n : ℕ) : Prop where
  ext : ∀ x y r, 4 * (size x + size y) + 3 = n →
    simplifyExt op co stopValue ignoreValue x y = .ok (some r) → weight r ≤ weight x + weight y
  expression : ∀ x y r, 4 * (size x + size y) + 2 = n →
    simplifyExpression op co stopValue ignoreValue x y = .ok (some r) →
    weight r ≤ weight x + weight y
  opOp : ∀ xargs y r, 4 * (sizeList xargs + size y) + 5 = n →
    simplifyOpOp op co stopValue ignoreValue xargs y = .ok (some r) →
    weight r ≤ weightList xargs + weight y
  coOp : ∀ x list y r, 4 * (sizeList list + size y) + 5 = n → weightList list ≤ weight x →
    simplifyCoOp op co stopValue ignoreValue x list y = .ok (some r) →
    weight r ≤ weight x + weight y

theorem lighter (hop : op = .logicalAnd ∨ op = .logicalOr)
    (hco : co = .logicalAnd ∨ co = .logicalOr) (hstop : weight stopValue = 1) (n : ℕ) :
    Lighter op co stopValue ignoreValue n := by
  induction n using Nat.strong_induction_on with
  | h n ih =>
  refine ⟨fun x y r hn h => ?_, fun x y r hn h => ?_, fun xargs y r hn h => ?_,
    fun x list y r hn hx h => ?_⟩
  · have hwx := weight_pos x
    have hwy := weight_pos y
    -- The rules for expressions, in either order.
    have hexp (a b : Term) (hab : size a + size b = size x + size y)
        (h : simplifyExpression op co stopValue ignoreValue a b = .ok (some r)) :
        weight r ≤ weight a + weight b :=
      (ih (4 * (size a + size b) + 2) (by omega)).expression a b r rfl h
    unfold simplifyExt at h
    iterate 7
      split at h
      · cases h
        omega
    split at h
    · split at h
      · have := hexp _ _ (Nat.add_comm _ _) h
        omega
      · exact hexp _ _ rfl h
    · exact hexp _ _ rfl h
    · have := hexp _ _ (Nat.add_comm _ _) h
      omega
    · cases h
  · unfold simplifyExpression at h
    split at h
    · next op' list t =>
        rw [size] at hn
        split at h
        · next heq =>
            subst heq
            have := (ih (4 * (sizeList list + size y) + 5) (by omega)).opOp list y r rfl h
            rw [weight_nary hop]
            omega
        · split at h
          · next heq =>
              subst heq
              refine (ih (4 * (sizeList list + size y) + 5) (by omega)).coOp _ list y r rfl ?_ h
              rw [weight_nary hco]
              omega
          · cases h
    · cases h
  · unfold simplifyOpOp at h
    split at h
    · next x =>
        have := (ih (4 * (size x + size y) + 3) (by simp only [sizeList] at hn; omega)).ext x y r rfl h
        simp only [weightList]
        omega
    · cases h
  · unfold simplifyCoOp at h
    split at h
    · next z =>
        have := (ih (4 * (size z + size y) + 3) (by simp only [sizeList] at hn; omega)).ext z y r rfl h
        simp only [weightList] at hx
        omega
    split at h
    · cases h
      omega
    split at h
    · next w _ =>
        obtain ⟨r', hr', heq⟩ := map_eq_ok h
        cases heq
        have := makeCoOpBinaryTerm_weight hop hco hr'
        have := listExcept_weight w list
        omega
    split at h
    · obtain ⟨r', hr', heq⟩ := map_eq_ok h
      cases heq
      have := makeCoOpBinaryTerm_weight hop hco hr'
      have := listExcept_weight (negate y) list
      omega
    split at h
    · cases h
    next args hargs =>
    have hwy := weight_of_operands hco hargs
    have hsy := size_of_operands hargs
    split at h
    · next a ys zs hone =>
        have hone := intersectionExceptOneNegation_spec hone
        obtain ⟨b, -, -, hsub⟩ := hone.exists_opposite
        have hsum := weightList_le_of_subperm hsub
        rw [weightList, weightList_append] at hsum
        have ha := weight_le_weightList hone.mem
        split at h
        · obtain ⟨r', hr', heq⟩ := map_eq_ok h
          cases heq
          have := makeNAry_weight hco hr'
          omega
        split at h
        · cases h
        next coZs hz =>
        have hwz := makeNAry_weight hco hz
        split at h
        · cases h
        · next aOpZs hext =>
            obtain ⟨r', hr', heq⟩ := map_eq_ok h
            cases heq
            have h₁ := size_le_sizeList hone.mem
            have h₂ := size_makeNAry_le hz
            have h₃ := hone.sizeList_right_lt
            have := (ih (4 * (size a + size coZs) + 3) (by omega)).ext a coZs aOpZs rfl hext
            have := makeNAry_weight hco hr'
            rw [weightList] at this
            omega
        · split at h
          · cases h
          next y' hy' =>
          have hwy' := makeNAry_weight hco hy'
          rw [weightList_append] at hwy'
          have h₂ := size_makeNAry_le hy'
          have h₃ := hone.sizeList_lt
          split at h
          · obtain ⟨r', hr', heq⟩ := map_eq_ok h
            cases heq
            have := makeNAry_weight hop hr'
            simp only [weightList] at this
            omega
          · have := (ih (4 * (sizeList list + size y') + 5) (by omega)).coOp x list y' r rfl hx h
            omega
    · split at h
      · cases h
        omega
      · cases h

theorem mkIte_eq_ok {bs : List (Term × Term)} {e : Term} (h : mkIte bs e = .ok r) :
    r = .ite bs e := by
  unfold mkIte at h
  split at h
  · cases h
  · exact (Except.ok.inj h).symm

/-- A connective that gives no union was given none, and did not get heavier. -/
theorem simplifyConnective_weight (hop : op = .logicalAnd ∨ op = .logicalOr)
    (hco : co = .logicalAnd ∨ co = .logicalOr) (hstop : weight stopValue = 1) {y : Term}
    (h : simplifyConnective op co stopValue ignoreValue x y = .ok r) (hr : ∀ bs e, r ≠ .ite bs e) :
    (∀ bs e, x ≠ .ite bs e) ∧ weight r ≤ weight x + weight y := by
  unfold simplifyConnective at h
  split at h
  · cases h
  · cases h
  · obtain ⟨_, -, h⟩ := bind_eq_ok h
    obtain ⟨_, -, h⟩ := bind_eq_ok h
    exact (hr _ _ (mkIte_eq_ok h)).elim
  · obtain ⟨_, -, h⟩ := bind_eq_ok h
    obtain ⟨_, -, h⟩ := bind_eq_ok h
    exact (hr _ _ (mkIte_eq_ok h)).elim
  · obtain ⟨_, -, h⟩ := bind_eq_ok h
    obtain ⟨_, -, h⟩ := bind_eq_ok h
    exact (hr _ _ (mkIte_eq_ok h)).elim
  · next hx _ _ _ =>
      refine ⟨fun bs e he => hx bs e he, ?_⟩
      split at h
      · cases h
      · next hext =>
          cases h
          exact (lighter hop hco hstop _).ext x y _ rfl hext
      · exact makeBin_weight hop h

/-- The disjunction of some terms, when it is no union, is no heavier than the terms. -/
theorem disjunction_weight (h : disjunction xs = .ok r) (hr : ∀ bs e, r ≠ .ite bs e) :
    weight r ≤ max 1 (weightList xs) := by
  cases xs with
  | nil =>
    cases h
    exact le_max_left _ _
  | cons x xs =>
    have hfold : (∀ bs e, x ≠ .ite bs e) ∧ weight r ≤ weight x + weightList xs := by
      rw [disjunction] at h
      induction xs generalizing x with
      | nil =>
        cases h
        exact ⟨hr, by simp [weightList]⟩
      | cons y xs ih =>
        rw [foldlM_cons] at h
        obtain ⟨z, hz, h⟩ := bind_eq_ok h
        obtain ⟨hne, hle⟩ := ih z h
        obtain ⟨hx, hw⟩ := simplifyConnective_weight (.inr rfl) (.inl rfl) rfl hz hne
        refine ⟨hx, ?_⟩
        rw [weightList]
        omega
    rw [weightList]
    omega

end

end VSharp
