import Mathlib.Data.List.Infix

/-!
# Utils — SubLists

`VSharp.Utils/Collections.fs`, `removeSubList`, which removes a delegate from an invocation list.

The list is folded from its end, and the sublist is looked for in what follows the current element.
So the last occurrence is the one removed, as `Delegate.Remove` does, but an occurrence at the
beginning of the list has no element before it and is never seen (`foldr_removeFolder`,
`isRemoval_iff`).
-/

namespace VSharp
open List
variable {α : Type} [DecidableEq α]

/-- The folder of `removeSubList`: the list that is left, and whether the sublist was removed. -/
def removeFolder (sublist : List α) (x : α) (acc : List α × Bool) : List α × Bool :=
  let (result, removed) := acc
  if removed = false ∧ result.length ≥ sublist.length ∧ result.take sublist.length = sublist then
    (x :: result.drop sublist.length, true)
  else (x :: result, removed)

def removeSubList (list sublist : List α) : Bool × List α :=
  let (list, removed) := list.foldr (removeFolder sublist) ([], false)
  (removed, list)

/-- The last occurrence of `ys` in `xs` is between `pre` and `post`. -/
structure LastOccurrence (xs ys pre post : List α) : Prop where
  eq : xs = pre ++ ys ++ post
  last : ∀ pre' post', xs = pre' ++ ys ++ post' → pre'.length ≤ pre.length

/-- What `Delegate.Remove` gives: the list without the last occurrence, if there is one. -/
def IsRemoval (xs ys : List α) (result : Bool × List α) : Prop :=
  (∃ pre post, LastOccurrence xs ys pre post ∧ result = (true, pre ++ post)) ∨
    ¬ ys <:+: xs ∧ result = (false, xs)

variable {x : α} {xs ys pre post : List α}

omit [DecidableEq α] in
/-- Behind a first element stand the occurrences that do not begin with it. -/
theorem LastOccurrence.cons (h : LastOccurrence xs ys pre post) :
    LastOccurrence (x :: xs) ys (x :: pre) post := by
  refine ⟨by rw [h.eq]; simp, fun pre' post' heq => ?_⟩
  cases pre' with
  | nil => exact Nat.zero_le _
  | cons y pre' =>
    have htail : xs = pre' ++ ys ++ post' := (List.cons.inj heq).2
    exact Nat.succ_le_succ (h.last pre' post' htail)

/-- The fold removes the last occurrence behind some element, if there is one. -/
theorem foldr_removeFolder (xs ys : List α) :
    (∃ pre post, LastOccurrence xs ys pre post ∧ pre ≠ [] ∧
      xs.foldr (removeFolder ys) ([], false) = (pre ++ post, true)) ∨
    (∀ pre post, xs = pre ++ ys ++ post → pre = []) ∧
      xs.foldr (removeFolder ys) ([], false) = (xs, false) := by
  induction xs with
  | nil =>
    refine .inr ⟨fun pre post h => ?_, rfl⟩
    simp only [append_assoc] at h
    exact (append_eq_nil_iff.mp h.symm).1
  | cons x xs ih =>
    rw [foldr_cons]
    rcases ih with ⟨pre, post, hlast, -, hfold⟩ | ⟨hnone, hfold⟩
    · refine .inl ⟨x :: pre, post, hlast.cons, cons_ne_nil x pre, ?_⟩
      rw [hfold]
      rfl
    · rw [hfold, removeFolder]
      by_cases hstarts : ys <+: xs
      · obtain ⟨post, rfl⟩ := hstarts
        -- the sublist begins the rest of the list, and occurs nowhere later in it
        have hlast : LastOccurrence (ys ++ post) ys [] post :=
          ⟨rfl, fun pre' post' heq => by rw [hnone pre' post' heq]⟩
        refine .inl ⟨[x], post, hlast.cons, cons_ne_nil x [], ?_⟩
        simp
      · have hnot : ¬ xs.take ys.length = ys := fun h => hstarts (h ▸ take_prefix _ _)
        refine .inr ⟨fun pre post heq => ?_, by simp [hnot]⟩
        cases pre with
        | nil => rfl
        | cons y pre =>
          have htail : xs = pre ++ ys ++ post := (List.cons.inj heq).2
          obtain rfl := hnone pre post htail
          exact absurd ⟨post, htail.symm⟩ hstarts

/-- The result is right unless the sublist occurs at the beginning of the list and nowhere else. -/
theorem isRemoval_iff (xs ys : List α) : IsRemoval xs ys (removeSubList xs ys) ↔
    ¬ (ys <+: xs ∧ ∀ pre post, xs = pre ++ ys ++ post → pre = []) := by
  rcases foldr_removeFolder xs ys with ⟨pre, post, hlast, hpre, hfold⟩ | ⟨hnone, hfold⟩
  · have hresult : removeSubList xs ys = (true, pre ++ post) := by rw [removeSubList, hfold]
    refine iff_of_true (.inl ⟨pre, post, hlast, hresult⟩) fun h => hpre (h.2 pre post hlast.eq)
  · have hresult : removeSubList xs ys = (false, xs) := by rw [removeSubList, hfold]
    rw [hresult]
    constructor
    · rintro (⟨pre, post, -, heq⟩ | ⟨hnot, -⟩) ⟨hstarts, -⟩
      · cases heq
      · exact hnot hstarts.isInfix
    · intro h
      refine .inr ⟨fun ⟨pre, post, heq⟩ => h ⟨?_, hnone⟩, rfl⟩
      obtain rfl := hnone pre post heq.symm
      exact ⟨post, heq⟩

/-- A delegate alone in its list is not removed. -/
theorem removeSubList_whole : removeSubList [0] [0] = (false, [0]) ∧
    ¬ IsRemoval [0] [0] (removeSubList [0] [0]) := by
  refine ⟨by decide, ?_⟩
  rintro (⟨pre, post, -, heq⟩ | ⟨hnot, -⟩)
  · cases heq
  · exact hnot (infix_refl [0])

end VSharp
