import VSharp.Core.GuardedApply
import VSharp.Core.SimplifiedTerms

/-!
# Core — CallDepth

The arithmetic simplifiers terminate.  `Simplifiers.step` turns the simplifiers that are called into
those that call them; a call terminates if from some depth on it does not matter what the calls
nested deeper give (`Terminates`).

- `Same E P x x'`: the runs are one, which raises an `E` or returns a `P`;
- `Arithmetic k`: the terms without unions, with a bound on their weight, which a negation does not
  change; `Integral`: the unions of these, to any depth and under any guards;
- `Agree n S S'`: the simplifiers do the same on terms whose weight leaves room for `n` nested
  calls.  Each step needs two units of weight less from the calls below: the one is the node it
  takes apart, the other is for a negation and a quotient, which pass an operand on as it is.
-/

namespace VSharp
open Term Propositional Library Merging List
open Filter (atTop)

/-! ### Runs -/

namespace Run
variable {α β : Type} {E : Failure → Prop} {P Q : α → Prop} {x x' : Run α}

/-- The run raises an `E`, or returns a `P`. -/
def Ends (E : Failure → Prop) (P : α → Prop) : Run α → Prop
  | .error e => E e
  | .ok (a, _) => P a

/-- The runs are one, which raises an `E` or returns a `P`. -/
def Same (E : Failure → Prop) (P : α → Prop) (x x' : Run α) : Prop := x = x' ∧ x.Ends E P

/-- A run that raises nothing. -/
theorem Ends.gives (h : x.Ends ⊥ P) : x.Gives fun a _ => P a := by
  rcases x with e | ⟨a, d⟩
  · exact h.elim
  · exact ⟨a, d, rfl, h⟩

namespace Same

theorem pure {a : α} (h : P a) : Same E P (Pure.pure a) (Pure.pure a) := ⟨rfl, h⟩

theorem lift {y : Except Failure α} (h : ∀ a, y = .ok a → P a) : Same ⊤ P (.lift y) (.lift y) := by
  cases y with
  | error e => exact ⟨rfl, trivial⟩
  | ok a => exact .pure (h a rfl)

theorem relax (h : Same E P x x') : Same ⊤ P x x' := by
  obtain ⟨rfl, h⟩ := h
  rcases x with e | ⟨a, d⟩
  · exact ⟨rfl, trivial⟩
  · exact ⟨rfl, h⟩

theorem mono (h : Same E P x x') (hPQ : ∀ a, P a → Q a) : Same E Q x x' := by
  obtain ⟨rfl, h⟩ := h
  rcases x with e | ⟨a, d⟩
  · exact ⟨rfl, h⟩
  · exact ⟨rfl, hPQ a h⟩

variable {f f' : α → Run β} {R : β → Prop}

theorem bind (h : Same E P x x') (hf : ∀ a, P a → Same E R (f a) (f' a)) :
    Same E R (x >>= f) (x' >>= f') := by
  obtain ⟨rfl, h⟩ := h
  rcases x with e | ⟨a, d⟩
  · exact ⟨rfl, h⟩
  obtain ⟨heq, hR⟩ := hf a h
  show Same E R (Run.bind _ f) (Run.bind _ f')
  unfold Run.bind
  dsimp only
  rw [← heq]
  rcases hb : f a with e | ⟨b, d'⟩ <;> rw [hb] at hR <;> exact ⟨rfl, hR⟩

theorem doubt {P : Term → Prop} {x x' : Run Term} (h : Same E P x x') (rule : Doubt) :
    Same E P (Run.doubt rule x) (Run.doubt rule x') := by
  obtain ⟨rfl, h⟩ := h
  rcases x with e | ⟨a, d⟩ <;> exact ⟨rfl, h⟩

theorem ite {c : Prop} [Decidable c] {y y' : Run α} (h : Same E P x x') (h' : Same E P y y') :
    Same E P (if c then x else y) (if c then x' else y') := by
  split
  · exact h
  · exact h'

theorem mapM {l : List α} (h : ∀ a ∈ l, Same E R (f a) (f' a)) :
    Same E (fun bs => ∀ b ∈ bs, R b) (l.mapM f) (l.mapM f') := by
  induction l with
  | nil => exact .pure nofun
  | cons a l ih =>
    obtain ⟨ha, hl⟩ := forall_mem_cons.mp h
    rw [mapM_cons, mapM_cons]
    exact ha.bind fun b hb => (ih hl).bind fun bs hbs =>
      .pure (forall_mem_cons.mpr ⟨hb, hbs⟩)

end Same

end Run

open Run (Same)

/-! ### Rules -/

/-- The same rule applies, and its runs are the same. -/
def SameRule (E : Failure → Prop) (P : Term → Prop) :
    Option (Run Term) → Option (Run Term) → Prop :=
  Option.Rel (Same E P)

namespace SameRule
variable {E : Failure → Prop} {P : Term → Prop} {o o' p p' : Option (Run Term)} {x x' : Run Term}
  {c : Prop}

theorem some (h : Same E P x x') : SameRule E P (some x) (some x') := Option.Rel.some h

theorem orElse (h : SameRule E P o o') (h' : SameRule E P p p') :
    SameRule E P (o <|> p) (o' <|> p') := by
  cases h with
  | some h => exact .some h
  | none => exact h'

theorem bind {α : Type} {o : Option α} {f f' : α → Option (Run Term)}
    (h : ∀ a, o = .some a → SameRule E P (f a) (f' a)) : SameRule E P (o >>= f) (o >>= f') := by
  cases o with
  | none => exact .none
  | some a => exact h a rfl

theorem rule [Decidable c] (h : Same E P x x') :
    SameRule E P (VSharp.rule c x) (VSharp.rule c x') := by
  unfold VSharp.rule
  split
  · exact .some h
  · exact .none

theorem ite [Decidable c] (h : SameRule E P o o') (h' : SameRule E P p p') :
    SameRule E P (if c then o else p) (if c then o' else p') := by
  split
  · exact h
  · exact h'

theorem getD (h : SameRule E P o o') (hx : Same E P x x) : Same E P (o.getD x) (o'.getD x) := by
  cases h with
  | some h => exact h
  | none => exact hx

theorem eitherOperand {f f' : Term → Term → Option (Run Term)} {x y : Term}
    (h : SameRule E P (f x y) (f' x y)) (h' : SameRule E P (f y x) (f' y x)) :
    SameRule E P (Simplifiers.eitherOperand f x y) (Simplifiers.eitherOperand f' x y) :=
  .ite (.orElse h h') (.ite h (.ite h' .none))

end SameRule

/-! ### Arithmetic terms -/

/-- The terms without unions of literals, constants and the arithmetic operations, with a bound on
their weight; none of them is a truth value. -/
inductive Arithmetic : ℕ → Term → Prop where
  | literal {k : ℕ} {t : Ty} {n : ℤ} (ht : t ≠ .bool) (hk : 1 ≤ k) :
      Arithmetic k (literal n t)
  | constant {k : ℕ} {t : Ty} (c : Source) (ht : t ≠ .bool) (hk : 1 ≤ k) :
      Arithmetic k (.constant c t)
  | neg {k : ℕ} {t : Ty} {x : Term} (ht : t ≠ .bool) (hx : Arithmetic k x) :
      Arithmetic k (makeUnary .unaryMinus x t)
  | binary {i j k : ℕ} {t : Ty} {op : OperationType} {x y : Term} (ht : t ≠ .bool)
      (hop : IsArithmetic op ∨ IsShift op) (hx : Arithmetic i x) (hy : Arithmetic j y)
      (hk : i + j + 1 ≤ k) : Arithmetic k (makeBinary op x y t)

/-- Unions, to any depth and under any guards, of arithmetic terms. -/
def Integral (x : Term) : Prop := Nested (fun v => ∃ k, Arithmetic k v) x

namespace Arithmetic
variable {k l : ℕ} {x : Term}

section
variable (h : Arithmetic k x)

include h

theorem pos : 1 ≤ k := by
  induction h with
  | literal _ hk => exact hk
  | constant _ _ hk => exact hk
  | neg _ _ ih => exact ih
  | binary => omega

theorem mono (hkl : k ≤ l) : Arithmetic l x := by
  induction h generalizing l with
  | literal ht hk => exact .literal ht (by omega)
  | constant c ht hk => exact .constant c ht (by omega)
  | neg ht _ ih => exact .neg ht (ih hkl)
  | binary ht hop hx hy hk => exact .binary ht hop hx hy (by omega)

theorem notIte : NotIte x := by
  cases h <;> exact nofun

theorem plain : Plain x := by
  refine ⟨?_, ?_⟩
  · rintro fs t rfl
    cases h
  · cases h <;> exact fun heq => absurd (Except.ok.inj heq) ‹_›

theorem integral : Integral x := .leaf h.notIte ⟨k, h⟩

theorem of_concrete {n : ℤ} {t : Ty} (hx : concrete? x = some (n, t)) :
    t ≠ .bool := by
  cases h with
  | literal ht =>
    cases hx
    exact ht
  | _ => cases hx

theorem of_unaryMinus {y : Term} (hx : unaryMinus? x = some y) :
    Arithmetic k y := by
  unfold unaryMinus? at hx
  split at hx
  · cases hx
    cases h with
    | neg _ hy => exact hy
  · cases hx

theorem concrete_or :
    (∃ n t, x = VSharp.literal n t) ∨ isConcrete x = false := by
  cases h with
  | literal => exact .inl ⟨_, _, rfl⟩
  | _ => exact .inr rfl

/-- The operands that a pattern finds weigh less than the term. -/
theorem operands {a b : Term} (hx : add? x = some (a, b) ∨
    mul? x = some (a, b) ∨ (∃ s, div? x = some (a, b, s)) ∨ shiftLeft? x = some (a, b) ∨
    ∃ s, shiftRight? x = some (a, b, s)) :
    ∃ i j, Arithmetic i a ∧ Arithmetic j b ∧ i + j + 1 ≤ k := by
  have hshape : ∃ op t, x = .expression (.operator op) [a, b] t := by
    rcases hx with h | h | ⟨s, h⟩ | h | ⟨s, h⟩
    · unfold add? at h
      split at h <;> cases h
      exact ⟨_, _, rfl⟩
    · unfold mul? at h
      split at h <;> cases h
      exact ⟨_, _, rfl⟩
    · unfold div? at h
      split at h <;> cases h <;> exact ⟨_, _, rfl⟩
    · unfold shiftLeft? at h
      split at h <;> cases h
      exact ⟨_, _, rfl⟩
    · unfold shiftRight? at h
      split at h <;> cases h <;> exact ⟨_, _, rfl⟩
  obtain ⟨op, t, rfl⟩ := hshape
  cases h with
  | binary _ _ ha hb hk => exact ⟨_, _, ha, hb, hk⟩

end

end Arithmetic

theorem Run.Same.weaken {E : Failure → Prop} {k l : ℕ} {x x' : Run Term}
    (h : Same E (Arithmetic k) x x') (hkl : k ≤ l) : Same E (Arithmetic l) x x' :=
  h.mono fun _ h => h.mono hkl

/-! ### The calls of one simplifier -/

namespace Simplifiers

/-- The simplifiers do the same, on terms of a weight below a bound; shifts do not raise. -/
structure Agree (n : ℕ) (S S' : Simplifiers) : Prop where
  addition : ∀ {t : Ty} {i j : ℕ} {x y : Term}, t ≠ .bool → Arithmetic i x → Arithmetic j y →
    2 * (i + j) + 1 < n → Same Trap (Arithmetic (i + j + 1)) (S.addition t x y) (S'.addition t x y)
  unaryMinus : ∀ {t : Ty} {i : ℕ} {x : Term}, t ≠ .bool → Arithmetic i x → 2 * i + 1 < n →
    Same Trap (Arithmetic i) (S.unaryMinus t x) (S'.unaryMinus t x)
  multiplication : ∀ {t : Ty} {i j : ℕ} {x y : Term}, t ≠ .bool → Arithmetic i x →
    Arithmetic j y → 2 * (i + j) + 1 < n →
    Same Trap (Arithmetic (i + j + 1)) (S.multiplication t x y) (S'.multiplication t x y)
  division : ∀ {t : Ty} {i j : ℕ} {x y : Term} (isSigned : Bool), t ≠ .bool → Arithmetic i x →
    Arithmetic j y → 2 * (i + j) + 1 < n →
    Same Trap (Arithmetic (i + j + 1)) (S.division isSigned t x y) (S'.division isSigned t x y)
  shift : ∀ {E : Failure → Prop} {t : Ty} {i j : ℕ} {x y : Term} {op : OperationType},
    IsShift op → t ≠ .bool → Arithmetic i x → Arithmetic j y → 2 * (i + j) < n →
    Same E (Arithmetic (i + j + 1)) (S.shift op t x y) (S'.shift op t x y)

section
variable {E : Failure → Prop} {S S' : Simplifiers} {n i j k : ℕ} {t : Ty} {a b x y : Term}
  {op : OperationType}

theorem same_literal (ht : t ≠ .bool) (hk : 1 ≤ k) (m : ℤ) :
    Same E (Arithmetic k) (pure (VSharp.literal m t)) (pure (VSharp.literal m t)) :=
  .pure (.literal ht hk)

/-- A binary simplifier on terms without unions. -/
theorem same_leaves [HashOrder FieldId] {P : Term → Prop} {concrete : ℤ → ℤ → Run Term}
    {unmatched unmatched' again again' : Term → Term → Run Term} (hx : Arithmetic i x)
    (hy : Arithmetic j y) (hlit : ∀ p q, Same E P (concrete p q) (concrete p q))
    (h : Same E P (unmatched x y) (unmatched' x y)) :
    Same E P (simplifyGenericBinary (onNumbers concrete) unmatched again x y)
      (simplifyGenericBinary (onNumbers concrete) unmatched' again' x y) := by
  have hleaf (hxy : isConcrete x = false ∨ isConcrete y = false) :
      Same E P (simplifyGenericBinary (onNumbers concrete) unmatched again x y)
        (simplifyGenericBinary (onNumbers concrete) unmatched' again' x y) := by
    rw [simplifyGenericBinary_leaf hx.notIte hy.notIte hxy,
      simplifyGenericBinary_leaf hx.notIte hy.notIte hxy]
    exact h
  rcases hx.concrete_or with ⟨p, t, rfl⟩ | hx'
  · rcases hy.concrete_or with ⟨q, t', rfl⟩ | hy'
    · exact hlit p q
    · exact hleaf (.inr hy')
  · exact hleaf (.inl hx')

theorem same_sorted (ht : t ≠ .bool) (hop : IsArithmetic op) (hx : Arithmetic i x)
    (hy : Arithmetic j y) :
    Same E (Arithmetic (i + j + 1)) (pure (sorted op t x y)) (pure (sorted op t x y)) := by
  refine .pure ?_
  unfold sorted
  split
  · exact .binary ht (.inl hop) hy hx (by omega)
  · exact .binary ht (.inl hop) hx hy le_rfl

theorem same_quotient (ht : t ≠ .bool) (hk : 1 ≤ k) {p q : ℤ} {result : Except Failure ℤ}
    {f : BitVec t.width → BitVec t.width → BitVec t.width}
    (h : result = ILCalculator.signedDivision p q t f ∨
      result = ILCalculator.unsignedDivision p q t f) :
    Same Trap (Arithmetic k) (concreteQuotient t result) (concreteQuotient t result) := by
  rcases division_cases h with ⟨e, rfl, he⟩ | rfl
  · exact ⟨rfl, he⟩
  · exact same_literal ht hk _

theorem same_concreteShift (ht : t ≠ .bool) (hk : 1 ≤ k) (hop : IsShift op) (p q : ℤ) :
    Same E (Arithmetic k) (simplifyConcreteShift op t p q) (simplifyConcreteShift op t p q) := by
  cases hop <;> exact same_literal ht hk _

variable (hS : Agree n S S') (ht : t ≠ .bool)

include hS ht

theorem Agree.additionToExpression (hx : Arithmetic i x) (hy : Arithmetic j y)
    (hn : 2 * (i + j) < n) : SameRule Trap (Arithmetic (i + j + 1))
      (S.simplifyAdditionToExpression x y t) (S'.simplifyAdditionToExpression x y t) := by
  have hj := hy.pos
  unfold simplifyAdditionToExpression
  split
  · rename_i a b h
    obtain ⟨i₁, i₂, ha, hb, hi⟩ := hx.operands (.inl h)
    have := ha.pos
    have hpure {z : Term} {m : ℕ} (hz : Arithmetic m z) (hm : m ≤ i + j + 1) :
        Same Trap (Arithmetic (i + j + 1)) (pure z) (pure z) := .pure (hz.mono hm)
    unfold simplifyAdditionToSum
    refine .orElse (.bind fun _ _ => .bind fun _ _ => .some ?_) (.orElse (.rule (hpure hb ?_))
      (.orElse (.rule (hpure ha ?_)) (.orElse (.rule (hpure hb ?_)) (.rule (hpure ha ?_)))))
    · exact (hS.addition ht (.literal ht le_rfl) hb (by omega)).weaken (by omega)
    all_goals omega
  · rename_i x' h _
    have hx' := hx.of_unaryMinus h
    unfold simplifyAdditionToUnaryMinus
    refine .orElse (.rule (same_literal ht (by omega) 0)) (.bind fun ⟨a, b⟩ h => ?_)
    obtain ⟨i₁, i₂, ha, hb, hi⟩ := hx'.operands (.inl h)
    exact .orElse (.rule (.pure (hb.mono (by omega)))) (.rule (.pure (ha.mono (by omega))))
  · rename_i a b h _ _
    obtain ⟨i₁, i₂, ha, hb, hi⟩ := hx.operands (.inr (.inl h))
    have := ha.pos
    have := hb.pos
    unfold simplifyAdditionToProduct
    refine .bind fun ⟨p, tp⟩ hp => .orElse ?_ (.bind fun _ _ => .bind fun _ _ => .rule ?_)
    · exact .rule ((hS.multiplication ht (.literal (ha.of_concrete hp) le_rfl) hy
        (by omega)).weaken (by omega))
    · exact (hS.multiplication ht (.literal ht le_rfl) hb (by omega)).weaken (by omega)
  · rename_i a b h _ _ _
    obtain ⟨i₁, i₂, ha, hb, hi⟩ := hx.operands (.inr (.inr (.inr (.inl h))))
    have := hb.pos
    unfold simplifyAdditionToShift
    refine .bind fun ⟨p, tp⟩ hp => .bind fun _ _ => .bind fun _ _ => .rule (.ite ?_ ?_)
    · exact same_literal ht (by omega) 0
    · exact (hS.shift .shiftLeft ht ha (.literal (hb.of_concrete hp) le_rfl) (by omega)).weaken
        (by omega)
  · exact .none

theorem Agree.unaryMinusExt (hx : Arithmetic i x) (hn : 2 * i < n) :
    SameRule Trap (Arithmetic i) (S.simplifyUnaryMinusExt t x) (S'.simplifyUnaryMinusExt t x) := by
  unfold simplifyUnaryMinusExt
  refine .orElse (.bind fun y h => .some (.pure (hx.of_unaryMinus h)))
    (.orElse (.bind fun ⟨a, b⟩ h => .some ?_) (.bind fun ⟨a, y⟩ h => .bind fun ⟨p, tp⟩ hp =>
      .some ?_))
  · obtain ⟨i₁, i₂, ha, hb, hi⟩ := hx.operands (.inl h)
    exact (hS.unaryMinus ht ha (by omega)).bind fun _ hA => (hS.unaryMinus ht hb (by omega)).bind
      fun _ hB => (hS.addition ht hA hB (by omega)).weaken hi
  · obtain ⟨i₁, i₂, ha, hb, hi⟩ := hx.operands (.inr (.inl h))
    exact (hS.unaryMinus (ha.of_concrete hp) ha (by omega)).bind fun _ hA =>
      (hS.multiplication ht hA hb (by omega)).weaken hi

theorem Agree.multiplicationOfExpression (hx : Arithmetic i x) (hy : Arithmetic j y)
    (hn : 2 * (i + j) < n) : SameRule Trap (Arithmetic (i + j + 1))
      (S.simplifyMultiplicationOfExpression t x y)
      (S'.simplifyMultiplicationOfExpression t x y) := by
  have hj := hy.pos
  unfold simplifyMultiplicationOfExpression
  split
  · rename_i a b h
    obtain ⟨i₁, i₂, ha, hb, hi⟩ := hx.operands (.inr (.inl h))
    have := ha.pos
    have hcancel {m m' : ℕ} {u v : Term} (hu : Arithmetic m u) (hv : Arithmetic m' v)
        (hm : m + m' < i + j) : Same Trap (Arithmetic (i + j + 1)) (S.multiplication t u v)
          (S'.multiplication t u v) :=
      (hS.multiplication ht hu hv (by omega)).weaken (by omega)
    unfold simplifyMultiplicationOfProduct
    refine .orElse (.bind fun _ _ => .bind fun _ _ => .some ?_) (.orElse ?_ (.orElse ?_
      (.orElse ?_ ?_)))
    · exact hcancel (.literal ht le_rfl) hb (by omega)
    · refine .bind fun ⟨c, d, s⟩ h => .rule (.doubt ?_ _)
      obtain ⟨m, _, hc, -, hm⟩ := ha.operands (.inr (.inr (.inl ⟨s, h⟩)))
      exact hcancel hc hb (by omega)
    · refine .bind fun ⟨c, d, s⟩ h => .rule (.doubt ?_ _)
      obtain ⟨m, _, hc, -, hm⟩ := hb.operands (.inr (.inr (.inl ⟨s, h⟩)))
      exact hcancel ha hc (by omega)
    · refine .bind fun ⟨c, d, s⟩ h => .rule (.doubt ?_ _)
      obtain ⟨m, _, hc, -, hm⟩ := hy.operands (.inr (.inr (.inl ⟨s, h⟩)))
      exact hcancel hb hc (by omega)
    · refine .bind fun ⟨c, d, s⟩ h => .rule (.doubt ?_ _)
      obtain ⟨m, _, hc, -, hm⟩ := hy.operands (.inr (.inr (.inl ⟨s, h⟩)))
      exact hcancel ha hc (by omega)
  · rename_i a b s h _
    obtain ⟨i₁, i₂, ha, hb, hi⟩ := hx.operands (.inr (.inr (.inl ⟨s, h⟩)))
    have := ha.pos
    have hcancel {m m' : ℕ} {u v : Term} (hu : Arithmetic m u) (hv : Arithmetic m' v)
        (hm : m + m' < i + j) : Same Trap (Arithmetic (i + j + 1)) (S.division s t u v)
          (S'.division s t u v) :=
      (hS.division s ht hu hv (by omega)).weaken (by omega)
    unfold simplifyMultiplicationOfDivision
    refine .orElse (.bind fun _ _ => .bind fun _ _ => .some (.doubt ?_ _)) (.orElse ?_ ?_)
    · exact hcancel (.literal ht le_rfl) hb (by omega)
    · refine .bind fun ⟨c, d⟩ h => .rule (.doubt ?_ _)
      obtain ⟨_, m, -, hd, hm⟩ := hb.operands (.inr (.inl h))
      exact hcancel ha hd (by omega)
    · refine .bind fun ⟨c, d⟩ h => .rule (.doubt ?_ _)
      obtain ⟨m, _, hc, -, hm⟩ := hb.operands (.inr (.inl h))
      exact hcancel ha hc (by omega)
  · rename_i a b h _ _
    obtain ⟨i₁, i₂, ha, hb, hi⟩ := hx.operands (.inr (.inr (.inr (.inl h))))
    have := hb.pos
    unfold simplifyMultiplicationOfShifts
    refine .orElse (.bind fun ⟨p, tp⟩ hp => .bind fun ⟨c, d⟩ hc => .bind fun ⟨q, tq⟩ _ =>
      .some (.ite ?_ (same_literal ht (by omega) 0))) (.bind fun ⟨p, tp⟩ hp => .bind fun _ _ =>
        .rule ?_)
    · obtain ⟨j₁, j₂, hc', hd, hj'⟩ := hy.operands (.inr (.inr (.inr (.inl hc))))
      have := hd.pos
      exact (hS.multiplication ht ha hc' (by omega)).bind fun _ hmul =>
        (hS.shift .shiftLeft ht hmul (.literal (hb.of_concrete hp) le_rfl) (by omega)).weaken
          (by omega)
    · have hrun (m : ℤ) := (hS.shift (E := Trap) .shiftLeft ht ha
        (.literal (n := m) (hb.of_concrete hp) le_rfl) (by omega)).weaken (l := i + j + 1)
          (by omega)
      exact .ite (.doubt (.ite (same_literal ht (by omega) 0) (hrun _)) _)
        (.ite (same_literal ht (by omega) 0) (hrun _))
  · exact .none

theorem Agree.divisionExt (isSigned : Bool) (hx : Arithmetic i x) (hy : Arithmetic j y)
    (hn : 2 * (i + j) < n) : SameRule Trap (Arithmetic (i + j + 1))
      (S.simplifyDivisionExt isSigned t x y) (S'.simplifyDivisionExt isSigned t x y) := by
  have hj := hy.pos
  have hone : Same Trap (Arithmetic (i + j + 1)) (pure x) (pure x) := .pure (hx.mono (by omega))
  have hneg := (hS.unaryMinus ht hx (by omega)).weaken (l := i + j + 1) (by omega)
  unfold simplifyDivisionExt
  refine .orElse (.rule hone) (.orElse (.rule hone) (.orElse (.rule (.ite hneg (hneg.doubt _)))
    (.orElse (.rule ((same_literal ht (by omega) 1).doubt _)) (.orElse (.bind fun _ _ =>
      .rule ((same_literal ht (by omega) (-1)).doubt _)) (.orElse (.bind fun ⟨p, _⟩ _ =>
        .rule ?_) (.bind fun ⟨a, b, s⟩ h => .bind fun ⟨q, tq⟩ hq => .bind fun ⟨p, _⟩ _ =>
          .rule ?_))))))
  · have hrun := (hS.shift (E := Trap) .shiftRight_Un ht hx
      (.literal (n := whatPowerOf2 p) (t := .int32) nofun le_rfl) (by omega)).weaken
        (l := i + j + 1) (by omega)
    exact .ite (hrun.doubt _) hrun
  · obtain ⟨i₁, i₂, ha, hb, hi⟩ := hx.operands (.inr (.inr (.inr (.inr ⟨s, h⟩))))
    have := hb.pos
    refine .ite (.doubt ?_ _) ?_ <;> exact .ite (same_literal ht (by omega) 0) ((hS.shift
      (isShift_shiftRightOp isSigned) ht ha
      (.literal (hb.of_concrete hq) le_rfl) (by omega)).weaken (by omega))

/-- The rules of shifts call shifts by a literal, of a part of the operand. -/
theorem Agree.shiftOfExpression (hop : IsShift op) (hx : Arithmetic i x)
    (hy : Arithmetic j y) (hn : 2 * (i + j) < n + 1) : SameRule E (Arithmetic (i + j + 1))
      (S.simplifyShiftOfExpression op t x y) (S'.simplifyShiftOfExpression op t x y) := by
  have hj := hy.pos
  have hzero := same_literal (E := E) ht (show 1 ≤ i + j + 1 by omega) 0
  have hpart {op : OperationType} (hop : IsShift op) {m : ℕ} {z : Term} {t' : Ty}
      (hz : Arithmetic m z) (hm : m < i) (ht' : t' ≠ .bool) (p : ℤ) :
      Same E (Arithmetic (i + j + 1)) (S.shift op t z (VSharp.literal p t'))
        (S'.shift op t z (VSharp.literal p t')) :=
    (hS.shift hop ht hz (.literal ht' le_rfl) (by omega)).weaken (by omega)
  have hshifted {m : ℕ} {a b : Term} (ha : Arithmetic m a) (hm : m < i)
      (hb : ∀ {p : ℤ} {t' : Ty}, concrete? b = some (p, t') → t' ≠ .bool) :
      SameRule E (Arithmetic (i + j + 1)) (S.simplifyShiftOfShifted op t a b y)
        (S'.simplifyShiftOfShifted op t a b y) := by
    unfold simplifyShiftOfShifted
    exact .orElse (.bind fun ⟨p, tp⟩ hp => .bind fun ⟨q, tq⟩ _ => .rule (hpart hop ha hm (hb hp) _))
      (.orElse (.bind fun _ _ => .bind fun _ _ => .rule hzero)
        (.bind fun _ _ => .bind fun _ _ => .rule (.ite (hzero.doubt _) hzero)))
  unfold simplifyShiftOfExpression
  split
  · rename_i a b h
    obtain ⟨i₁, i₂, ha, hb, hi⟩ := hx.operands (.inr (.inl h))
    refine .ite ?_ .none
    unfold simplifyShiftLeftMul
    refine .bind fun ⟨p, _⟩ _ => .bind fun ⟨q, tq⟩ hq => .rule ?_
    have hrun := hpart .shiftLeft hb (by omega) (hy.of_concrete hq)
    exact .ite (.doubt (.ite hzero (hrun _)) _) (.ite hzero (hrun _))
  · rename_i a b s h _
    obtain ⟨i₁, i₂, ha, hb, hi⟩ := hx.operands (.inr (.inr (.inl ⟨s, h⟩)))
    refine .ite ?_ .none
    unfold simplifyShiftRightDiv
    refine .bind fun ⟨p, _⟩ _ => .bind fun ⟨q, tq⟩ hq => .rule ?_
    have hrun := hpart hop ha (by omega) (hy.of_concrete hq)
    exact .ite (.doubt (.ite hzero (hrun _)) _) (.ite hzero (hrun _))
  · rename_i a b h _ _
    obtain ⟨i₁, i₂, ha, hb, hi⟩ := hx.operands (.inl h)
    refine .ite ?_ .none
    unfold simplifyShiftLeftOfAddition
    exact .bind fun ⟨q, tq⟩ hq => .some (.ite hzero
      (hpart .shiftLeft ha (by omega) (hy.of_concrete hq) _))
  · rename_i a b h _ _ _
    obtain ⟨i₁, i₂, ha, hb, hi⟩ := hx.operands (.inr (.inr (.inr (.inl h))))
    exact .ite (hshifted ha (by omega) hb.of_concrete) .none
  · rename_i a b s h _ _ _ _
    obtain ⟨i₁, i₂, ha, hb, hi⟩ := hx.operands (.inr (.inr (.inr (.inr ⟨s, h⟩))))
    exact .ite (hshifted ha (by omega) hb.of_concrete) .none
  · exact .none

end

section
variable [HashOrder FieldId]

/-- The simplifiers that call the given ones. -/
def step (S : Simplifiers) : Simplifiers :=
  ⟨S.simplifyAddition, S.simplifyUnaryMinus, S.simplifyMultiplication, S.simplifyDivision,
    S.simplifyShift⟩

/-- One more nested call. -/
theorem Agree.step {n : ℕ} {S S' : Simplifiers} (hS : Agree n S S') :
    Agree (n + 1) S.step S'.step where
  addition {t i j x y} ht hx hy hn := by
    refine same_leaves hx hy (fun p q => same_literal ht (by omega) _)
      (SameRule.getD ?_ (same_sorted ht .add hx hy))
    exact .orElse (.rule (.pure (hy.mono (by omega)))) (.orElse (.rule (.pure (hx.mono (by omega))))
      (.eitherOperand (hS.additionToExpression ht hx hy (by omega)) (by
        rw [Nat.add_comm i j]
        exact hS.additionToExpression ht hy hx (by omega))))
  unaryMinus {t i x} ht hx hn := by
    rcases hx.concrete_or with ⟨p, t', rfl⟩ | hlit
    · exact same_literal ht hx.pos _
    · show Same _ _ (S.simplifyUnaryMinus t x) (S'.simplifyUnaryMinus t x)
      unfold simplifyUnaryMinus
      rw [simplifyGenericUnary_leaf hx.notIte hlit, simplifyGenericUnary_leaf hx.notIte hlit]
      exact (hS.unaryMinusExt ht hx (by omega)).getD (.pure (.neg ht hx))
  multiplication {t i j x y} ht hx hy hn := by
    have hi := hx.pos
    have hj := hy.pos
    have hzero := same_literal (E := Trap) ht (show 1 ≤ i + j + 1 by omega) 0
    refine same_leaves hx hy (fun p q => same_literal ht (by omega) _)
      (SameRule.getD ?_ (same_sorted ht .multiply hx hy))
    exact .orElse (.rule hzero) (.orElse (.rule hzero)
      (.orElse (.rule (.pure (hy.mono (by omega)))) (.orElse (.rule (.pure (hx.mono (by omega))))
      (.orElse (.rule ((hS.unaryMinus ht hy (by omega)).weaken (by omega)))
      (.orElse (.rule ((hS.unaryMinus ht hx (by omega)).weaken (by omega)))
      (.eitherOperand (hS.multiplicationOfExpression ht hx hy (by omega)) (by
        rw [Nat.add_comm i j]
        exact hS.multiplicationOfExpression ht hy hx (by omega))))))))
  division {t i j x y} isSigned ht hx hy hn := by
    refine same_leaves hx hy (fun p q => ?_)
      ((hS.divisionExt ht isSigned hx hy (by omega)).getD
        (.pure (.binary ht (.inl ?_) hx hy le_rfl)))
    · cases isSigned with
      | true => exact same_quotient ht (by omega) (.inl rfl)
      | false => exact same_quotient ht (by omega) (.inr rfl)
    · cases isSigned with
      | true => exact .divide
      | false => exact .divide_Un
  shift {E t i j x y op} hop ht hx hy hn := by
    refine same_leaves hx hy (fun p q => same_concreteShift ht (by omega) hop p q)
      (SameRule.getD ?_ (.pure (.binary ht (.inr hop) hx hy le_rfl)))
    exact .orElse (.rule (same_literal ht (by omega) 0)) (.orElse
      (.rule (.pure (hx.mono (by omega)))) (.ite (hS.shiftOfExpression ht hop hx hy (by omega))
        .none))

/-- With `n` nested calls it does not matter what the calls below give. -/
theorem agree_iterate (n : ℕ) (S S' : Simplifiers) : Agree n (step^[n] S) (step^[n] S') := by
  induction n with
  | zero => constructor <;> intros <;> omega
  | succ n ih =>
    rw [Function.iterate_succ_apply', Function.iterate_succ_apply']
    exact ih.step

end

end Simplifiers

/-! ### Unions -/

/-- From some depth on the call gives one integral term, whatever the calls nested deeper give. -/
def Grounded {σ : Type} (step : σ → σ) (call : σ → Run Term) : Prop :=
  ∀ᶠ n in atTop, ∀ f f', Same ⊤ Integral (call (step^[n] f)) (call (step^[n] f'))

theorem Grounded.of_step {σ : Type} {step : σ → σ} {call : σ → Run Term}
    (h : ∀ᶠ n in atTop, ∀ f f', Same ⊤ Integral (call (step (step^[n] f)))
      (call (step (step^[n] f')))) : Grounded step call := by
  refine eventually_of_succ (h.mono fun n hn f f' => ?_)
  rw [Function.iterate_succ_apply', Function.iterate_succ_apply']
  exact hn f f'

theorem forall_iteAsGvs {P : Term → Prop} {bs : List (Term × Term)} {e : Term}
    (hbs : ∀ b ∈ bs, P b.2) (he : P e) : ∀ gv ∈ iteAsGvs bs e, P gv.2 :=
  forall_mem_append.mpr ⟨hbs, forall_mem_singleton.mpr he⟩

section
variable [HashOrder FieldId] {σ : Type}

theorem same_mergeRun {bs : List (Term × Term)} {e : Term} (hbs : ∀ b ∈ bs, Integral b.2)
    (he : Integral e) : Same ⊤ Integral (mergeRun (bs, e)) (mergeRun (bs, e)) := by
  refine .lift fun r h => ?_
  have hplain (v : Term) (hv : ∃ k, Arithmetic k v) : Plain v := by
    obtain ⟨k, hv⟩ := hv
    exact hv.plain
  rcases @merge_leaves _ ⟨bs, e⟩ _ r hplain hbs he h with ⟨hv, hr⟩ | ⟨bs', e', rfl, hleaves⟩
  · exact .leaf hv hr
  · refine .ite (fun b hb => ?_) (.leaf hleaves.elseValue.1 hleaves.elseValue.2)
    exact .leaf (hleaves.branches b hb).1 (hleaves.branches b hb).2

theorem same_mergeGvs {gvs : List (Term × Term)} (h : ∀ gv ∈ gvs, Integral gv.2) :
    Same ⊤ Integral (do mergeRun (← .lift (fromGvs gvs)))
      (do mergeRun (← .lift (fromGvs gvs))) := by
  refine Same.bind (P := fun ite => (∀ b ∈ ite.1, Integral b.2) ∧ Integral ite.2)
    (.lift fun ite hite => ?_) fun ite hite => same_mergeRun hite.1 hite.2
  have hlen : 2 ≤ gvs.length := by
    by_contra hlt
    rw [fromGvs, if_pos (Nat.not_le.mp hlt)] at hite
    cases hite
  obtain ⟨bs, e, hfrom, -, ⟨g, rfl⟩, -⟩ := fromGvs_spec hlen
  cases hfrom.symm.trans hite
  obtain ⟨hbs, he⟩ := forall_mem_append.mp h
  exact ⟨hbs, he (g, e) mem_cons_self⟩

/-- What holds of a binary operation on leaves holds on unions. -/
theorem grounded_binary (step : σ → σ) (call : σ → Term → Term → Run Term)
    {concrete : Obj → Obj → Ty → Ty → Run Term} {unmatched : σ → Term → Term → Run Term}
    (hcall : ∀ f, call (step f) = simplifyGenericBinary concrete (unmatched f) (call f))
    (hleaf : ∀ {i j : ℕ} {vx vy : Term}, Arithmetic i vx → Arithmetic j vy →
      Grounded step (call · vx vy)) {x y : Term} (hx : Integral x) (hy : Integral y) :
    Grounded step (call · x y) := by
  unfold Integral at hx hy
  induction hx generalizing y with
  | @leaf vx hvx hLx =>
    induction hy with
    | leaf _ hLy =>
      obtain ⟨⟨i, hi⟩, ⟨j, hj⟩⟩ := And.intro hLx hLy
      exact hleaf hi hj
    | @ite bs e _ _ ihv ihe =>
      refine .of_step ?_
      filter_upwards [eventually_forall_mem ihv, ihe] with n hv he f f'
      rw [hcall, hcall, simplifyGenericBinary_right hvx, simplifyGenericBinary_right hvx]
      refine Same.bind (.mapM (R := fun b => Integral b.2) fun b hb =>
        (hv b hb f f').bind fun _ hr => .pure hr) fun bs' hbs' => ?_
      exact (he f f').bind fun e' he' => same_mergeRun hbs' he'
  | @ite bs e _ _ ihv ihe =>
    rcases notIte_or y with hvy | ⟨bs', e', rfl⟩
    · refine .of_step ?_
      filter_upwards [eventually_forall_mem fun b hb => ihv b hb hy, ihe hy] with n hv he f f'
      rw [hcall, hcall, simplifyGenericBinary_left hvy, simplifyGenericBinary_left hvy]
      refine Same.bind (.mapM (R := fun b => Integral b.2) fun b hb =>
        (hv b hb f f').bind fun _ hr => .pure hr) fun bs' hbs' => ?_
      exact (he f f').bind fun e' he' => same_mergeRun hbs' he'
    · obtain ⟨hbs', he'⟩ := hy.of_ite
      have hrow (vx : Term) (h : ∀ {y}, Nested (fun v => ∃ k, Arithmetic k v) y →
          Grounded step (call · vx y)) :
          ∀ gvy ∈ iteAsGvs bs' e', Grounded step (call · vx gvy.2) :=
        forall_iteAsGvs (P := fun vy => Grounded step (call · vx vy)) (fun b hb => h (hbs' b hb))
          (h he')
      have hpair : ∀ gvx ∈ iteAsGvs bs e, ∀ gvy ∈ iteAsGvs bs' e',
          Grounded step (call · gvx.2 gvy.2) :=
        forall_iteAsGvs (P := fun vx => ∀ gvy ∈ iteAsGvs bs' e', Grounded step (call · vx gvy.2))
          (fun b hb => hrow b.2 (ihv b hb)) (hrow e ihe)
      refine .of_step ?_
      filter_upwards [eventually_forall_mem fun gvx hgvx =>
        eventually_forall_mem (hpair gvx hgvx)] with n hn f f'
      rw [hcall, hcall]
      refine Same.bind (.mapM (R := fun row => ∀ r ∈ row, Integral r.2) fun gvx hgvx =>
        .mapM fun gvy hgvy => (hn gvx hgvx gvy hgvy f f').bind fun _ hr => ?_) fun rows hrows => ?_
      · exact Same.bind (.lift fun _ _ => trivial) fun _ _ => .pure hr
      · refine same_mergeGvs fun r hr => ?_
        obtain ⟨row, hrow, hr⟩ := List.mem_flatten.mp hr
        exact hrows row hrow r hr

theorem grounded_unary (step : σ → σ) (call : σ → Term → Run Term) {concrete : Obj → Ty → Run Term}
    {unmatched : σ → Term → Run Term}
    (hcall : ∀ f, call (step f) = simplifyGenericUnary concrete (unmatched f) (call f))
    (hleaf : ∀ {i : ℕ} {v : Term}, Arithmetic i v → Grounded step (call · v)) {x : Term}
    (hx : Integral x) : Grounded step (call · x) := by
  unfold Integral at hx
  induction hx with
  | leaf _ hL =>
    obtain ⟨i, hi⟩ := hL
    exact hleaf hi
  | @ite bs e _ _ ihv ihe =>
    have hgvs := forall_iteAsGvs (P := fun v => Grounded step (call · v)) ihv ihe
    refine .of_step ?_
    filter_upwards [eventually_forall_mem hgvs] with n hn f f'
    rw [hcall, hcall]
    refine Same.bind (.mapM (R := fun b => Integral b.2) fun b hb =>
      (hn b hb f f').bind fun _ hr => .pure hr) fun gvs hgvs => same_mergeGvs hgvs

end

/-! ### Termination -/

/-- The call ends, with an integral term or by raising: from some depth on it does not matter what
the calls nested deeper would give. -/
def Terminates {σ : Type} (step : σ → σ) (call : σ → Run Term) : Prop :=
  ∃ r : Run Term, (∀ᶠ n in atTop, ∀ f, call (step^[n] f) = r) ∧ r.Ends ⊤ Integral

section
variable {σ : Type} {step : σ → σ} {call : σ → Run Term}

theorem Grounded.terminates (h : Grounded step call) (f : σ) : Terminates step call := by
  obtain ⟨N, hN⟩ := Filter.eventually_atTop.mp h
  refine ⟨call (step^[N] f), Filter.eventually_atTop.mpr ⟨N, fun n hn f' => ?_⟩,
    (hN N le_rfl f f).2⟩
  obtain ⟨m, rfl⟩ := Nat.exists_eq_add_of_le hn
  rw [Function.iterate_add_apply]
  exact (hN N le_rfl _ f).1

theorem Terminates.bind {next : σ → Term → Run Term} (h : Terminates step call)
    (hnext : ∀ a, Integral a → Terminates step (next · a)) :
    Terminates step (fun f => call f >>= next f) := by
  obtain ⟨r, hr, hP⟩ := h
  rcases r with e | ⟨a, d⟩
  · refine ⟨.error e, hr.mono fun n hn f => ?_, trivial⟩
    show (call _ >>= next _) = _
    rw [hn f]
    rfl
  · obtain ⟨r', hr', hP'⟩ := hnext a hP
    have hsame : Same ⊤ Integral ((Except.ok (a, d) : Run Term) >>= fun _ => r')
        ((Except.ok (a, d) : Run Term) >>= fun _ => r') :=
      Same.bind (P := Integral) ⟨rfl, hP⟩ fun _ _ => ⟨rfl, hP'⟩
    refine ⟨_, (hr.and hr').mono fun n hn f => ?_, hsame.2⟩
    have hnext : next (step^[n] f) a = r' := hn.2 f
    show (call _ >>= next _) = _
    rw [hn.1 f, Run.bind_eq rfl, Run.bind_eq rfl, hnext]

end

/-- With enough fuel the run returns `a`. -/
def Settles {α : Type} (run : ℕ → Run α) (a : α) : Prop := ∀ᶠ n in atTop, ∃ d, run n = .ok (a, d)

section
variable {α β : Type} {run : ℕ → Run α} {a : α}

theorem Settles.pure (a : α) : Settles (fun _ => Pure.pure a) a :=
  .of_forall fun _ => ⟨[], rfl⟩

theorem Settles.bind {f : ℕ → α → Run β} {b : β} (h : Settles run a) (hf : Settles (f · a) b) :
    Settles (fun n => run n >>= f n) b := by
  filter_upwards [h, hf] with n ⟨d, hd⟩ ⟨d', hd'⟩
  exact ⟨d ++ d', by rw [Run.bind_eq hd, hd']⟩

/-- A result that does not change with more calls. -/
theorem Returns.settles {run : ℕ → Run Term} {P : Term → Prop}
    (hrun : ∃ r, ∀ᶠ n in atTop, run n = r) (h : Returns run P) : ∃ r, Settles run r ∧ P r := by
  obtain ⟨r, hr⟩ := hrun
  obtain ⟨n, hn, a, d, ha, hP⟩ := (hr.and h).exists
  exact ⟨a, hr.mono fun m hm => ⟨d, by rw [hm, ← hn, ha]⟩, hP⟩

/-- Two runs one after the other, where the result of the first does not change with more calls. -/
theorem Returns.bind {run : ℕ → Run Term} {f : ℕ → Term → Run Term} {P Q : Term → Prop}
    (hrun : ∃ r, ∀ᶠ n in atTop, run n = r) (h : Returns run P)
    (hf : ∀ a, P a → (∃ n d, run n = .ok (a, d)) → Returns (f · a) Q) :
    Returns (fun n => run n >>= f n) Q := by
  obtain ⟨a, ha, hP⟩ := h.settles hrun
  obtain ⟨n, d, hd⟩ := ha.exists
  filter_upwards [ha, hf a hP ⟨n, d, hd⟩] with m ⟨d', hm⟩ hnext
  exact Run.Gives.bind (P := fun b _ => b = a) ⟨a, d', hm, rfl⟩ fun b _ hb => hb ▸ hnext

end

section
open Simplifiers (step)

variable [HashOrder FieldId] {call : Simplifiers → Run Term}

theorem simplifiers_eq (n : ℕ) : simplifiers n = step^[n] (simplifiers 0) := by
  induction n with
  | zero => rfl
  | succ n ih =>
    rw [Function.iterate_succ_apply', ← ih]
    rfl

/-- With `n` nested calls the results are those of any depth, on terms whose weight allows it. -/
theorem agree_simplifiers (n : ℕ) : Simplifiers.Agree n (simplifiers n) (simplifiers n) := by
  rw [simplifiers_eq]
  exact Simplifiers.agree_iterate n _ _

omit [HashOrder FieldId] in
/-- A run that keeps a value and does not call too deep. -/
theorem Keeps.gives {T D : Prop} {t : Ty} {P : Valuation → BitVec t.width} {Q : Term → Prop}
    {x : Run Term} (h : Keeps T D t P x) (hends : x.Ends Trap Q) (hT : T → ¬x.Traps) :
    x.Gives fun r d => (∃ k, Simplified D t k r) ∧
      ∀ ρ, Harmless t ρ d → r.value ρ t.width = P ρ := by
  rcases x with e | ⟨r, d⟩
  · rcases h with rfl | ⟨hT', htrap⟩
    · exact absurd hends not_trap_outOfFuel
    · exact absurd htrap (hT hT')
  · exact ⟨r, d, rfl, h⟩

theorem Terminates.constant (h : Terminates step call) :
    ∃ r, ∀ᶠ n in atTop, call (simplifiers n) = r := by
  obtain ⟨r, hr, -⟩ := h
  refine ⟨r, hr.mono fun n hn => ?_⟩
  rw [simplifiers_eq]
  exact hn _

/-- `simplifyRemainder`, where the remainders of the alternatives of unions are as given. -/
def remainderStep (isSigned : Bool) (t : Ty) :
    (Term → Term → Run Term) → Term → Term → Run Term :=
  simplifyGenericBinary (onNumbers (simplifyConcreteRemainder isSigned t)) fun x y =>
    (simplifyRemainderExt isSigned t x y).getD (simplifyRemainderOfProduct isSigned t x y)

/-- A call that ends on leaves within the depth their weight gives. -/
theorem Grounded.of_agree {k m : ℕ} (h : ∀ {n S S'}, m < n → Simplifiers.Agree n S S' →
      Same Trap (Arithmetic k) (call S) (call S')) : Grounded step call := by
  refine Filter.eventually_atTop.mpr ⟨m + 1, fun n hn S S' => ?_⟩
  exact (h (by omega) (Simplifiers.agree_iterate n S S')).relax.mono fun _ h => h.integral

variable {t : Ty} (ht : t ≠ .bool) {i j : ℕ} {x y : Term}

include ht

omit [HashOrder FieldId] in
theorem same_remainder (isSigned : Bool) (hx : Arithmetic i x) (hy : Arithmetic j y) :
    Same Trap (Arithmetic (i + j + 1))
      ((simplifyRemainderExt isSigned t x y).getD (simplifyRemainderOfProduct isSigned t x y))
      ((simplifyRemainderExt isSigned t x y).getD (simplifyRemainderOfProduct isSigned t x y)) := by
  have hzero := Simplifiers.same_literal (E := Trap) ht (show 1 ≤ i + j + 1 by omega) 0
  have hredex : Same Trap (Arithmetic (i + j + 1)) (pure (makeBinary (remainderOp isSigned) x y t))
      (pure (makeBinary (remainderOp isSigned) x y t)) := by
    refine .pure (.binary ht (.inl ?_) hx hy le_rfl)
    cases isSigned with
    | true => exact .remainder
    | false => exact .remainder_Un
  refine SameRule.getD ?_ ?_
  · have hunless (rule : Doubt) := hzero.ite (c := isSigned = true) (hzero.doubt rule)
    exact .orElse (.rule (.pure (hx.mono (by omega)))) (.orElse (.rule hzero)
      (.orElse (.rule (hunless _)) (.orElse (.rule hzero) (.bind fun _ _ => .rule (hunless _)))))
  · unfold simplifyRemainderOfProduct
    dsimp only
    split
    · rename_i a b p _ q _ _ _ _
      rcases divides_cases isSigned t p q with ⟨e, h, he⟩ | ⟨r, h, -⟩ <;> rw [h]
      · exact ⟨rfl, he⟩
      · exact Same.bind (P := fun _ => True) (.pure trivial) fun _ _ =>
          .ite (hzero.doubt _) hredex
    · exact hredex

theorem same_remainderStep (isSigned : Bool) (hx : Arithmetic i x) (hy : Arithmetic j y)
    (f f' : Term → Term → Run Term) : Same Trap (Arithmetic (i + j + 1))
      (remainderStep isSigned t f x y) (remainderStep isSigned t f' x y) := by
  refine Simplifiers.same_leaves hx hy (fun p q => ?_) (same_remainder ht isSigned hx hy)
  cases isSigned with
  | true => exact Simplifiers.same_quotient ht (by omega) (.inl rfl)
  | false => exact Simplifiers.same_quotient ht (by omega) (.inr rfl)

theorem addition_terminates (hx : Integral x) (hy : Integral y) :
    Terminates step (·.addition t x y) := by
  refine (grounded_binary step (·.addition t) (fun S => rfl) (fun hi hj => ?_) hx hy).terminates
    (simplifiers 0)
  exact .of_agree fun hn hS => hS.addition ht hi hj hn

theorem unaryMinus_terminates (hx : Integral x) : Terminates step (·.unaryMinus t x) := by
  refine (grounded_unary step (·.unaryMinus t) (fun S => rfl) (fun hi => ?_) hx).terminates
    (simplifiers 0)
  exact .of_agree fun hn hS => hS.unaryMinus ht hi hn

theorem subtraction_terminates (hx : Integral x) (hy : Integral y) :
    Terminates step (·.simplifySubtraction t x y) :=
  (unaryMinus_terminates ht hy).bind fun _ h => addition_terminates ht hx h

/-- Every call of a simplifier on integral terms ends. -/
theorem simplifiers_terminate (hx : Integral x) (hy : Integral y) :
    Terminates step (·.addition t x y) ∧
    Terminates step (·.simplifySubtraction t x y) ∧
    Terminates step (·.unaryMinus t x) ∧
    Terminates step (·.multiplication t x y) ∧
    (∀ isSigned, Terminates step (·.division isSigned t x y)) ∧
    (∀ isSigned, Terminates (remainderStep isSigned t) (· x y)) ∧
    ∀ op, IsShift op → Terminates step (·.shift op t x y) := by
  refine ⟨addition_terminates ht hx hy, subtraction_terminates ht hx hy,
    unaryMinus_terminates ht hx, ?_, fun isSigned => ?_, fun isSigned => ?_, fun op hop => ?_⟩
  · refine (grounded_binary step (·.multiplication t) (fun S => rfl) (fun hi hj => ?_) hx
      hy).terminates (simplifiers 0)
    exact .of_agree fun hn hS => hS.multiplication ht hi hj hn
  · refine (grounded_binary step (·.division isSigned t) (fun S => rfl) (fun hi hj => ?_) hx
      hy).terminates (simplifiers 0)
    exact .of_agree fun hn hS => hS.division isSigned ht hi hj hn
  · refine (grounded_binary (remainderStep isSigned t) id (fun f => rfl) (fun {i j _ _} hi hj => ?_)
      hx hy).terminates (simplifyRemainder isSigned t 0)
    exact .of_step (.of_forall fun n f f' =>
      (same_remainderStep ht isSigned hi hj _ _).relax.mono fun _ h => h.integral)
  · refine (grounded_binary step (·.shift op t) (fun S => rfl) (fun hi hj => ?_) hx
      hy).terminates (simplifiers 0)
    exact .of_agree fun hn hS => hS.shift hop ht hi hj hn

omit [HashOrder FieldId] ht in
/-- `if c then a + b else 2`, and `a << b`. -/
theorem simplifiers_terminate_constants : letI : HashOrder FieldId := ⟨fun _ => 0⟩
    let a : Term := .constant ⟨0, []⟩ .int32
    let b : Term := .constant ⟨1, []⟩ .int32
    let x : Term := .ite [(.constant ⟨2, []⟩ .bool, makeBinary .add a b .int32)] (literal 2 .int32)
    let y := makeBinary .shiftLeft a b .int32
    Terminates step (·.simplifySubtraction .int32 x y) ∧
    Terminates step (·.division true .int32 x y) ∧
    Terminates (remainderStep true .int32) (· x y) ∧
    Terminates step (·.shift .shiftLeft .int32 x y) := by
  let _ : HashOrder FieldId := ⟨fun _ => 0⟩
  intro a b x y
  have hconstant (c : Source) : Arithmetic 1 (.constant c .int32) := .constant c nofun le_rfl
  have hsum : Arithmetic 3 (makeBinary .add a b .int32) :=
    .binary nofun (.inl .add) (hconstant _) (hconstant _) le_rfl
  have hy : Arithmetic 3 y :=
    .binary nofun (.inr .shiftLeft) (hconstant _) (hconstant _) le_rfl
  have htwo : Arithmetic 1 (literal 2 .int32) := .literal nofun le_rfl
  have hx : Integral x := .ite (forall_mem_singleton.mpr hsum.integral) htwo.integral
  obtain ⟨-, hsub, -, -, hdiv, hrem, hshift⟩ :=
    simplifiers_terminate (t := .int32) nofun hx hy.integral
  exact ⟨hsub, hdiv true, hrem true, hshift _ .shiftLeft⟩

end

end VSharp
