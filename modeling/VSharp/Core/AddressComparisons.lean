import VSharp.Core.Comparisons
import Mathlib.Logic.Equiv.List

/-!
# Core — AddressComparisons

The comparisons of `VSharp.SILI.Core/Arithmetics.fs` on terms of `addressType`, and conditions that
are made of comparisons of addresses and of integers.

- `AddressValuation` gives every address a time, and compares addresses by their times;
- `simplifyComparison_address`: the result has the truth of the comparison of the times;
- `Tests φ`: a run that returns a condition whose truth is `φ`, and how such runs are joined.
-/

namespace VSharp
open Term Propositional Library Merging List

/-! ### Addresses -/

/-- The comparisons that `concreteAddressComparison` knows. -/
inductive AddressComparison where
  | equal | less | lessOrEqual | greater | greaterOrEqual
deriving DecidableEq, Repr

namespace AddressComparison

/-- The operation a comparison is built with. -/
def operator : AddressComparison → OperationType
  | .equal => .equal
  | .less => .less
  | .lessOrEqual => .lessOrEqual
  | .greater => .greater
  | .greaterOrEqual => .greaterOrEqual

/-- A comparison of times. -/
def compares (a b : VectorTime) : AddressComparison → Bool
  | .equal => decide (a = b)
  | .less => decide (a < b)
  | .lessOrEqual => decide (a ≤ b)
  | .greater => decide (b < a)
  | .greaterOrEqual => decide (b ≤ a)

/-- What a comparison says of two equal addresses. -/
def resultIfSame (c : AddressComparison) : Bool := c.compares [] []

theorem compares_self (a : VectorTime) (c : AddressComparison) :
    c.compares a a = c.resultIfSame := by
  cases c <;> simp [resultIfSame, compares]

theorem operator_ne (c : AddressComparison) :
    c.operator ≠ .logicalAnd ∧ c.operator ≠ .logicalOr ∧ c.operator ≠ .logicalNot := by
  cases c <;> decide

theorem concreteAddressComparison_eq (c : AddressComparison) (a b : VectorTime) :
    concreteAddressComparison c.operator a b = .ok (makeBool (c.compares a b)) := by
  cases c <;> rfl

end AddressComparison

/-- A valuation under which the addresses are times. -/
structure AddressValuation extends Valuation where
  time : ℕ → VectorTime
  concrete_address : ∀ a, ∃ i, concrete (.address a) .address = .other i ∧ time i = a
  constant_address : ∀ c, ∃ i, constant c .address = .other i
  operator_address : ∀ (c : AddressComparison) (i j : ℕ),
    operator c.operator [.other i, .other j] = .bool (c.compares (time i) (time j))

namespace AddressValuation
variable (ρ : AddressValuation)

/-- The time of an address. -/
def address (x : Term) : VectorTime :=
  match x.eval ρ.machine with
  | .other i => ρ.time i
  | _ => []

/-- A valuation that gives each constant address a time. -/
def ofTimes (f : Source → VectorTime) : AddressValuation where
  toValuation := { Valuation.constants 0 with
    constant c _ := .other (Encodable.encode (f c))
    concrete
      | .address a, _ => .other (Encodable.encode a)
      | _, _ => .other 0
    operator op vs :=
      match vs with
      | [.other i, .other j] =>
        let a : VectorTime := (Encodable.decode i).getD []
        let b : VectorTime := (Encodable.decode j).getD []
        match op with
        | .equal => .bool (AddressComparison.equal.compares a b)
        | .less => .bool (AddressComparison.less.compares a b)
        | .lessOrEqual => .bool (AddressComparison.lessOrEqual.compares a b)
        | .greater => .bool (AddressComparison.greater.compares a b)
        | .greaterOrEqual => .bool (AddressComparison.greaterOrEqual.compares a b)
        | _ => .other 0
      | _ => .other 0 }
  time i := (Encodable.decode i).getD []
  concrete_address a := ⟨_, rfl, by rw [Encodable.encodek]; rfl⟩
  constant_address c := ⟨_, rfl⟩
  operator_address c i j := by cases c <;> rfl

end AddressValuation

/-- An address that is no union. -/
inductive AddressLeaf : Term → Prop where
  | concrete (a : VectorTime) : AddressLeaf (.concrete (.address a) .address)
  | constant (c : Source) : AddressLeaf (.constant c .address)

namespace AddressLeaf
variable {x : Term}

theorem notIte (h : AddressLeaf x) : NotIte x := by
  cases h <;> exact nofun

theorem eval_eq (h : AddressLeaf x) (ρ : AddressValuation) :
    ∃ i, x.eval ρ.machine = .other i := by
  cases h with
  | concrete a =>
    obtain ⟨i, hi, -⟩ := ρ.concrete_address a
    exact ⟨i, hi⟩
  | constant c => exact ρ.constant_address c

theorem address_eq (ρ : AddressValuation) {i : ℕ} (h : x.eval ρ.machine = .other i) :
    ρ.address x = ρ.time i := by
  rw [AddressValuation.address, h]

theorem summand?_eq_none (h : AddressLeaf x) (y : Term) : summand? x y = none := by
  cases h <;> rfl

end AddressLeaf

theorem AddressValuation.address_concrete (ρ : AddressValuation) (a : VectorTime) :
    ρ.address (.concrete (.address a) .address) = a := by
  obtain ⟨i, hi, ha⟩ := ρ.concrete_address a
  have heval : (Term.concrete (.address a) .address).eval ρ.machine = .other i := hi
  rw [AddressLeaf.address_eq ρ heval, ha]

/-- An address as the code builds them: its guards are truth values or reduced formulas. -/
abbrev AddressTerm : Term → Prop := UnionOf Simple AddressLeaf

section
variable [HashOrder FieldId] {x y : Term}

/-- The comparison of two addresses that are no unions. -/
theorem simplifyComparison_addressLeaf (c : AddressComparison) (hx : AddressLeaf x)
    (hy : AddressLeaf y) :
    Returns (simplifyComparison c.operator c.resultIfSame · x y) fun r => Simple r ∧
      ∀ ρ : AddressValuation, r.holds ρ.machine = c.compares (ρ.address x) (ρ.address y) := by
  refine Filter.eventually_atTop.mpr ⟨1, fun n hn => ?_⟩
  obtain ⟨k, rfl⟩ : ∃ k, n = k + 1 := ⟨n - 1, by omega⟩
  show (simplifyComparison c.operator c.resultIfSame (k + 1) x y).Gives _
  by_cases hboth : (∃ a, x = .concrete (.address a) .address) ∧
      ∃ b, y = .concrete (.address b) .address
  · obtain ⟨⟨a, rfl⟩, b, rfl⟩ := hboth
    refine .lift (c.concreteAddressComparison_eq a b) ⟨.makeBool _, fun ρ => ?_⟩
    rw [holds_makeBool, ρ.address_concrete, ρ.address_concrete]
  have hnot : isConcrete x = false ∨ isConcrete y = false := by
    cases hx with
    | constant => exact .inl rfl
    | concrete a =>
      cases hy with
      | constant => exact .inr rfl
      | concrete b => exact absurd ⟨⟨a, rfl⟩, b, rfl⟩ hboth
  have hstep : simplifyComparison c.operator c.resultIfSame (k + 1) x y =
      simplifyComparisonExt (simplifyComparison c.operator c.resultIfSame k) c.operator
        c.resultIfSame x y := simplifyGenericBinary_leaf hx.notIte hy.notIte hnot
  rw [hstep, simplifyComparisonExt, hx.summand?_eq_none, hy.summand?_eq_none, ite_self]
  split
  · next hsame =>
      subst hsame
      refine .pure ⟨.makeBool _, fun ρ => ?_⟩
      rw [holds_makeBool, c.compares_self]
  · refine .pure ⟨(Reduced.atom ?_).simple, fun ρ => ?_⟩
    · simpa [isAtom, makeBinary] using c.operator_ne
    · obtain ⟨i, hi⟩ := hx.eval_eq ρ
      obtain ⟨j, hj⟩ := hy.eval_eq ρ
      refine holds_operator ρ.toValuation c.operator_ne ?_
      rw [map_cons, map_singleton, hi, hj, AddressLeaf.address_eq ρ hi,
        AddressLeaf.address_eq ρ hj, ← ρ.operator_address]
      cases c <;> rfl

/-- The comparison of two addresses is true where it holds of their times. -/
theorem simplifyComparison_address (c : AddressComparison) (hx : AddressTerm x)
    (hy : AddressTerm y) :
    Returns (simplifyComparison c.operator c.resultIfSame · x y) fun r => Simple r ∧
      ∀ ρ : AddressValuation, r.holds ρ.machine = c.compares (ρ.address x) (ρ.address y) := by
  refine (simplifyGenericBinary_spec merges_simple (fun n => rfl)
    (fun vx vy _ _ (hLx : AddressLeaf vx) (hLy : AddressLeaf vy) =>
      simplifyComparison_addressLeaf c hLx hLy) hx hy).mono fun r hr => ⟨hr.1, fun ρ => ?_⟩
  obtain ⟨vx, vy, r', hvx, hvy, hr', heval⟩ := hr.2 ρ.machine
  rw [holds, heval, ← holds, hr' ρ, AddressValuation.address, AddressValuation.address,
    AddressValuation.address, AddressValuation.address, hvx.eval_eq, hvy.eval_eq]

end

/-! ### Conditions -/

/-- The condition has the truth `φ`. -/
def Tells (φ : AddressValuation → Bool) (c : Term) : Prop :=
  Simple c ∧ ∀ ρ : AddressValuation, c.holds ρ.machine = φ ρ

/-- With enough calls the run returns a condition whose truth is `φ`. -/
def Tests (run : ℕ → Run Term) (φ : AddressValuation → Bool) : Prop := Returns run (Tells φ)

namespace Tells
variable {c d : Term} {φ ψ : AddressValuation → Bool}

theorem congr (h : Tells φ c) (hφ : ∀ ρ, φ ρ = ψ ρ) : Tells ψ c :=
  ⟨h.1, fun ρ => (h.2 ρ).trans (hφ ρ)⟩

theorem truth (b : Bool) : Tells (fun _ => b) (makeBool b) :=
  ⟨.makeBool b, fun ρ => holds_makeBool ρ.machine b⟩

section
variable (h : Tells φ c)

include h

theorem and (h' : Tells ψ d) :
    (Run.lift (simplifyAnd c d)).Gives fun r _ => Tells (fun ρ => φ ρ && ψ ρ) r := by
  obtain ⟨r, hr, hsimple, hholds⟩ := connected_simple.and h.1 h'.1
  exact .lift hr ⟨hsimple, fun ρ => by rw [hholds, h.2, h'.2]⟩

theorem or (h' : Tells ψ d) :
    (Run.lift (simplifyOr c d)).Gives fun r _ => Tells (fun ρ => φ ρ || ψ ρ) r := by
  obtain ⟨r, hr, hsimple, hholds⟩ := connected_simple.or h.1 h'.1
  exact .lift hr ⟨hsimple, fun ρ => by rw [hholds, h.2, h'.2]⟩

theorem not : (Run.lift (simplifyNegation c)).Gives fun r _ => Tells (fun ρ => !φ ρ) r := by
  obtain ⟨r, hr, hsimple, hholds⟩ := connected_simple.not h.1
  exact .lift hr ⟨hsimple, fun ρ => by rw [hholds, h.2]⟩

theorem ne_falseTerm {ρ : AddressValuation} (hφ : φ ρ = true) : c ≠ falseTerm := by
  rintro rfl
  have hfalse := h.2 ρ
  rw [holds_falseTerm, hφ] at hfalse
  cases hfalse

/-- A branch whose guard may have gone. -/
theorem eval_branch (v : Term) (bs : List (Term × Term)) (e : Term) (ρ : AddressValuation) :
    (Term.ite ((if c = falseTerm then [] else [(c, v)]) ++ bs) e).eval ρ.machine =
      if φ ρ then v.eval ρ.machine else (Term.ite bs e).eval ρ.machine := by
  by_cases hc : c = falseTerm
  · have hφ : φ ρ = false := by rw [← h.2 ρ, hc, holds_falseTerm]
    rw [if_pos hc, hφ]
    rfl
  · rw [if_neg hc, singleton_append, eval_ite_cons, h.2]

end

end Tells

/-- A fold whose turns all return and keep an invariant of the elements done so far. -/
theorem Run.Gives.foldlM {α β : Type} {f : β → α → Run β} {P : List α → β → Prop} {l : List α}
    (h : ∀ (done : List α) (b : β), ∀ a ∈ l, P done b →
      (f b a).Gives fun b' _ => P (done ++ [a]) b')
    {d : List α} {b : β} (hb : P d b) : (l.foldlM f b).Gives fun b' _ => P (d ++ l) b' := by
  induction l generalizing d b with
  | nil => exact .pure (by rwa [append_nil])
  | cons a l ih =>
    rw [foldlM_cons]
    refine (h d b a mem_cons_self hb).bind fun b' _ hb' => ?_
    have hrest := ih (fun done b a ha => h done b a (mem_cons_of_mem _ ha)) hb'
    exact hrest.mono fun _ _ hP => by rwa [append_assoc] at hP

namespace Tests
variable {run run' : ℕ → Run Term} {φ ψ : AddressValuation → Bool}

theorem congr (h : Tests run φ) (hφ : ∀ ρ, φ ρ = ψ ρ) : Tests run ψ :=
  h.mono fun _ hc => hc.congr hφ

theorem of_eq (h : Tests run φ) (hrun : ∀ n, run' n = run n) : Tests run' φ := by
  rwa [← funext hrun] at h

theorem truth (b : Bool) : Tests (fun _ => pure (makeBool b)) fun _ => b :=
  .of_forall fun _ => .pure (.truth b)

theorem and (h : Tests run φ) (h' : Tests run' ψ) :
    Tests (fun n => do .lift (simplifyAnd (← run n) (← run' n))) fun ρ => φ ρ && ψ ρ := by
  filter_upwards [h, h'] with n hn hn'
  exact hn.bind fun c _ hc => hn'.bind fun d _ hd => hc.and hd

theorem not (h : Tests run φ) :
    Tests (fun n => do .lift (simplifyNegation (← run n))) fun ρ => !φ ρ := by
  filter_upwards [h] with n hn
  exact hn.bind fun c _ hc => hc.not

/-- A disjunction over a list. -/
theorem foldlM_or {α : Type} {f : ℕ → α → Run Term} {φ : α → AddressValuation → Bool} {l : List α}
    (h : ∀ a ∈ l, Tests (f · a) (φ a)) :
    Tests (fun n => l.foldlM (fun acc a => do .lift (simplifyOr acc (← f n a))) (makeBool false))
      fun ρ => l.any (φ · ρ) := by
  filter_upwards [eventually_forall_mem h] with n hn
  refine Run.Gives.foldlM (P := fun done c => Tells (fun ρ => done.any (φ · ρ)) c) (d := [])
    (fun done c a ha hc => (hn a ha).bind fun d _ hd => ?_) (.truth false)
  exact (hc.or hd).mono fun r _ hr => hr.congr fun ρ => by simp

end Tests

end VSharp
