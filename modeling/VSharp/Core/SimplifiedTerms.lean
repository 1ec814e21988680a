import VSharp.Core.Quotients

/-!
# Core — SimplifiedTerms

The terms the arithmetic simplifiers build, apart from unions, and what a simplifier keeps of them.

- `Simplified D t k`: a term of type `t` and weight at most `k`; `D` says whether quotients are
  allowed in it;
- `Doubt.Right`: the operands for which a doubtful rule is right;
- `Keeps T D t P`: a run that returns a simplified term with the value `P`, wherever the doubtful
  rules it applied are right, unless it stops;
- `Rules o K`: whatever rule of `o` applies, its run has the property `K`.
-/

namespace VSharp
open Term Propositional Library Merging MachineInteger BitVec ILCalculator

/-! ### Simplified terms -/

/-- The terms without unions that the simplifiers build, with a bound on their weight.  No sum is
negated: the simplifier negates the summands. -/
inductive Simplified (D : Prop) (t : Ty) : ℕ → Term → Prop where
  | literal {k : ℕ} {n : ℤ} (hn : InRange t.isUnsigned t.width n) (hk : 1 ≤ k) :
      Simplified D t k (literal n t)
  | constant {k : ℕ} (c : Source) (hk : 1 ≤ k) : Simplified D t k (.constant c t)
  | neg {k : ℕ} {x : Term} (hx : Simplified D t k x) (hadd : add? x = none) :
      Simplified D t k (makeUnary .unaryMinus x t)
  | ring {i j k : ℕ} {op : OperationType} {x y : Term} (hop : op = .add ∨ op = .multiply)
      (hx : Simplified D t i x) (hy : Simplified D t j y) (hk : i + j + 1 ≤ k) :
      Simplified D t k (makeBinary op x y t)
  | quotient {i j k : ℕ} {op : OperationType} {x y : Term} (hD : D)
      (hop : ∃ isSigned, op = divisionOp isSigned ∨ op = remainderOp isSigned)
      (hx : Simplified D t i x) (hy : Simplified D t j y) (hk : i + j + 1 ≤ k) :
      Simplified D t k (makeBinary op x y t)
  | shift {i k : ℕ} {op : OperationType} {x : Term} {n : ℤ} (hop : IsShift op)
      (hx : Simplified D t i x) (hn : 0 ≤ n ∧ n < t.width) (hk : i + 2 ≤ k) :
      Simplified D t k (makeBinary op x (VSharp.literal n .int32) t)

variable {t : Ty}

theorem width_le (ht : t.IsStackInt) : t.width ≤ 64 := by
  rcases ht.width with h | h <;> omega

/-- The amounts of shifts are numbers of `int32`. -/
theorem amount_inRange (ht : t.IsStackInt) {n : ℤ} (hn : 0 ≤ n ∧ n < t.width) :
    InRange Ty.int32.isUnsigned Ty.int32.width n := by
  have := width_le ht
  exact inRange_false.mpr ⟨by simp only [Ty.width]; omega, by simp only [Ty.width]; omega⟩

namespace Simplified
variable {D : Prop} {t : Ty} {k : ℕ} {x : Term}
variable {a b : Term}

theorem numeral (ht : t.IsStackInt) (h : Simplified D t k x) : Numeral t x := by
  induction h with
  | literal hn => exact .literal hn
  | constant c => exact .constant c
  | neg _ _ ih => exact .unary (.inl rfl) ih
  | ring hop _ _ _ ihx ihy =>
    rcases hop with rfl | rfl
    · exact .binary .add ihx ihy
    · exact .binary .multiply ihx ihy
  | quotient _ hop _ _ _ ihx ihy =>
    obtain ⟨isSigned, rfl | rfl⟩ := hop
    · cases isSigned with
      | true => exact .binary .divide ihx ihy
      | false => exact .binary .divide_Un ihx ihy
    · cases isSigned with
      | true => exact .binary .remainder ihx ihy
      | false => exact .binary .remainder_Un ihx ihy
  | shift hop _ hn _ ih => exact .shift hop ih (.literal (amount_inRange ht hn))

theorem notIte (h : Simplified D t k x) : NotIte x := by
  cases h <;> exact nofun

theorem typeOf_eq (h : Simplified D t k x) : typeOf x = .ok t := by
  cases h <;> rfl

theorem plain (ht : t.IsStackInt) (h : Simplified D t k x) : BranchLeaf .plain x := by
  refine ⟨fun fs t' heq => ?_, t, h.typeOf_eq, ht.ne_bool⟩
  rw [heq] at h
  cases h

section
variable (h : Simplified D t k x) {isSigned : Bool}

include h

theorem bitSizeOf_eq : bitSizeOf x = t.width := by
  rw [bitSizeOf, h.typeOf_eq]

theorem hasUnsignedType_eq : hasUnsignedType x = t.isUnsigned := by
  rw [hasUnsignedType, h.typeOf_eq]

/-! #### What the patterns match -/

theorem of_concrete {n : ℤ} {t' : Ty} (hx : concrete? x = some (n, t')) :
    x = VSharp.literal n t ∧ t' = t ∧ InRange t.isUnsigned t.width n := by
  cases h with
  | literal hn =>
    cases hx
    exact ⟨rfl, rfl, hn⟩
  | _ => cases hx

theorem of_unaryMinus {y : Term} (hx : unaryMinus? x = some y) :
    x = makeUnary .unaryMinus y t ∧ Simplified D t k y ∧ add? y = none := by
  cases h with
  | neg hy hadd =>
    cases hx
    exact ⟨rfl, hy, hadd⟩
  | literal | constant => cases hx
  | ring hop => rcases hop with rfl | rfl <;> cases hx
  | quotient _ hop =>
    obtain ⟨isSigned, rfl | rfl⟩ := hop <;> cases isSigned <;> cases hx
  | shift hop => cases hop <;> cases hx

theorem of_add (hx : add? x = some (a, b)) :
    x = makeBinary .add a b t ∧ ∃ i j, Simplified D t i a ∧ Simplified D t j b := by
  cases h with
  | literal | constant | neg => cases hx
  | ring hop ha hb =>
    rcases hop with rfl | rfl <;> cases hx
    exact ⟨rfl, _, _, ha, hb⟩
  | quotient _ hop =>
    obtain ⟨isSigned, rfl | rfl⟩ := hop <;> cases isSigned <;> cases hx
  | shift hop => cases hop <;> cases hx

theorem of_mul (hx : mul? x = some (a, b)) :
    x = makeBinary .multiply a b t ∧ ∃ i j, Simplified D t i a ∧ Simplified D t j b := by
  cases h with
  | literal | constant | neg => cases hx
  | ring hop ha hb =>
    rcases hop with rfl | rfl <;> cases hx
    exact ⟨rfl, _, _, ha, hb⟩
  | quotient _ hop =>
    obtain ⟨isSigned, rfl | rfl⟩ := hop <;> cases isSigned <;> cases hx
  | shift hop => cases hop <;> cases hx

theorem of_div (hx : div? x = some (a, b, isSigned)) :
    x = makeBinary (divisionOp isSigned) a b t ∧ D ∧
      ∃ i j, Simplified D t i a ∧ Simplified D t j b := by
  cases h with
  | literal | constant | neg => cases hx
  | ring hop => rcases hop with rfl | rfl <;> cases hx
  | quotient hD hop ha hb =>
    obtain ⟨s, rfl | rfl⟩ := hop <;> cases s <;> cases hx
    · exact ⟨rfl, hD, _, _, ha, hb⟩
    · exact ⟨rfl, hD, _, _, ha, hb⟩
  | shift hop => cases hop <;> cases hx

theorem of_shiftLeft (hx : shiftLeft? x = some (a, b)) :
    ∃ n i, b = VSharp.literal n .int32 ∧ (0 ≤ n ∧ n < t.width) ∧
      x = makeBinary .shiftLeft a b t ∧ Simplified D t i a := by
  cases h with
  | literal | constant | neg => cases hx
  | ring hop => rcases hop with rfl | rfl <;> cases hx
  | quotient _ hop =>
    obtain ⟨isSigned, rfl | rfl⟩ := hop <;> cases isSigned <;> cases hx
  | shift hop ha hn =>
    cases hop <;> cases hx
    exact ⟨_, _, rfl, hn, rfl, ha⟩

theorem of_shiftRight (hx : shiftRight? x = some (a, b, isSigned)) :
    ∃ n i, b = VSharp.literal n .int32 ∧ (0 ≤ n ∧ n < t.width) ∧
      x = makeBinary (shiftRightOp isSigned) a b t ∧ Simplified D t i a := by
  cases h with
  | literal | constant | neg => cases hx
  | ring hop => rcases hop with rfl | rfl <;> cases hx
  | quotient _ hop =>
    obtain ⟨isSigned, rfl | rfl⟩ := hop <;> cases isSigned <;> cases hx
  | shift hop ha hn =>
    cases hop <;> cases hx
    · exact ⟨_, _, rfl, hn, rfl, ha⟩
    · exact ⟨_, _, rfl, hn, rfl, ha⟩

end

end Simplified

theorem isShift_shiftRightOp (isSigned : Bool) : IsShift (shiftRightOp isSigned) := by
  cases isSigned with
  | true => exact .shiftRight
  | false => exact .shiftRight_Un

/-! ### Runs that keep a value -/

namespace Run
variable {α β : Type}

/-- A division of literals raised. -/
def Traps (x : Run α) : Prop :=
  x = .error (.internal "DivideByZeroException") ∨ x = .error (.internal "OverflowException")

theorem bind_eq {x : Run α} {a : α} {d : List Doubt} (hx : x = .ok (a, d)) (f : α → Run β) :
    (x >>= f) = match f a with
      | .error e => .error e
      | .ok (b, d') => .ok (b, d ++ d') := by
  rw [hx]
  rfl

end Run

/-- The operands for which a rule is right. -/
def Doubt.Right (t : Ty) (ρ : Valuation) : Doubt → Prop
  -- What the quotient loses, the other factor makes zero.
  | .cancelFactor s a y b =>
    reduced s (a.value ρ t.width) (y.value ρ t.width) * b.value ρ t.width = 0
  | .multiplyDividend s a b y =>
    let n (x : Term) : ℤ := read (!s) (x.value ρ t.width)
    InRange (!s) t.width (n a * n y) ∧ ((n a).tmod (n b) * n y).natAbs < (n b).natAbs
  | .cancelDivisor s a y d =>
    let n (x : Term) : ℤ := read (!s) (x.value ρ t.width)
    InRange (!s) t.width (n d * n y) ∧ ((n a).tdiv (n d)).tmod (n y) = 0
  | .minValueFactor x => x.value ρ t.width = 0
  | .minusOneDivisor x => x.value ρ t.width = 0 ∨ x.value ρ t.width = -1
  | .selfDivisor x => x.value ρ t.width ≠ 0
  | .oppositeDivisor s x =>
    if s then x.value ρ t.width ≠ 0 ∧ x.value ρ t.width ≠ BitVec.intMin t.width
    else x.value ρ t.width = -1
  | .oppositeModulus x =>
    x.value ρ t.width = 0 ∨ ∃ k < t.width, x.value ρ t.width = -BitVec.twoPow t.width k
  | .minValueDivisor x => x.value ρ t.width = 0
  | .signedOnUnsigned a => (a.value ρ t.width).msb = false
  | .multiple s a b y =>
    let n (x : Term) : ℤ := read (!s) (x.value ρ t.width)
    InRange (!s) t.width (n a * n b) ∨ n y ∣ 2 ^ t.width

/-- The rules that were applied are right. -/
def Harmless (t : Ty) (ρ : Valuation) (d : List Doubt) : Prop := ∀ rule ∈ d, rule.Right t ρ

/-- Whatever rules the calls apply, they are right. -/
def RulesRight (t : Ty) (ρ : Valuation) (run : ℕ → Run Term) : Prop :=
  ∀ n r d, run n = .ok (r, d) → Harmless t ρ d

/-- Where the run ends, it has noted these rules. -/
def Notes (d : List Doubt) (run : ℕ → Run Term) : Prop :=
  ∀ n, run n = .fail (.internal "out of fuel") ∨ ∃ r, run n = .ok (r, d)

theorem Notes.rulesRight {ρ : Valuation} {d : List Doubt} {run : ℕ → Run Term} (h : Notes d run)
    (hd : Harmless t ρ d) : RulesRight t ρ run := by
  intro n r d' hrun
  rcases h n with herror | ⟨r', hr⟩
  · exact nomatch herror.symm.trans hrun
  · obtain ⟨-, rfl⟩ := Prod.mk.inj (Except.ok.inj (hr.symm.trans hrun))
    exact hd

/-- The same, of the calls on the alternatives that a valuation chooses. -/
def AlternativesRight (t : Ty) (ρ : Valuation) (F : ℕ → Term → Term → Run Term) (x y : Term) :
    Prop :=
  ∀ vx vy, Selects ρ.machine x vx → Selects ρ.machine y vy → RulesRight t ρ (F · vx vy)

/-- What a division of literals raises. -/
def Trap (e : Failure) : Prop := Run.Traps (.error e : Run Term)

theorem not_trap_outOfFuel : ¬Trap (.internal "out of fuel") := by
  rintro (h | h)
  · exact absurd (Failure.internal.inj (Except.error.inj h)) (by decide)
  · exact absurd (Failure.internal.inj (Except.error.inj h)) (by decide)

/-- What a quotient or a remainder of literals gives. -/
theorem division_cases {p q : ℤ} {result : Except Failure ℤ}
    {f : BitVec t.width → BitVec t.width → BitVec t.width}
    (h : result = signedDivision p q t f ∨ result = unsignedDivision p q t f) :
    (∃ e, result = .error e ∧ Trap e) ∨
      result = .ok (ILCalculator.boxed t (f (slot t p) (slot t q))) := by
  rcases h with rfl | rfl
  · unfold signedDivision
    split
    · exact .inl ⟨_, rfl, .inl rfl⟩
    split
    · exact .inl ⟨_, rfl, .inr rfl⟩
    · exact .inr rfl
  · unfold unsignedDivision
    split
    · exact .inl ⟨_, rfl, .inl rfl⟩
    · exact .inr rfl

theorem divides_cases (isSigned : Bool) (t : Ty) (p q : ℤ) :
    (∃ e, divides isSigned t p q = .error e ∧ Trap e) ∨
      ∃ b, divides isSigned t p q = .ok b ∧ (b = true →
        reduced isSigned (BitVec.ofInt t.width p) (BitVec.ofInt t.width q) = 0) := by
  let next (res : ℤ) : Except Failure Bool := pure (isZero res)
  have hzero {b : BitVec t.width} (h : isZero (ILCalculator.boxed t b) = true) :
      b = 0 := by
    rw [← ofInt_read (u := t.isUnsigned) (b := b), show read t.isUnsigned b = 0 from eq_of_beq h]
    exact ofInt_natCast t.width 0
  cases isSigned with
  | true =>
    rcases division_cases (.inl (rfl : rem p q t = _)) with ⟨e, h, he⟩ | h
    · exact .inl ⟨e, congrArg (· >>= next) h, he⟩
    · exact .inr ⟨_, congrArg (· >>= next) h, hzero⟩
  | false =>
    rcases division_cases (.inr (rfl : remUn p q t = _)) with ⟨e, h, he⟩ | h
    · exact .inl ⟨e, congrArg (· >>= next) h, he⟩
    · exact .inr ⟨_, congrArg (· >>= next) h, hzero⟩

/-- A run that calls too deep stops, and with `T` one that traps. -/
def Stops (T : Prop) (e : Failure) : Prop := e = .internal "out of fuel" ∨ T ∧ Trap e

theorem Stops.mono {T T' : Prop} {e : Failure} (h : Stops T e) (hT : T → T') : Stops T' e :=
  h.imp_right fun h => ⟨hT h.1, h.2⟩

/-- The run stops, or returns a simplified term with the value `P`. -/
def Keeps (T D : Prop) (t : Ty) (P : Valuation → BitVec t.width) : Run Term → Prop
  | .error e => Stops T e
  | .ok (r, d) => (∃ k, Simplified D t k r) ∧ ∀ ρ, Harmless t ρ d → r.value ρ t.width = P ρ

namespace Keeps
variable {T D : Prop} {t : Ty} {P Q : Valuation → BitVec t.width} {x : Run Term}

theorem pure {k : ℕ} {r : Term} (hr : Simplified D t k r) (hP : ∀ ρ, r.value ρ t.width = P ρ) :
    Keeps T D t P (Pure.pure r) :=
  ⟨⟨k, hr⟩, fun ρ _ => hP ρ⟩

theorem mono (h : Keeps T D t P x) (hPQ : ∀ ρ, P ρ = Q ρ) : Keeps T D t Q x := by
  rcases x with e | ⟨r, d⟩
  · exact h
  · exact ⟨h.1, fun ρ hd => (h.2 ρ hd).trans (hPQ ρ)⟩

theorem of_safe (h : Keeps False D t P x) : Keeps T D t P x := by
  rcases x with e | ⟨r, d⟩
  · exact Stops.mono h False.elim
  · exact h

/-- A rule that keeps the value where it is right. -/
theorem doubt {rule : Doubt} (h : Keeps T D t Q x) (hQP : ∀ ρ, rule.Right t ρ → Q ρ = P ρ) :
    Keeps T D t P (Run.doubt rule x) := by
  rcases x with e | ⟨r, d⟩
  · exact h
  · refine ⟨h.1, fun ρ hd => ?_⟩
    obtain ⟨hright, hd⟩ := List.forall_mem_cons.mp hd
    exact (h.2 ρ hd).trans (hQP ρ hright)

/-- A run that goes on with a simplified term; `F` is what it makes of the value of that term. -/
theorem bind {f : Term → Run Term} (F : Valuation → BitVec t.width → BitVec t.width)
    (hx : Keeps T D t P x)
    (hf : ∀ {k r}, Simplified D t k r → Keeps T D t (fun ρ => F ρ (r.value ρ t.width)) (f r)) :
    Keeps T D t (fun ρ => F ρ (P ρ)) (x >>= f) := by
  rcases x with e | ⟨r, d⟩
  · exact hx
  obtain ⟨⟨k, hr⟩, hval⟩ := hx
  have hf := hf hr
  rw [Run.bind_eq rfl]
  rcases hrun : f r with e | ⟨r', d'⟩ <;> rw [hrun] at hf
  · exact hf
  · refine ⟨hf.1, fun ρ hd => ?_⟩
    obtain ⟨hd, hd'⟩ := List.forall_mem_append.mp hd
    exact (hf.2 ρ hd').trans (congrArg (F ρ) (hval ρ hd))

end Keeps

/-! ### Rules -/

/-- Whatever rule applies, its run has the property. -/
def Rules (o : Option (Run Term)) (K : Run Term → Prop) : Prop := ∀ run, o = some run → K run

namespace Rules
variable {K : Run Term → Prop} {o o' : Option (Run Term)} {run : Run Term}

theorem none : Rules none K := nofun

theorem some {run : Run Term} (h : K run) : Rules (some run) K := fun _ heq =>
  Option.some.inj heq ▸ h

theorem of_rule {c : Prop} [Decidable c] (h : c → K run) : Rules (rule c run) K := by
  unfold rule
  split
  · next hc => exact some (h hc)
  · exact none

theorem orElse (h : Rules o K) (h' : o = .none → Rules o' K) : Rules (o <|> o') K := by
  intro run heq
  cases ho : o with
  | none =>
    rw [ho] at heq
    exact h' ho run heq
  | some run' =>
    rw [ho] at heq
    exact h run (ho.trans heq)

theorem bind {α : Type} {p : Option α} {f : α → Option (Run Term)}
    (h : ∀ a, p = .some a → Rules (f a) K) : Rules (p >>= f) K := by
  cases p with
  | none => exact none
  | some a => exact h a rfl

theorem getD (h : Rules o K) (h' : o = .none → K run) : K (o.getD run) := by
  cases ho : o with
  | none => exact h' ho
  | some run' => exact h run' ho

/-- Rules that keep a value, written in another way. -/
theorem keeps {T D : Prop} {P Q : Valuation → BitVec t.width} (h : Rules o (Keeps T D t P))
    (hPQ : ∀ ρ, P ρ = Q ρ) : Rules o (Keeps T D t Q) :=
  fun run hrun => (h run hrun).mono hPQ

end Rules

/-! ### Numbers -/

theorem Simplified.boxed {D : Prop} (b : BitVec t.width) :
    Simplified D t 1 (VSharp.literal (ILCalculator.boxed t b) t) :=
  .literal inRange_read le_rfl

theorem value_boxed (t : Ty) (b : BitVec t.width) (ρ : Valuation) :
    (literal (ILCalculator.boxed t b) t).value ρ t.width = b := by
  rw [value_literal]
  exact ofInt_read

section
variable {t : Ty} (ht : t.IsStackInt) {n : ℤ}

include ht

theorem inRange_of_small (hn : 0 ≤ n) (hn' : n < 2 ^ 31) : InRange t.isUnsigned t.width n := by
  cases ht
  · exact inRange_false.mpr ⟨hn.trans' (by decide), hn'⟩
  · exact inRange_true.mpr ⟨hn, hn'.trans (by decide)⟩
  · exact inRange_false.mpr ⟨hn.trans' (by decide), hn'.trans (by decide)⟩
  · exact inRange_true.mpr ⟨hn, hn'.trans (by decide)⟩

theorem zero_inRange : InRange t.isUnsigned t.width 0 := inRange_of_small ht le_rfl (by decide)

theorem one_inRange : InRange t.isUnsigned t.width 1 := inRange_of_small ht (by decide) (by decide)

/-- Small numbers do not wrap around. -/
theorem add_of_small {m : ℤ} (hm : 0 ≤ m) (hm' : m ≤ 64) (hn : 0 ≤ n) (hn' : n ≤ 64) :
    add m n t = m + n := by
  unfold add slot
  rw [← ofInt_add]
  exact read_ofInt ht.width_pos (inRange_of_small ht (by omega) (by omega))

/-- The amount of a shift by a literal. -/
theorem toNat_amount (hn : 0 ≤ n ∧ n < t.width) : (BitVec.ofInt 32 n).toNat = n.toNat := by
  have := width_le ht
  rw [toNat_ofInt, Int.emod_eq_of_lt hn.1 (by push_cast; omega)]

/-- Where there is room for it, a power of two has an exponent below the width. -/
theorem whatPowerOf2_lt (hn : InRange t.isUnsigned t.width n) :
    0 ≤ whatPowerOf2 n ∧ whatPowerOf2 n < t.width := by
  refine ⟨Int.natCast_nonneg _, ?_⟩
  unfold whatPowerOf2
  by_cases h0 : n.toNat = 0
  · rw [h0]
    have := ht.width_pos
    simpa using this
  · exact_mod_cast (Nat.log2_lt h0).mpr hn.toNat_lt

/-- What `isPowOfTwo` says of a number that is not negative. -/
theorem ofInt_of_isPowOfTwo (hn : InRange t.isUnsigned t.width n) (h0 : 0 ≤ n)
    (h : isPowOfTwo t n = true) :
    BitVec.ofInt t.width n = BitVec.twoPow t.width (whatPowerOf2 n).toNat := by
  unfold isPowOfTwo slot at h
  rw [Bool.and_eq_true, bne_iff_ne, beq_iff_eq] at h
  obtain ⟨hne, hand⟩ := h
  generalize hb : BitVec.ofInt t.width n = b at hne hand ⊢
  have hbn : b.toNat = n.toNat := by
    have hread := read_ofInt ht.width_pos hn
    rw [hb] at hread
    have hmsb : t.isUnsigned = true ∨ b.msb = false := by
      cases hu : t.isUnsigned with
      | true => exact .inl rfl
      | false =>
        rw [hu] at hread
        exact .inr (msb_eq_false_of_read_nonneg (hread ▸ h0))
    rw [read_nonneg hmsb] at hread
    omega
  have hne' : b.toNat ≠ 0 := fun h => hne (eq_of_toNat_eq (by simpa using h))
  have hsub : (b - 1).toNat = b.toNat - 1 := by
    have hlt : 1 < 2 ^ t.width := Nat.one_lt_two_pow ht.width_pos.ne'
    have h1 : (1 : BitVec t.width).toNat = 1 := by
      show 1 % 2 ^ t.width = 1
      exact Nat.mod_eq_of_lt hlt
    rw [toNat_sub_of_le (by rw [le_def, h1]; omega), h1]
  have hpow : b.toNat.isPowerOfTwo := by
    refine (Nat.and_sub_one_eq_zero_iff_isPowerOfTwo hne').mp ?_
    have := congrArg BitVec.toNat hand
    rwa [toNat_and, hsub] at this
  obtain ⟨k, hk⟩ := hpow
  have hlog : (whatPowerOf2 n).toNat = k := by
    unfold whatPowerOf2
    rw [Int.toNat_natCast, ← hbn, hk, Nat.log2_two_pow]
  have hkw : k < t.width := by
    have := b.isLt
    rw [hk] at this
    exact (Nat.pow_lt_pow_iff_right (by decide)).mp this
  refine eq_of_toNat_eq ?_
  rw [hlog, toNat_twoPow_of_lt hkw, hk]

end

end VSharp
