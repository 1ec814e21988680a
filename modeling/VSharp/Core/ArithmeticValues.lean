import VSharp.Core.ArithmeticRules

/-!
# Core — ArithmeticValues

The simplifiers of sums, differences, negations, products, quotients and remainders keep the value
of the operation, on unions of the terms the simplifiers build.

The conditions are those under which the code is right:

- the guards of the unions are conditions;
- `AlternativesRight`: the doubtful rules applied to the alternatives a valuation chooses have
  operands for which they are right;
- `NeverTraps`: no run on leaves of the operands divides literals by zero or beyond the range.
-/

namespace VSharp
variable {x y : Term} {F : ℕ → Term → Term → Run Term}

open Term Propositional Library Merging MachineInteger
open Filter (atTop)

/-! ### Leaves -/

/-- The leaves of a union. -/
inductive Leaf : Term → Term → Prop where
  | self {v : Term} (hv : NotIte v) : Leaf v v
  | branch {bs : List (Term × Term)} {e v : Term} {b : Term × Term} (hb : b ∈ bs)
      (h : Leaf b.2 v) : Leaf (.ite bs e) v
  | elseValue {bs : List (Term × Term)} {e v : Term} (h : Leaf e v) : Leaf (.ite bs e) v

theorem UnionOf.leaves {G L : Term → Prop} (h : UnionOf G L x) :
    UnionOf G (fun v => L v ∧ Leaf x v) x := by
  induction h with
  | leaf hv h => exact .leaf hv ⟨h, .self hv⟩
  | ite hne guards _ _ ihv ihe =>
    refine .ite hne guards (fun b hb => ?_) ?_
    · exact (ihv b hb).mono (fun _ h => h) fun v hv => ⟨hv.1, .branch hb hv.2⟩
    · exact ihe.mono (fun _ h => h) fun v hv => ⟨hv.1, .elseValue hv.2⟩

/-- No run on leaves of the operands traps. -/
def NeverTraps (F : ℕ → Term → Term → Run Term) (x y : Term) : Prop :=
  ∀ vx vy, Leaf x vx → Leaf y vy → ∀ n, ¬(F n vx vy).Traps

/-- The rules applied to the alternative that a valuation chooses are right. -/
def AlternativeRight (t : Ty) (ρ : Valuation) (F : ℕ → Term → Run Term) (x : Term) : Prop :=
  ∀ v, Selects ρ.machine x v → RulesRight t ρ (F · v)

theorem AlternativesRight.leaf {t : Ty} {ρ : Valuation} (hx : NotIte x) (hy : NotIte y)
    (h : RulesRight t ρ (F · x y)) :
    AlternativesRight t ρ F x y := by
  intro vx vy hvx hvy
  rw [hvx.unique (.leaf hx), hvy.unique (.leaf hy)]
  exact h

theorem NeverTraps.leaf (hx : NotIte x) (hy : NotIte y) (h : ∀ n, ¬(F n x y).Traps) :
    NeverTraps F x y := by
  intro vx vy hvx hvy
  cases hvx with
  | self =>
    cases hvy with
    | self => exact h
    | _ => exact absurd rfl (hy _ _)
  | _ => exact absurd rfl (hx _ _)

theorem Notes.neverTraps {d : List Doubt} (h : Notes d (F · x y)) (hx : NotIte x)
    (hy : NotIte y) : NeverTraps F x y := by
  refine .leaf hx hy fun n => ?_
  show ¬((F · x y) n).Traps
  rcases h n with herror | ⟨r, hr⟩
  · rw [herror]
    exact not_trap_outOfFuel
  · rw [hr]
    rintro (h | h) <;> cases h

/-- Unions, under conditions, of terms the simplifiers build. -/
def SimplifiedUnion (D : Prop) (t : Ty) (x : Term) : Prop :=
  UnionOf Condition (fun v => ∃ k, Simplified D t k v) x

section
variable [HashOrder FieldId] {D : Prop} {t : Ty} (ht : t.IsStackInt) {x y : Term}

include ht

omit [HashOrder FieldId] in
theorem SimplifiedUnion.plain {v : Term} (h : ∃ k, Simplified D t k v) : BranchLeaf .plain v := by
  obtain ⟨k, h⟩ := h
  exact h.plain ht

omit [HashOrder FieldId] in
theorem SimplifiedUnion.integral (h : SimplifiedUnion D t x) : Integral x := by
  induction h with
  | leaf hv hL =>
    obtain ⟨k, hL⟩ := hL
    exact .leaf hv ⟨k, hL.arithmetic ht⟩
  | ite _ _ _ _ ihv ihe => exact .ite ihv ihe

/-- An operation that keeps the value on leaves keeps it on unions. -/
theorem simplifyGenericBinary_value {concrete : Obj → Obj → Ty → Ty → Run Term}
    {unmatched : ℕ → Term → Term → Run Term}
    (hF : ∀ n, F (n + 1) = simplifyGenericBinary concrete (unmatched n) (F n))
    {Q : BitVec t.width → BitVec t.width → BitVec t.width}
    (hkeep : ∀ n {i j : ℕ} {vx vy : Term}, Simplified D t i vx → Simplified D t j vy →
      Keeps D D t (fun ρ => Q (vx.value ρ t.width) (vy.value ρ t.width)) (F n vx vy))
    (hends : ∀ n {i j : ℕ} {vx vy : Term}, Arithmetic i vx → Arithmetic j vy →
      2 * (i + j) + 1 < n → Run.Same Trap (Arithmetic (i + j + 1)) (F n vx vy) (F n vx vy))
    (hx : SimplifiedUnion D t x) (hy : SimplifiedUnion D t y) (htrap : D → NeverTraps F x y) :
    Returns (F · x y) fun r => SimplifiedUnion D t r ∧ ∀ ρ, AlternativesRight t ρ F x y →
      r.value ρ t.width = Q (x.value ρ t.width) (y.value ρ t.width) := by
  have hleaf (vx vy : Term) (hvx : NotIte vx) (hvy : NotIte vy)
      (hLx : (∃ k, Simplified D t k vx) ∧ Leaf x vx)
      (hLy : (∃ k, Simplified D t k vy) ∧ Leaf y vy) :
      Returns (F · vx vy) fun r =>
        (InBranch (fun v => ∃ k, Simplified D t k v) r ∧ SimplifiedUnion D t r) ∧
          ∀ ρ, RulesRight t ρ (F · vx vy) →
          r.value ρ t.width = Q (vx.value ρ t.width) (vy.value ρ t.width) := by
    obtain ⟨⟨i, hi⟩, hlx⟩ := hLx
    obtain ⟨⟨j, hj⟩, hly⟩ := hLy
    refine Filter.eventually_atTop.mpr ⟨2 * (i + j) + 2, fun n hn => ?_⟩
    obtain ⟨r, d, hrun, ⟨_, hr⟩, hval⟩ := (hkeep n hi hj).gives
      (hends n (hi.arithmetic ht) (hj.arithmetic ht) (by omega)).2 fun hD =>
        htrap hD vx vy hlx hly n
    exact ⟨r, d, hrun, ⟨.leaf hr.notIte ⟨_, hr⟩, .leaf hr.notIte ⟨_, hr⟩⟩,
      fun ρ hk => hval ρ (hk n r d hrun)⟩
  refine (simplifyGenericBinary_spec (merges_unions fun _ => SimplifiedUnion.plain ht) hF hleaf
    hx.leaves hy.leaves).mono fun r hr => ⟨hr.1.2, fun ρ hk => ?_⟩
  obtain ⟨vx, vy, r', hvx, hvy, hr', heval⟩ := hr.2 ρ.machine
  have hvalx : vx.value ρ t.width = x.value ρ t.width := by rw [value, value, hvx.eval_eq]
  have hvaly : vy.value ρ t.width = y.value ρ t.width := by rw [value, value, hvy.eval_eq]
  rw [← hvalx, ← hvaly, ← hr' ρ (hk vx vy hvx hvy), value, value, heval]

/-! ### Sums -/

theorem addition_value (hx : SimplifiedUnion D t x) (hy : SimplifiedUnion D t y)
    (htrap : D → NeverTraps (fun n => (simplifiers n).addition t) x y) :
    Returns (fun n => (simplifiers n).addition t x y) fun r => SimplifiedUnion D t r ∧ ∀ ρ,
      AlternativesRight t ρ (fun n => (simplifiers n).addition t) x y →
      r.value ρ t.width = x.value ρ t.width + y.value ρ t.width := by
  exact simplifyGenericBinary_value ht (F := fun n => (simplifiers n).addition t) (Q := (· + ·))
    (fun n => rfl) (fun n => (simplifiers_callsKeep ht n).addition)
    (fun n => (agree_simplifiers n).addition ht.ne_bool) hx hy htrap

theorem unaryMinus_value (hx : SimplifiedUnion False t x) :
    Returns (fun n => (simplifiers n).unaryMinus t x) fun r => SimplifiedUnion False t r ∧ ∀ ρ,
      AlternativeRight t ρ (fun n => (simplifiers n).unaryMinus t) x →
      r.value ρ t.width = -x.value ρ t.width := by
  have hleaf (v : Term) (hv : NotIte v) (hL : ∃ k, Simplified False t k v) :
      Returns (fun n => (simplifiers n).unaryMinus t v) fun r =>
        (InBranch (fun v => ∃ k, Simplified False t k v) r ∧ SimplifiedUnion False t r) ∧
          ∀ ρ, RulesRight t ρ (fun n => (simplifiers n).unaryMinus t v) →
            r.value ρ t.width = -v.value ρ t.width := by
    obtain ⟨i, hi⟩ := hL
    refine Filter.eventually_atTop.mpr ⟨2 * i + 2, fun n hn => ?_⟩
    obtain ⟨r, d, hrun, ⟨_, hr⟩, hval⟩ := ((simplifiers_callsKeep ht n).unaryMinus hi).gives
      ((agree_simplifiers n).unaryMinus ht.ne_bool (hi.arithmetic ht) (by omega)).2 False.elim
    exact ⟨r, d, hrun, ⟨.leaf hr.notIte ⟨_, hr⟩, .leaf hr.notIte ⟨_, hr⟩⟩,
      fun ρ hk => hval ρ (hk n r d hrun)⟩
  have hF (n : ℕ) : (simplifiers (n + 1)).unaryMinus t = simplifyGenericUnary
      (onNumber fun n => pure (literal (ILCalculator.sub 0 n t) t))
      (fun x => ((simplifiers n).simplifyUnaryMinusExt t x).getD
        (pure (.expression (.operator .unaryMinus) [x] t)))
      ((simplifiers n).unaryMinus t) := rfl
  refine (simplifyGenericUnary_spec (merges_unions fun _ => SimplifiedUnion.plain ht)
    (F := fun n => (simplifiers n).unaryMinus t) hF hleaf hx).mono
    fun r hr => ⟨hr.1.2, fun ρ hk => ?_⟩
  obtain ⟨v, r', hv, hr', heval⟩ := hr.2 ρ.machine
  have hvalx : v.value ρ t.width = x.value ρ t.width := by rw [value, value, hv.eval_eq]
  rw [← hvalx, ← hr' ρ (hk v hv), value, value, heval]

/-- The rules that a subtraction applies are right: those of the negation, and those of the sum with
what it returns. -/
def SubtractionRight (t : Ty) (ρ : Valuation) (x y : Term) : Prop :=
  AlternativeRight t ρ (fun n => (simplifiers n).unaryMinus t) y ∧
    ∀ n minusY d, (simplifiers n).unaryMinus t y = .ok (minusY, d) →
      AlternativesRight t ρ (fun n => (simplifiers n).addition t) x minusY

theorem subtraction_value (hx : SimplifiedUnion False t x) (hy : SimplifiedUnion False t y) :
    Returns (fun n => (simplifiers n).simplifySubtraction t x y) fun r =>
      SimplifiedUnion False t r ∧ ∀ ρ, SubtractionRight t ρ x y →
        r.value ρ t.width = x.value ρ t.width - y.value ρ t.width := by
  have hstable := (unaryMinus_terminates ht.ne_bool (SimplifiedUnion.integral ht hy)).constant
  refine Returns.bind hstable (unaryMinus_value ht hy) fun minusY hminus hrun => ?_
  obtain ⟨n, d, hrun⟩ := hrun
  refine (addition_value ht hx hminus.1 False.elim).mono fun r hr => ⟨hr.1, fun ρ hk => ?_⟩
  rw [hr.2 ρ (hk.2 n minusY d hrun), hminus.2 ρ hk.1, sub_eq_add_neg]

/-- Sums, differences and negations, without quotients in the operands. -/
theorem simplifyAddition_value
    (hx : UnionOf (fun _ => True) (fun v => ∃ k, Simplified False t k v) x)
    (hy : UnionOf (fun _ => True) (fun v => ∃ k, Simplified False t k v) y)
    (hgx : Guarded Condition x) (hgy : Guarded Condition y) :
    (Returns (fun n => (simplifiers n).addition t x y) fun r => SimplifiedUnion False t r ∧ ∀ ρ,
      AlternativesRight t ρ (fun n => (simplifiers n).addition t) x y →
        r.value ρ t.width = x.value ρ t.width + y.value ρ t.width) ∧
    (Returns (fun n => (simplifiers n).simplifySubtraction t x y) fun r =>
      SimplifiedUnion False t r ∧ ∀ ρ, SubtractionRight t ρ x y →
        r.value ρ t.width = x.value ρ t.width - y.value ρ t.width) ∧
    Returns (fun n => (simplifiers n).unaryMinus t x) fun r => SimplifiedUnion False t r ∧ ∀ ρ,
      AlternativeRight t ρ (fun n => (simplifiers n).unaryMinus t) x →
        r.value ρ t.width = -x.value ρ t.width :=
  ⟨addition_value ht (hx.guarded hgx) (hy.guarded hgy) False.elim,
    subtraction_value ht (hx.guarded hgx) (hy.guarded hgy),
    unaryMinus_value ht (hx.guarded hgx)⟩

omit [HashOrder FieldId] ht in
/-- Two constants: no doubtful rule is applied. -/
theorem simplifyAddition_constants : letI : HashOrder FieldId := ⟨fun _ => 0⟩
    let x : Term := .constant ⟨0, []⟩ .int32
    let y : Term := .constant ⟨1, []⟩ .int32
    (Returns (fun n => (simplifiers n).addition .int32 x y) fun r => ∀ ρ : Valuation,
      r.value ρ 32 = x.value ρ 32 + y.value ρ 32) ∧
    (Returns (fun n => (simplifiers n).simplifySubtraction .int32 x y) fun r => ∀ ρ : Valuation,
      r.value ρ 32 = x.value ρ 32 - y.value ρ 32) ∧
    Returns (fun n => (simplifiers n).unaryMinus .int32 x) fun r => ∀ ρ : Valuation,
      r.value ρ 32 = -x.value ρ 32 := by
  intro x y
  let _ : HashOrder FieldId := ⟨fun _ => 0⟩
  obtain ⟨hadd, hsub, hneg⟩ := simplifyAddition_value .int32 (x := x) (y := y)
    (.leaf nofun ⟨1, .constant _ le_rfl⟩) (.leaf nofun ⟨1, .constant _ le_rfl⟩) (.leaf nofun)
    (.leaf nofun)
  have hquiet (ρ : Valuation) (c : Source) : AlternativeRight .int32 ρ
      (fun n => (simplifiers n).unaryMinus .int32) (.constant c .int32) := fun v hv => by
    rw [hv.unique (.leaf (v := .constant c .int32) nofun)]
    exact Notes.rulesRight (d := []) (fun | 0 => .inl rfl | _ + 1 => .inr ⟨_, rfl⟩) nofun
  refine ⟨hadd.mono fun r hr ρ => hr.2 ρ ?_, hsub.mono fun r hr ρ => hr.2 ρ ⟨hquiet ρ _, ?_⟩,
    hneg.mono fun r hr ρ => hr.2 ρ (hquiet ρ _)⟩
  · exact .leaf nofun nofun (Notes.rulesRight (d := []) (fun | 0 => .inl rfl | _ + 1 => .inr ⟨_, rfl⟩) nofun)
  · intro n minusY d hrun
    cases n with
    | zero => exact nomatch hrun
    | succ n =>
      obtain ⟨rfl, -⟩ := Prod.mk.inj (Except.ok.inj hrun)
      exact .leaf nofun nofun (Notes.rulesRight (d := []) (fun | 0 => .inl rfl | _ + 1 => .inr ⟨_, rfl⟩) nofun)

/-! ### Products -/

/-- A product keeps the value, with quotients in the operands. -/
theorem simplifyMultiplication_value
    (hx : UnionOf (fun _ => True) (fun v => ∃ k, Simplified True t k v) x)
    (hy : UnionOf (fun _ => True) (fun v => ∃ k, Simplified True t k v) y)
    (hgx : Guarded Condition x) (hgy : Guarded Condition y)
    (htrap : NeverTraps (fun n => (simplifiers n).multiplication t) x y) :
    Returns (fun n => (simplifiers n).multiplication t x y) fun r => SimplifiedUnion True t r ∧ ∀ ρ,
      AlternativesRight t ρ (fun n => (simplifiers n).multiplication t) x y →
      r.value ρ t.width = x.value ρ t.width * y.value ρ t.width := by
  exact simplifyGenericBinary_value ht (F := fun n => (simplifiers n).multiplication t)
    (Q := (· * ·)) (fun n => rfl) (fun n => (simplifiers_callsKeep ht n).multiplication)
    (fun n => (agree_simplifiers n).multiplication ht.ne_bool) (hx.guarded hgx) (hy.guarded hgy)
    fun _ => htrap

section

omit ht [HashOrder FieldId]

/-- `((a / 2) * b) * 2` becomes `a * b`, which is right where `(a % 2) * b` is 0. -/
theorem simplifyMultiplication_exact : letI : HashOrder FieldId := ⟨fun _ => 0⟩
    let a : Term := .constant ⟨0, []⟩ .int32
    let b : Term := .constant ⟨1, []⟩ .int32
    let y := literal 2 .int32
    let x := makeBinary .multiply (makeBinary .divide a y .int32) b .int32
    Returns (fun n => (simplifiers n).multiplication .int32 x y) fun r => ∀ ρ : Valuation,
      (a.value ρ 32).srem (y.value ρ 32) * b.value ρ 32 = 0 →
        r.value ρ 32 = x.value ρ 32 * y.value ρ 32 := by
  intro a b y x
  let _ : HashOrder FieldId := ⟨fun _ => 0⟩
  have hy : Simplified True .int32 1 y := .literal (by decide) le_rfl
  have hx : Simplified True .int32 5 x :=
    .ring (.inr rfl) (.quotient trivial ⟨true, .inl rfl⟩ (.constant _ le_rfl) hy le_rfl)
      (.constant _ le_rfl) le_rfl
  have hnotes : Notes [.cancelFactor true a y b]
      (fun n => (simplifiers n).multiplication .int32 x y) :=
    fun | 0 | 1 => .inl rfl | _ + 2 => .inr ⟨_, rfl⟩
  refine (simplifyMultiplication_value .int32 (x := x) (y := y) (.leaf nofun ⟨5, hx⟩)
    (.leaf nofun ⟨1, hy⟩) (.leaf nofun) (.leaf nofun) (hnotes.neverTraps nofun nofun)).mono
      fun r hr ρ hexact => hr.2 ρ ?_
  exact .leaf nofun nofun (hnotes.rulesRight (List.forall_mem_singleton.mpr hexact))

/-- A term of the operands, at any depth. -/
inductive PartOf (u : Term) : Term → Prop where
  | self : PartOf u u
  | operand {op : Operation} {xs : List Term} {t : Ty} {z : Term} (hz : z ∈ xs) (h : PartOf u z) :
      PartOf u (.expression op xs t)
  | branch {bs : List (Term × Term)} {e : Term} {b : Term × Term} (hb : b ∈ bs)
      (h : PartOf u b.2) : PartOf u (.ite bs e)
  | elseValue {bs : List (Term × Term)} {e : Term} (h : PartOf u e) : PartOf u (.ite bs e)

variable {op : OperationType}

/-- A literal or a constant has no operation as a part. -/
theorem not_partOf_atom {u v z : Term} (hz : isExpression z = false) (hnot : NotIte z) :
    ¬PartOf (makeBinary op u v t) z := by
  intro h
  cases h with
  | self | operand => cases hz
  | branch | elseValue => exact hnot _ _ rfl

theorem PartOf.of_makeBinary {u z w : Term} (h : PartOf u (makeBinary op z w t)) :
    u = makeBinary op z w t ∨ PartOf u z ∨ PartOf u w := by
  cases h with
  | self => exact .inl rfl
  | operand hz h =>
    rcases List.mem_pair.mp hz with rfl | rfl
    · exact .inr (.inl h)
    · exact .inr (.inr h)

/-- No divisor in the term is zero, and no signed quotient is beyond the range. -/
def QuotientsFit (t : Ty) (ρ : Valuation) (x : Term) : Prop :=
  ∀ (isSigned : Bool) (a b : Term), PartOf (makeBinary (divisionOp isSigned) a b t) x →
    b.value ρ t.width ≠ 0 ∧
      (isSigned = true → ¬(a.value ρ t.width = BitVec.intMin _ ∧ b.value ρ t.width = -1))

/-- `((a / 2) * b) * 2` becomes `a * b`: for 1 and 1, where the quotient is 0, it is 1. -/
theorem simplifyMultiplication_cancels : letI : HashOrder FieldId := ⟨fun _ => 0⟩
    ¬ ∀ (t : Ty), t.IsStackInt → ∀ x y : Term,
      UnionOf (fun _ => True) (fun v => ∃ k, Simplified True t k v) x →
      UnionOf (fun _ => True) (fun v => ∃ k, Simplified True t k v) y →
      Returns (fun n => (simplifiers n).multiplication t x y) fun r => ∀ ρ,
        QuotientsFit t ρ x → QuotientsFit t ρ y →
        r.value ρ t.width = x.value ρ t.width * y.value ρ t.width := by
  let _ : HashOrder FieldId := ⟨fun _ => 0⟩
  intro h
  let a : Term := .constant ⟨0, []⟩ .int32
  let b : Term := .constant ⟨1, []⟩ .int32
  let y := literal 2 .int32
  let x := makeBinary .multiply (makeBinary .divide a y .int32) b .int32
  have hy : Simplified True .int32 1 y := .literal (by decide) le_rfl
  have hx : Simplified True .int32 5 x :=
    .ring (.inr rfl) (.quotient trivial ⟨true, .inl rfl⟩ (.constant _ le_rfl) hy le_rfl)
      (.constant _ le_rfl) le_rfl
  obtain ⟨N, hN⟩ := Filter.eventually_atTop.mp
    (h .int32 .int32 x y (.leaf nofun ⟨5, hx⟩) (.leaf nofun ⟨1, hy⟩))
  obtain ⟨r, d, hrun, hval⟩ := hN (N + 2) (by omega)
  have hrun' : (simplifiers (N + 2)).multiplication .int32 x y =
      .ok (makeBinary .multiply a b .int32, [.cancelFactor true a y b]) := rfl
  obtain ⟨rfl, -⟩ := Prod.mk.inj (Except.ok.inj (hrun.symm.trans hrun'))
  have hfity : QuotientsFit .int32 (.constants 1) y := fun isSigned u v hpart =>
    absurd hpart (not_partOf_atom rfl nofun)
  have hfitx : QuotientsFit .int32 (.constants 1) x := by
    intro isSigned u v hpart
    rcases hpart.of_makeBinary with h | h | h
    · cases isSigned <;> cases h
    · rcases h.of_makeBinary with h | h | h
      · cases isSigned <;> cases h
        decide
      · exact absurd h (not_partOf_atom rfl nofun)
      · exact absurd h (not_partOf_atom rfl nofun)
    · exact absurd h (not_partOf_atom rfl nofun)
  exact absurd (hval (.constants 1) hfitx hfity) (by decide)

end

/-! ### Quotients and remainders -/

/-- Quotients and remainders, signed or not, of operands read accordingly. -/
theorem simplifyDivision_value (isSigned : Bool)
    (hx : UnionOf (fun _ => True) (fun v => ∃ k, Simplified True t k v) x)
    (hy : UnionOf (fun _ => True) (fun v => ∃ k, Simplified True t k v) y)
    (hgx : Guarded Condition x) (hgy : Guarded Condition y)
    (htrap : NeverTraps (fun n => (simplifiers n).division isSigned t) x y)
    (htrap' : NeverTraps (simplifyRemainder isSigned t) x y) :
    (Returns (fun n => (simplifiers n).division isSigned t x y) fun r =>
      SimplifiedUnion True t r ∧
        ∀ ρ, AlternativesRight t ρ (fun n => (simplifiers n).division isSigned t) x y →
        r.value ρ t.width = BitVec.ofInt t.width ((read (!isSigned) (x.value ρ t.width)).tdiv
          (read (!isSigned) (y.value ρ t.width)))) ∧
    Returns (fun n => simplifyRemainder isSigned t n x y) fun r => SimplifiedUnion True t r ∧ ∀ ρ,
      AlternativesRight t ρ (simplifyRemainder isSigned t) x y →
        r.value ρ t.width = BitVec.ofInt t.width ((read (!isSigned) (x.value ρ t.width)).tmod
          (read (!isSigned) (y.value ρ t.width))) := by
  constructor
  · refine (simplifyGenericBinary_value ht (F := fun n => (simplifiers n).division isSigned t)
      (Q := divided isSigned) (fun n => rfl)
      (fun n => (simplifiers_callsKeep ht n).division trivial isSigned)
      (fun n => (agree_simplifiers n).division isSigned ht.ne_bool) (hx.guarded hgx)
      (hy.guarded hgy) fun _ => htrap).mono fun r hr => ⟨hr.1, fun ρ hk => ?_⟩
    rw [hr.2 ρ hk, divided_eq]
  · refine (simplifyGenericBinary_value ht (F := simplifyRemainder isSigned t)
      (Q := reduced isSigned) (fun n => rfl)
      (fun n _ _ _ _ hi hj => simplifyRemainder_keeps ht trivial isSigned hi hj n)
      (fun n _ _ _ _ hi hj hn => ?_) (hx.guarded hgx) (hy.guarded hgy)
      fun _ => htrap').mono fun r hr => ⟨hr.1, fun ρ hk => ?_⟩
    · obtain ⟨m, rfl⟩ : ∃ m, n = m + 1 := ⟨n - 1, by omega⟩
      exact same_remainderStep ht.ne_bool isSigned hi hj _ _
    · rw [hr.2 ρ hk, reduced_eq]

omit [HashOrder FieldId] ht in
/-- `a / -a` becomes −1, which is right unless `a` is zero or the smallest number, and `a % -a`
becomes zero. -/
theorem simplifyDivision_ofOpposite : letI : HashOrder FieldId := ⟨fun _ => 0⟩
    let x : Term := .constant ⟨0, []⟩ .int64
    let y := makeUnary .unaryMinus x .int64
    (Returns (fun n => (simplifiers n).division true .int64 x y) fun r => ∀ ρ : Valuation,
      x.value ρ 64 ≠ 0 ∧ x.value ρ 64 ≠ BitVec.intMin 64 →
      r.value ρ 64 = BitVec.ofInt 64 ((x.value ρ 64).toInt.tdiv (y.value ρ 64).toInt)) ∧
    Returns (fun n => simplifyRemainder true .int64 n x y) fun r => ∀ ρ : Valuation,
      r.value ρ 64 = BitVec.ofInt 64 ((x.value ρ 64).toInt.tmod (y.value ρ 64).toInt) := by
  intro x y
  let _ : HashOrder FieldId := ⟨fun _ => 0⟩
  have hx : Simplified True .int64 1 x := .constant _ le_rfl
  have hdiv : Notes [.oppositeDivisor true x]
      (fun n => (simplifiers n).division true .int64 x y) :=
    fun | 0 => .inl rfl | _ + 1 => .inr ⟨_, rfl⟩
  have hrem : Notes [] (fun n => simplifyRemainder true .int64 n x y) :=
    fun | 0 => .inl rfl | _ + 1 => .inr ⟨_, rfl⟩
  obtain ⟨hdivision, hremainder⟩ := simplifyDivision_value .int64 true (x := x) (y := y)
    (.leaf nofun ⟨1, hx⟩) (.leaf nofun ⟨1, .neg hx rfl⟩) (.leaf nofun) (.leaf nofun)
    (hdiv.neverTraps nofun nofun) (hrem.neverTraps nofun nofun)
  exact ⟨hdivision.mono fun r hr ρ hright => hr.2 ρ (.leaf nofun nofun
      (hdiv.rulesRight (List.forall_mem_singleton.mpr hright))),
    hremainder.mono fun r hr ρ => hr.2 ρ (.leaf nofun nofun (hrem.rulesRight nofun))⟩

omit [HashOrder FieldId] ht in
/-- `a / -a` becomes −1: the smallest number is its own opposite. -/
theorem simplifyDivision_opposite : letI : HashOrder FieldId := ⟨fun _ => 0⟩
    ¬ ∀ (t : Ty), t.IsStackInt → ∀ (isSigned : Bool) (x y : Term),
      UnionOf (fun _ => True) (fun v => ∃ k, Simplified True t k v) x →
      UnionOf (fun _ => True) (fun v => ∃ k, Simplified True t k v) y →
      (Returns (fun n => (simplifiers n).division isSigned t x y) fun r => ∀ ρ,
        y.value ρ t.width ≠ 0 →
        (isSigned = true → ¬(x.value ρ t.width = BitVec.intMin _ ∧ y.value ρ t.width = -1)) →
        r.value ρ t.width = BitVec.ofInt t.width ((read (!isSigned) (x.value ρ t.width)).tdiv
          (read (!isSigned) (y.value ρ t.width)))) ∧
      Returns (fun n => simplifyRemainder isSigned t n x y) fun r => ∀ ρ,
        y.value ρ t.width ≠ 0 →
        (isSigned = true → ¬(x.value ρ t.width = BitVec.intMin _ ∧ y.value ρ t.width = -1)) →
        r.value ρ t.width = BitVec.ofInt t.width ((read (!isSigned) (x.value ρ t.width)).tmod
          (read (!isSigned) (y.value ρ t.width))) := by
  let _ : HashOrder FieldId := ⟨fun _ => 0⟩
  intro h
  let x : Term := .constant ⟨0, []⟩ .int32
  let y := makeUnary .unaryMinus x .int32
  have hx : Simplified True .int32 1 x := .constant _ le_rfl
  obtain ⟨N, hN⟩ := Filter.eventually_atTop.mp
    (h .int32 .int32 true x y (.leaf nofun ⟨1, hx⟩) (.leaf nofun ⟨1, .neg hx rfl⟩)).1
  obtain ⟨r, d, hrun, hval⟩ := hN (N + 2) (by omega)
  have hrun' : (simplifiers (N + 2)).division true .int32 x y =
      .ok (literal (-1) .int32, [.oppositeDivisor true x]) := rfl
  obtain ⟨rfl, -⟩ := Prod.mk.inj (Except.ok.inj (hrun.symm.trans hrun'))
  exact absurd (hval (.constants fun _ => -2147483648) (by decide) (by decide)) (by decide)

end

end VSharp
