import VSharp.Core.Propositional
import VSharp.Library.Results

/-!
# Core — Conditions

The boolean terms the propositional simplifier is right about.  Its rules take for granted that an
n-ary node has two different operands (`Reduced`), so `Condition` is this: a truth value, a reduced
formula, or a union of conditions guarded by conditions.

* `simplifyConnective_spec`, `simplifyNegation_spec`: on conditions the simplifier never fails, has
  the right truth value, and gives a condition again.
-/

namespace VSharp
variable {x y e stopValue ignoreValue : Term} {op co : OperationType} {xs l : List Term}
  {bs : List (Term × Term)} {V : Type} {s : Bool}

open Term Propositional Library List

/-! ### Truth of boolean terms -/

theorem isTrue_iff : Term.isTrue x = true ↔ x = trueTerm := by
  unfold Term.isTrue trueTerm makeBool
  split
  · next b => cases b <;> simp
  · next h => simpa using fun hx => h true hx

theorem isFalse_iff : Term.isFalse x = true ↔ x = falseTerm := by
  unfold Term.isFalse falseTerm makeBool
  split
  · next b => cases b <;> simp
  · next h => simpa using fun hx => h false hx

section
variable {V : Type} (I : Interp V)

@[simp] theorem eval_makeBool (b : Bool) : (makeBool b).eval I = I.ofBool b := I.concrete_bool b

@[simp] theorem holds_makeBool (b : Bool) : (makeBool b).holds I = b := by
  rw [holds, eval_makeBool, I.truth_ofBool]

@[simp] theorem holds_trueTerm : trueTerm.holds I = true := holds_makeBool I true

@[simp] theorem holds_falseTerm : falseTerm.holds I = false := holds_makeBool I false

theorem eval_conjunction (xs : List Term) :
    (expression (.operator .logicalAnd) xs .bool).eval I = I.ofBool (xs.all (holds I)) := by
  simp only [eval, Interp.operation, Interp.operatorValue, I.cast_ofBool, evalList_eq, all_map]
  rfl

theorem eval_disjunction (xs : List Term) :
    (expression (.operator .logicalOr) xs .bool).eval I = I.ofBool (xs.any (holds I)) := by
  simp only [eval, Interp.operation, Interp.operatorValue, I.cast_ofBool, evalList_eq, any_map]
  rfl

theorem eval_negate (x : Term) : (negate x).eval I = I.ofBool (!x.holds I) := by
  simp only [negate, makeUnary, eval, evalList, Interp.operation, Interp.operatorValue,
    I.cast_ofBool]
  rfl

@[simp] theorem holds_conjunction (xs : List Term) :
    (expression (.operator .logicalAnd) xs .bool).holds I = xs.all (holds I) := by
  rw [holds, eval_conjunction, I.truth_ofBool]

@[simp] theorem holds_disjunction (xs : List Term) :
    (expression (.operator .logicalOr) xs .bool).holds I = xs.any (holds I) := by
  rw [holds, eval_disjunction, I.truth_ofBool]

@[simp] theorem holds_negate (x : Term) : (negate x).holds I = !x.holds I := by
  rw [holds, eval_negate, I.truth_ofBool]

end

/-! ### Reduced formulas -/

/-- A boolean term no propositional rule looks into; an operator of an atom has an operand. -/
def isAtom : Term → Bool
  | .constant _ .bool => true
  | .expression (.operator op) (_ :: _) .bool =>
    decide (op ≠ .logicalAnd ∧ op ≠ .logicalOr ∧ op ≠ .logicalNot)
  | .expression (.cast _ .bool) _ .bool => true
  | .expression .combine _ .bool => true
  | _ => false

/-- A literal, or an n-ary node with two different operands, flat and reduced themselves. -/
inductive Reduced : Term → Prop where
  | atom {x : Term} (h : isAtom x = true) : Reduced x
  | negated {x : Term} (h : isAtom x = true) : Reduced (negate x)
  | nary {op : OperationType} {xs : List Term} (hop : op = .logicalAnd ∨ op = .logicalOr)
      (operands : ∀ x ∈ xs, Reduced x) (flat : ∀ x ∈ xs, operands? op x = none)
      (different : ∃ a ∈ xs, ∃ b ∈ xs, a ≠ b) : Reduced (.expression (.operator op) xs .bool)

theorem isAtom_negation (h : isAtom x = true) : negation? x = none := by
  unfold negation?
  split
  · simp [isAtom] at h
    split at h <;> simp_all
  · rfl

theorem isAtom_operands (hop : op = .logicalAnd ∨ op = .logicalOr) (h : isAtom x = true) :
    operands? op x = none := by
  unfold operands?
  split
  · split
    · next heq =>
        subst heq
        rcases hop with rfl | rfl <;> (simp [isAtom] at h; split at h <;> simp_all)
    · rfl
  · rfl

/-- What a reduced negation is. -/
theorem operands_self {t : Ty} :
    operands? op (.expression (.operator op) xs t) = some xs := by
  simp [operands?]

theorem Reduced.of_negation (h : Reduced x) (hn : negation? x = some y) :
    x = negate y ∧ isAtom y = true := by
  cases h with
  | atom h => rw [isAtom_negation h] at hn; cases hn
  | negated h => cases hn; exact ⟨rfl, h⟩
  | nary hop => rcases hop with rfl | rfl <;> simp [negation?] at hn

/-- What a reduced n-ary node is. -/
theorem Reduced.of_operands (h : Reduced x) (hop : op = .logicalAnd ∨ op = .logicalOr)
    (hx : operands? op x = some xs) :
    x = .expression (.operator op) xs .bool ∧ (∀ z ∈ xs, Reduced z) ∧
      (∀ z ∈ xs, operands? op z = none) ∧ ∃ a ∈ xs, ∃ b ∈ xs, a ≠ b := by
  cases h with
  | atom h => rw [isAtom_operands hop h] at hx; cases hx
  | negated h => rcases hop with rfl | rfl <;> simp [negate, makeUnary, operands?] at hx
  | nary _ hr hf hd =>
    simp only [operands?] at hx
    split at hx
    · next heq =>
        cases hx
        subst heq
        exact ⟨rfl, hr, hf, hd⟩
    · cases hx

theorem Reduced.ne_makeBool (h : Reduced x) (b : Bool) : x ≠ makeBool b := by
  rintro rfl
  cases h with
  | atom h => cases h

theorem Reduced.not_nop (h : Reduced .nop) : False := by
  cases h with
  | atom h => cases h

theorem Reduced.not_ite (h : Reduced (.ite bs e)) : False := by
  cases h with
  | atom h => cases h

/-- A literal has no operands. -/
theorem operands_of_opposite (hop : op = .logicalAnd ∨ op = .logicalOr) (hx : Reduced x)
    (hy : Reduced y) (h : Opposite x y) : operands? op x = none := by
  rcases h with h | h
  · obtain ⟨rfl, -⟩ := hx.of_negation h
    rcases hop with rfl | rfl <;> rfl
  · exact isAtom_operands hop (hy.of_negation h).2

theorem isAtom_eval (I : Interp V) (h : isAtom x = true) : x.eval I = I.ofBool (x.holds I) := by
  unfold holds
  unfold isAtom at h
  split at h
  · exact (I.constant_bool _).symm
  · simp only [eval, Interp.operation, I.cast_bool]
  · simp only [eval, Interp.operation, I.cast_bool]
  · simp only [eval, Interp.operation, I.combine_bool]
  · cases h

/-- The value of a reduced formula is its truth value. -/
theorem Reduced.eval_eq (I : Interp V) (h : Reduced x) : x.eval I = I.ofBool (x.holds I) := by
  cases h with
  | atom h => exact isAtom_eval I h
  | negated h => rw [eval_negate, holds_negate]
  | nary hop =>
    rcases hop with rfl | rfl
    · rw [eval_conjunction, holds_conjunction]
    · rw [eval_disjunction, holds_disjunction]

/-! ### Connectives -/

/-- The two connectives: the operator, its opposite, the value that decides it alone and the one it
ignores; `s` is the truth value of the former. -/
inductive Connective : OperationType → OperationType → Term → Term → Bool → Prop where
  | and : Connective .logicalAnd .logicalOr falseTerm trueTerm false
  | or : Connective .logicalOr .logicalAnd trueTerm falseTerm true

namespace Connective
variable {op co : OperationType} {stopValue ignoreValue : Term} {s : Bool}

section
variable (h : Connective op co stopValue ignoreValue s)

include h

theorem op_nary :
    op = .logicalAnd ∨ op = .logicalOr := by
  cases h <;> simp

theorem co_nary :
    co = .logicalAnd ∨ co = .logicalOr := by
  cases h <;> simp

theorem op_ne_co : op ≠ co := by
  cases h <;> simp

theorem stop_eq : stopValue = makeBool s := by
  cases h <;> rfl

theorem ignore_eq : ignoreValue = makeBool !s := by
  cases h <;> rfl

end

variable {V : Type} (I : Interp V)

/-- An operand with the deciding value decides the operator. -/
theorem holds_op (h : Connective op co stopValue ignoreValue s) (xs : List Term) :
    (expression (.operator op) xs .bool).holds I = s ↔ ∃ x ∈ xs, x.holds I = s := by
  cases h <;> simp

/-- The opposite has that value when all its operands have. -/
theorem holds_co (h : Connective op co stopValue ignoreValue s) (xs : List Term) :
    (expression (.operator co) xs .bool).holds I = s ↔ ∀ x ∈ xs, x.holds I = s := by
  cases h <;> simp

theorem holds_opposite (hx : Reduced x) (hy : Reduced y) (h : Opposite x y) :
    y.holds I = s ↔ ¬ x.holds I = s := by
  rcases h with h | h
  · obtain ⟨rfl, -⟩ := hx.of_negation h
    cases s <;> simp
  · obtain ⟨rfl, -⟩ := hy.of_negation h
    cases s <;> simp

end Connective

section
variable {op co : OperationType} {stopValue ignoreValue : Term} {s : Bool} {t : Ty}
  {list : List Term}

/-- A reduced formula is no operator without operands. -/
theorem Reduced.args_ne_nil {op' : OperationType} (h : Reduced (.expression (.operator op') [] t)) :
    False := by
  cases h with
  | atom h => simp [isAtom] at h
  | nary _ _ _ hd =>
    obtain ⟨a, ha, -⟩ := hd
    cases ha

theorem makeNAry_of_two (h : ∃ a ∈ xs, ∃ b ∈ xs, a ≠ b) :
    makeNAry op xs t = .ok (.expression (.operator op) xs t) := by
  obtain ⟨a, ha, b, hb, hne⟩ := h
  match xs with
  | [] => cases ha
  | [c] =>
    rw [mem_singleton] at ha hb
    exact absurd (ha.trans hb.symm) hne
  | c :: d :: xs => rfl

/-- The node `makeBin` builds of two reduced formulas. -/
theorem makeBin_eq (hx : Reduced x) (hy : Reduced y) :
    makeBin op x y = makeNAry op
      (match operands? op x, operands? op y with
        | some xs, some ys => xs ++ ys
        | some xs, none => y :: xs
        | none, some ys => x :: ys
        | none, none => [x, y]) .bool := by
  unfold makeBin
  split
  · next h₁ h₂ => rw [h₁, h₂]
  · split
    · exact (hx.args_ne_nil).elim
    · exact (hy.args_ne_nil).elim
    · cases h₁ : operands? op x <;> cases h₂ : operands? op y <;> simp_all

/-- `r` has the deciding value where `x` or `y` has it. -/
abbrev Joins (s : Bool) (x y r : Term) : Prop :=
  ∀ {V : Type} (I : Interp V), r.holds I = s ↔ x.holds I = s ∨ y.holds I = s

/-- Two different reduced formulas, joined. -/
theorem makeBin_spec (hc : Connective op co stopValue ignoreValue s) (hx : Reduced x)
    (hy : Reduced y) (hne : x ≠ y) :
    ∃ r, makeBin op x y = .ok r ∧ Reduced r ∧ Joins s x y r := by
  rw [makeBin_eq hx hy]
  have build {xs : List Term} (hr : ∀ z ∈ xs, Reduced z) (hf : ∀ z ∈ xs, operands? op z = none)
      (hd : ∃ a ∈ xs, ∃ b ∈ xs, a ≠ b) (hsem : ∀ {V : Type} (I : Interp V),
        (∃ z ∈ xs, z.holds I = s) ↔ x.holds I = s ∨ y.holds I = s) :
      ∃ r, makeNAry op xs .bool = .ok r ∧ Reduced r ∧ Joins s x y r :=
    ⟨_, makeNAry_of_two hd, .nary hc.op_nary hr hf hd, fun I => (hc.holds_op I _).trans (hsem I)⟩
  cases h₁ : operands? op x with
  | none =>
    cases h₂ : operands? op y with
    | none =>
      refine build ?_ ?_ ⟨x, by simp, y, by simp, hne⟩ fun I => by simp
      · simpa using ⟨hx, hy⟩
      · simpa using ⟨h₁, h₂⟩
    | some ys =>
      obtain ⟨rfl, hr, hf, a, ha, b, hb, hab⟩ := hy.of_operands hc.op_nary h₂
      refine build ?_ ?_ ⟨a, by simp [ha], b, by simp [hb], hab⟩ fun I => ?_
      · simpa using ⟨hx, hr⟩
      · simpa using ⟨h₁, hf⟩
      · rw [hc.holds_op]
        simp
  | some xs =>
    obtain ⟨rfl, hr, hf, a, ha, b, hb, hab⟩ := hx.of_operands hc.op_nary h₁
    cases h₂ : operands? op y with
    | none =>
      refine build ?_ ?_ ⟨a, by simp [ha], b, by simp [hb], hab⟩ fun I => ?_
      · simpa using ⟨hy, hr⟩
      · simpa using ⟨h₂, hf⟩
      · rw [hc.holds_op]
        simp [or_comm]
    | some ys =>
      obtain ⟨rfl, hr', hf', -⟩ := hy.of_operands hc.op_nary h₂
      refine build ?_ ?_ ⟨a, by simp [ha], b, by simp [hb], hab⟩ fun I => ?_
      · simpa [or_imp, forall_and] using ⟨hr, hr'⟩
      · simpa [or_imp, forall_and] using ⟨hf, hf'⟩
      · rw [hc.holds_op, hc.holds_op]
        simp [or_and_right, exists_or]

/-- Different reduced operands of one node. -/
theorem makeNAry_spec (hc : Connective op co stopValue ignoreValue s) (hxs : ∀ x ∈ xs, Reduced x)
    (hflat : ∀ x ∈ xs, operands? co x = none) (hnodup : xs.Nodup) (hne : xs ≠ []) :
    ∃ r, makeNAry co xs .bool = .ok r ∧ Reduced r ∧
      (xs = [r] ∨ r = .expression (.operator co) xs .bool ∧ ∃ a ∈ xs, ∃ b ∈ xs, a ≠ b) ∧
      ∀ {V : Type} (I : Interp V), r.holds I = s ↔ ∀ x ∈ xs, x.holds I = s := by
  cases xs with
  | nil => exact absurd rfl hne
  | cons a xs =>
    cases xs with
    | nil => exact ⟨a, rfl, hxs a mem_cons_self, .inl rfl, by simp⟩
    | cons b xs =>
      have hab : a ≠ b := by
        rintro rfl
        simp at hnodup
      have hd : ∃ c ∈ a :: b :: xs, ∃ d ∈ a :: b :: xs, c ≠ d :=
        ⟨a, by simp, b, by simp, hab⟩
      exact ⟨_, rfl, .nary hc.co_nary hxs hflat hd, .inr ⟨rfl, hd⟩, fun I => hc.holds_co I _⟩

theorem mem_listExcept {z : Term} : z ∈ listExcept x list ↔ z ∈ list ∧ z ≠ x := by
  simp [listExcept, mem_hashSet]

/-- Joining a literal with what is left of the opposite node after its opposite is dropped. -/
theorem makeCoOpBinaryTerm_spec (hc : Connective op co stopValue ignoreValue s) {y w : Term}
    (hy : Reduced y) (hlit : operands? co y = none)
    (hlist : Reduced (.expression (.operator co) list .bool)) (hmem : y ∉ list) :
    ∃ r, makeCoOpBinaryTerm y (listExcept w list) co op = .ok r ∧ Reduced r ∧
      ∀ {V : Type} (I : Interp V),
        r.holds I = s ↔ y.holds I = s ∨ ∀ z ∈ list, z ≠ w → z.holds I = s := by
  obtain ⟨-, hr, hf, a, ha, b, hb, hab⟩ := hlist.of_operands hc.co_nary operands_self
  have hnodup : (listExcept w list).Nodup := (nodup_hashSet list).filter _
  have hne : listExcept w list ≠ [] := by
    intro h
    by_cases haw : a = w
    · exact not_mem_nil (h ▸ mem_listExcept.mpr ⟨hb, fun e => hab (haw.trans e.symm)⟩)
    · exact not_mem_nil (h ▸ mem_listExcept.mpr ⟨ha, haw⟩)
  obtain ⟨r, hr₁, hr₂, hform, hsem⟩ := makeNAry_spec hc
    (fun z hz => hr z (mem_listExcept.mp hz).1) (fun z hz => hf z (mem_listExcept.mp hz).1)
    hnodup hne
  have hsem' {V : Type} (I : Interp V) : r.holds I = s ↔ ∀ z ∈ list, z ≠ w → z.holds I = s := by
    rw [hsem]
    simp only [mem_listExcept, and_imp]
  have hyr : y ≠ r := by
    rintro rfl
    rcases hform with h | ⟨rfl, -⟩
    · exact hmem (mem_listExcept.mp (h ▸ mem_singleton_self y)).1
    · simp [operands?] at hlit
  rcases hform with h | ⟨h, c, hcm, d, hdm, hcd⟩
  · obtain ⟨r', h₁, h₂, h₃⟩ := makeBin_spec hc hy hr₂ hyr
    refine ⟨r', by rw [h, makeCoOpBinaryTerm]; exact h₁, h₂, fun I => ?_⟩
    rw [h₃, hsem']
  · obtain ⟨r', h₁, h₂, h₃⟩ := makeBin_spec hc hr₂ hy hyr.symm
    refine ⟨r', ?_, h₂, fun I => ?_⟩
    · rw [h] at h₁
      unfold makeCoOpBinaryTerm
      split
      · contradiction
      · next heq =>
          rw [heq, mem_singleton] at hcm hdm
          exact absurd (hcm.trans hdm.symm) hcd
      · exact h₁
    · rw [h₃, hsem', or_comm]

end

/-! ### Simplification -/

section
variable {op co : OperationType} {stopValue ignoreValue : Term} {s : Bool}
variable {x y a r : Term} {list args ys zs : List Term}

theorem simplifyExpression_literal (hop : operands? op x = none) (hco : operands? co x = none) :
    simplifyExpression op co stopValue ignoreValue x y = .ok none := by
  unfold simplifyExpression
  split
  · next op' list t =>
      have h₁ : op ≠ op' := fun h => by simp [operands?, h] at hop
      have h₂ : co ≠ op' := fun h => by simp [operands?, h] at hco
      rw [if_neg h₁, if_neg h₂]
  · rfl

theorem simplifyExpression_op (h : ∃ a ∈ list, ∃ b ∈ list, a ≠ b) :
    simplifyExpression op co stopValue ignoreValue (.expression (.operator op) list .bool) y =
      .ok none := by
  rw [simplifyExpression, if_pos rfl]
  unfold simplifyOpOp
  split
  · obtain ⟨a, ha, b, hb, hne⟩ := h
    rw [mem_singleton] at ha hb
    exact absurd (ha.trans hb.symm) hne
  · rfl

theorem simplifyExpression_co (hne : op ≠ co) (list : List Term) (y : Term) :
    simplifyExpression op co stopValue ignoreValue (.expression (.operator co) list .bool) y =
      simplifyCoOp op co stopValue ignoreValue (.expression (.operator co) list .bool) list y := by
  rw [simplifyExpression, if_neg hne, if_pos rfl]

theorem simplifyExpression_other (hx : ∀ o xs t, x = .expression o xs t → False) :
    simplifyExpression op co stopValue ignoreValue x y = .ok none := by
  unfold simplifyExpression
  split
  · exact (hx _ _ _ rfl).elim
  · rfl

/-- On different reduced formulas that are not opposite, only the rules for expressions are left. -/
theorem simplifyExt_eq (hc : Connective op co stopValue ignoreValue s) (hx : Reduced x)
    (hy : Reduced y) (hne : x ≠ y) (hopp : ¬ Opposite x y) :
    simplifyExt op co stopValue ignoreValue x y =
      match simplifyExpression op co stopValue ignoreValue x y with
      | .ok none => simplifyExpression op co stopValue ignoreValue y x
      | res => res := by
  have hstop := hc.stop_eq
  have hignore := hc.ignore_eq
  unfold simplifyExt
  rw [if_neg (hignore ▸ hy.ne_makeBool _), if_neg (hignore ▸ hx.ne_makeBool _),
    if_neg (hstop ▸ hy.ne_makeBool _), if_neg (hstop ▸ hx.ne_makeBool _), if_neg hne,
    if_neg fun h => hopp (.inl h), if_neg fun h => hopp (.inr h)]
  split
  · rfl
  · next hexp =>
      rw [simplifyExpression_other hexp]
      split <;> simp_all
  · next hexp => rw [simplifyExpression_other hexp]
  · next hx' hy' _ => rw [simplifyExpression_other hx', simplifyExpression_other hy']

/-- A literal and a node, or another formula, that have nothing to do with each other. -/
theorem simplifyExt_literal (hc : Connective op co stopValue ignoreValue s) (zs : List Term)
    (ha : Reduced a) (hr : Reduced r) (hop : operands? op a = none) (hco : operands? co a = none)
    (hne : a ≠ r) (hopp : ¬ Opposite a r) (hform : operands? co r = none ∨
      r = .expression (.operator co) zs .bool ∧ a ∉ zs ∧ ∀ z ∈ zs, ¬ Opposite a z) :
    simplifyExt op co stopValue ignoreValue a r = .ok none := by
  rw [simplifyExt_eq hc ha hr hne hopp, simplifyExpression_literal hop hco]
  dsimp only
  rcases hform with hform | ⟨rfl, hmem, hzs⟩
  · cases hr' : operands? op r with
    | none => exact simplifyExpression_literal hr' hform
    | some list =>
      obtain ⟨rfl, -, -, hd⟩ := hr.of_operands hc.op_nary hr'
      exact simplifyExpression_op hd
  · rw [simplifyExpression_co hc.op_ne_co]
    obtain ⟨-, -, -, b, hb, c, hcm, hbc⟩ := hr.of_operands hc.co_nary operands_self
    unfold simplifyCoOp
    split
    · rw [mem_singleton] at hb hcm
      exact absurd (hb.trans hcm.symm) hbc
    · have h₁ : (negation? a).filter (· ∈ zs) = none := by
        rw [Option.filter_eq_none_iff]
        intro z hz
        simpa using fun hm => hzs z hm (.inl hz)
      have h₂ : negate a ∉ zs := fun hm => hzs _ hm (.inr rfl)
      rw [if_neg hmem, h₁]
      dsimp only
      rw [if_neg h₂]
      split
      · rfl
      · next h => rw [hco] at h; cases h

/-- A simplification step that is right: it gives a reduced formula with the truth value of
`x op y`, or gives up. -/
def Sound (s : Bool) (x y : Term) (o : Option Term) : Prop :=
  ∀ r, o = some r → Reduced r ∧ Joins s x y r

theorem Sound.none : Sound s x y none := fun _ h => by cases h

theorem Sound.some (hr : Reduced r)
    (h : Joins s x y r) :
    Sound s x y (some r) := fun _ he => by
  cases he
  exact ⟨hr, h⟩

section
variable (hc : Connective op co stopValue ignoreValue s)
  (hlist : Reduced (.expression (.operator co) list .bool))
  (hargs : Reduced (.expression (.operator co) args .bool)) (hone : OneNegation list args a ys zs)

include hc hlist hargs hone

/-- Co(list) op Co(args), where the lists differ by one literal: the facts of resolution. -/
theorem resolution :
    Reduced a ∧ operands? op a = none ∧ operands? co a = none ∧ ys ≠ [] ∧
    (∀ z ∈ ys ++ zs, Reduced z ∧ operands? co z = none) ∧ a ∉ zs ∧ (∀ z ∈ zs, ¬ Opposite a z) ∧
    ∀ {V : Type} (I : Interp V),
      ((expression (.operator co) list .bool).holds I = s ↔
        a.holds I = s ∧ ∀ z ∈ ys, z.holds I = s) ∧
      ((expression (.operator co) args .bool).holds I = s ↔
        ¬ a.holds I = s ∧ ∀ z ∈ ys ++ zs, z.holds I = s) := by
  obtain ⟨-, hr, hf, c, hcm, d, hdm, hcd⟩ :=
    hlist.of_operands hc.co_nary operands_self
  obtain ⟨-, hr', hf', -⟩ := hargs.of_operands hc.co_nary operands_self
  obtain ⟨b, hb, hopp, hsub⟩ := hone.exists_opposite
  have ha := hr a hone.mem
  have hsub' : ∀ z ∈ ys ++ zs, z ∈ args := fun z hz => hsub.subset (mem_cons_of_mem _ hz)
  refine ⟨ha, operands_of_opposite hc.op_nary ha (hr' b hb) hopp,
    operands_of_opposite hc.co_nary ha (hr' b hb) hopp, fun hys => ?_,
    fun z hz => ⟨hr' z (hsub' z hz), hf' z (hsub' z hz)⟩,
    fun hm => hone.not_mem (hsub' a (mem_append_right _ hm)), fun z hz h => ?_, fun I => ?_⟩
  · have hall : ∀ z ∈ list, z = a := fun z hz => by simpa [hys] using (hone.mem_left z).mp hz
    exact hcd ((hall c hcm).trans (hall d hdm).symm)
  · obtain ⟨h₁, h₂⟩ := hone.not_opposite z hz
    rcases h with h | h
    · exact h₁ h
    · have hatom := ((hr' z (hsub' z (mem_append_right _ hz))).of_negation h).2
      rw [isAtom_negation hatom] at h₂
      cases h₂ h
  · rw [hc.holds_co, hc.holds_co]
    refine ⟨⟨fun h => ⟨h a hone.mem, fun z hz => h z ((hone.mem_left z).mpr (.inr hz))⟩, ?_⟩,
      ⟨fun h => ⟨?_, fun z hz => h z (hsub' z hz)⟩, ?_⟩⟩
    · rintro ⟨h₁, h₂⟩ z hz
      rcases (hone.mem_left z).mp hz with rfl | hz
      · exact h₁
      · exact h₂ z hz
    · exact (Connective.holds_opposite I ha (hr' b hb) hopp).mp (h b hb)
    · rintro ⟨h₁, h₂⟩ z hz
      rcases hone.mem_right z hz with hz' | hz' | hz'
      · exact h₂ z (mem_append_left _ hz')
      · exact h₂ z (mem_append_right _ hz')
      · exact (Connective.holds_opposite I ha (hr' z hz) hz').mpr h₁

/-- The literal never simplifies with the rest of the second node. -/
theorem resolution_ext (hzs : zs ≠ []) :
    ∃ coZs, makeNAry co zs .bool = .ok coZs ∧
      simplifyExt op co stopValue ignoreValue a coZs = .ok none := by
  obtain ⟨ha, hop, hco, -, hyzs, hazs, hopp, -⟩ := resolution hc hlist hargs hone
  have hmem : ∀ z ∈ zs, z ∈ ys ++ zs := fun z hz => mem_append_right _ hz
  obtain ⟨coZs, hcoZs, hred, hform, -⟩ := makeNAry_spec hc (fun z hz => (hyzs z (hmem z hz)).1)
    (fun z hz => (hyzs z (hmem z hz)).2) (nodup_append'.mp hone.nodup).2.1 hzs
  refine ⟨coZs, hcoZs, ?_⟩
  rcases hform with hsingle | ⟨hnode, -⟩
  · have hin : coZs ∈ zs := hsingle ▸ mem_singleton_self coZs
    exact simplifyExt_literal hc [] ha hred hop hco (fun h => hazs (h ▸ hin))
      (hopp coZs hin) (.inl (hyzs coZs (hmem coZs hin)).2)
  · have hsome : operands? co coZs = some zs := by simp [hnode, operands?]
    refine simplifyExt_literal hc zs ha hred hop hco (fun h => ?_) (fun h => ?_)
      (.inr ⟨hnode, hazs, hopp⟩)
    · rw [h, hsome] at hco
      cases hco
    · rw [operands_of_opposite hc.co_nary hred ha h.symm] at hsome
      cases hsome

end

theorem resolve_iff {A Y Z : Prop} (h : Z → Y) : Z ∨ A ∧ Y ↔ A ∧ Y ∨ ¬ A ∧ Z := by
  by_cases hA : A
  · simp only [hA, true_and, not_true, false_and, or_false]
    exact ⟨fun h' => h'.elim h id, .inr⟩
  · simp [hA]

/-- The second node without the opposite literal. -/
theorem resolution_rest (hc : Connective op co stopValue ignoreValue s)
    (hlist : Reduced (.expression (.operator co) list .bool))
    (hargs : Reduced (.expression (.operator co) args .bool))
    (hone : OneNegation list args a ys zs) (hzs : zs ≠ []) :
    ∃ y', makeNAry co (ys ++ zs) .bool = .ok y' ∧ Reduced y' ∧
      y' = .expression (.operator co) (ys ++ zs) .bool ∧
      size y' < size (.expression (.operator co) args .bool) ∧
      ∀ {V : Type} (I : Interp V),
        (expression (.operator co) list .bool).holds I = s ∨ y'.holds I = s ↔
        (expression (.operator co) list .bool).holds I = s ∨
          (expression (.operator co) args .bool).holds I = s := by
  obtain ⟨-, -, -, hys, hyzs, -, -, hsem⟩ := resolution hc hlist hargs hone
  obtain ⟨y', hy', hred', hform', hsem'⟩ := makeNAry_spec hc (fun z hz => (hyzs z hz).1)
    (fun z hz => (hyzs z hz).2) hone.nodup (by simp [hys])
  have hnode' : y' = .expression (.operator co) (ys ++ zs) .bool := by
    rcases hform' with hsingle | ⟨hnode', -⟩
    · have hlen := congrArg List.length hsingle
      have h₁ := length_pos_of_ne_nil hys
      have h₂ := length_pos_of_ne_nil hzs
      simp only [length_append, length_singleton] at hlen
      omega
    · exact hnode'
  refine ⟨y', hy', hred', hnode', ?_, fun I => ?_⟩
  · have := hone.sizeList_lt
    rw [hnode', size, size]
    omega
  · obtain ⟨hx, hy⟩ := hsem I
    rw [hsem', hx, hy, or_comm]
    exact resolve_iff fun h z hz => h z (mem_append_left _ hz)

theorem absorb_opposite {P : Term → Prop} {w : Term} (hw : P w ↔ ¬ P y) :
    (P y ∨ ∀ z ∈ list, z ≠ w → P z) ↔ (∀ z ∈ list, P z) ∨ P y := by
  constructor
  · rintro (h | h)
    · exact .inr h
    · by_cases hy : P y
      · exact .inr hy
      · refine .inl fun z hz => ?_
        by_cases hzw : z = w
        · exact hzw ▸ hw.mpr hy
        · exact h z hz hzw
  · rintro (h | h)
    · exact .inr fun z hz _ => h z hz
    · exact .inl h

/-- The rules for a node of the opposite operator. -/
theorem simplifyCoOp_spec (hc : Connective op co stopValue ignoreValue s)
    (hlist : Reduced (.expression (.operator co) list .bool)) (hy : Reduced y) :
    ∃ o, simplifyCoOp op co stopValue ignoreValue (.expression (.operator co) list .bool) list y =
        .ok o ∧ Sound s (.expression (.operator co) list .bool) y o ∧
      (o = none → .expression (.operator co) list .bool ≠ y) := by
  obtain ⟨-, hr, hf, c, hcm, d, hdm, hcd⟩ :=
    hlist.of_operands hc.co_nary operands_self
  -- Resolution may go on with a smaller right operand.
  induction hn : size y using Nat.strong_induction_on generalizing y with
  | h n ih =>
  subst hn
  unfold simplifyCoOp
  split
  · rw [mem_singleton] at hcm hdm
    exact absurd (hcm.trans hdm.symm) hcd
  split
  · next hmem =>
      refine ⟨_, rfl, .some hy fun I => ?_, by simp⟩
      rw [hc.holds_co]
      exact ⟨.inr, fun h => h.elim (fun h => h y hmem) id⟩
  next hmem =>
  split
  · next y' hy' =>
      obtain ⟨hneg, hmem'⟩ := Option.filter_eq_some_iff.mp hy'
      have hmem' : y' ∈ list := by simpa using hmem'
      have hopp : Opposite y y' := .inl hneg
      obtain ⟨r, h₁, h₂, h₃⟩ := makeCoOpBinaryTerm_spec (w := y') hc hy
        (operands_of_opposite hc.co_nary hy (hr y' hmem') hopp) hlist hmem
      refine ⟨some r, by rw [h₁]; rfl, .some h₂ fun I => ?_, by simp⟩
      rw [h₃, hc.holds_co]
      exact absorb_opposite (P := fun z => z.holds I = s)
        (Connective.holds_opposite I hy (hr y' hmem') hopp)
  next hneg =>
  split
  · next hmem' =>
      have hopp : Opposite y (negate y) := .inr rfl
      obtain ⟨r, h₁, h₂, h₃⟩ := makeCoOpBinaryTerm_spec (w := negate y) hc hy
        (operands_of_opposite hc.co_nary hy (hr _ hmem') hopp) hlist hmem
      refine ⟨some r, by rw [h₁]; rfl, .some h₂ fun I => ?_, by simp⟩
      rw [h₃, hc.holds_co]
      exact absorb_opposite (P := fun z => z.holds I = s)
        (Connective.holds_opposite I hy (hr _ hmem') hopp)
  next hneg' =>
  split
  · next hargs =>
      refine ⟨none, rfl, .none, fun _ => ?_⟩
      rintro rfl
      simp [operands?] at hargs
  next args hargs =>
  obtain ⟨rfl, hr', hf', -⟩ := hy.of_operands hc.co_nary hargs
  split
  · next a ys zs hone =>
      have hone := intersectionExceptOneNegation_spec hone
      obtain ⟨ha, hop, hco, hys, hyzs, hazs, hopp, hsem⟩ := resolution hc hlist hy hone
      have hl : ∀ z ∈ ys, z ∈ ys ++ zs := fun z hz => mem_append_left _ hz
      split
      · next hempty =>
          obtain rfl := List.isEmpty_iff.mp hempty
          obtain ⟨r, h₁, h₂, -, h₃⟩ := makeNAry_spec hc (fun z hz => (hyzs z (hl z hz)).1)
            (fun z hz => (hyzs z (hl z hz)).2) (nodup_append'.mp hone.nodup).1 hys
          refine ⟨some r, by rw [h₁]; rfl, .some h₂ fun I => ?_, by simp⟩
          obtain ⟨hx, hy⟩ := hsem I
          rw [h₃, hx, hy, append_nil]
          by_cases hA : a.holds I = s <;> simp [hA]
      next hempty =>
      have hzs : zs ≠ [] := fun h => hempty (List.isEmpty_iff.mpr h)
      obtain ⟨coZs, hcoZs, hext⟩ := resolution_ext hc hlist hy hone hzs
      obtain ⟨y', hy', hred', hnode', hsize, hxy'⟩ := resolution_rest hc hlist hy hone hzs
      obtain ⟨o, ho, hsound, hnone⟩ := ih _ hsize hred' rfl
      rw [hcoZs]
      dsimp only
      rw [hext]
      dsimp only
      rw [hy']
      dsimp only
      rw [ho]
      cases o with
      | some r =>
        refine ⟨some r, rfl, .some (hsound r rfl).1 fun I => ?_, by simp⟩
        rw [(hsound r rfl).2, hxy']
      | none =>
        have hopnone (xs : List Term) :
            operands? op (.expression (.operator co) xs .bool) = none := by
          simp [operands?, hc.op_ne_co.symm]
        refine ⟨some _, rfl, ?_, by simp⟩
        refine .some (.nary hc.op_nary ?_ ?_ ?_) fun I => ?_
        · simpa using ⟨hlist, hred'⟩
        · simpa [hnode'] using ⟨hopnone list, hopnone (ys ++ zs)⟩
        · exact ⟨_, mem_cons_self, y', by simp, hnone rfl⟩
        · rw [hc.holds_op, ← hxy']
          simp
  · next hone =>
      split
      · next hperm =>
          simp only [isPermutationOf, Bool.and_eq_true, all_eq_true, decide_eq_true_eq] at hperm
          refine ⟨_, rfl, .some hlist fun I => ?_, by simp⟩
          rw [hc.holds_co, hc.holds_co]
          exact ⟨.inl, fun h => h.elim id fun h z hz => h z (hperm.1.2 z hz)⟩
      · next hperm =>
          refine ⟨none, rfl, .none, fun _ heq => hperm ?_⟩
          cases heq
          simp [isPermutationOf]

theorem simplifyExpression_spec (hc : Connective op co stopValue ignoreValue s) (hx : Reduced x)
    (hy : Reduced y) :
    ∃ o, simplifyExpression op co stopValue ignoreValue x y = .ok o ∧ Sound s x y o := by
  cases hop : operands? op x with
  | some list =>
    obtain ⟨rfl, -, -, hd⟩ := hx.of_operands hc.op_nary hop
    exact ⟨none, simplifyExpression_op hd, .none⟩
  | none =>
    cases hco : operands? co x with
    | none => exact ⟨none, simplifyExpression_literal hop hco, .none⟩
    | some list =>
      obtain ⟨rfl, -⟩ := hx.of_operands hc.co_nary hco
      obtain ⟨o, ho, hs, -⟩ := simplifyCoOp_spec hc hx hy
      exact ⟨o, by rw [simplifyExpression_co hc.op_ne_co, ho], hs⟩

/-- A truth value or a reduced formula: a condition that is no union. -/
def Simple (x : Term) : Prop := (∃ b, x = makeBool b) ∨ Reduced x

theorem Simple.makeBool (b : Bool) : Simple (makeBool b) := .inl ⟨b, rfl⟩

theorem Reduced.simple (h : Reduced x) : Simple x := .inr h

section
variable (hc : Connective op co stopValue ignoreValue s) (hx : Simple x) (hy : Simple y)

include hc hx hy

/-- The rules that look at whole operands: truth values, equal and opposite operands. -/
theorem simplifyExt_shortcut
    (h : (∃ b, x = makeBool b) ∨ (∃ b, y = makeBool b) ∨ x = y ∨ Opposite x y) :
    ∃ r, simplifyExt op co stopValue ignoreValue x y = .ok (some r) ∧ Simple r ∧ Joins s x y r := by
  obtain rfl := hc.stop_eq
  obtain rfl := hc.ignore_eq
  unfold simplifyExt
  by_cases h₁ : y = makeBool !s
  · rw [if_pos h₁]
    exact ⟨x, rfl, hx, fun I => by simp [h₁]⟩
  rw [if_neg h₁]
  by_cases h₂ : x = makeBool !s
  · rw [if_pos h₂]
    exact ⟨y, rfl, hy, fun I => by simp [h₂]⟩
  rw [if_neg h₂]
  by_cases h₃ : y = makeBool s
  · rw [if_pos h₃]
    exact ⟨_, rfl, .makeBool s, fun I => by simp [h₃]⟩
  rw [if_neg h₃]
  by_cases h₄ : x = makeBool s
  · rw [if_pos h₄]
    exact ⟨_, rfl, .makeBool s, fun I => by simp [h₄]⟩
  rw [if_neg h₄]
  have hx' : Reduced x := hx.resolve_left fun ⟨b, hb⟩ => by cases b <;> cases s <;> simp_all
  have hy' : Reduced y := hy.resolve_left fun ⟨b, hb⟩ => by cases b <;> cases s <;> simp_all
  by_cases h₅ : x = y
  · rw [if_pos h₅]
    exact ⟨x, rfl, hx, fun I => by simp [h₅]⟩
  rw [if_neg h₅]
  have hopp : Opposite x y := by
    rcases h with ⟨b, hb⟩ | ⟨b, hb⟩ | h | h
    · exact (hx'.ne_makeBool b hb).elim
    · exact (hy'.ne_makeBool b hb).elim
    · exact absurd h h₅
    · exact h
  refine ⟨makeBool s, ?_, .makeBool s, fun I => ?_⟩
  · rcases hopp with h | h
    · rw [if_pos h]
    · split
      · rfl
      · rfl
  · have := Connective.holds_opposite (s := s) I hx' hy' hopp
    simp only [holds_makeBool, this, true_iff]
    exact Decidable.em _

/-- Simple conditions, joined. -/
theorem simplifyExt_spec :
    ∃ r, (match simplifyExt op co stopValue ignoreValue x y with
        | .error e => .error e
        | .ok (some r) => .ok r
        | .ok none => makeBin op x y) = Except.ok r ∧ Simple r ∧ Joins s x y r := by
  by_cases hshort : (∃ b, x = makeBool b) ∨ (∃ b, y = makeBool b) ∨ x = y ∨ Opposite x y
  · obtain ⟨r, hr, hs, hsem⟩ := simplifyExt_shortcut hc hx hy hshort
    exact ⟨r, by rw [hr], hs, hsem⟩
  simp only [not_or] at hshort
  obtain ⟨hxb, hyb, hne, hopp⟩ := hshort
  have hx' := hx.resolve_left hxb
  have hy' := hy.resolve_left hyb
  obtain ⟨o, ho, hs⟩ := simplifyExpression_spec hc hx' hy'
  obtain ⟨o', ho', hs'⟩ := simplifyExpression_spec hc hy' hx'
  rw [simplifyExt_eq hc hx' hy' hne hopp, ho]
  cases o with
  | some r => exact ⟨r, rfl, (hs r rfl).1.simple, (hs r rfl).2⟩
  | none =>
    dsimp only
    rw [ho']
    cases o' with
    | some r => exact ⟨r, rfl, (hs' r rfl).1.simple, fun I => by rw [(hs' r rfl).2, or_comm]⟩
    | none =>
      obtain ⟨r, h₁, h₂, h₃⟩ := makeBin_spec hc hx' hy' hne
      exact ⟨r, h₁, h₂.simple, h₃⟩

end

end

/-! ### Unions -/

section
variable {V : Type} (I : Interp V) {gvs : List (Term × Term)} {s v : Bool} {e' : Term}

@[simp] theorem eval_ite_nil (e : Term) : (ite [] e).eval I = e.eval I := rfl

@[simp] theorem eval_ite_cons (g v : Term) (bs : List (Term × Term)) (e : Term) :
    (ite ((g, v) :: bs) e).eval I = if g.holds I then v.eval I else (ite bs e).eval I := by
  simp only [eval, evalBranches, Interp.select, find?_cons, holds]
  by_cases h : I.truth (g.eval I) = true <;> simp [h]

theorem eval_ite_of_guards_false (e : Term) (h : ∀ b ∈ bs, b.1.holds I = false) :
    (ite bs e).eval I = e.eval I := by
  induction bs with
  | nil => rfl
  | cons b bs ih =>
    rw [eval_ite_cons, h b mem_cons_self, ih fun b' hb' => h b' (mem_cons_of_mem _ hb')]
    rfl

theorem eval_ite_congr_else (bs : List (Term × Term)) (h : e.eval I = e'.eval I) :
    (ite bs e).eval I = (ite bs e').eval I := by
  induction bs with
  | nil => exact h
  | cons b bs ih => rw [eval_ite_cons, eval_ite_cons, ih]

theorem eval_ite_append (bs bs' : List (Term × Term)) (e : Term) :
    (ite (bs ++ bs') e).eval I = (ite bs (ite bs' e)).eval I := by
  induction bs with
  | nil => rfl
  | cons b bs ih => rw [cons_append, eval_ite_cons, eval_ite_cons, ih]

@[simp] theorem holds_ite_nil (e : Term) : (ite [] e).holds I = e.holds I := rfl

@[simp] theorem holds_ite_cons (g v : Term) (bs : List (Term × Term)) (e : Term) :
    (ite ((g, v) :: bs) e).holds I = if g.holds I then v.holds I else (ite bs e).holds I := by
  simp only [holds, eval_ite_cons]
  by_cases h : I.truth (g.eval I) = true <;> simp [h]

/-- The truth value of the first guarded value whose guard is true. -/
def firstTrue (gvs : List (Term × Term)) : Option Bool :=
  (gvs.find? fun gv => gv.1.holds I).map fun gv => gv.2.holds I

theorem firstTrue_cons (g v : Term) (gvs : List (Term × Term)) :
    firstTrue I ((g, v) :: gvs) = if g.holds I then some (v.holds I) else firstTrue I gvs := by
  simp only [firstTrue, find?_cons]
  cases g.holds I <;> rfl

theorem firstTrue_append (gvs gvs' : List (Term × Term)) :
    firstTrue I (gvs ++ gvs') = (firstTrue I gvs).or (firstTrue I gvs') := by
  induction gvs with
  | nil => simp [firstTrue]
  | cons gv gvs ih =>
    rw [cons_append, firstTrue_cons, firstTrue_cons, ih]
    split <;> simp

theorem firstTrue_iteAsGvs (bs : List (Term × Term)) (e : Term) :
    firstTrue I (iteAsGvs bs e) = some ((ite bs e).holds I) := by
  induction bs with
  | nil => simp [iteAsGvs, firstTrue_cons]
  | cons b bs ih =>
    rw [iteAsGvs, cons_append, firstTrue_cons, holds_ite_cons, ← iteAsGvs, ih]
    split <;> rfl

/-- Reading guarded values back as a union. -/
theorem fromGvs_spec (h : 2 ≤ gvs.length) :
    ∃ bs e, fromGvs gvs = .ok (bs, e) ∧ bs ≠ [] ∧ (∃ g, gvs = bs ++ [(g, e)]) ∧
      ∀ {V : Type} (I : Interp V) {v}, firstTrue I gvs = some v → (ite bs e).holds I = v := by
  obtain ⟨bs, ⟨g, e⟩, rfl⟩ : ∃ bs gv, gvs = bs ++ [gv] := by
    rcases eq_nil_or_concat gvs with rfl | ⟨bs, gv, rfl⟩
    · simp at h
    · exact ⟨bs, gv, by simp⟩
  have hlen : 1 ≤ bs.length := by simpa using h
  refine ⟨bs, e, ?_, ne_nil_of_length_pos hlen, ⟨g, rfl⟩, fun I v hv => ?_⟩
  · rw [fromGvs, if_neg (Nat.not_lt.mpr h), getLast?_concat, dropLast_concat]
  · clear h hlen
    induction bs with
    | nil =>
      rw [nil_append, firstTrue_cons] at hv
      split at hv <;> simp_all [firstTrue]
    | cons b bs ih =>
      rw [cons_append, firstTrue_cons] at hv
      rw [holds_ite_cons]
      split
      · simp_all
      · exact ih (by simp_all)

/-- A union whose values are changed one by one. -/
theorem holds_ite_congr {Q : Bool → Bool → Prop} {bs' : List (Term × Term)}
    (h : List.Forall₂ (fun b b' => b'.1 = b.1 ∧ Q (b.2.holds I) (b'.2.holds I)) bs bs')
    (he : Q (e.holds I) (e'.holds I)) : Q ((ite bs e).holds I) ((ite bs' e').holds I) := by
  induction h with
  | nil => exact he
  | @cons b b' bs bs' hb _ ih =>
    obtain ⟨hg, hv⟩ := hb
    rw [holds_ite_cons, holds_ite_cons, hg]
    split
    · exact hv
    · exact ih

/-- One row of a product of unions. -/
theorem firstTrue_row {gv : Term × Term} {row : List (Term × Term)}
    (h : List.Forall₂ (fun gv' r => r.1.holds I = (gv.1.holds I && gv'.1.holds I) ∧
      (r.2.holds I = s ↔ gv.2.holds I = s ∨ gv'.2.holds I = s)) gvs row)
    (hv : firstTrue I gvs = some v) :
    (gv.1.holds I = false → firstTrue I row = none) ∧
    (gv.1.holds I = true → ∃ w, firstTrue I row = some w ∧ (w = s ↔ gv.2.holds I = s ∨ v = s)) := by
  constructor
  · intro hg
    clear hv
    induction h with
    | nil => rfl
    | @cons _ r _ _ hr _ ih =>
      rw [firstTrue_cons, hr.1, hg]
      simpa using ih
  · intro hg
    induction h with
    | nil => cases hv
    | @cons gv' r _ _ hr _ ih =>
      rw [firstTrue_cons] at hv ⊢
      rw [hr.1, hg, Bool.true_and]
      split
      · next hg' =>
          rw [if_pos hg'] at hv
          cases hv
          exact ⟨_, rfl, hr.2⟩
      · next hg' =>
          rw [if_neg hg'] at hv
          exact ih hv

/-- The product of two unions takes the first true guard of either side. -/
theorem firstTrue_product {gvs' : List (Term × Term)} {rows : List (List (Term × Term))} {v' : Bool}
    (h : List.Forall₂ (fun gv row => List.Forall₂ (fun gv' r =>
      r.1.holds I = (gv.1.holds I && gv'.1.holds I) ∧
      (r.2.holds I = s ↔ gv.2.holds I = s ∨ gv'.2.holds I = s)) gvs' row) gvs rows)
    (hv : firstTrue I gvs = some v) (hv' : firstTrue I gvs' = some v') :
    ∃ w, firstTrue I rows.flatten = some w ∧ (w = s ↔ v = s ∨ v' = s) := by
  induction h with
  | nil => cases hv
  | @cons gv row _ _ hrow _ ih =>
    obtain ⟨hfalse, htrue⟩ := firstTrue_row I hrow hv'
    rw [firstTrue_cons] at hv
    rw [List.flatten_cons, firstTrue_append]
    cases hg : gv.1.holds I with
    | true =>
      obtain ⟨w, hw, hiff⟩ := htrue hg
      rw [hg, if_pos rfl] at hv
      cases hv
      exact ⟨w, by rw [hw]; rfl, hiff⟩
    | false =>
      rw [hg, if_neg (by simp)] at hv
      rw [hfalse hg, Option.none_or]
      exact ih hv

end

/-- The conditions: truth values, reduced formulas, and unions of conditions. -/
inductive Condition : Term → Prop where
  | simple {x : Term} (h : Simple x) : Condition x
  | ite {bs : List (Term × Term)} {e : Term} (hne : bs ≠ []) (guards : ∀ b ∈ bs, Condition b.1)
      (values : ∀ b ∈ bs, Condition b.2) (elseValue : Condition e) : Condition (.ite bs e)

theorem Condition.makeBool (b : Bool) : Condition (makeBool b) := .simple (.makeBool b)

theorem Reduced.condition (h : Reduced x) : Condition x := .simple h.simple

theorem Condition.not_nop (h : Condition .nop) : False := by
  cases h with
  | simple h =>
    rcases h with ⟨b, h⟩ | h
    · cases h
    · exact h.not_nop

theorem Condition.of_ite (h : Condition (.ite bs e)) :
    bs ≠ [] ∧ (∀ b ∈ bs, Condition b.1) ∧ (∀ b ∈ bs, Condition b.2) ∧ Condition e := by
  cases h with
  | simple h =>
    rcases h with ⟨b, h⟩ | h
    · cases h
    · exact h.not_ite.elim
  | ite hne hg hv he => exact ⟨hne, hg, hv, he⟩

theorem Condition.simple_of_not_ite (h : Condition x) (hx : ∀ bs e, x = .ite bs e → False) :
    Simple x := by
  cases h with
  | simple h => exact h
  | ite => exact (hx _ _ rfl).elim

/-- A condition with operands is reduced. -/
theorem Condition.reduced_of_operands (h : Condition x) (hx : operands? op x = some xs) :
    Reduced x := by
  cases h with
  | simple h =>
    rcases h with ⟨b, rfl⟩ | h
    · cases hx
    · exact h
  | ite => cases hx

theorem Condition.mem_gvs (h : Condition (.ite bs e)) {gv : Term × Term}
    (hgv : gv ∈ iteAsGvs bs e) : Condition gv.1 ∧ Condition gv.2 := by
  obtain ⟨-, hg, hv, he⟩ := h.of_ite
  rcases mem_append.mp hgv with hm | hm
  · exact ⟨hg gv hm, hv gv hm⟩
  · rw [mem_singleton.mp hm]
    exact ⟨.makeBool true, he⟩

theorem mkIte_ok (h : bs ≠ []) (e : Term) :
    mkIte bs e = .ok (.ite bs e) := by
  cases bs with
  | nil => exact absurd rfl h
  | cons b bs => rfl

/-- A union of conditions whose values are simplified one by one. -/
theorem mkIte_spec {bs' : List (Term × Term)} {e' : Term} (h : Condition (.ite bs e))
    {Q : ∀ {V : Type}, Interp V → Bool → Bool → Prop}
    (hbs : List.Forall₂ (fun b b' => b'.1 = b.1 ∧ Condition b'.2 ∧
      ∀ {V : Type} (I : Interp V), Q I (b.2.holds I) (b'.2.holds I)) bs bs') (he : Condition e')
    (hQ : ∀ {V : Type} (I : Interp V), Q I (e.holds I) (e'.holds I)) :
    mkIte bs' e' = .ok (.ite bs' e') ∧ Condition (.ite bs' e') ∧
      ∀ {V : Type} (I : Interp V), Q I ((ite bs e).holds I) ((ite bs' e').holds I) := by
  obtain ⟨hne, hg, -, -⟩ := h.of_ite
  have hne' : bs' ≠ [] := fun hnil => hne (by
    rw [hnil] at hbs
    exact forall₂_nil_right_iff.mp hbs)
  have hcond : ∀ b' ∈ bs', Condition b'.1 ∧ Condition b'.2 := fun b' hb' => by
    obtain ⟨b, hb, hg', hv', -⟩ := forall₂_mem_right hbs hb'
    exact ⟨hg' ▸ hg b hb, hv'⟩
  refine ⟨mkIte_ok hne' e', .ite hne' (fun b hb => (hcond b hb).1) (fun b hb => (hcond b hb).2) he,
    fun I => holds_ite_congr I (Q := Q I) (hbs.imp fun b b' hb => ⟨hb.1, hb.2.2 I⟩) (hQ I)⟩

theorem eq_and_of_false {a b c : Bool} (h : c = false ↔ a = false ∨ b = false) : c = (a && b) := by
  cases a <;> cases b <;> simpa using h

/-- On conditions a connective never fails, has the right truth value and gives a condition. -/
theorem simplifyConnective_spec (hc : Connective op co stopValue ignoreValue s) (hx : Condition x)
    (hy : Condition y) :
    ∃ r, simplifyConnective op co stopValue ignoreValue x y = .ok r ∧ Condition r ∧
      Joins s x y r := by
  induction hn : size x + size y using Nat.strong_induction_on
    generalizing op co stopValue ignoreValue s x y with
  | h n ih =>
  subst hn
  unfold simplifyConnective
  split
  · exact hx.not_nop.elim
  · exact hy.not_nop.elim
  · next bs1 e1 bs2 e2 =>
      obtain ⟨rows, hrows, hR⟩ := attach_mapM_ok (l := iteAsGvs bs1 e1)
        (f := fun gv1 => (iteAsGvs bs2 e2).attach.mapM fun gv2 => do
          let g ← simplifyConnective .logicalAnd .logicalOr falseTerm trueTerm gv1.1.1 gv2.1.1
          let v ← simplifyConnective op co stopValue ignoreValue gv1.1.2 gv2.1.2
          .ok (g, v))
        (R := fun gv row => List.Forall₂ (fun gv' r => (Condition r.1 ∧ Condition r.2) ∧
          ∀ {V : Type} (I : Interp V), r.1.holds I = (gv.1.holds I && gv'.1.holds I) ∧
            (r.2.holds I = s ↔ gv.2.holds I = s ∨ gv'.2.holds I = s)) (iteAsGvs bs2 e2) row)
        fun gv1 h1 => attach_mapM_ok fun gv2 h2 => by
          have hlt := size_lt_of_mem_gvs h1
          have hlt' := size_lt_of_mem_gvs h2
          obtain ⟨g, hg, hgc, hgs⟩ := ih _ (Nat.add_lt_add hlt.1 hlt'.1) .and
            (hx.mem_gvs h1).1 (hy.mem_gvs h2).1 rfl
          obtain ⟨v, hv, hvc, hvs⟩ := ih _ (Nat.add_lt_add hlt.2 hlt'.2) hc
            (hx.mem_gvs h1).2 (hy.mem_gvs h2).2 rfl
          refine ⟨(g, v), ?_, ⟨hgc, hvc⟩, fun I => ⟨?_, hvs I⟩⟩
          · rw [bind_ok hg, bind_ok hv]
          · exact eq_and_of_false (hgs I)
      rw [bind_ok hrows]
      have hlen : 2 ≤ rows.flatten.length := by
        have hpos : (iteAsGvs bs2 e2).length ≥ 2 := by
          have := length_pos_of_ne_nil hy.of_ite.1
          simp only [iteAsGvs, length_append, length_singleton]
          omega
        cases rows with
        | nil => simpa [iteAsGvs] using hR.length_eq
        | cons row rows =>
          obtain ⟨gv, -, hrow⟩ := forall₂_mem_right hR mem_cons_self
          have := hrow.length_eq
          simp only [List.flatten_cons, length_append]
          omega
      obtain ⟨bs, e, hfrom, hne, ⟨g, hgvs⟩, hval⟩ := fromGvs_spec hlen
      have hcond : ∀ r ∈ rows.flatten, Condition r.1 ∧ Condition r.2 := fun r hr => by
        obtain ⟨row, hrow, hr⟩ := List.mem_flatten.mp hr
        obtain ⟨gv, -, hgv⟩ := forall₂_mem_right hR hrow
        obtain ⟨gv', -, h, -⟩ := forall₂_mem_right hgv hr
        exact h
      rw [hgvs] at hcond
      refine ⟨.ite bs e, ?_, .ite hne (fun b hb => (hcond b (by simp [hb])).1)
        (fun b hb => (hcond b (by simp [hb])).2) (hcond (g, e) (by simp)).2, fun I => ?_⟩
      · rw [bind_ok hfrom]
        exact mkIte_ok hne e
      · obtain ⟨w, hw, hiff⟩ := firstTrue_product I (s := s)
          (hR.imp fun gv row h => h.imp fun gv' r h => h.2 I)
          (firstTrue_iteAsGvs I bs1 e1) (firstTrue_iteAsGvs I bs2 e2)
        rw [hval I hw, hiff]
  · rename_i bs e _ hnot
    obtain ⟨bs', hbs', hR⟩ := attach_mapM_ok (l := bs)
      (f := fun gv => do .ok (gv.1.1, ← simplifyConnective op co stopValue ignoreValue gv.1.2 y))
      (R := fun b b' => b'.1 = b.1 ∧ Condition b'.2 ∧ Joins s b.2 y b'.2)
      fun b hb => by
        obtain ⟨r, hr, h⟩ := ih _ (Nat.add_lt_add_right
          (size_lt_of_mem_gvs (mem_append_left _ hb)).2 _) hc (hx.of_ite.2.2.1 b hb) hy rfl
        exact ⟨(b.1, r), by rw [bind_ok hr], rfl, h⟩
    obtain ⟨e', he', hce, hse⟩ := ih _ (Nat.add_lt_add_right
      (size_lt_of_mem_gvs (mem_append_right bs (mem_singleton_self (trueTerm, e)))).2 _)
      hc hx.of_ite.2.2.2 hy rfl
    obtain ⟨h₁, h₂, h₃⟩ := mkIte_spec hx (Q := fun {V} I a b => b = s ↔ a = s ∨ y.holds I = s) hR
      hce hse
    exact ⟨_, by rw [bind_ok hbs', bind_ok he', h₁], h₂, h₃⟩
  · rename_i bs e _ hnot
    obtain ⟨bs', hbs', hR⟩ := attach_mapM_ok (l := bs)
      (f := fun gv => do .ok (gv.1.1, ← simplifyConnective op co stopValue ignoreValue x gv.1.2))
      (R := fun b b' => b'.1 = b.1 ∧ Condition b'.2 ∧ Joins s x b.2 b'.2)
      fun b hb => by
        obtain ⟨r, hr, h⟩ := ih _ (Nat.add_lt_add_left
          (size_lt_of_mem_gvs (mem_append_left _ hb)).2 _) hc hx (hy.of_ite.2.2.1 b hb) rfl
        exact ⟨(b.1, r), by rw [bind_ok hr], rfl, h⟩
    obtain ⟨e', he', hce, hse⟩ := ih _ (Nat.add_lt_add_left
      (size_lt_of_mem_gvs (mem_append_right bs (mem_singleton_self (trueTerm, e)))).2 _)
      hc hx hy.of_ite.2.2.2 rfl
    obtain ⟨h₁, h₂, h₃⟩ := mkIte_spec hy (Q := fun {V} I a b => b = s ↔ x.holds I = s ∨ a = s) hR
      hce hse
    exact ⟨_, by rw [bind_ok hbs', bind_ok he', h₁], h₂, h₃⟩
  · rename_i _ hxn _ hyn _
    obtain ⟨r, h₁, h₂, h₃⟩ := simplifyExt_spec hc (hx.simple_of_not_ite hxn)
      (hy.simple_of_not_ite hyn)
    exact ⟨r, h₁, .simple h₂, h₃⟩

/-! ### Negation -/

theorem simplifyNegations_eq (xs : List Term) :
    simplifyNegations xs = xs.mapM simplifyNegation := by
  induction xs with
  | nil => rfl
  | cons x xs ih =>
    rw [simplifyNegations, ih, mapM_cons]
    rfl

theorem simplifyNegationBranches_eq (bs : List (Term × Term)) :
    simplifyNegationBranches bs = bs.mapM fun b => (do .ok (b.1, ← simplifyNegation b.2)) := by
  induction bs with
  | nil => rfl
  | cons b bs ih =>
    rw [simplifyNegationBranches, ih, mapM_cons]
    cases simplifyNegation b.2 <;> rfl

theorem simplifyNegation_atom (h : isAtom x = true) :
    simplifyNegation x = .ok (negate x) := by
  unfold isAtom at h
  split at h
  · rfl
  · next op x xs =>
      obtain ⟨h₁, h₂, h₃⟩ := of_decide_eq_true h
      cases op <;> first | contradiction | rfl
  · rfl
  · rfl
  · cases h

/-- The operator a negation turns an n-ary node into. -/
def dual : OperationType → OperationType
  | .logicalAnd => .logicalOr
  | _ => .logicalAnd

theorem simplifyNegation_nary (hop : op = .logicalAnd ∨ op = .logicalOr) (xs : List Term) (t : Ty) :
    simplifyNegation (.expression (.operator op) xs t) =
      xs.mapM simplifyNegation >>= fun rs => makeNAry (dual op) rs .bool := by
  rcases hop with rfl | rfl <;> rw [simplifyNegation, simplifyNegations_eq] <;> rfl

/-- The negation of a reduced formula: reduced, opposite in truth, and undone by negating again. -/
structure Negates (x r : Term) : Prop where
  neg : simplifyNegation x = .ok r
  neg_neg : simplifyNegation r = .ok x
  reduced : Reduced r
  flat : ∀ op, op = .logicalAnd ∨ op = .logicalOr → operands? op x = none →
    operands? (dual op) r = none
  holds : ∀ {V : Type} (I : Interp V), r.holds I = !x.holds I

theorem holds_negated_nary (I : Interp V) (hop : op = .logicalAnd ∨ op = .logicalOr)
    {rs : List Term} (h : List.Forall₂ (fun x r => r.holds I = !x.holds I) xs rs) :
    (expression (.operator (dual op)) rs .bool).holds I =
      !(expression (.operator op) xs .bool).holds I := by
  have hboth : rs.any (holds I) = !xs.all (holds I) ∧ rs.all (holds I) = !xs.any (holds I) := by
    induction h with
    | nil => exact ⟨rfl, rfl⟩
    | cons hx _ ih => simp [hx, ih.1, ih.2]
  rcases hop with rfl | rfl
  · rw [dual, holds_conjunction, holds_disjunction, hboth.1]
  · rw [dual, holds_conjunction, holds_disjunction, hboth.2]
    simp

theorem Reduced.negates (h : Reduced x) : ∃ r, Negates x r := by
  induction h with
  | atom h =>
    refine ⟨_, simplifyNegation_atom h, rfl, .negated h, fun op hop _ => ?_, fun I => by simp⟩
    rcases hop with rfl | rfl <;> rfl
  | @negated x h =>
    refine ⟨x, rfl, simplifyNegation_atom h, .atom h, fun op hop _ => ?_, fun I => by simp⟩
    rcases hop with rfl | rfl <;> exact isAtom_operands (by simp [dual]) h
  | @nary op xs hop operands flat different ih =>
    have hdual : dual op = .logicalAnd ∨ dual op = .logicalOr := by
      rcases hop with rfl | rfl <;> simp [dual]
    have hdd : dual (dual op) = op := by rcases hop with rfl | rfl <;> rfl
    have hne : dual op ≠ op := by rcases hop with rfl | rfl <;> simp [dual]
    obtain ⟨rs, hrs, hR⟩ := mapM_ok (f := simplifyNegation) (R := Negates) (l := xs)
      fun x hx => (ih x hx).imp fun r hr => ⟨hr.neg, hr⟩
    have hback : rs.mapM simplifyNegation = .ok xs :=
      mapM_of_forall₂ (hR.flip.imp fun r x h => h.neg_neg)
    have hdiff : ∃ a ∈ rs, ∃ b ∈ rs, a ≠ b := by
      obtain ⟨a, ha, b, hb, hab⟩ := different
      obtain ⟨ra, hra, hna⟩ := forall₂_mem_right hR.flip ha
      obtain ⟨rb, hrb, hnb⟩ := forall₂_mem_right hR.flip hb
      refine ⟨ra, hra, rb, hrb, fun h => hab ?_⟩
      have := hna.neg_neg.symm.trans (h ▸ hnb.neg_neg)
      exact Except.ok.inj this
    refine ⟨.expression (.operator (dual op)) rs .bool, ?_, ?_, ?_, ?_, fun I =>
      holds_negated_nary I hop (hR.imp fun x r h => h.holds I)⟩
    · rw [simplifyNegation_nary hop, bind_ok hrs, makeNAry_of_two hdiff]
    · rw [simplifyNegation_nary hdual, bind_ok hback, hdd, makeNAry_of_two different]
    · refine .nary hdual (fun r hr => ?_) (fun r hr => ?_) hdiff
      · obtain ⟨x, -, h⟩ := forall₂_mem_right hR hr
        exact h.reduced
      · obtain ⟨x, hx, h⟩ := forall₂_mem_right hR hr
        exact h.flat op hop (flat x hx)
    · intro op' hop' hnone
      have hne' : op' ≠ op := fun h => by simp [operands?, h] at hnone
      have : op' = dual op := by
        rcases hop with rfl | rfl <;> rcases hop' with rfl | rfl <;> simp_all [dual]
      rw [this, hdd]
      simp [operands?, hne]

/-- On conditions negation never fails, has the right truth value and gives a condition. -/
theorem simplifyNegation_spec (hx : Condition x) :
    ∃ r, simplifyNegation x = .ok r ∧ Condition r ∧
      ∀ {V : Type} (I : Interp V), r.holds I = !x.holds I := by
  induction hx with
  | simple h =>
    rcases h with ⟨b, rfl⟩ | h
    · exact ⟨makeBool !b, rfl, .makeBool _, fun I => by simp⟩
    · obtain ⟨r, hr⟩ := h.negates
      exact ⟨r, hr.neg, hr.reduced.condition, hr.holds⟩
  | @ite bs e hne guards values elseValue _ ihv ihe =>
    obtain ⟨bs', hbs', hR⟩ := mapM_ok (l := bs)
      (f := fun b => do .ok (b.1, ← simplifyNegation b.2))
      (R := fun b b' => b'.1 = b.1 ∧ Condition b'.2 ∧
        ∀ {V : Type} (I : Interp V), b'.2.holds I = !b.2.holds I)
      fun b hb => by
        obtain ⟨r, hr, h⟩ := ihv b hb
        exact ⟨(b.1, r), by rw [bind_ok hr], rfl, h⟩
    obtain ⟨e', he', hce, hse⟩ := ihe
    obtain ⟨h₁, h₂, h₃⟩ := mkIte_spec (.ite hne guards values elseValue)
      (Q := fun {V} _ a b => b = !a) hR hce hse
    exact ⟨_, by rw [simplifyNegation, simplifyNegationBranches_eq, bind_ok hbs', bind_ok he', h₁],
      h₂, h₃⟩

/-! ### The operations on conditions -/

theorem simplifyAnd_spec (hx : Condition x) (hy : Condition y) :
    ∃ r, simplifyAnd x y = .ok r ∧ Condition r ∧
      ∀ {V : Type} (I : Interp V), r.holds I = (x.holds I && y.holds I) := by
  obtain ⟨r, h₁, h₂, h₃⟩ := simplifyConnective_spec .and hx hy
  exact ⟨r, h₁, h₂, fun I => eq_and_of_false (h₃ I)⟩

theorem simplifyOr_spec (hx : Condition x) (hy : Condition y) :
    ∃ r, simplifyOr x y = .ok r ∧ Condition r ∧
      ∀ {V : Type} (I : Interp V), r.holds I = (x.holds I || y.holds I) := by
  obtain ⟨r, h₁, h₂, h₃⟩ := simplifyConnective_spec .or hx hy
  refine ⟨r, h₁, h₂, fun I => ?_⟩
  rw [Bool.eq_iff_iff, h₃, Bool.or_eq_true]

/-- A class of boolean terms the connectives are right about and do not leave. -/
structure Connected (C : Term → Prop) : Prop where
  truth : ∀ b, C (makeBool b)
  and : ∀ {x y : Term}, C x → C y → ∃ r, simplifyAnd x y = .ok r ∧ C r ∧
    ∀ {V : Type} (I : Interp V), r.holds I = (x.holds I && y.holds I)
  or : ∀ {x y : Term}, C x → C y → ∃ r, simplifyOr x y = .ok r ∧ C r ∧
    ∀ {V : Type} (I : Interp V), r.holds I = (x.holds I || y.holds I)
  not : ∀ {x : Term}, C x → ∃ r, simplifyNegation x = .ok r ∧ C r ∧
    ∀ {V : Type} (I : Interp V), r.holds I = !x.holds I

theorem connected_condition : Connected Condition where
  truth := .makeBool
  and := simplifyAnd_spec
  or := simplifyOr_spec
  not := simplifyNegation_spec

theorem Simple.not_ite (h : Simple (.ite bs e)) : False := by
  rcases h with ⟨b, h⟩ | h
  · cases h
  · exact h.not_ite

/-- No union comes of connecting conditions that are no unions. -/
theorem simplifyConnective_simple (hc : Connective op co stopValue ignoreValue s) (hx : Simple x)
    (hy : Simple y) :
    ∃ r, simplifyConnective op co stopValue ignoreValue x y = .ok r ∧ Simple r ∧ Joins s x y r := by
  unfold simplifyConnective
  split
  · exact (Condition.simple hx).not_nop.elim
  · exact (Condition.simple hy).not_nop.elim
  · exact hx.not_ite.elim
  · exact hx.not_ite.elim
  · exact hy.not_ite.elim
  · exact simplifyExt_spec hc hx hy

theorem connected_simple : Connected Simple where
  truth := .makeBool
  and hx hy := by
    obtain ⟨r, h₁, h₂, h₃⟩ := simplifyConnective_simple .and hx hy
    exact ⟨r, h₁, h₂, fun I => eq_and_of_false (h₃ I)⟩
  or hx hy := by
    obtain ⟨r, h₁, h₂, h₃⟩ := simplifyConnective_simple .or hx hy
    refine ⟨r, h₁, h₂, fun I => ?_⟩
    rw [Bool.eq_iff_iff, h₃, Bool.or_eq_true]
  not hx := by
    rcases hx with ⟨b, rfl⟩ | h
    · exact ⟨makeBool !b, rfl, .makeBool !b, fun I => by simp⟩
    · obtain ⟨r, hr⟩ := h.negates
      exact ⟨r, hr.neg, hr.reduced.simple, hr.holds⟩

theorem conjunction_spec (hxs : ∀ x ∈ l, Condition x) :
    ∃ r, conjunction l = .ok r ∧ Condition r ∧
      ∀ {V : Type} (I : Interp V), r.holds I = l.all (holds I) := by
  cases l with
  | nil => exact ⟨trueTerm, rfl, .makeBool true, fun I => by simp⟩
  | cons x l =>
    obtain ⟨r, h₁, h₂, h₃⟩ := foldlM_ok (f := simplifyAnd) (l := l) (d := [x]) (b := x)
      (P := fun done r => Condition r ∧ ∀ {V : Type} (I : Interp V), r.holds I = done.all (holds I))
      (fun done b a ha hinv => by
        obtain ⟨r, hr₁, hr₂, hr₃⟩ := simplifyAnd_spec hinv.1 (hxs a (mem_cons_of_mem _ ha))
        exact ⟨r, hr₁, hr₂, fun I => by simp [hr₃, hinv.2]⟩)
      ⟨hxs x mem_cons_self, fun I => by simp⟩
    exact ⟨r, h₁, h₂, fun I => by simpa using h₃ I⟩

theorem disjunction_spec (hxs : ∀ x ∈ l, Condition x) :
    ∃ r, disjunction l = .ok r ∧ Condition r ∧
      ∀ {V : Type} (I : Interp V), r.holds I = l.any (holds I) := by
  cases l with
  | nil => exact ⟨falseTerm, rfl, .makeBool false, fun I => by simp⟩
  | cons x l =>
    obtain ⟨r, h₁, h₂, h₃⟩ := foldlM_ok (f := simplifyOr) (l := l) (d := [x]) (b := x)
      (P := fun done r => Condition r ∧ ∀ {V : Type} (I : Interp V), r.holds I = done.any (holds I))
      (fun done b a ha hinv => by
        obtain ⟨r, hr₁, hr₂, hr₃⟩ := simplifyOr_spec hinv.1 (hxs a (mem_cons_of_mem _ ha))
        exact ⟨r, hr₁, hr₂, fun I => by simp [hr₃, hinv.2]⟩)
      ⟨hxs x mem_cons_self, fun I => by simp⟩
    exact ⟨r, h₁, h₂, fun I => by simpa using h₃ I⟩

end VSharp
