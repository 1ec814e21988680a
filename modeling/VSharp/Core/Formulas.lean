import VSharp.Core.Conditions

/-!
# Core — Formulas

The boolean terms the smart constructors can build (`Built`), and what the constructors do on them.

`simplifyAndWithDisjunctions` drops operands of a disjunction and keeps the others as they stand, so
it can leave one operand repeated: a node the other rules misread (`simplifyAnd_degenerate`).  As
long as it does not (`Kept`), all the constructors are right on everything they build
(`built_faithful`).
-/

namespace VSharp
open Term Propositional Library List

/-- A call that returns a term with the given truth value. -/
def Faithful (res : Except Failure Term) (truth : ∀ {V : Type}, Interp V → Bool) : Prop :=
  ∃ r, res = .ok r ∧ ∀ {V : Type} (I : Interp V), r.holds I = truth I

/-- The operands of a disjunction that the literals beside it do not refute. -/
def surviving (literals xs : List Term) : List Term :=
  xs.filter fun x =>
    match simplifyNegation x with
    | .ok n => decide (n ∉ literals)
    | .error _ => true

/-- No disjunction of `x &&& y` is left with one operand repeated. -/
def Kept (x y : Term) : Prop :=
  ∀ res clauses, simplifyAnd x y = .ok res → operands? .logicalAnd res = some clauses →
    ∀ c ∈ clauses, ∀ xs, operands? .logicalOr c = some xs →
      2 ≤ (surviving (clauses.filter fun c => (operands? .logicalOr c).isNone) xs).length →
      ∃ a ∈ surviving (clauses.filter fun c => (operands? .logicalOr c).isNone) xs,
        ∃ b ∈ surviving (clauses.filter fun c => (operands? .logicalOr c).isNone) xs, a ≠ b

/-- What dropping refuted operands leaves of a disjunction. -/
theorem filterDisjunction_spec {literals xs : List Term}
    (hd : Reduced (.expression (.operator .logicalOr) xs .bool))
    (hkept : 2 ≤ (surviving literals xs).length →
      ∃ a ∈ surviving literals xs, ∃ b ∈ surviving literals xs, a ≠ b) :
    ∃ r, filterDisjunction literals xs = .ok r ∧ Condition r ∧
      ∀ {V : Type} (I : Interp V), literals.all (holds I) = true →
        r.holds I = xs.any (holds I) := by
  obtain ⟨-, hr, hf, -⟩ := hd.of_operands (.inr rfl) operands_self
  have hfilter : (xs.filterM fun x => do
      .ok (decide ((← simplifyNegation x) ∉ literals)) : Except Failure (List Term)) =
      .ok (surviving literals xs) := by
    refine filterM_ok fun x hx => ?_
    obtain ⟨r, hneg⟩ := (hr x hx).negates
    rw [bind_ok hneg.neg, hneg.neg]
  have hsem {V : Type} (I : Interp V) (hl : literals.all (holds I) = true) :
      (surviving literals xs).any (holds I) = xs.any (holds I) := by
    rw [Bool.eq_iff_iff, any_eq_true, any_eq_true]
    refine ⟨fun ⟨x, hx, h⟩ => ⟨x, (mem_filter.mp hx).1, h⟩, fun ⟨x, hx, h⟩ => ⟨x, ?_, h⟩⟩
    refine mem_filter.mpr ⟨hx, ?_⟩
    obtain ⟨r, hneg⟩ := (hr x hx).negates
    rw [hneg.neg]
    refine decide_eq_true fun hm => ?_
    have := all_eq_true.mp hl r hm
    rw [hneg.holds, h] at this
    cases this
  have hmem : ∀ x ∈ surviving literals xs, x ∈ xs := fun x hx => (mem_filter.mp hx).1
  rw [filterDisjunction, bind_ok hfilter]
  generalize surviving literals xs = kept at hkept hsem hmem ⊢
  match kept with
  | [] => exact ⟨falseTerm, rfl, .makeBool false, fun I hl => by simpa using hsem I hl⟩
  | [x] =>
    exact ⟨x, rfl, (hr x (hmem x (by simp))).condition, fun I hl => by simpa using hsem I hl⟩
  | x :: y :: kept =>
    refine ⟨_, rfl, Reduced.condition (.nary (.inr rfl) (fun z hz => hr z (hmem z hz))
      (fun z hz => hf z (hmem z hz)) (hkept (by simp))), fun I hl => ?_⟩
    rw [holds_disjunction, hsem I hl]

/-- The clauses of a conjunction: literals and disjunctions. -/
theorem all_clauses {V : Type} (I : Interp V) {clauses : List Term} (h : ∀ c ∈ clauses, Reduced c) :
    clauses.all (holds I) =
      ((clauses.filter fun c => (operands? .logicalOr c).isNone).all (holds I) &&
        (clauses.filterMap (operands? .logicalOr)).all fun xs => xs.any (holds I)) := by
  induction clauses with
  | nil => rfl
  | cons c clauses ih =>
    rw [all_cons, ih fun d hd => h d (mem_cons_of_mem _ hd)]
    cases hc : operands? .logicalOr c with
    | none => simp [hc, Bool.and_assoc]
    | some xs =>
      obtain ⟨rfl, -⟩ := (h c mem_cons_self).of_operands (.inr rfl) hc
      simp [hc, Bool.and_left_comm]

/-- The conjunction that also drops refuted operands, as long as none is left repeated. -/
theorem simplifyAndWithDisjunctions_spec {x y : Term} (hx : Condition x) (hy : Condition y)
    (hkept : Kept x y) :
    ∃ r, simplifyAndWithDisjunctions x y = .ok r ∧ Condition r ∧
      ∀ {V : Type} (I : Interp V), r.holds I = (x.holds I && y.holds I) := by
  obtain ⟨res, h₁, h₂, h₃⟩ := simplifyAnd_spec hx hy
  rw [simplifyAndWithDisjunctions, bind_ok h₁]
  cases hres : operands? .logicalAnd res with
  | none => exact ⟨res, rfl, h₂, h₃⟩
  | some clauses =>
    have hred : Reduced res := by
      cases h₂ with
      | simple h =>
        rcases h with ⟨b, rfl⟩ | h
        · cases hres
        · exact h
      | ite => cases hres
    obtain ⟨rfl, hr, -, -⟩ := hred.of_operands (.inl rfl) hres
    let literals := clauses.filter fun c => (operands? .logicalOr c).isNone
    obtain ⟨ds, hds, hR⟩ := mapM_ok (f := filterDisjunction literals)
      (l := clauses.filterMap (operands? .logicalOr))
      (R := fun xs d => Condition d ∧ ∀ {V : Type} (I : Interp V),
        literals.all (holds I) = true → d.holds I = xs.any (holds I))
      fun xs hxs => by
        obtain ⟨c, hc, hcx⟩ := mem_filterMap.mp hxs
        obtain ⟨rfl, -⟩ := (hr c hc).of_operands (.inr rfl) hcx
        exact filterDisjunction_spec (hr _ hc) (hkept _ _ h₁ hres _ hc xs hcx)
    obtain ⟨r, hr₁, hr₂, hr₃⟩ := conjunction_spec (l := literals ++ ds) fun z hz => by
      rcases mem_append.mp hz with hz | hz
      · exact (hr z (mem_filter.mp hz).1).condition
      · obtain ⟨xs, -, h⟩ := forall₂_mem_right hR hz
        exact h.1
    refine ⟨r, ?_, hr₂, fun I => ?_⟩
    · dsimp only
      rw [bind_ok hds, hr₁]
    · rw [hr₃, ← h₃, holds_conjunction, all_append, all_clauses I hr]
      cases hl : literals.all (holds I) with
      | false => simp
      | true =>
        rw [Bool.true_and, Bool.true_and]
        exact (all_eq_of_forall₂ (hR.imp fun xs d hd => (hd.2 I hl).symm)).symm

/-! ### Everything the constructors build -/

/-- The boolean terms built from atoms by the smart constructors, where every pair that
`simplifyAndWithDisjunctions` is applied to satisfies `P`. -/
inductive Built (P : Term → Term → Prop) : Term → Prop where
  | truth (b : Bool) : Built P (makeBool b)
  | atom {x : Term} (h : isAtom x = true) : Built P x
  | and {x y r : Term} (hx : Built P x) (hy : Built P y) (h : simplifyAnd x y = .ok r) : Built P r
  | or {x y r : Term} (hx : Built P x) (hy : Built P y) (h : simplifyOr x y = .ok r) : Built P r
  | not {x r : Term} (hx : Built P x) (h : simplifyNegation x = .ok r) : Built P r
  | andWithDisjunctions {x y r : Term} (hx : Built P x) (hy : Built P y) (hP : P x y)
      (h : simplifyAndWithDisjunctions x y = .ok r) : Built P r
  | ite {bs : List (Term × Term)} {e : Term} (hne : bs ≠ []) (guards : ∀ b ∈ bs, Built P b.1)
      (values : ∀ b ∈ bs, Built P b.2) (elseValue : Built P e) : Built P (.ite bs e)

/-- What is built without a repeated operand left over is a condition.  Nothing in the interpreter
calls `simplifyAndWithDisjunctions`, so all it builds is `Built` with `P` never true. -/
theorem Built.condition {P : Term → Term → Prop} (hP : ∀ x y, P x y → Kept x y) {x : Term}
    (h : Built P x) : Condition x := by
  have of_spec {res : Except Failure Term} {r : Term} {Q : Term → Prop}
      (hspec : ∃ r, res = .ok r ∧ Condition r ∧ Q r) (hr : res = .ok r) : Condition r := by
    obtain ⟨r', h₁, h₂, -⟩ := hspec
    exact Except.ok.inj (h₁.symm.trans hr) ▸ h₂
  induction h with
  | truth b => exact .makeBool b
  | atom h => exact (Reduced.atom h).condition
  | and _ _ h ihx ihy => exact of_spec (simplifyAnd_spec ihx ihy) h
  | or _ _ h ihx ihy => exact of_spec (simplifyOr_spec ihx ihy) h
  | not _ h ihx => exact of_spec (simplifyNegation_spec ihx) h
  | andWithDisjunctions _ _ hxy h ihx ihy =>
    exact of_spec (simplifyAndWithDisjunctions_spec ihx ihy (hP _ _ hxy)) h
  | ite hne _ _ _ ihg ihv ihe => exact .ite hne ihg ihv ihe

/-- The truth of the four constructors on a pair of terms. -/
def Lawful (x y : Term) : Prop :=
  Faithful (simplifyAnd x y) (fun I => x.holds I && y.holds I) ∧
  Faithful (simplifyOr x y) (fun I => x.holds I || y.holds I) ∧
  Faithful (simplifyNegation x) (fun I => !x.holds I) ∧
  Faithful (simplifyAndWithDisjunctions x y) fun I => x.holds I && y.holds I

/-- The constructors are right on everything they build, as long as no disjunction is left with one
operand repeated. -/
theorem built_faithful {x y : Term} (hx : Built Kept x) (hy : Built Kept y) (hkept : Kept x y) :
    Lawful x y := by
  have weaken {res : Except Failure Term} {truth : ∀ {V : Type}, Interp V → Bool}
      (h : ∃ r, res = .ok r ∧ Condition r ∧ ∀ {V : Type} (I : Interp V), r.holds I = truth I) :
      Faithful res truth := by
    obtain ⟨r, h₁, -, h₃⟩ := h
    exact ⟨r, h₁, h₃⟩
  have hx := hx.condition fun _ _ h => h
  have hy := hy.condition fun _ _ h => h
  exact ⟨weaken (simplifyAnd_spec hx hy), weaken (simplifyOr_spec hx hy),
    weaken (simplifyNegation_spec hx), weaken (simplifyAndWithDisjunctions_spec hx hy hkept)⟩

/-- `c ∨ a ∨ b` and `¬c ∧ d`: the operand `c` is dropped, and two different ones are left. -/
theorem built_faithful_disjunction :
    let a := boolConstant 0
    let b := boolConstant 1
    let c := boolConstant 2
    let d := boolConstant 3
    let x : Term := .expression (.operator .logicalOr) [c, a, b] .bool
    let y : Term := .expression (.operator .logicalAnd) [negate c, d] .bool
    simplifyAndWithDisjunctions x y = .ok (.expression (.operator .logicalAnd)
      [.expression (.operator .logicalOr) [a, b] .bool, negate c, d] .bool) ∧ Lawful x y := by
  intro a b c d x y
  have atom (n : ℕ) : Built Kept (boolConstant n) := .atom rfl
  have hab : simplifyOr a b = .ok (.expression (.operator .logicalOr) [a, b] .bool) := by
    decide +kernel
  have hx : Built Kept x := .or (.or (atom 0) (atom 1) hab) (atom 2) (by decide +kernel)
  have hy : Built Kept y := .and (.not (atom 2) rfl) (atom 3) (by decide +kernel)
  refine ⟨by decide +kernel, built_faithful hx hy fun res clauses hres hclauses e he xs hxs _ => ?_⟩
  have hand : simplifyAnd x y =
      .ok (.expression (.operator .logicalAnd) [x, negate c, d] .bool) := by
    decide +kernel
  obtain rfl := Except.ok.inj (hand.symm.trans hres)
  cases hclauses
  simp only [mem_cons, not_mem_nil, or_false] at he
  rcases he with rfl | rfl | rfl
  · cases hxs
    exact ⟨a, by decide +kernel, b, by decide +kernel, by decide⟩
  · cases hxs
  · cases hxs

/-- `a` or `a`: the constructors build it by dropping `b`, once with `b` true and once with `b`
false, from `a`, `a` or `b`. -/
def degenerate : Except Failure Term := do
  let a := boolConstant 0
  let b := boolConstant 1
  let c := boolConstant 2
  let notB ← simplifyNegation b
  let notC ← simplifyNegation c
  let aba ← simplifyOr (← simplifyOr a b) a
  let u ← simplifyAndWithDisjunctions aba (← simplifyAnd notB c)
  let u' ← simplifyAndWithDisjunctions aba (← simplifyAnd notB notC)
  let abna ← simplifyOr (← simplifyOr a notB) a
  let v ← simplifyAndWithDisjunctions abna (← simplifyAnd b c)
  let v' ← simplifyAndWithDisjunctions abna (← simplifyAnd b notC)
  simplifyOr (← simplifyOr u u') (← simplifyOr v v')

theorem degenerate_eq : degenerate =
    .ok (.expression (.operator .logicalOr) [boolConstant 0, boolConstant 0] .bool) := by
  decide +kernel

theorem degenerate_built {r : Term} (h : degenerate = .ok r) : Built (fun _ _ => True) r := by
  have atom (n : ℕ) : Built (fun _ _ => True) (boolConstant n) := .atom rfl
  obtain ⟨notB, h₁, h⟩ := bind_eq_ok h
  obtain ⟨notC, h₂, h⟩ := bind_eq_ok h
  obtain ⟨ab, h₃, h⟩ := bind_eq_ok h
  obtain ⟨aba, h₄, h⟩ := bind_eq_ok h
  obtain ⟨l, h₅, h⟩ := bind_eq_ok h
  obtain ⟨u, h₆, h⟩ := bind_eq_ok h
  obtain ⟨l', h₇, h⟩ := bind_eq_ok h
  obtain ⟨u', h₈, h⟩ := bind_eq_ok h
  obtain ⟨anb, h₉, h⟩ := bind_eq_ok h
  obtain ⟨abna, h₁₀, h⟩ := bind_eq_ok h
  obtain ⟨m, h₁₁, h⟩ := bind_eq_ok h
  obtain ⟨v, h₁₂, h⟩ := bind_eq_ok h
  obtain ⟨m', h₁₃, h⟩ := bind_eq_ok h
  obtain ⟨v', h₁₄, h⟩ := bind_eq_ok h
  obtain ⟨uu, h₁₅, h⟩ := bind_eq_ok h
  obtain ⟨vv, h₁₆, h⟩ := bind_eq_ok h
  have hB := Built.not (atom 1) h₁
  have hC := Built.not (atom 2) h₂
  have haba := Built.or (.or (atom 0) (atom 1) h₃) (atom 0) h₄
  have hu := Built.andWithDisjunctions haba (.and hB (atom 2) h₅) trivial h₆
  have hu' := Built.andWithDisjunctions haba (.and hB hC h₇) trivial h₈
  have habna := Built.or (.or (atom 0) hB h₉) (atom 0) h₁₀
  have hv := Built.andWithDisjunctions habna (.and (atom 1) (atom 2) h₁₁) trivial h₁₂
  have hv' := Built.andWithDisjunctions habna (.and (atom 1) hC h₁₃) trivial h₁₄
  exact .or (.or hu hu' h₁₅) (.or hv hv' h₁₆) h

/-- The degenerate disjunction and the negation of its operand: their conjunction is the negation,
true where `a` is false. -/
theorem simplifyAnd_degenerate :
    ¬ ∀ x y : Term, Built (fun _ _ => True) x → Built (fun _ _ => True) y → Lawful x y := by
  intro h
  obtain ⟨⟨r, hr, hholds⟩, -⟩ := h _ (negate (boolConstant 0)) (degenerate_built degenerate_eq)
    (.not (.atom (x := boolConstant 0) rfl) rfl)
  have : simplifyAnd (.expression (.operator .logicalOr) [boolConstant 0, boolConstant 0] .bool)
      (negate (boolConstant 0)) = .ok (negate (boolConstant 0)) := by
    decide +kernel
  obtain rfl := Except.ok.inj (this.symm.trans hr)
  exact absurd (hholds (Interp.bools fun _ => false)) (by decide)

end VSharp
