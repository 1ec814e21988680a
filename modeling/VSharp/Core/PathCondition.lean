import VSharp.Core.Formulas
import VSharp.Core.Weight

/-!
# Core — PathCondition

`VSharp.SILI.Core/PathCondition.fs`: a path condition is the set of conditions assumed so far.

* `add_spec`: on conditions, `PC.add` means conjunction, whatever it resolves on the way.
* `reach_conjunction`: the same along every sequence of `add`, `union` and `mapPC`.
* `reach_invariant`: the two invariants of the representation hold along every such sequence in
  which no stored disjunction collapses to a truth value when its refuted operand is dropped.
-/

namespace VSharp
open Term Propositional Library List PersistentSet

abbrev PathCondition := Pset Term

namespace PC

def toSeq (pc : PathCondition) : List Term := PersistentDict.keys pc

def empty : PathCondition := []

def isFalse (pc : PathCondition) : Bool := PersistentSet.contains falseTerm pc

/-- The operands `PC.add` has left to look at. -/
def pending (cond : Term) : ℕ :=
  match operands? .logicalOr cond with
  | some xs => 1 + weightList xs
  | none => 0

variable {xs xs' : List Term} {pc : PathCondition}

theorem weightList_lt (h : xs'.Sublist xs) (hlen : xs'.length ≠ xs.length) :
    weightList xs' < weightList xs := by
  induction h with
  | slnil => exact absurd rfl hlen
  | cons a hs _ =>
    have := weight_pos a
    have := weightList_le_of_subperm hs.subperm
    rw [weightList]
    omega
  | cons_cons a _ ih =>
    rw [weightList, weightList]
    have := ih fun h => hlen (by simp [h])
    omega

theorem pending_lt {cond d : Term} (hcond : operands? .logicalOr cond = some xs)
    (hsub : xs'.Sublist xs) (hne : xs' ≠ []) (hlen : xs'.length ≠ xs.length)
    (hd : disjunction xs' = .ok d) : pending d < pending cond := by
  have hlt := weightList_lt hsub hlen
  rw [pending, pending, hcond]
  cases hop : operands? .logicalOr d with
  | none => exact Nat.lt_of_lt_of_le Nat.zero_lt_one (Nat.le_add_right 1 _)
  | some ys =>
    have hw := disjunction_weight hd fun bs e h => by
      rw [h] at hop
      cases hop
    rw [weight_of_operands (.inr rfl) hop] at hw
    have hpos : 1 ≤ weightList xs' := by
      cases xs' with
      | nil => exact absurd rfl hne
      | cons x xs' =>
        have := weight_pos x
        rw [weightList]
        omega
    dsimp only
    omega

section
variable [HashOrder Term]
variable {pc acc : PathCondition} {cond : Term} {conds : List Term}

def falsePC : PathCondition := PersistentSet.add empty falseTerm

/-- The operands of a disjunction that the path condition does not refute. -/
def unrefuted (pc : PathCondition) (xs : List Term) : Except Failure (List Term) :=
  xs.filterM fun x => do .ok (!PersistentSet.contains (← simplifyNegation x) pc)

/-- The stored conditions, with the negation of the new one dropped from every disjunction. -/
def resolve (notCond : Term) (pc : PathCondition) (e : Term) : Except Failure PathCondition :=
  match operands? .logicalOr e with
  | some xs =>
    if notCond ∈ xs then do
      let e' ← disjunction (xs.filter (· ≠ notCond))
      .ok (PersistentSet.add (remove pc e) e')
    else .ok pc
  | none => .ok pc

set_option linter.unusedVariables false in
def add (pc : PathCondition) (cond : Term) : Except Failure PathCondition :=
  if isTrue cond then .ok pc
  else if Term.isFalse cond then .ok falsePC
  else if isFalse pc then .ok falsePC
  else
    match simplifyNegation cond with
    | .error e => .error e
    | .ok notCond =>
      if PersistentSet.contains notCond pc then .ok falsePC
      else
        match hcond : operands? .logicalOr cond with
        | some xs =>
          match hxs : unrefuted pc xs with
          | .error e => .error e
          | .ok xs' =>
            if hne : xs' = [] then .ok falsePC
            else if hlen : xs'.length = xs.length then .ok (PersistentSet.add pc cond)
            else
              match hd : disjunction xs' with
              | .error e => .error e
              | .ok d => add pc d
        | none => do
            let pc' ← (toSeq pc).foldlM (resolve notCond) pc
            .ok (PersistentSet.add pc' cond)
termination_by pending cond
decreasing_by exact pending_lt hcond (filterM_sublist hxs) hne hlen hd

def union (pc1 pc2 : PathCondition) : Except Failure PathCondition := (toSeq pc2).foldlM add pc1

/-- The loop of `PC.mapPC`, which stops at the first contradiction. -/
def addUntilFalse (acc : PathCondition) : List Term → Except Failure PathCondition
  | [] => .ok acc
  | cond :: conds => do
      let acc' ← add acc cond
      if isFalse acc' then .ok falsePC else addUntilFalse acc' conds

def mapPC (mapper : Term → Term) (pc : PathCondition) : Except Failure PathCondition :=
  addUntilFalse empty ((toSeq pc).map mapper)

/-! ### Conjunction -/

section
variable {V : Type} (I : Interp V)
variable {pc : PathCondition} {e t : Term}

omit [HashOrder Term] in
/-- All members of a path condition are true. -/
def Holds (pc : PathCondition) : Prop := ∀ e ∈ toSeq pc, e.holds I = true

theorem mem_toSeq_add :
    t ∈ toSeq (PersistentSet.add pc e) ↔ t = e ∨ t ∈ toSeq pc :=
  PersistentDict.mem_keys_add

omit [HashOrder Term] in
theorem mem_toSeq_remove :
    t ∈ toSeq (remove pc e) ↔ t ≠ e ∧ t ∈ toSeq pc :=
  PersistentDict.mem_keys_remove

omit [HashOrder Term] in
theorem contains_iff :
    PersistentSet.contains e pc = true ↔ e ∈ toSeq pc :=
  PersistentSet.contains_iff

theorem mem_falsePC : t ∈ toSeq falsePC ↔ t = falseTerm := by
  rw [falsePC, mem_toSeq_add]
  simp [toSeq, empty, PersistentDict.keys]

theorem holds_add :
    Holds I (PersistentSet.add pc e) ↔ e.holds I = true ∧ Holds I pc := by
  simp only [Holds, mem_toSeq_add, forall_eq_or_imp]

theorem not_holds_falsePC : ¬ Holds I falsePC := fun h => by
  simpa using h falseTerm (mem_falsePC.mpr rfl)

omit [HashOrder Term] in
theorem not_holds_of_isFalse (h : isFalse pc = true) : ¬ Holds I pc :=
  fun hpc => by simpa using hpc falseTerm (contains_iff.mp h)

end

omit [HashOrder Term] in
/-- All members are conditions. -/
def Conditions (pc : PathCondition) : Prop := ∀ e ∈ toSeq pc, Condition e

omit [HashOrder Term] in
theorem conditions_empty : Conditions empty := fun e he => by cases he

theorem conditions_falsePC : Conditions falsePC := fun e he => by
  rw [mem_falsePC.mp he]
  exact .makeBool false

theorem Conditions.add (h : Conditions pc) {e : Term} (he : Condition e) :
    Conditions (PersistentSet.add pc e) := fun t ht => by
  rcases mem_toSeq_add.mp ht with rfl | ht
  · exact he
  · exact h t ht

omit [HashOrder Term] in
theorem unrefuted_spec (pc : PathCondition) (hxs : ∀ x ∈ xs, Reduced x) :
    ∃ xs', unrefuted pc xs = .ok xs' ∧ xs'.Sublist xs ∧
      ∀ {V : Type} (I : Interp V), Holds I pc → xs'.any (Term.holds I) = xs.any (Term.holds I) := by
  let survives (x : Term) : Bool :=
    (simplifyNegation x).toOption.all fun n => !PersistentSet.contains n pc
  have hfilter : unrefuted pc xs = .ok (xs.filter survives) := by
    refine filterM_ok fun x hx => ?_
    obtain ⟨r, hneg⟩ := (hxs x hx).negates
    simp only [survives, hneg.neg]
    rfl
  refine ⟨_, hfilter, filter_sublist, fun I hpc => ?_⟩
  rw [Bool.eq_iff_iff, any_eq_true, any_eq_true]
  refine exists_congr fun x => and_congr_left fun h => ?_
  rw [mem_filter]
  refine and_iff_left_of_imp fun hx => ?_
  obtain ⟨r, hneg⟩ := (hxs x hx).negates
  simp only [survives, hneg.neg, Except.toOption, Option.all_some, Bool.not_eq_true',
    Bool.eq_false_iff]
  intro hm
  have := hpc r (contains_iff.mp hm)
  rw [hneg.holds, h] at this
  cases this

/-- One stored condition, resolved against the new one: where that holds, nothing changes. -/
theorem resolve_spec {notCond e : Term} (hpc : Conditions pc) (hacc : Conditions acc)
    (he : e ∈ toSeq pc) (hnot : ∀ {V : Type} (I : Interp V), notCond.holds I = !cond.holds I) :
    ∃ acc', resolve notCond acc e = .ok acc' ∧ Conditions acc' ∧
      ∀ {V : Type} (I : Interp V), cond.holds I = true →
        (Holds I pc → Holds I acc → Holds I acc') ∧ (Holds I acc' → Holds I acc) := by
  unfold resolve
  split
  · next xs hxs =>
      split
      · next hmem =>
          obtain ⟨rfl, hr, -, -⟩ := ((hpc e he).reduced_of_operands hxs).of_operands (.inr rfl) hxs
          obtain ⟨e', h₁, h₂, h₃⟩ := disjunction_spec (l := xs.filter (· ≠ notCond))
            fun x hx => (hr x (mem_filter.mp hx).1).condition
          have hiff {V : Type} (I : Interp V) (hc : cond.holds I = true) :
              e'.holds I = true ↔ (expression (.operator .logicalOr) xs .bool).holds I = true := by
            have hn : notCond.holds I = false := by rw [hnot, hc]; rfl
            rw [h₃, holds_disjunction, any_eq_true, any_eq_true]
            refine ⟨fun ⟨x, hx, h⟩ => ⟨x, (mem_filter.mp hx).1, h⟩, fun ⟨x, hx, h⟩ => ⟨x, ?_, h⟩⟩
            refine mem_filter.mpr ⟨hx, ?_⟩
            simpa using fun heq : x = notCond => by simp [heq, hn] at h
          refine ⟨_, by rw [bind_ok h₁], ?_, fun I hc => ⟨fun hp ha => ?_, fun ha => ?_⟩⟩
          · exact Conditions.add (fun t ht => hacc t (mem_toSeq_remove.mp ht).2) h₂
          · refine (holds_add I).mpr ⟨(hiff I hc).mpr (hp _ he), fun t ht => ?_⟩
            exact ha t (mem_toSeq_remove.mp ht).2
          · obtain ⟨he', hrest⟩ := (holds_add I).mp ha
            intro t ht
            by_cases hte : t = .expression (.operator .logicalOr) xs .bool
            · rw [hte]
              exact (hiff I hc).mp he'
            · exact hrest t (mem_toSeq_remove.mpr ⟨hte, ht⟩)
      · exact ⟨acc, rfl, hacc, fun I _ => ⟨fun _ h => h, id⟩⟩
  · exact ⟨acc, rfl, hacc, fun I _ => ⟨fun _ h => h, id⟩⟩

theorem falsePC_spec (h : ∀ {V : Type} (I : Interp V), ¬ (Holds I pc ∧ cond.holds I = true)) :
    ∃ pc', (.ok falsePC : Except Failure PathCondition) = .ok pc' ∧ Conditions pc' ∧
      ∀ {V : Type} (I : Interp V), Holds I pc' ↔ Holds I pc ∧ cond.holds I = true :=
  ⟨_, rfl, conditions_falsePC, fun I => iff_of_false (not_holds_falsePC I) (h I)⟩

/-- On conditions `PC.add` never fails and means conjunction. -/
theorem add_spec (hpc : Conditions pc) (hcond : Condition cond) :
    ∃ pc', add pc cond = .ok pc' ∧ Conditions pc' ∧
      ∀ {V : Type} (I : Interp V), Holds I pc' ↔ Holds I pc ∧ cond.holds I = true := by
  induction hn : pending cond using Nat.strong_induction_on generalizing cond with
  | h n ih =>
  subst hn
  unfold add
  split
  · next h =>
      rw [isTrue_iff.mp h]
      exact ⟨pc, rfl, hpc, fun I => by simp⟩
  split
  · next h =>
      refine falsePC_spec fun I hh => ?_
      simp [isFalse_iff.mp h] at hh
  split
  · next h => exact falsePC_spec fun I hh => not_holds_of_isFalse I h hh.1
  obtain ⟨notCond, h₁, h₂, h₃⟩ := simplifyNegation_spec hcond
  rw [h₁]
  dsimp only
  split
  · next h =>
      refine falsePC_spec fun I hh => ?_
      have := hh.1 notCond (contains_iff.mp h)
      rw [h₃, hh.2] at this
      cases this
  split
  · next xs hxs =>
      obtain ⟨rfl, hr, -, -⟩ := (hcond.reduced_of_operands hxs).of_operands (.inr rfl) hxs
      obtain ⟨xs', h₄, hsub, h₅⟩ := unrefuted_spec pc hr
      rw [h₄]
      dsimp only
      split
      · next hnil =>
          refine falsePC_spec fun I hh => ?_
          have := h₅ I hh.1
          rw [hnil, ← holds_disjunction I xs, hh.2] at this
          cases this
      next hne =>
      split
      · exact ⟨_, rfl, hpc.add hcond, fun I => by rw [holds_add, and_comm]⟩
      next hlen =>
      obtain ⟨d, h₆, h₇, h₈⟩ := disjunction_spec fun x hx => (hr x (hsub.subset hx)).condition
      rw [h₆]
      dsimp only
      have hiff {V : Type} (I : Interp V) (hp : Holds I pc) :
          d.holds I = (expression (.operator .logicalOr) xs .bool).holds I := by
        rw [h₈, h₅ I hp, holds_disjunction]
      obtain ⟨pc', h₉, h₁₀, h₁₁⟩ := ih _ (pending_lt hxs hsub hne hlen h₆) h₇ rfl
      refine ⟨pc', h₉, h₁₀, fun I => ?_⟩
      rw [h₁₁]
      exact and_congr_right fun hp => by rw [hiff I hp]
  · obtain ⟨acc, h₄, h₅, h₆⟩ := foldlM_ok (f := resolve notCond) (l := toSeq pc) (d := [])
      (b := pc) (P := fun _ acc => Conditions acc ∧
        ∀ {V : Type} (I : Interp V), cond.holds I = true → (Holds I acc ↔ Holds I pc))
      (fun done acc e he hinv => by
        obtain ⟨acc', h₄, h₅, h₆⟩ := resolve_spec hpc hinv.1 he h₃
        refine ⟨acc', h₄, h₅, fun I hc => ?_⟩
        obtain ⟨hto, hback⟩ := h₆ I hc
        exact ⟨fun h => (hinv.2 I hc).mp (hback h), fun h => hto h ((hinv.2 I hc).mpr h)⟩)
      ⟨hpc, fun I _ => Iff.rfl⟩
    refine ⟨_, by rw [bind_ok h₄], h₅.add hcond, fun I => ?_⟩
    rw [holds_add, and_comm]
    exact and_congr_left fun hc => h₆ I hc

theorem foldlM_add_spec (hpc : Conditions pc) (hconds : ∀ c ∈ conds, Condition c) :
    ∃ pc', conds.foldlM add pc = .ok pc' ∧ Conditions pc' ∧ ∀ {V : Type} (I : Interp V),
      Holds I pc' ↔ Holds I pc ∧ ∀ c ∈ conds, c.holds I = true := by
  obtain ⟨pc', h₁, h₂, h₃⟩ := foldlM_ok (f := add) (l := conds) (d := []) (b := pc)
    (P := fun done pc' => Conditions pc' ∧ ∀ {V : Type} (I : Interp V),
      Holds I pc' ↔ Holds I pc ∧ ∀ c ∈ done, c.holds I = true)
    (fun done acc c hc hinv => by
      obtain ⟨acc', h₁, h₂, h₃⟩ := add_spec hinv.1 (hconds c hc)
      refine ⟨acc', h₁, h₂, fun I => ?_⟩
      rw [h₃, hinv.2]
      simp only [mem_append, mem_singleton, or_imp, forall_and, forall_eq, and_assoc])
    ⟨hpc, fun I => by simp⟩
  exact ⟨pc', h₁, h₂, h₃⟩

/-- `PC.union` means conjunction. -/
theorem union_spec {pc1 pc2 : PathCondition} (h1 : Conditions pc1) (h2 : Conditions pc2) :
    ∃ pc', union pc1 pc2 = .ok pc' ∧ Conditions pc' ∧
      ∀ {V : Type} (I : Interp V), Holds I pc' ↔ Holds I pc1 ∧ Holds I pc2 :=
  foldlM_add_spec h1 h2

theorem addUntilFalse_spec (hacc : Conditions acc) (hconds : ∀ c ∈ conds, Condition c) :
    ∃ pc', addUntilFalse acc conds = .ok pc' ∧ Conditions pc' ∧ ∀ {V : Type} (I : Interp V),
      Holds I pc' ↔ Holds I acc ∧ ∀ c ∈ conds, c.holds I = true := by
  induction conds generalizing acc with
  | nil => exact ⟨acc, rfl, hacc, fun I => by simp⟩
  | cons c conds ih =>
    obtain ⟨acc', h₁, h₂, h₃⟩ := add_spec hacc (hconds c mem_cons_self)
    rw [addUntilFalse, bind_ok h₁]
    split
    · next hf =>
        refine ⟨_, rfl, conditions_falsePC, fun I => iff_of_false (not_holds_falsePC I) ?_⟩
        rintro ⟨ha, hc⟩
        exact not_holds_of_isFalse I hf ((h₃ I).mpr ⟨ha, hc c mem_cons_self⟩)
    · obtain ⟨pc', h₄, h₅, h₆⟩ := ih h₂ fun d hd => hconds d (mem_cons_of_mem _ hd)
      refine ⟨pc', h₄, h₅, fun I => ?_⟩
      rw [h₆, h₃, forall_mem_cons, and_assoc]

/-- `PC.mapPC` means the conjunction of the mapped members. -/
theorem mapPC_spec {mapper : Term → Term} (hm : ∀ e ∈ toSeq pc, Condition (mapper e)) :
    ∃ pc', mapPC mapper pc = .ok pc' ∧ Conditions pc' ∧
      ∀ {V : Type} (I : Interp V), Holds I pc' ↔ ∀ e ∈ toSeq pc, (mapper e).holds I = true := by
  obtain ⟨pc', h₁, h₂, h₃⟩ := addUntilFalse_spec conditions_empty (forall_mem_map.mpr hm)
  refine ⟨pc', h₁, h₂, fun I => ?_⟩
  rw [h₃, forall_mem_map]
  exact ⟨And.right, fun h => ⟨fun e he => (by cases he), h⟩⟩

/-! ### Sequences of operations -/

/-- Every addition of a run, up to the first contradiction, satisfies `P`. -/
def Along (P : PathCondition → Term → Prop) (pc : PathCondition) : List Term → Prop
  | [] => True
  | cond :: conds => P pc cond ∧ ∀ pc', add pc cond = .ok pc' → isFalse pc' = false →
      Along P pc' conds

/-- The path conditions built from `empty` by `add`, `union` and `mapPC`, every addition, also
those that `union` and `mapPC` make, satisfying `P`. -/
inductive Reach (P : PathCondition → Term → Prop) : PathCondition → Prop where
  | empty : Reach P empty
  | add {pc pc' : PathCondition} {cond : Term} (h : Reach P pc) (hP : P pc cond)
      (hadd : add pc cond = .ok pc') : Reach P pc'
  | union {pc1 pc2 pc' : PathCondition} (h1 : Reach P pc1) (h2 : Reach P pc2)
      (hP : Along P pc1 (toSeq pc2)) (hunion : union pc1 pc2 = .ok pc') : Reach P pc'
  | mapPC {pc pc' : PathCondition} {mapper : Term → Term} (h : Reach P pc)
      (hP : Along P PC.empty ((toSeq pc).map mapper)) (hmap : mapPC mapper pc = .ok pc') : Reach P pc'

theorem conditions_addUntilFalse {pc' : PathCondition} (hacc : Conditions acc)
    (hP : Along (fun _ c => Condition c) acc conds) (h : addUntilFalse acc conds = .ok pc') :
    Conditions pc' := by
  induction conds generalizing acc with
  | nil =>
    cases h
    exact hacc
  | cons c conds ih =>
    obtain ⟨hc, hrest⟩ := hP
    obtain ⟨acc', h₁, h₂, -⟩ := add_spec hacc hc
    rw [addUntilFalse, bind_ok h₁] at h
    split at h
    · cases h
      exact conditions_falsePC
    · next hf => exact ih h₂ (hrest acc' h₁ (by simpa using hf)) h

/-- A path condition built from conditions has only conditions. -/
theorem Reach.conditions (h : Reach (fun _ c => Condition c) pc) :
    Conditions pc := by
  induction h with
  | empty => exact conditions_empty
  | add _ hP hadd ih =>
    obtain ⟨pc', h₁, h₂, -⟩ := add_spec ih hP
    exact Except.ok.inj (h₁.symm.trans hadd) ▸ h₂
  | union _ _ _ hunion ih1 ih2 =>
    obtain ⟨pc', h₁, h₂, -⟩ := union_spec ih1 ih2
    exact Except.ok.inj (h₁.symm.trans hunion) ▸ h₂
  | mapPC _ hP hmap _ =>
    exact conditions_addUntilFalse conditions_empty hP hmap

/-- A call that returns a path condition with the given meaning, and `False` only where that is
unsatisfiable. -/
def Means (res : Except Failure PathCondition) (meaning : ∀ {V : Type}, Interp V → Prop) : Prop :=
  ∃ pc', res = .ok pc' ∧ (∀ {V : Type} (I : Interp V), Holds I pc' ↔ meaning I) ∧
    (isFalse pc' = true → ∀ {V : Type} (I : Interp V), ¬ meaning I)

omit [HashOrder Term] in
theorem Means.of_spec {res : Except Failure PathCondition}
    {meaning : ∀ {V : Type}, Interp V → Prop}
    (h : ∃ pc', res = .ok pc' ∧ Conditions pc' ∧
      ∀ {V : Type} (I : Interp V), Holds I pc' ↔ meaning I) : Means res meaning := by
  obtain ⟨pc', h₁, -, h₃⟩ := h
  exact ⟨pc', h₁, h₃, fun hf _ I hm => not_holds_of_isFalse I hf ((h₃ I).mpr hm)⟩

/-- Along every sequence of operations on conditions, each operation means conjunction. -/
theorem reach_conjunction {pc pc2 : PathCondition} {cond : Term} {mapper : Term → Term}
    (hpc : Reach (fun _ c => Condition c) pc) (hpc2 : Reach (fun _ c => Condition c) pc2)
    (hcond : Condition cond) (hmapper : ∀ e ∈ toSeq pc, Condition (mapper e)) :
    Means (add pc cond) (fun I => Holds I pc ∧ cond.holds I = true) ∧
    Means (union pc pc2) (fun I => Holds I pc ∧ Holds I pc2) ∧
    Means (mapPC mapper pc) (fun I => ∀ e ∈ toSeq pc, (mapper e).holds I = true) :=
  ⟨.of_spec (add_spec hpc.conditions hcond), .of_spec (union_spec hpc.conditions hpc2.conditions),
    .of_spec (mapPC_spec hmapper)⟩

end

/-- Dictionaries that enumerate in insertion order. -/
@[reducible]
def insertionOrder : HashOrder Term := ⟨fun _ => 0⟩

theorem reach_constant (n : ℕ) : letI := insertionOrder
    Reach (fun _ c => Condition c) [(boolConstant n, 0)] := by
  let _ := insertionOrder
  have hadd : add empty (boolConstant n) = .ok [(boolConstant n, 0)] := by
    simp [add, boolConstant, Term.isTrue, Term.isFalse, isFalse, simplifyNegation, operands?, toSeq]
    rfl
  exact .add .empty (Reduced.atom rfl).condition hadd

/-- Three constants: `b` added to `{a}`, the union with `{c}`, and the negated members. -/
theorem reach_conjunction_constants :
    let a := boolConstant 0
    let b := boolConstant 1
    let c := boolConstant 2
    letI := insertionOrder
    Means (add [(a, 0)] b) (fun I => Holds I [(a, 0)] ∧ b.holds I = true) ∧
    Means (union [(a, 0)] [(c, 0)]) (fun I => Holds I [(a, 0)] ∧ Holds I [(c, 0)]) ∧
    Means (mapPC negate [(a, 0)]) (fun I => ∀ e ∈ toSeq [(a, 0)], (negate e).holds I = true) := by
  intro a b c
  let _ := insertionOrder
  refine reach_conjunction (reach_constant 0) (reach_constant 2) (Reduced.atom rfl).condition
    fun e he => ?_
  rw [show e = a from mem_singleton.mp he]
  exact (Reduced.negated rfl).condition

/-! ### The invariants of the representation -/

/-- "PC does not contain True; if PC contains False then False is the only element in PC". -/
def Invariant (pc : PathCondition) : Prop :=
  trueTerm ∉ toSeq pc ∧ (falseTerm ∈ toSeq pc → toSeq pc = [falseTerm])

/-- Adding the condition drops its negation from a stored disjunction of which only a truth value is
left. -/
inductive Collapse (pc : PathCondition) : Term → Prop where
  | resolved {cond notCond e : Term} {xs : List Term} {b : Bool}
      (hcond : operands? .logicalOr cond = none) (hnot : simplifyNegation cond = .ok notCond)
      (he : e ∈ toSeq pc) (hxs : operands? .logicalOr e = some xs) (hmem : notCond ∈ xs)
      (hb : disjunction (xs.filter (· ≠ notCond)) = .ok (makeBool b)) : Collapse pc cond
  | shortened {cond d : Term} {xs xs' : List Term} (hcond : operands? .logicalOr cond = some xs)
      (hxs : unrefuted pc xs = .ok xs') (hlen : xs'.length ≠ xs.length)
      (hd : disjunction xs' = .ok d) (h : Collapse pc d) : Collapse pc cond

/-- No member is a truth value. -/
def Undecided (pc : PathCondition) : Prop := ∀ b, makeBool b ∉ toSeq pc

theorem Undecided.invariant (h : Undecided pc) : Invariant pc :=
  ⟨h true, fun hf => absurd hf (h false)⟩

theorem Invariant.undecided (h : Invariant pc) (hf : isFalse pc = false) : Undecided pc
  | true => h.1
  | false => fun hmem => by
      have : isFalse pc = true := contains_iff.mpr hmem
      rw [this] at hf
      cases hf

theorem invariant_empty : Invariant empty := ⟨not_mem_nil, fun h => by cases h⟩

section
variable [HashOrder Term]
variable {pc acc pc' acc' : PathCondition} {cond e notCond : Term} {conds : List Term}

theorem invariant_falsePC : Invariant falsePC :=
  ⟨fun h => absurd (mem_falsePC.mp h) (by decide), fun _ => rfl⟩

theorem Undecided.add (h : Undecided pc) (he : ∀ b, e ≠ makeBool b) :
    Undecided (PersistentSet.add pc e) := fun b hb => by
  rcases mem_toSeq_add.mp hb with hb | hb
  · exact he b hb.symm
  · exact h b hb

section
variable (hcond : operands? .logicalOr cond = none) (hnot : simplifyNegation cond = .ok notCond)
  (hsafe : ¬ Collapse pc cond)

include hcond hnot hsafe

/-- Resolving one stored condition leaves no truth value. -/
theorem undecided_resolve (he : e ∈ toSeq pc) (hacc : Undecided acc)
    (h : resolve notCond acc e = .ok acc') : Undecided acc' := by
  unfold resolve at h
  split at h
  · next xs hxs =>
      split at h
      · next hmem =>
          obtain ⟨e', h₁, h₂⟩ := bind_eq_ok h
          cases h₂
          have hrest : Undecided (remove acc e) := fun b hb =>
            hacc b (mem_toSeq_remove.mp hb).2
          refine hrest.add fun b hb => hsafe ?_
          exact .resolved hcond hnot he hxs hmem (hb ▸ h₁)
      · cases h
        exact hacc
  · cases h
    exact hacc

theorem undecided_foldlM_resolve {es : List Term} (hes : ∀ e ∈ es, e ∈ toSeq pc)
    (hacc : Undecided acc) (h : es.foldlM (resolve notCond) acc = .ok acc') : Undecided acc' := by
  induction es generalizing acc with
  | nil =>
    cases h
    exact hacc
  | cons e es ih =>
    rw [foldlM_cons] at h
    obtain ⟨acc₁, h₁, h₂⟩ := bind_eq_ok h
    have hstep := undecided_resolve hcond hnot hsafe (hes e mem_cons_self) hacc h₁
    exact ih (fun e' he' => hes e' (mem_cons_of_mem _ he')) hstep h₂

end

/-- One addition that collapses no stored disjunction keeps the invariants. -/
theorem add_invariant (hpc : Invariant pc) (hsafe : ¬ Collapse pc cond)
    (h : add pc cond = .ok pc') : Invariant pc' := by
  induction hn : pending cond using Nat.strong_induction_on generalizing cond with
  | h n ih =>
  subst hn
  unfold add at h
  split at h
  · cases h
    exact hpc
  next htrue =>
  split at h
  · cases h
    exact invariant_falsePC
  next hfalse =>
  split at h
  · cases h
    exact invariant_falsePC
  next hpcf =>
  have hcond : ∀ b, cond ≠ makeBool b := by
    rintro (_ | _) rfl
    · exact hfalse rfl
    · exact htrue rfl
  have hund := hpc.undecided (by simpa using hpcf)
  split at h
  · cases h
  next notCond hnot =>
  split at h
  · cases h
    exact invariant_falsePC
  split at h
  · next xs hxs =>
      split at h
      · cases h
      next xs' hxs' =>
      split at h
      · cases h
        exact invariant_falsePC
      next hne =>
      split at h
      · cases h
        exact (hund.add hcond).invariant
      next hlen =>
      split at h
      · cases h
      next d hd =>
      have hlt := pending_lt hxs (filterM_sublist hxs') hne hlen hd
      exact ih _ hlt (fun hc => hsafe (.shortened hxs hxs' hlen hd hc)) h rfl
  · next hlit =>
      obtain ⟨acc, h₁, h₂⟩ := bind_eq_ok h
      cases h₂
      exact ((undecided_foldlM_resolve hlit hnot hsafe (fun _ he => he) hund h₁).add hcond).invariant

theorem add_of_isFalse (hf : isFalse pc = true) (h : add pc cond = .ok pc') :
    pc' = pc ∨ pc' = falsePC := by
  unfold add at h
  rw [if_pos hf] at h
  split at h
  · cases h
    exact .inl rfl
  split at h
  · cases h
    exact .inr rfl
  · cases h
    exact .inr rfl

theorem isFalse_falsePC : isFalse falsePC = true := contains_iff.mpr (mem_falsePC.mpr rfl)

theorem foldlM_add_of_isFalse (hpc : Invariant pc) (hf : isFalse pc = true)
    (h : conds.foldlM add pc = .ok pc') : Invariant pc' := by
  induction conds generalizing pc with
  | nil =>
    cases h
    exact hpc
  | cons cond conds ih =>
    rw [foldlM_cons] at h
    obtain ⟨acc, h₁, h₂⟩ := bind_eq_ok h
    rcases add_of_isFalse hf h₁ with rfl | rfl
    · exact ih hpc hf h₂
    · exact ih invariant_falsePC isFalse_falsePC h₂

theorem foldlM_add_invariant (hpc : Invariant pc)
    (hsafe : Along (fun pc cond => ¬ Collapse pc cond) pc conds)
    (h : conds.foldlM add pc = .ok pc') : Invariant pc' := by
  induction conds generalizing pc with
  | nil =>
    cases h
    exact hpc
  | cons cond conds ih =>
    rw [foldlM_cons] at h
    obtain ⟨acc, h₁, h₂⟩ := bind_eq_ok h
    have hacc := add_invariant hpc hsafe.1 h₁
    cases hf : isFalse acc with
    | true => exact foldlM_add_of_isFalse hacc hf h₂
    | false => exact ih hacc (hsafe.2 acc h₁ hf) h₂

theorem addUntilFalse_invariant (hacc : Invariant acc)
    (hsafe : Along (fun pc cond => ¬ Collapse pc cond) acc conds)
    (h : addUntilFalse acc conds = .ok pc') : Invariant pc' := by
  induction conds generalizing acc with
  | nil =>
    cases h
    exact hacc
  | cons cond conds ih =>
    rw [addUntilFalse] at h
    obtain ⟨acc', h₁, h₂⟩ := bind_eq_ok h
    split at h₂
    · cases h₂
      exact invariant_falsePC
    · next hf =>
        exact ih (add_invariant hacc hsafe.1 h₁) (hsafe.2 acc' h₁ (by simpa using hf)) h₂

/-- The invariants hold of every path condition built by `add`, `union` and `mapPC`, whatever the
conditions, as long as no addition collapses a stored disjunction. -/
theorem reach_invariant {pc : PathCondition}
    (h : Reach (fun pc cond => ¬ Collapse pc cond) pc) : Invariant pc := by
  induction h with
  | empty => exact invariant_empty
  | add _ hP hadd ih => exact add_invariant ih hP hadd
  | union _ _ hP hunion ih1 _ => exact foldlM_add_invariant ih1 hP hunion
  | mapPC _ hP hmap _ => exact addUntilFalse_invariant invariant_empty hP hmap

end

theorem not_collapse_empty (cond : Term) : ¬ Collapse empty cond := fun h => by
  induction h with
  | resolved _ _ he => cases he
  | shortened _ _ _ _ _ ih => exact ih

/-- `¬a` added to `{a ∨ b}`. -/
theorem reach_invariant_resolved : letI := insertionOrder
    Reach (fun pc cond => ¬ Collapse pc cond) [(boolConstant 1, 0), (negate (boolConstant 0), 0)] ∧
      Invariant [(boolConstant 1, 0), (negate (boolConstant 0), 0)] := by
  let _ := insertionOrder
  let a := boolConstant 0
  let b := boolConstant 1
  let clause : Term := .expression (.operator .logicalOr) [a, b] .bool
  have hpc : add empty clause = .ok [(clause, 0)] := by decide +kernel
  have hres : add [(clause, 0)] (negate a) = .ok [(b, 0), (negate a, 0)] := by decide +kernel
  have hsafe : ¬ Collapse [(clause, 0)] (negate a) := fun h => by
    cases h with
    | resolved _ hnot he hxs _ hb =>
      cases hnot
      obtain rfl := mem_singleton.mp he
      cases hxs
      have : disjunction ([a, b].filter (· ≠ a)) = .ok b := by decide +kernel
      exact absurd (Except.ok.inj (this.symm.trans hb)) ((Reduced.atom rfl).ne_makeBool _)
    | shortened hcond => cases hcond
  have hreach : Reach (fun pc cond => ¬ Collapse pc cond) [(b, 0), (negate a, 0)] :=
    .add (.add .empty (not_collapse_empty clause) hpc) hsafe hres
  exact ⟨hreach, reach_invariant hreach⟩

/-- `(a ∨ b) ∨ ¬a` is stored as it stands; adding `¬b` leaves `True` of it. -/
theorem add_tautology : letI := insertionOrder
    ¬ ∀ pc, Reach (fun _ c => Built (fun _ _ => True) c) pc → Invariant pc := by
  let _ := insertionOrder
  intro h
  let a := boolConstant 0
  let b := boolConstant 1
  let clause : Term := .expression (.operator .logicalOr) [negate a, a, b] .bool
  have hatom (n : ℕ) : Built (fun _ _ => True) (boolConstant n) := .atom rfl
  have hor : simplifyOr a b = .ok (.expression (.operator .logicalOr) [a, b] .bool) := by
    decide +kernel
  have hclause : simplifyOr (.expression (.operator .logicalOr) [a, b] .bool) (negate a) =
      .ok clause := by
    decide +kernel
  have hpc : add empty clause = .ok [(clause, 0)] := by decide +kernel
  have hres : add [(clause, 0)] (negate b) = .ok [(trueTerm, 0), (negate b, 0)] := by
    decide +kernel
  have hbuilt : Built (fun _ _ => True) clause :=
    .or (.or (hatom 0) (hatom 1) hor) (.not (hatom 0) rfl) hclause
  exact (h _ (.add (.add .empty hbuilt hpc) (.not (hatom 1) rfl) hres)).1 (by decide)

end PC

end VSharp
