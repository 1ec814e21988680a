import VSharp.Core.MergeValue
import VSharp.Core.PathCondition

/-!
# Core — Guarded application

The functions of `VSharp.SILI.Core/Merging.fs` that apply a function to the values of a union, and
merge what it gives.  With a path condition, the branches that contradict it are dropped.

- continuations are left out: each function calls its continuation once, at the end;
- `merge` is a parameter of the functions, as it is in the source.
-/

namespace VSharp.Merging
open Term Propositional Library List

/-! ### Application -/

section
variable (f : Term → Term) (merge : IteType → Except Failure Term)

/-- `commonGuardedMapk`. -/
def commonGuardedMap (iteType : IteType) : Except Failure Term :=
  merge ⟨iteType.branches.map fun b => (b.1, f b.2), f iteType.elseValue⟩

/-- `commonGuardedApplyk`. -/
def commonGuardedApply : Term → Except Failure Term
  | .ite branches elseValue => commonGuardedMap f merge ⟨branches, elseValue⟩
  | term => .ok (f term)

section
variable [HashOrder Term] (pc : PathCondition)

/-- `chooser` of `commonGuardedMapkWithPC`, over the branches. -/
def choose : List (Term × Term) → Except Failure (List (Term × Term))
  | [] => .ok []
  | (g, v) :: branches => do
      let pc' ← PC.add pc g
      let rest ← choose branches
      .ok (if PC.isFalse pc' then rest else (g, f v) :: rest)

/-- `commonGuardedMapkWithPC`. -/
def commonGuardedMapWithPC (iteType : IteType) : Except Failure Term := do
  let branches' ← choose f pc iteType.branches
  merge ⟨branches', f iteType.elseValue⟩

/-- `commonGuardedApplykWithPC`. -/
def commonGuardedApplyWithPC : Term → Except Failure Term
  | .ite branches elseValue => commonGuardedMapWithPC f merge pc ⟨branches, elseValue⟩
  | term => .ok (f term)

end

end

section
variable [HashOrder FieldId]

def guardedApply (f : Term → Term) (term : Term) : Except Failure Term :=
  commonGuardedApply f merge term

def guardedApplyWithPC [HashOrder Term] (pc : PathCondition) (f : Term → Term) (term : Term) :
    Except Failure Term :=
  commonGuardedApplyWithPC f merge pc term

end

/-! ### Which branches are dropped -/

section
variable [HashOrder Term] {pc : PathCondition} {f : Term → Term} {branches : List (Term × Term)}

/-- The branches whose guards `PC.add` does not refute. -/
def kept (pc : PathCondition) (branches : List (Term × Term)) :
    Except Failure (List (Term × Term)) :=
  choose id pc branches

theorem choose_eq (f : Term → Term) (pc : PathCondition) (branches : List (Term × Term)) :
    choose f pc branches = (kept pc branches).map (List.map fun b => (b.1, f b.2)) := by
  induction branches with
  | nil => rfl
  | cons b branches ih =>
    rw [kept, choose, choose, ih, kept]
    cases PC.add pc b.1 with
    | error err => rfl
    | ok pc' =>
      cases choose id pc branches with
      | error err => rfl
      | ok rest =>
        change Except.ok _ = Except.ok _
        split <;> rfl

/-- What is applied with a path condition: the function, to the branches that are kept. -/
theorem guardedApplyWithPC_eq {merge : IteType → Except Failure Term} {rest : List (Term × Term)}
    {e : Term} (hkept : kept pc branches = .ok rest) :
    commonGuardedApplyWithPC f merge pc (.ite branches e)
      = merge ⟨rest.map fun b => (b.1, f b.2), f e⟩ := by
  rw [commonGuardedApplyWithPC, commonGuardedMapWithPC, choose_eq, hkept]
  rfl

/-- Where guards and path condition are conditions, no branch is dropped whose guard is true. -/
theorem kept_conditions {V : Type} {I : Interp V} (hpc : PC.Conditions pc) (hI : PC.Holds I pc)
    (hguards : ∀ b ∈ branches, Condition b.1) (e : Term) :
    ∃ rest, kept pc branches = .ok rest ∧ chosen I ⟨rest, e⟩ = chosen I ⟨branches, e⟩ := by
  induction branches with
  | nil => exact ⟨[], rfl, rfl⟩
  | cons b branches ih =>
    obtain ⟨hb, hguards⟩ := forall_mem_cons.mp hguards
    obtain ⟨rest, hrest, hchosen⟩ := ih hguards
    obtain ⟨pc', hadd, -, hholds⟩ := PC.add_spec hpc hb
    rw [kept] at hrest
    refine ⟨if PC.isFalse pc' then rest else b :: rest, ?_, ?_⟩
    · rw [kept, choose, bind_ok hadd, bind_ok hrest]
      rfl
    · cases hfalse : PC.isFalse pc' with
      | false =>
        cases hbI : b.1.holds I <;> simp [chosen, hbI] at hchosen ⊢
        exact hchosen
      | true =>
        have hbI : b.1.holds I = false := by
          refine Bool.eq_false_iff.mpr fun hbI => ?_
          exact PC.not_holds_of_isFalse I hfalse ((hholds I).mpr ⟨hI, hbI⟩)
        simp [chosen, hbI] at hchosen ⊢
        exact hchosen

end

/-! ### The value that is applied to -/

section
variable {V : Type} (I : Interp V)

/-- `merge` returns for a union, and keeps its value. -/
def PreservesAt (merge : IteType → Except Failure Term) (ite : IteType) : Prop :=
  ∃ r, merge ite = .ok r ∧ r.eval I = (chosen I ite).eval I

/-- `merge` returns, and keeps the value of every union. -/
def Preserves (merge : IteType → Except Failure Term) : Prop := ∀ ite, PreservesAt I merge ite

/-- The union whose branches are `rest`, with `f` applied to its values. -/
def applied (f : Term → Term) (rest : List (Term × Term)) (elseValue : Term) : IteType :=
  ⟨rest.map fun b => (b.1, f b.2), f elseValue⟩

/-- The call returns a term with the value of `f` applied to the selected value. -/
def Selects (f : Term → Term) (t : Term) (res : Except Failure Term) : Prop :=
  ∃ r, res = .ok r ∧ r.eval I = (f (chosen I (unguard t))).eval I

variable {I} {merge : IteType → Except Failure Term} {t : Term} {rest : List (Term × Term)}
  {f : Term → Term}

theorem commonGuardedApply_selects
    (hmerge : PreservesAt I merge (applied f (unguard t).branches (unguard t).elseValue)) :
    Selects I f t (commonGuardedApply f merge t) := by
  cases t with
  | ite branches e =>
    obtain ⟨r, hr, hvalue⟩ := hmerge
    exact ⟨r, hr, hvalue.trans (congrArg (eval I) (chosen_map I f ⟨branches, e⟩))⟩
  | _ => exact ⟨_, rfl, rfl⟩

variable [HashOrder Term] {pc : PathCondition}

/-- With a path condition, as far as the kept branches select the same value. -/
theorem commonGuardedApplyWithPC_selects (hkept : kept pc (unguard t).branches = .ok rest)
    (hsame : chosen I ⟨rest, (unguard t).elseValue⟩ = chosen I (unguard t))
    (hmerge : PreservesAt I merge (applied f rest (unguard t).elseValue)) :
    Selects I f t (commonGuardedApplyWithPC f merge pc t) := by
  cases t with
  | ite branches e =>
    obtain ⟨r, hr, hvalue⟩ := hmerge
    refine ⟨r, (guardedApplyWithPC_eq hkept).trans hr, hvalue.trans (congrArg (eval I) ?_)⟩
    exact (chosen_map I f ⟨rest, e⟩).trans (congrArg f hsame)
  | _ => exact ⟨_, rfl, rfl⟩

end

/-! ### What is merged is flat -/

section
variable {P : Term → Prop}
variable {bs : List (Term × Term)} {ite acc res : IteType} {e v : Term}

/-- A value that is a union, to any depth, of leaves with `P`. -/
inductive Nested (P : Term → Prop) : Term → Prop where
  | leaf {v : Term} (hv : NotIte v) (h : P v) : Nested P v
  | ite {bs : List (Term × Term)} {e : Term} (values : ∀ b ∈ bs, Nested P b.2)
      (elseValue : Nested P e) : Nested P (.ite bs e)

theorem Nested.of_ite (h : Nested P (.ite bs e)) : (∀ b ∈ bs, Nested P b.2) ∧ Nested P e := by
  cases h with
  | leaf hv => exact absurd rfl (hv bs e)
  | ite values elseValue => exact ⟨values, elseValue⟩

theorem Nested.of_notIte (h : Nested P v) (hv : NotIte v) : P v := by
  cases h with
  | leaf _ h => exact h
  | ite => exact absurd rfl (hv _ _)

/-- All values of the union are leaves. -/
structure Leaves (P : Term → Prop) (ite : IteType) : Prop where
  branches : ∀ b ∈ ite.branches, NotIte b.2 ∧ P b.2
  elseValue : NotIte ite.elseValue ∧ P ite.elseValue

theorem Leaves.append (h : Leaves P ite) (hbs : ∀ b ∈ bs, NotIte b.2 ∧ P b.2)
    (hacc : Leaves P acc) :
    Leaves P ⟨ite.branches ++ bs ++ acc.branches, acc.elseValue⟩ where
  branches b hb := by
    rcases mem_append.mp hb with hb | hb
    · exact (mem_append.mp hb).elim (h.branches b) (hbs b)
    · exact hacc.branches b hb
  elseValue := hacc.elseValue

/-- Flattening with the hypothesis of the induction: unions of less bulk are flattened. -/
theorem folder_leaves {g : Term}
    (ih : ∀ bs e res, bulkBranches bs + bulk e < bulk v → (∀ b ∈ bs, Nested P b.2) → Nested P e →
      simplify bs e = .ok res → Leaves P res) (hv : Nested P v) (hacc : Leaves P acc)
    (h : folder g v acc = .ok res) : Leaves P res := by
  rcases notIte_or v with hleaf | ⟨bs, e, rfl⟩
  · rw [folder_leaf hleaf] at h
    have hP : NotIte v ∧ P v := ⟨hleaf, hv.of_notIte hleaf⟩
    cases h
    split
    · exact ⟨nofun, hP⟩
    split
    · exact hacc
    · exact ⟨forall_mem_cons.mpr ⟨hP, hacc.branches⟩, hacc.elseValue⟩
  · obtain ⟨hbs, he⟩ := hv.of_ite
    rw [folder_ite] at h
    split at h
    · exact ih bs e res (by rw [bulk]; omega) hbs he h
    split at h
    · cases h
      exact hacc
    obtain ⟨guarded, hguarded, h⟩ := bind_eq_ok h
    obtain ⟨simplified, hsimplified, h⟩ := bind_eq_ok h
    cases h
    have hbulk := guardBranches_bulk hguarded
    have hvalues : ∀ b ∈ guarded, Nested P b.2 := by
      intro b hb
      have hmem := mem_map_of_mem (f := Prod.snd) hb
      rw [guardBranches_values hguarded] at hmem
      obtain ⟨b', hb', heq⟩ := mem_map.mp hmem
      exact heq ▸ hbs b' hb'
    have hleaves := ih guarded e simplified (by rw [bulk]; omega) hvalues he hsimplified
    have hrest : ∀ b ∈ [(g, simplified.elseValue)], NotIte b.2 ∧ P b.2 :=
      fun b hb => mem_singleton.mp hb ▸ hleaves.elseValue
    have happend := hleaves.append hrest hacc
    rwa [append_assoc, singleton_append] at happend

theorem foldrM_folder_leaves
    (ih : ∀ bs' e res, bulkBranches bs' + bulk e < bulkBranches bs → (∀ b ∈ bs', Nested P b.2) →
      Nested P e → simplify bs' e = .ok res → Leaves P res) (hbs : ∀ b ∈ bs, Nested P b.2)
    (hacc : Leaves P acc) (h : bs.foldrM (fun gv acc => folder gv.1 gv.2 acc) acc = .ok res) :
    Leaves P res := by
  induction bs generalizing res with
  | nil =>
    cases h
    exact hacc
  | cons b bs ihbs =>
    obtain ⟨hb, hbs⟩ := forall_mem_cons.mp hbs
    rw [foldrM_cons] at h
    obtain ⟨acc', hacc', h⟩ := bind_eq_ok h
    simp only [bulkBranches] at ih
    have hrest := ihbs (fun bs' e res hlt => ih bs' e res (by omega)) hbs hacc'
    exact folder_leaves (fun bs' e res hlt => ih bs' e res (by omega)) hb hrest h

/-- `simplify` leaves no union as a value. -/
theorem simplify_leaves (hbs : ∀ b ∈ bs, Nested P b.2) (he : Nested P e)
    (h : simplify bs e = .ok res) : Leaves P res := by
  induction hn : bulkBranches bs + bulk e using Nat.strong_induction_on generalizing bs e res with
  | h n ih =>
  subst hn
  rw [simplify_eq] at h
  obtain ⟨acc, hacc, h⟩ := bind_eq_ok h
  have hstart : Leaves P acc := by
    rcases notIte_or e with hleaf | ⟨bs', e', rfl⟩
    · have hP : NotIte e ∧ P e := ⟨hleaf, he.of_notIte hleaf⟩
      unfold simplifyElse at hacc
      split at hacc
      · exact absurd rfl (hleaf _ _)
      · cases hacc
        exact ⟨forall_mem_nil _, hP⟩
    · obtain ⟨hbs', he'⟩ := he.of_ite
      unfold simplifyElse at hacc
      exact ih _ (by rw [bulk]; omega) hbs' he' hacc rfl
  have hpos := bulk_pos e
  exact foldrM_folder_leaves (fun bs' e' res' hlt hbs' he' h' => ih _ (by omega) hbs' he' h' rfl)
    hbs hstart h

/-- Neither a struct nor a truth value. -/
def Plain (v : Term) : Prop := (∀ fs t, v ≠ .struct fs t) ∧ typeOf v ≠ .ok .bool

variable [HashOrder FieldId] {r : Term}

theorem compress_leaves (hP : ∀ v, P v → Plain v) (hite : Leaves P ite) (h : compress ite = .ok r) :
    (NotIte r ∧ P r) ∨ ∃ bs e, r = .ite bs e ∧ Leaves P ⟨bs, e⟩ := by
  obtain ⟨bs, e⟩ := ite
  obtain ⟨hstruct, hbool⟩ := hP _ hite.elseValue.2
  unfold compress at h
  split at h
  · cases h
    exact .inl hite.elseValue
  dsimp only at h
  split at h
  · exact absurd rfl (hstruct _ _)
  · obtain ⟨b, hb, h⟩ := bind_eq_ok h
    obtain ⟨typ, htyp, hb⟩ := bind_eq_ok hb
    have hne : typ ≠ .bool := fun heq => hbool (heq ▸ htyp)
    cases hb
    rw [decide_eq_false hne, if_neg Bool.false_ne_true, mkIte] at h
    split at h
    · cases h
    · cases h
      exact .inr ⟨bs, e, rfl, hite⟩

/-- A merge of nested unions of plain leaves is a leaf, or a union of leaves. -/
theorem merge_leaves (hP : ∀ v, P v → Plain v) (hbs : ∀ b ∈ ite.branches, Nested P b.2)
    (he : Nested P ite.elseValue) (h : merge ite = .ok r) :
    (NotIte r ∧ P r) ∨ ∃ bs e, r = .ite bs e ∧ Leaves P ⟨bs, e⟩ := by
  unfold merge at h
  split at h
  · cases h
  next simplified hsimplified =>
  obtain ⟨t, ht, h⟩ := bind_eq_ok h
  have hleaves := compress_leaves hP (simplify_leaves hbs he hsimplified) ht
  split at h
  next e' =>
    obtain hleaf | ⟨bs, e, hite, hall⟩ := hleaves
    · exact absurd rfl (hleaf.1 _ _)
    · cases hite
      cases h
      exact .inl hall.elseValue
  next bs' e' _ =>
    obtain hleaf | ⟨bs, e, hite, hall⟩ := hleaves
    · exact absurd rfl (hleaf.1 _ _)
    · cases hite
      split at h
      · cases h
        exact .inl hall.elseValue
      · rw [mkIte] at h
        split at h
        · cases h
        · cases h
          exact .inr ⟨bs', e', rfl, hall⟩
  next hleaf _ =>
    cases h
    exact hleaves

end

/-! ### Guarded application is exact -/

section
variable [HashOrder Term] [HashOrder FieldId] {V : Type} {I : Interp V}

/-- Under a valuation of the path condition, the branches that are dropped do not change what is
selected; the application without a path condition drops none; and `merge` flattens unions of plain
leaves. -/
theorem guardedApply_exact (pc : PathCondition) (t : Term) (f : Term → Term) :
    (PC.Conditions pc → (∀ b ∈ (unguard t).branches, Condition b.1) → PC.Holds I pc →
      (∀ m, Preserves I m → Selects I f t (commonGuardedApplyWithPC f m pc t)) ∧
      ∃ rest, kept pc (unguard t).branches = .ok rest ∧
        (PreservesAt I merge (applied f rest (unguard t).elseValue) →
          Selects I f t (guardedApplyWithPC pc f t))) ∧
    ((∀ m, Preserves I m → Selects I f t (commonGuardedApply f m t)) ∧
      (PreservesAt I merge (applied f (unguard t).branches (unguard t).elseValue) →
        Selects I f t (guardedApply f t))) ∧
    ∀ (ite : IteType) r, (∀ b ∈ ite.branches, Nested Plain b.2) → Nested Plain ite.elseValue →
      merge ite = .ok r → NotIte r ∨ ∃ bs e, r = .ite bs e ∧ (∀ b ∈ bs, NotIte b.2) ∧ NotIte e := by
  refine ⟨fun hpc hguards hI => ?_, ⟨fun m hm => ?_, fun hmerge => ?_⟩, fun ite r hbs he hr => ?_⟩
  · obtain ⟨rest, hkept, hsame⟩ := kept_conditions hpc hI hguards (unguard t).elseValue
    exact ⟨fun m hm => commonGuardedApplyWithPC_selects hkept hsame (hm _), rest, hkept,
      fun hmerge => commonGuardedApplyWithPC_selects hkept hsame hmerge⟩
  · exact commonGuardedApply_selects (hm _)
  · exact commonGuardedApply_selects hmerge
  · rcases merge_leaves (fun _ h => h) hbs he hr with hleaf | ⟨bs, e, hite, hleaves⟩
    · exact .inl hleaf.1
    · exact .inr ⟨bs, e, hite, fun b hb => (hleaves.branches b hb).1, hleaves.elseValue.1⟩

end

/-- Under the path condition `c₀` the branch with the guard `¬c₀` is dropped, and the one after it
is selected. -/
theorem guardedApply_exact_constants :
    let _ : HashOrder Term := PC.insertionOrder
    let _ : HashOrder FieldId := ⟨fun _ => 0⟩
    let I := Interp.bools fun _ => true
    let f (v : Term) : Term := if v = trueTerm then boolConstant 2 else boolConstant 3
    let t : Term := .ite [(negate (boolConstant 0), falseTerm), (boolConstant 1, trueTerm)] falseTerm
    kept [(boolConstant 0, 0)] (unguard t).branches = .ok [(boolConstant 1, trueTerm)] ∧
      Selects I f t (guardedApplyWithPC [(boolConstant 0, 0)] f t) := by
  intro _ _ I f t
  have hconst (n : ℕ) : Condition (boolConstant n) := (Reduced.atom rfl).condition
  have hkept : kept [(boolConstant 0, 0)] (unguard t).branches =
      .ok [(boolConstant 1, trueTerm)] := by
    decide +kernel
  have hholds : PC.Holds I [(boolConstant 0, 0)] := by
    unfold PC.Holds
    decide
  have hguards : ∀ b ∈ (unguard t).branches, Condition b.1 := by
    intro b hb
    rcases mem_pair.mp hb with rfl | rfl
    · exact (Reduced.negated rfl).condition
    · exact hconst 1
  obtain ⟨hpc, -⟩ := guardedApply_exact (I := I) [(boolConstant 0, 0)] t f
  obtain ⟨-, rest, hrest, hselects⟩ :=
    hpc (fun e he => mem_singleton.mp he ▸ hconst 0) hguards hholds
  obtain rfl := Except.ok.inj (hkept.symm.trans hrest)
  refine ⟨hkept, hselects ?_⟩
  have hunnested : Unnested .bool ⟨[(boolConstant 1, boolConstant 2)], boolConstant 3⟩ :=
    ⟨forall_mem_singleton.mpr (hconst 1), forall_mem_singleton.mpr (.leaf nofun (hconst 2)),
      .leaf nofun (hconst 3)⟩
  obtain ⟨r, hr, hval⟩ := merge_spec hunnested.mergeable
  exact ⟨r, hr, (hval I).trans (eval_chosen I _ _).symm⟩

end VSharp.Merging
