import VSharp.Core.Conditions

/-!
# Core — Merging

`VSharp.SILI.Core/Merging.fs`: guarded values are merged into one term.  `simplify` flattens nested
unions, `compress` turns unions of truth values into formulas and unions of structs into structs of
unions.
-/

namespace VSharp
open Term Propositional Library List

structure IteType where
  branches : List (Term × Term)
  elseValue : Term
deriving DecidableEq

namespace PersistentDict

def find {κ ν : Type} [DecidableEq κ] (d : Pdict κ ν) (k : κ) : Except Failure ν :=
  match tryFind d k with
  | some v => .ok v
  | none => .error (.internal "KeyNotFoundException")

end PersistentDict

namespace Term

mutual

/-- The size of the values in a term; guards do not count. -/
def bulk : Term → ℕ
  | .ite bs e => 1 + bulkBranches bs + bulk e
  | .struct fs _ => 1 + bulkFields fs
  | _ => 1
termination_by structural x => x

def bulkBranches : List (Term × Term) → ℕ
  | [] => 0
  | (_, v) :: bs => bulk v + bulkBranches bs
termination_by structural bs => bs

def bulkFields : List (FieldId × Term) → ℕ
  | [] => 0
  | (_, v) :: fs => bulk v + bulkFields fs
termination_by structural fs => fs

end

theorem bulk_pos (x : Term) : 0 < bulk x := by
  cases x <;> simp only [bulk] <;> omega

theorem bulkBranches_eq (bs : List (Term × Term)) : bulkBranches bs = (bs.map (bulk ·.2)).sum := by
  induction bs with
  | nil => rfl
  | cons b bs ih => rw [bulkBranches, ih, map_cons, sum_cons]

theorem bulkBranches_append (bs bs' : List (Term × Term)) :
    bulkBranches (bs ++ bs') = bulkBranches bs + bulkBranches bs' := by
  simp [bulkBranches_eq]

theorem bulk_le_bulkBranches {b : Term × Term} {bs : List (Term × Term)} (h : b ∈ bs) :
    bulk b.2 ≤ bulkBranches bs := by
  rw [bulkBranches_eq]
  exact single_le_sum (by simp) _ (mem_map_of_mem (f := fun b => bulk b.2) h)

theorem bulk_le_bulkFields {f : FieldId × Term} {fs : List (FieldId × Term)} (h : f ∈ fs) :
    bulk f.2 ≤ bulkFields fs := by
  induction fs with
  | nil => cases h
  | cons e fs ih =>
    rw [bulkFields]
    rcases mem_cons.mp h with rfl | h
    · omega
    · have := ih h
      omega

end Term

namespace Merging
variable {g : Term} {bs : List (Term × Term)} {res : IteType} {k : FieldId}
variable {guarded : List (Term × Term)} {v e : Term} {acc : IteType} {fs : Pdict FieldId Term}
  {branchesFs : List (Term × Pdict FieldId Term)}

/-- The branches of a union under one more guard. -/
def guardBranches (g : Term) (branches : List (Term × Term)) : Except Failure (List (Term × Term)) :=
  branches.mapM fun b => do .ok (← simplifyAnd g b.1, b.2)

theorem guardBranches_values (h : guardBranches g bs = .ok guarded) :
    guarded.map Prod.snd = bs.map Prod.snd := by
  unfold guardBranches at h
  induction bs generalizing guarded with
  | nil =>
    cases h
    rfl
  | cons b bs ih =>
    rw [mapM_cons] at h
    obtain ⟨b', hb', h⟩ := bind_eq_ok h
    obtain ⟨bs', hbs', h⟩ := bind_eq_ok h
    obtain ⟨g', -, hb'⟩ := bind_eq_ok hb'
    cases h
    cases hb'
    rw [map_cons, map_cons, ih hbs']

theorem guardBranches_bulk (h : guardBranches g bs = .ok guarded) :
    bulkBranches guarded = bulkBranches bs := by
  have := congrArg (List.map bulk) (guardBranches_values h)
  rw [bulkBranches_eq, bulkBranches_eq]
  simpa [Function.comp_def] using congrArg List.sum this

set_option linter.unusedVariables false in
mutual

def simplify (branches : List (Term × Term)) (elseValue : Term) : Except Failure IteType := do
  let acc ← simplifyElse elseValue
  branches.attach.foldrM (fun gv acc => folder gv.1.1 gv.1.2 acc) acc
termination_by 2 * (bulkBranches branches + bulk elseValue) + 1
decreasing_by
  · omega
  · have := bulk_le_bulkBranches gv.2
    omega

/-- The flattened else value that `simplify` starts with. -/
def simplifyElse (elseValue : Term) : Except Failure IteType :=
  match elseValue with
  | .ite bs e => simplify bs e
  | e => .ok ⟨[], e⟩
termination_by 2 * bulk elseValue
decreasing_by
  · simp only [bulk]
    omega

/-- `folder` of `simplify`. -/
def folder (g v : Term) (acc : IteType) : Except Failure IteType :=
  if isTrue g then
    match v with
    | .ite bs e => simplify bs e
    | t => .ok ⟨[], t⟩
  else if isFalse g then .ok acc
  else
    match v with
    | .ite bs e =>
      match hguarded : guardBranches g bs with
      | .error err => .error err
      | .ok guarded => do
          let simplified ← simplify guarded e
          .ok ⟨simplified.branches ++ (g, simplified.elseValue) :: acc.branches, acc.elseValue⟩
    | v => .ok ⟨(g, v) :: acc.branches, acc.elseValue⟩
termination_by 2 * bulk v
decreasing_by
  · simp only [bulk]
    omega
  · rw [guardBranches_bulk hguarded]
    simp only [bulk]
    omega

end

theorem simplify_eq (branches : List (Term × Term)) (elseValue : Term) :
    simplify branches elseValue =
      simplifyElse elseValue >>= branches.foldrM fun gv acc => folder gv.1 gv.2 acc := by
  have h (acc : IteType) : branches.attach.foldrM (fun gv acc => folder gv.1.1 gv.1.2 acc) acc =
      branches.foldrM (fun gv acc => folder gv.1 gv.2 acc) acc := by
    conv_rhs => rw [← attach_map_subtype_val branches, foldrM_map]
  rw [simplify]
  simp only [h]

/-! ### Merging -/

theorem folder_bulk (ih : ∀ bs e res, bulkBranches bs + bulk e < bulk v → simplify bs e = .ok res →
      bulkBranches res.branches + bulk res.elseValue ≤ bulkBranches bs + bulk e)
    (h : folder g v acc = .ok res) : bulkBranches res.branches + bulk res.elseValue ≤
      bulk v + (bulkBranches acc.branches + bulk acc.elseValue) := by
  unfold folder at h
  split at h
  · split at h
    · next bs e =>
        have := ih bs e res (by rw [bulk]; omega) h
        rw [bulk]
        omega
    · cases h
      simp only [bulkBranches]
      omega
  split at h
  · cases h
    omega
  split at h
  · next bs e =>
      split at h
      · cases h
      next guarded hguarded =>
      obtain ⟨simplified, h₁, h₂⟩ := bind_eq_ok h
      cases h₂
      have hb := guardBranches_bulk hguarded
      have := ih guarded e simplified (by rw [bulk]; omega) h₁
      simp only [bulk, bulkBranches_append, bulkBranches]
      omega
  · cases h
    simp only [bulkBranches]
    omega

theorem foldrM_folder_bulk
    (ih : ∀ bs' e res, bulkBranches bs' + bulk e < bulkBranches bs → simplify bs' e = .ok res →
      bulkBranches res.branches + bulk res.elseValue ≤ bulkBranches bs' + bulk e)
    (h : bs.foldrM (fun gv acc => folder gv.1 gv.2 acc) acc = .ok res) :
    bulkBranches res.branches + bulk res.elseValue ≤
      bulkBranches bs + (bulkBranches acc.branches + bulk acc.elseValue) := by
  induction bs generalizing res with
  | nil =>
    cases h
    simp only [bulkBranches]
    omega
  | cons b bs ihbs =>
    rw [foldrM_cons] at h
    obtain ⟨acc', hacc', h⟩ := bind_eq_ok h
    simp only [bulkBranches] at ih ⊢
    have hrest := ihbs (fun bs' e res hlt => ih bs' e res (by omega)) hacc'
    have hb := folder_bulk (fun bs' e res hlt => ih bs' e res (by omega)) h
    omega

/-- Flattening does not add values. -/
theorem simplify_bulk (h : simplify bs e = .ok res) :
    bulkBranches res.branches + bulk res.elseValue ≤ bulkBranches bs + bulk e := by
  induction hn : bulkBranches bs + bulk e using Nat.strong_induction_on generalizing bs e res with
  | h n ih =>
  subst hn
  rw [simplify_eq] at h
  obtain ⟨acc, hacc, h⟩ := bind_eq_ok h
  have helse : bulkBranches acc.branches + bulk acc.elseValue ≤ bulk e := by
    unfold simplifyElse at hacc
    split at hacc
    · next bs' e' =>
        have := ih _ (by rw [bulk]; omega) hacc rfl
        rw [bulk]
        omega
    · cases hacc
      simp only [bulkBranches]
      omega
  have := foldrM_folder_bulk (fun bs' e' res' hlt h' => ih _ (by omega) h' rfl) h
  omega

def boolMerge (ite : IteType) : Except Failure Term := do
  let gvs ← toDisjunctiveGvs ite.branches ite.elseValue
  gvs.foldlM (fun acc gv => do simplifyOr acc (← simplifyAnd gv.1 gv.2)) falseTerm

def isBool (v : Term) : Except Failure Bool := do .ok (decide ((← typeOf v) = .bool))

/-- The dictionaries of the fields of the branches. -/
def branchesFields (branches : List (Term × Term)) :
    Except Failure (List (Term × Pdict FieldId Term)) :=
  branches.mapM fun b => do .ok (b.1, ← fieldsOf b.2)

/-- The union of the values that one field has. -/
def fieldUnion (branches : List (Term × Pdict FieldId Term)) (elseValue : Pdict FieldId Term)
    (k : FieldId) : Except Failure IteType := do
  let bs ← branches.mapM fun b => do .ok (b.1, ← PersistentDict.find b.2 k)
  .ok ⟨bs, ← PersistentDict.find elseValue k⟩

theorem find_bulk_lt {x : Term} (hf : fieldsOf v = .ok fs) (hk : PersistentDict.find fs k = .ok x) :
    bulk x < bulk v := by
  unfold fieldsOf at hf
  split at hf
  case h_2 => cases hf
  cases hf
  unfold PersistentDict.find at hk
  split at hk
  case h_2 => cases hk
  case h_1 y hy =>
    cases hk
    obtain ⟨e, he, rfl⟩ := Option.map_eq_some_iff.mp hy
    have := bulk_le_bulkFields (mem_of_find?_eq_some he)
    rw [bulk]
    omega

theorem fieldBranches_bulk {us : List (Term × Term)} (hb : branchesFields bs = .ok branchesFs)
    (hus : branchesFs.mapM (fun b => do .ok (b.1, ← PersistentDict.find b.2 k)) = .ok us) :
    bulkBranches us ≤ bulkBranches bs := by
  unfold branchesFields at hb
  induction bs generalizing branchesFs us with
  | nil =>
    cases hb
    cases hus
    exact Nat.le_refl _
  | cons b bs ih =>
    rw [mapM_cons] at hb
    obtain ⟨b', hb', hb⟩ := bind_eq_ok hb
    obtain ⟨bfs, hbfs, hb⟩ := bind_eq_ok hb
    obtain ⟨fs, hfs, hb'⟩ := bind_eq_ok hb'
    cases hb
    cases hb'
    rw [mapM_cons] at hus
    obtain ⟨u, hu, hus⟩ := bind_eq_ok hus
    obtain ⟨us', hus', hus⟩ := bind_eq_ok hus
    obtain ⟨y, hy, hu⟩ := bind_eq_ok hu
    cases hus
    cases hu
    have hrest := ih hbfs hus'
    have hlt := find_bulk_lt hfs hy
    simp only [bulkBranches]
    omega

theorem fieldUnion_bulk {union : IteType} (hb : branchesFields bs = .ok branchesFs)
    (he : fieldsOf e = .ok fs) (hk : fieldUnion branchesFs fs k = .ok union) :
    bulkBranches union.branches + bulk union.elseValue < bulkBranches bs + bulk e := by
  obtain ⟨us, hus, hk⟩ := bind_eq_ok hk
  obtain ⟨x, hx, hk⟩ := bind_eq_ok hk
  cases hk
  have hlt := find_bulk_lt he hx
  have hle := fieldBranches_bulk hb hus
  dsimp only
  omega

section
variable [HashOrder FieldId]

set_option linter.unusedVariables false in
mutual

def compress (ite : IteType) : Except Failure Term :=
  if ite.branches = [] then .ok ite.elseValue
  else
    match ite.elseValue with
    | .struct _ t => structMerge t ite
    | v => do if ← isBool v then boolMerge ite else mkIte ite.branches v
termination_by 3 * (bulkBranches ite.branches + bulk ite.elseValue) + 1

/-- `structMerge`, with the fold of `PersistentDict.merge`. -/
def structMerge (typ : Ty) (ite : IteType) : Except Failure Term :=
  match hb : branchesFields ite.branches with
  | .error err => .error err
  | .ok branchesFs =>
    match he : fieldsOf ite.elseValue with
    | .error err => .error err
    | .ok e => do
        let mergedFields ← (PersistentDict.keys e).foldlM (fun acc k =>
          match hk : fieldUnion branchesFs e k with
          | .error err => .error err
          | .ok union => do .ok (PersistentDict.add k (← merge union) acc)) e
        .ok (.struct mergedFields typ)
termination_by 3 * (bulkBranches ite.branches + bulk ite.elseValue)
decreasing_by
  have := fieldUnion_bulk hb he hk
  omega

def merge (ite : IteType) : Except Failure Term :=
  match h : simplify ite.branches ite.elseValue with
  | .error err => .error err
  | .ok simplified => do
      match ← compress simplified with
      | .ite [] e => .ok e
      | .ite branches e => if branches.all (fun b => b.2 = e) then .ok e else mkIte branches e
      | t => .ok t
termination_by 3 * (bulkBranches ite.branches + bulk ite.elseValue) + 2
decreasing_by
  have := simplify_bulk h
  omega

end

end

/-! ### Guarded products -/

def unguard : Term → IteType
  | .ite bs e => ⟨bs, e⟩
  | t => ⟨[], t⟩

/-- `guardedCartesianProductRecK`, over what the mapper gives for each of the terms.  `conj` is
`&&&`. -/
def guardedCartesianProductRec {α : Type} (conj : Term → Term → Except Failure Term)
    (ctor : List Term → Except Failure α) (gacc : Term) (xsacc : List Term) :
    List IteType → Except Failure (List (Term × α))
  | [] => do .ok [(gacc, ← ctor xsacc)]
  | x :: xs => do
      let branchesCartesian ← x.branches.mapM fun b => do
        guardedCartesianProductRec conj ctor (← conj gacc b.1) (xsacc ++ [b.2]) xs
      let e' ← guardedCartesianProductRec conj ctor (← conj gacc trueTerm) (xsacc ++ [x.elseValue]) xs
      .ok (branchesCartesian.flatten ++ e')

/-- `guardedCartesianProductK`. -/
def guardedCartesianProduct {α : Type} (conj : Term → Term → Except Failure Term)
    (xs : List IteType) (ctor : List Term → Except Failure α) : Except Failure (List (Term × α)) :=
  guardedCartesianProductRec conj ctor trueTerm [] xs

section
variable {V : Type} (I : Interp V)

/-- The value of the first true guard, or the else value. -/
def chosen (x : IteType) : Term :=
  ((x.branches.find? fun b => b.1.holds I).map Prod.snd).getD x.elseValue

theorem eval_chosen (bs : List (Term × Term)) (e : Term) :
    (chosen I ⟨bs, e⟩).eval I = (ite bs e).eval I := by
  induction bs with
  | nil => rfl
  | cons b bs ih =>
    rw [eval_ite_cons, ← ih]
    simp only [chosen, find?_cons]
    cases b.1.holds I <;> rfl

theorem chosen_cases (x : IteType) :
    chosen I x = x.elseValue ∨ ∃ b ∈ x.branches, chosen I x = b.2 := by
  unfold chosen
  cases h : x.branches.find? fun b => b.1.holds I with
  | none => exact .inl rfl
  | some b => exact .inr ⟨b, mem_of_find?_eq_some h, rfl⟩

/-- The value of a union whose values are mapped. -/
theorem chosen_map (f : Term → Term) (x : IteType) :
    chosen I ⟨x.branches.map fun b => (b.1, f b.2), f x.elseValue⟩ = f (chosen I x) := by
  simp only [chosen, find?_map, Function.comp_def]
  cases x.branches.find? fun b => b.1.holds I <;> rfl

theorem eval_chosen_unguard (t : Term) : (chosen I (unguard t)).eval I = t.eval I := by
  cases t with
  | ite bs e => exact eval_chosen I bs e
  | _ => rfl

theorem eval_unguard (t : Term) :
    (ite (unguard t).branches (unguard t).elseValue).eval I = t.eval I := by
  cases t <;> rfl

/-- Guarded results that stand for one result `res`, wherever `g` is true. -/
structure Stands {α : Type} (g : Term) (res : Except Failure α) (gvs : List (Term × α)) : Prop where
  none : g.holds I = false → ∀ gv ∈ gvs, gv.1.holds I = false
  some : g.holds I = true → ∃ gv, gvs.find? (fun gv => gv.1.holds I) = some gv ∧ res = .ok gv.2

variable {I} {α : Type} {gvs : List (Term × α)}

theorem Stands.of_holds {g' : Term} {res : Except Failure α} (h : Stands I g res gvs)
    (hg : g.holds I = g'.holds I) : Stands I g' res gvs :=
  ⟨hg ▸ h.none, hg ▸ h.some⟩

theorem find_append_of_none {gvs' : List (Term × α)} (h : ∀ gv ∈ gvs, gv.1.holds I = false) :
    (gvs ++ gvs').find? (fun gv => gv.1.holds I) = gvs'.find? fun gv => gv.1.holds I := by
  have : gvs.find? (fun gv => gv.1.holds I) = none :=
    find?_eq_none.mpr fun gv hgv => by simp [h gv hgv]
  rw [List.find?_append, this, Option.none_or]

/-- One factor of a product: a row for each of its branches, and the one of its else value. -/
theorem Stands.row {gacc : Term} {f : Term → Except Failure α} {rows : List (List (Term × α))}
    {last : List (Term × α)}
    (hrows : List.Forall₂ (fun b row => ∃ g, g.holds I = (gacc.holds I && b.1.holds I) ∧
      Stands I g (f b.2) row) bs rows) (hlast : Stands I gacc (f e) last) :
    Stands I gacc (f (chosen I ⟨bs, e⟩)) (rows.flatten ++ last) := by
  induction hrows with
  | nil => exact hlast
  | @cons b row bs rows hrow _ ih =>
    obtain ⟨g, hg, hst⟩ := hrow
    rw [List.flatten_cons, append_assoc]
    constructor
    · intro hacc gv hgv
      rcases mem_append.mp hgv with hgv | hgv
      · exact hst.none (by rw [hg, hacc, Bool.false_and]) gv hgv
      · exact ih.none hacc gv hgv
    · intro hacc
      rw [hacc, Bool.true_and] at hg
      cases hb : b.1.holds I with
      | true =>
        obtain ⟨gv, hfind, hres⟩ := hst.some (hg.trans hb)
        refine ⟨gv, by rw [List.find?_append, hfind, Option.some_or], ?_⟩
        rw [show chosen I ⟨b :: bs, e⟩ = b.2 by simp [chosen, hb], hres]
      | false =>
        obtain ⟨gv, hfind, hres⟩ := ih.some hacc
        refine ⟨gv, by rw [find_append_of_none (hst.none (hg.trans hb)), hfind], ?_⟩
        rw [show chosen I ⟨b :: bs, e⟩ = chosen I ⟨bs, e⟩ by simp [chosen, hb], hres]

/-- The product of guarded values stands for the constructor applied to the value of each factor,
and ends with a result under the guard of the whole. -/
theorem guardedCartesianProductRec_spec {conj : Term → Term → Except Failure Term}
    (hconj : ∀ x y, ∃ r, conj x y = .ok r ∧ r.holds I = (x.holds I && y.holds I))
    {ctor : List Term → Except Failure α} {n : ℕ}
    (hctor : ∀ ys : List Term, ys.length = n → ∃ r, ctor ys = .ok r) (gacc : Term)
    (xsacc : List Term) (xs : List IteType) (hn : xsacc.length + xs.length = n) :
    ∃ gvs g r, guardedCartesianProductRec conj ctor gacc xsacc xs = .ok (gvs ++ [(g, r)]) ∧
      g.holds I = gacc.holds I ∧
      Stands I gacc (ctor (xsacc ++ xs.map (chosen I))) (gvs ++ [(g, r)]) := by
  induction xs generalizing gacc xsacc with
  | nil =>
    obtain ⟨r, hr⟩ := hctor xsacc hn
    refine ⟨[], gacc, r, ?_, rfl, ?_, fun h => ⟨(gacc, r), by simp [h], by simpa using hr⟩⟩
    · rw [guardedCartesianProductRec, bind_ok hr]
      rfl
    · simp
  | cons x xs ih =>
    obtain ⟨bs, e⟩ := x
    have hn' (v : Term) : (xsacc ++ [v]).length + xs.length = n := by
      simp only [length_append, length_cons, length_nil] at hn ⊢
      omega
    obtain ⟨rows, hrows, hR⟩ := mapM_ok (l := bs)
      (f := fun b => do guardedCartesianProductRec conj ctor (← conj gacc b.1) (xsacc ++ [b.2]) xs)
      (R := fun b row => ∃ g, g.holds I = (gacc.holds I && b.1.holds I) ∧
        Stands I g (ctor (xsacc ++ [b.2] ++ xs.map (chosen I))) row)
      fun b _ => by
        obtain ⟨g, hg, hgholds⟩ := hconj gacc b.1
        obtain ⟨gvs, g', r, hprod, -, hst⟩ := ih g (xsacc ++ [b.2]) (hn' b.2)
        exact ⟨_, by rw [bind_ok hg, hprod], g, hgholds, hst⟩
    obtain ⟨ge, hge, hgeholds⟩ := hconj gacc trueTerm
    rw [holds_trueTerm, Bool.and_true] at hgeholds
    obtain ⟨gvs, g, r, hprod, hg, hst⟩ := ih ge (xsacc ++ [e]) (hn' e)
    refine ⟨rows.flatten ++ gvs, g, r, ?_, hg.trans hgeholds, ?_⟩
    · rw [guardedCartesianProductRec, bind_ok hrows, bind_ok hge, bind_ok hprod, append_assoc]
    · have := Stands.row (f := fun v => ctor (xsacc ++ [v] ++ xs.map (chosen I))) hR
        (hst.of_holds hgeholds)
      simpa using this

/-- What a product of terms that is read as a union has for its value. -/
theorem Stands.ok_chosen {res : Except Failure Term} {gvs : List (Term × Term)} {r : Term}
    (h : Stands I trueTerm res (gvs ++ [(g, r)])) : res = .ok (chosen I ⟨gvs, r⟩) := by
  obtain ⟨gv, hfind, hres⟩ := h.some (holds_trueTerm I)
  rw [hres, chosen]
  rw [List.find?_append] at hfind
  cases hgvs : gvs.find? fun gv => gv.1.holds I with
  | some gv' =>
    rw [hgvs, Option.some_or] at hfind
    cases hfind
    rfl
  | none =>
    rw [hgvs, Option.none_or] at hfind
    obtain rfl := mem_singleton.mp (mem_of_find?_eq_some hfind)
    rfl

end

end Merging

end VSharp
