import Mathlib.Order.Filter.AtTopBot.Basic
import Mathlib.Order.Filter.Finite
import VSharp.Core.Arithmetics
import VSharp.Core.MergeValue

/-!
# Core — Distribution

`simplifyGenericUnary` and `simplifyGenericBinary` over unions.

- `Returns`: with enough fuel a call returns a result with a property;
- `UnionOf G L`: nested unions of leaves `L` under guards `G`; `Selects` says which leaf the guards
  choose;
- `Merges G Out`: the guards can be joined, and unions of `Out` merged into `Out`;
- `simplifyGenericBinary_spec`: what holds of the results on leaves holds, for the alternatives, of
  the value of the result on unions.
-/

namespace VSharp
open Term Propositional Library Merging List

/-! ### Runs -/

namespace Run
variable {α β : Type}
variable {P : α → List Doubt → Prop} {a : α}

instance : LawfulMonad Run := LawfulMonad.mk' _
  (fun x => by
    rcases x with e | ⟨a, d⟩
    · rfl
    · show (Except.ok (a, d ++ []) : Except Failure _) = _
      rw [append_nil])
  (fun a f => by
    show Run.bind (Run.pure a) f = f a
    unfold Run.bind Run.pure
    dsimp only
    split
    · next h => exact h.symm
    · next b d h => rw [nil_append, h])
  (fun x f g => by
    show Run.bind (Run.bind x f) g = Run.bind x fun a => Run.bind (f a) g
    rcases x with e | ⟨a, d⟩
    · rfl
    unfold Run.bind
    dsimp only
    rcases f a with e | ⟨b, d'⟩
    · rfl
    dsimp only
    rcases g b with e | ⟨c, d''⟩
    · rfl
    · show (Except.ok (c, (d ++ d') ++ d'') : Except Failure _) = .ok (c, d ++ (d' ++ d''))
      rw [append_assoc])

/-- The run returns a result, and notes of doubtful rules, with a property. -/
def Gives (x : Run α) (P : α → List Doubt → Prop) : Prop := ∃ a d, x = .ok (a, d) ∧ P a d

theorem Gives.mono {x : Run α} {Q : α → List Doubt → Prop} (h : Gives x P)
    (hPQ : ∀ a d, P a d → Q a d) : Gives x Q := by
  obtain ⟨a, d, hx, hP⟩ := h
  exact ⟨a, d, hx, hPQ a d hP⟩

theorem Gives.pure (h : P a []) : Gives (Pure.pure a : Run α) P :=
  ⟨a, [], rfl, h⟩

theorem Gives.lift {x : Except Failure α} (hx : x = .ok a) (h : P a []) : Gives (Run.lift x) P :=
  ⟨a, [], by rw [hx]; rfl, h⟩

theorem Gives.bind {x : Run α} {f : α → Run β} {Q : β → List Doubt → Prop} (hx : Gives x P)
    (hf : ∀ a d, P a d → Gives (f a) fun b d' => Q b (d ++ d')) : Gives (x >>= f) Q := by
  obtain ⟨a, d, rfl, hP⟩ := hx
  obtain ⟨b, d', hb, hQ⟩ := hf a d hP
  refine ⟨b, d ++ d', ?_, hQ⟩
  show Run.bind _ f = _
  unfold Run.bind
  dsimp only
  rw [hb]

/-- A run over a list, whose results are related to their inputs. -/
theorem Gives.mapM {f : α → Run β} {R : α → β → Prop} {l : List α}
    (h : ∀ a ∈ l, Gives (f a) fun b _ => R a b) :
    Gives (l.mapM f) fun bs _ => List.Forall₂ R l bs := by
  induction l with
  | nil => exact .pure .nil
  | cons a l ih =>
    rw [mapM_cons]
    refine (h a mem_cons_self).bind fun b _ hb => ?_
    refine (ih fun c hc => h c (mem_cons_of_mem _ hc)).bind fun bs _ hbs => ?_
    exact .pure (.cons hb hbs)

end Run

/-- With enough fuel the run returns a result with the property. -/
def Returns (run : ℕ → Run Term) (P : Term → Prop) : Prop :=
  ∀ᶠ n in Filter.atTop, (run n).Gives fun r _ => P r

theorem Returns.mono {run : ℕ → Run Term} {P Q : Term → Prop} (h : Returns run P)
    (hPQ : ∀ r, P r → Q r) : Returns run Q :=
  Filter.Eventually.mono h fun _ hn => hn.mono fun r _ => hPQ r

/-- What holds with one more call and enough fuel holds with enough fuel. -/
theorem eventually_of_succ {p : ℕ → Prop} (h : ∀ᶠ n in Filter.atTop, p (n + 1)) :
    ∀ᶠ n in Filter.atTop, p n := by
  obtain ⟨N, hN⟩ := Filter.eventually_atTop.mp h
  refine Filter.eventually_atTop.mpr ⟨N + 1, fun n hn => ?_⟩
  obtain ⟨m, rfl⟩ : ∃ m, n = m + 1 := ⟨n - 1, by omega⟩
  exact hN m (by omega)

theorem eventually_forall_mem {α : Type} {p : α → ℕ → Prop} {l : List α}
    (h : ∀ a ∈ l, ∀ᶠ n in Filter.atTop, p a n) : ∀ᶠ n in Filter.atTop, ∀ a ∈ l, p a n :=
  (Filter.eventually_all_finite l.finite_toSet).mpr h

/-! ### Unions and their alternatives -/

/-- A leaf `L`, or a union of such terms under guards `G`. -/
inductive UnionOf (G L : Term → Prop) : Term → Prop where
  | leaf {v : Term} (hv : NotIte v) (h : L v) : UnionOf G L v
  | ite {bs : List (Term × Term)} {e : Term} (hne : bs ≠ []) (guards : ∀ b ∈ bs, G b.1)
      (values : ∀ b ∈ bs, UnionOf G L b.2) (elseValue : UnionOf G L e) : UnionOf G L (.ite bs e)

/-- The leaf of a union that its guards choose. -/
inductive Selects {V : Type} (I : Interp V) : Term → Term → Prop where
  | leaf {v : Term} (hv : NotIte v) : Selects I v v
  | ite {bs : List (Term × Term)} {e v : Term} (h : Selects I (chosen I ⟨bs, e⟩) v) :
      Selects I (.ite bs e) v

namespace UnionOf
variable {G L : Term → Prop}
variable {bs : List (Term × Term)} {e : Term} {gv : Term × Term}

theorem of_ite (h : UnionOf G L (.ite bs e)) :
    bs ≠ [] ∧ (∀ b ∈ bs, G b.1) ∧ (∀ b ∈ bs, UnionOf G L b.2) ∧ UnionOf G L e := by
  cases h with
  | leaf hv => exact absurd rfl (hv _ _)
  | ite hne guards values elseValue => exact ⟨hne, guards, values, elseValue⟩

theorem mem_gvs (h : UnionOf G L (.ite bs e)) (hgv : gv ∈ iteAsGvs bs e) : UnionOf G L gv.2 := by
  obtain ⟨-, -, hv, he⟩ := h.of_ite
  rcases mem_append.mp hgv with hm | hm
  · exact hv gv hm
  · rw [mem_singleton.mp hm]
    exact he

theorem mem_guards (hG : G trueTerm) (h : UnionOf G L (.ite bs e)) (hgv : gv ∈ iteAsGvs bs e) :
    G gv.1 := by
  rcases mem_append.mp hgv with hm | hm
  · exact h.of_ite.2.1 gv hm
  · rw [mem_singleton.mp hm]
    exact hG

theorem mono {G' L' : Term → Prop} {x : Term} (h : UnionOf G L x) (hG : ∀ g, G g → G' g)
    (hL : ∀ v, L v → L' v) : UnionOf G' L' x := by
  induction h with
  | leaf hv h => exact .leaf hv (hL _ h)
  | ite hne guards _ _ ihv ihe => exact .ite hne (fun b hb => hG _ (guards b hb)) ihv ihe

end UnionOf

namespace Selects
variable {V : Type} {I : Interp V}

theorem eval_eq {x v : Term} (h : Selects I x v) : v.eval I = x.eval I := by
  induction h with
  | leaf => rfl
  | ite _ ih => rw [ih, eval_chosen]

theorem unique {x v v' : Term} (h : Selects I x v) (h' : Selects I x v') : v = v' := by
  induction h with
  | leaf hv =>
    cases h' with
    | leaf => rfl
    | ite => exact absurd rfl (hv _ _)
  | ite _ ih =>
    cases h' with
    | leaf hv => exact absurd rfl (hv _ _)
    | ite h' => exact ih h'

end Selects

/-! ### The first true guard -/

section
variable {V : Type} (I : Interp V)

/-- The value of the first true guard. -/
def First (gvs : List (Term × Term)) (v : Term) : Prop :=
  ∃ g, gvs.find? (fun gv => gv.1.holds I) = some (g, v)

variable {I}
variable {gvs gvs' : List (Term × Term)} {v : Term}

theorem first_cons {b : Term × Term} :
    First I (b :: gvs) v ↔ if b.1.holds I then b.2 = v else First I gvs v := by
  obtain ⟨g, w⟩ := b
  rw [First, find?_cons]
  cases g.holds I with
  | true => simp
  | false => exact Iff.rfl

theorem first_append (h : First I gvs v) :
    First I (gvs ++ gvs') v := by
  obtain ⟨g, h⟩ := h
  exact ⟨g, by rw [List.find?_append, h, Option.some_or]⟩

variable (I) in
theorem first_iteAsGvs (bs : List (Term × Term)) (e : Term) :
    First I (iteAsGvs bs e) (chosen I ⟨bs, e⟩) := by
  induction bs with
  | nil => exact first_cons.mpr (by rw [holds_trueTerm, if_pos rfl]; rfl)
  | cons b bs ih =>
    refine first_cons.mpr ?_
    rw [chosen, find?_cons]
    cases b.1.holds I with
    | true => rfl
    | false => exact ih

/-- The last of guarded values, read as an else value. -/
theorem First.eval_ite {bs : List (Term × Term)} {g e : Term} (h : First I (bs ++ [(g, e)]) v) :
    (ite bs e).eval I = v.eval I := by
  induction bs with
  | nil =>
    have := first_cons.mp h
    split at this
    · exact (eval_ite_nil I e).trans (congrArg (eval I) this)
    · obtain ⟨_, h⟩ := this
      cases h
  | cons b bs ih =>
    rw [eval_ite_cons]
    have := first_cons.mp h
    split at this
    · next hb => rw [if_pos hb, this]
    · next hb => rw [if_neg hb, ih this]

/-- The product of two unions takes the first true guard of either side. -/
theorem First.product {Q : Term → Term → Term → Prop} {rows : List (List (Term × Term))}
    {v' : Term} (h : List.Forall₂ (fun gv row => List.Forall₂ (fun gv' r =>
      r.1.holds I = (gv.1.holds I && gv'.1.holds I) ∧ Q gv.2 gv'.2 r.2) gvs' row) gvs rows)
    (hv : First I gvs v) (hv' : First I gvs' v') : ∃ r, First I rows.flatten r ∧ Q v v' r := by
  have hnone {gv : Term × Term} {gvs' row : List (Term × Term)} (hg : gv.1.holds I = false)
      (hrow : List.Forall₂ (fun gv' r =>
        r.1.holds I = (gv.1.holds I && gv'.1.holds I) ∧ Q gv.2 gv'.2 r.2) gvs' row) :
      ∀ r ∈ row, r.1.holds I = false := fun r hr => by
    obtain ⟨gv', -, hr', -⟩ := forall₂_mem_right hrow hr
    rw [hr', hg, Bool.false_and]
  have hsome {gv : Term × Term} {gvs' row : List (Term × Term)} (hg : gv.1.holds I = true)
      (hrow : List.Forall₂ (fun gv' r =>
        r.1.holds I = (gv.1.holds I && gv'.1.holds I) ∧ Q gv.2 gv'.2 r.2) gvs' row)
      (hv' : First I gvs' v') : ∃ r, First I row r ∧ Q gv.2 v' r := by
    induction hrow with
    | nil =>
      obtain ⟨_, h⟩ := hv'
      cases h
    | @cons gv' r _ _ hr _ ih =>
      have hfirst := first_cons.mp hv'
      rw [hg, Bool.true_and] at hr
      split at hfirst
      · next hg' => exact ⟨r.2, first_cons.mpr (by rw [hr.1, hg', if_pos rfl]), hfirst ▸ hr.2⟩
      · next hg' =>
          obtain ⟨w, hw, hQ⟩ := ih hfirst
          exact ⟨w, first_cons.mpr (by rw [hr.1, if_neg hg']; exact hw), hQ⟩
  induction h with
  | nil =>
    obtain ⟨_, h⟩ := hv
    cases h
  | @cons gv row _ rows hrow _ ih =>
    rw [List.flatten_cons]
    have hfirst := first_cons.mp hv
    split at hfirst
    · next hg =>
        obtain ⟨r, hr, hQ⟩ := hsome hg hrow hv'
        exact ⟨r, first_append hr, hfirst ▸ hQ⟩
    · next hg =>
        obtain ⟨r, ⟨g, hr⟩, hQ⟩ := ih hfirst
        refine ⟨r, ⟨g, ?_⟩, hQ⟩
        rw [find_append_of_none (hnone (by simpa using hg) hrow)]
        exact hr

/-- Guarded values that are changed one by one. -/
theorem First.map {Q : Term → Term → Prop}
    (h : List.Forall₂ (fun gv gv' => gv'.1 = gv.1 ∧ Q gv.2 gv'.2) gvs gvs') (hv : First I gvs v) :
    ∃ r, First I gvs' r ∧ Q v r := by
  induction h with
  | nil =>
    obtain ⟨_, h⟩ := hv
    cases h
  | @cons gv gv' _ _ hgv _ ih =>
    have hfirst := first_cons.mp hv
    split at hfirst
    · next hg => exact ⟨gv'.2, first_cons.mpr (by rw [hgv.1, hg, if_pos rfl]), hfirst ▸ hgv.2⟩
    · next hg =>
        obtain ⟨r, hr, hQ⟩ := ih hfirst
        exact ⟨r, first_cons.mpr (by rw [hgv.1, if_neg hg]; exact hr), hQ⟩

/-- A union whose values are changed one by one. -/
theorem chosen_forall₂ {Q : Term → Term → Prop} {bs bs' : List (Term × Term)} {e e' : Term}
    (h : List.Forall₂ (fun b b' => b'.1 = b.1 ∧ Q b.2 b'.2) bs bs') (he : Q e e') :
    Q (chosen I ⟨bs, e⟩) (chosen I ⟨bs', e'⟩) := by
  induction h with
  | nil => exact he
  | @cons b b' bs bs' hb _ ih =>
    rw [chosen, chosen, find?_cons, find?_cons, hb.1]
    cases b.1.holds I with
    | true => exact hb.2
    | false => exact ih

end

/-! ### The distribution -/

section
variable [HashOrder FieldId]
variable {concrete : Obj → Obj → Ty → Ty → Run Term} {unmatched again : Term → Term → Run Term}
  {x y e : Term} {bs : List (Term × Term)} {P : Term → Prop}

/-- On terms that are neither unions nor both concrete, the operation is the unmatched case. -/
theorem simplifyGenericBinary_leaf (hx : NotIte x) (hy : NotIte y)
    (h : isConcrete x = false ∨ isConcrete y = false) :
    simplifyGenericBinary concrete unmatched again x y = unmatched x y := by
  unfold simplifyGenericBinary
  split
  · rcases h with h | h <;> cases h
  · exact absurd rfl (hx _ _)
  · exact absurd rfl (hx _ _)
  · exact absurd rfl (hy _ _)
  · rfl

/-- A term that is no union, and a union. -/
theorem simplifyGenericBinary_right (hx : NotIte x) (bs : List (Term × Term)) (e : Term) :
    simplifyGenericBinary concrete unmatched again x (.ite bs e) = (do
      let branches' ← bs.mapM fun gy => do
        let x' ← again x gy.2
        return (gy.1, x')
      let xe ← again x e
      mergeRun (branches', xe)) := by
  cases x with
  | ite bs e => exact absurd rfl (hx bs e)
  | _ => rfl

theorem simplifyGenericBinary_left (hy : NotIte y) (bs : List (Term × Term)) (e : Term) :
    simplifyGenericBinary concrete unmatched again (.ite bs e) y = (do
      let branches' ← bs.mapM fun gx => do
        let x' ← again gx.2 y
        return (gx.1, x')
      let ey ← again e y
      mergeRun (branches', ey)) := by
  cases y with
  | ite bs e => exact absurd rfl (hy bs e)
  | _ => rfl

/-- A unary operation on a term that is neither a union nor concrete is the unmatched case. -/
theorem simplifyGenericUnary_leaf {concrete : Obj → Ty → Run Term}
    {unmatched again : Term → Run Term} (hx : NotIte x) (hlit : isConcrete x = false) :
    simplifyGenericUnary concrete unmatched again x = unmatched x := by
  unfold simplifyGenericUnary
  split
  · cases hlit
  · exact absurd rfl (hx _ _)
  · rfl

/-- Guards that can be joined, and values that can be merged under them. -/
structure Merges (G Out : Term → Prop) : Prop where
  truth : G trueTerm
  and : ∀ g g', G g → G g' → ∃ r, simplifyAnd g g' = .ok r ∧ G r ∧
    ∀ {V : Type} (I : Interp V), r.holds I = (g.holds I && g'.holds I)
  merge : ∀ bs e, bs ≠ [] → (∀ b ∈ bs, G b.1) → (∀ b ∈ bs, Out b.2) → Out e →
    ∃ r, merge ⟨bs, e⟩ = .ok r ∧ Out r ∧ ∀ {V : Type} (I : Interp V), r.eval I = (ite bs e).eval I

variable {G Out Lx Ly : Term → Prop}

/-- The result stands, at every interpretation, for a result on alternatives. -/
def Stands₂ (R : Term → Term → Term → Prop) (x y r : Term) : Prop :=
  ∀ {V : Type} (I : Interp V), ∃ vx vy r', Selects I x vx ∧ Selects I y vy ∧ R vx vy r' ∧
    r.eval I = r'.eval I

def Stands₁ (R : Term → Term → Prop) (x r : Term) : Prop :=
  ∀ {V : Type} (I : Interp V), ∃ v r', Selects I x v ∧ R v r' ∧ r.eval I = r'.eval I

section
variable (M : Merges G Out)

include M

theorem mergeRun_gives (hne : bs ≠ []) (hbs : ∀ b ∈ bs, G b.1 ∧ Out b.2) (he : Out e) :
    (mergeRun (bs, e)).Gives fun r _ => Out r ∧
      ∀ {V : Type} (I : Interp V), r.eval I = (ite bs e).eval I := by
  obtain ⟨r, h₁, h₂⟩ := M.merge bs e hne (fun b hb => (hbs b hb).1) (fun b hb => (hbs b hb).2) he
  exact .lift h₁ h₂

/-- A merge of the values of one union, changed one by one. -/
theorem mergeRun_branches {bs' : List (Term × Term)} {e' : Term} (hne : bs ≠ [])
    (hg : ∀ b ∈ bs, G b.1) {Q : Term → Term → Prop}
    (hbs : List.Forall₂ (fun b b' => b'.1 = b.1 ∧ Out b'.2 ∧ Q b.2 b'.2) bs bs')
    (he : Out e' ∧ Q e e') :
    (mergeRun (bs', e')).Gives fun r _ => Out r ∧ ∀ {V : Type} (I : Interp V),
      ∃ r', Q (chosen I ⟨bs, e⟩) r' ∧ r.eval I = r'.eval I := by
  have hne' : bs' ≠ [] := fun hnil => hne (by
    rw [hnil] at hbs
    exact forall₂_nil_right_iff.mp hbs)
  refine (mergeRun_gives M hne' (fun b' hb' => ?_) he.1).mono fun r _ hr => ⟨hr.1, fun I => ?_⟩
  · obtain ⟨b, hb, hb'⟩ := forall₂_mem_right hbs hb'
    exact ⟨hb'.1 ▸ hg b hb, hb'.2.1⟩
  · refine ⟨chosen I ⟨bs', e'⟩, chosen_forall₂ (hbs.imp fun b b' hb => ⟨hb.1, hb.2.2⟩) he.2, ?_⟩
    rw [hr.2 I, eval_chosen]

/-- A merge of guarded values. -/
theorem mergeRun_gvs {gvs : List (Term × Term)} (hlen : 2 ≤ gvs.length)
    (hgvs : ∀ gv ∈ gvs, G gv.1 ∧ Out gv.2) :
    (do mergeRun (← .lift (fromGvs gvs)) : Run Term).Gives fun r _ => Out r ∧
      ∀ {V : Type} (I : Interp V) {v}, First I gvs v → r.eval I = v.eval I := by
  obtain ⟨bs, e, hfrom, hne, ⟨g, rfl⟩, -⟩ := fromGvs_spec hlen
  refine Run.Gives.bind (.lift hfrom (P := fun ite d => ite = (bs, e)) rfl) ?_
  rintro _ _ rfl
  refine (mergeRun_gives M hne (fun b hb => hgvs b (by simp [hb])) (hgvs (g, e) (by simp)).2).mono
    fun r _ hr => ⟨hr.1, fun I v hv => ?_⟩
  rw [hr.2 I, hv.eval_ite]

/-- An operation on unions, given what it does to leaves. -/
theorem simplifyGenericBinary_spec {F : ℕ → Term → Term → Run Term}
    {unmatched : ℕ → Term → Term → Run Term}
    (hF : ∀ n, F (n + 1) = simplifyGenericBinary concrete (unmatched n) (F n))
    {R : Term → Term → Term → Prop} (hleaf : ∀ vx vy, NotIte vx → NotIte vy → Lx vx → Ly vy →
      Returns (F · vx vy) fun r => Out r ∧ R vx vy r) (hx : UnionOf G Lx x) (hy : UnionOf G Ly y) :
    Returns (F · x y) fun r => Out r ∧ Stands₂ R x y r := by
  induction hx generalizing y with
  | @leaf vx hvx hLx =>
    induction hy with
    | @leaf vy hvy hLy =>
      refine (hleaf vx vy hvx hvy hLx hLy).mono fun r hr => ⟨hr.1, fun I => ?_⟩
      exact ⟨vx, vy, r, .leaf hvx, .leaf hvy, hr.2, rfl⟩
    | @ite bs e hne guards _ _ ihv ihe =>
      refine eventually_of_succ ?_
      filter_upwards [eventually_forall_mem ihv, ihe] with n hv he
      rw [hF, simplifyGenericBinary_right hvx]
      refine (Run.Gives.mapM (R := fun b b' => b'.1 = b.1 ∧ Out b'.2 ∧
        Stands₂ R vx b.2 b'.2) fun b hb => ?_).bind fun bs' _ hbs' => ?_
      · exact (hv b hb).bind fun r _ hr => .pure ⟨rfl, hr⟩
      refine he.bind fun e' _ he' => ?_
      refine (mergeRun_branches M hne guards hbs' he').mono fun r _ hr => ⟨hr.1, fun I => ?_⟩
      obtain ⟨r', hst, hr'⟩ := hr.2 I
      obtain ⟨wx, wy, r'', hwx, hwy, hR, heval⟩ := hst I
      exact ⟨wx, wy, r'', hwx, .ite hwy, hR, hr'.trans heval⟩
  | @ite bs e hne guards _ _ ihv ihe =>
    rcases notIte_or y with hvy | ⟨bs', e', rfl⟩
    · refine eventually_of_succ ?_
      filter_upwards [eventually_forall_mem fun b hb => ihv b hb hy, ihe hy] with n hv he
      rw [hF, simplifyGenericBinary_left hvy]
      refine (Run.Gives.mapM (R := fun b b' => b'.1 = b.1 ∧ Out b'.2 ∧
        Stands₂ R b.2 y b'.2) fun b hb => ?_).bind fun bs' _ hbs' => ?_
      · exact (hv b hb).bind fun r _ hr => .pure ⟨rfl, hr⟩
      refine he.bind fun e' _ he' => ?_
      refine (mergeRun_branches M hne guards hbs' (Q := (Stands₂ R · y)) he').mono
        fun r _ hr => ⟨hr.1, fun I => ?_⟩
      obtain ⟨r', hst, hr'⟩ := hr.2 I
      obtain ⟨wx, wy, r'', hwx, hwy, hR, heval⟩ := hst I
      exact ⟨wx, wy, r'', .ite hwx, hwy, hR, hr'.trans heval⟩
    · have hxu : UnionOf G Lx (.ite bs e) := .ite hne guards ‹_› ‹_›
      have hpair : ∀ gvx ∈ iteAsGvs bs e, ∀ gvy ∈ iteAsGvs bs' e',
          Returns (F · gvx.2 gvy.2) fun r => Out r ∧ Stands₂ R gvx.2 gvy.2 r := by
        intro gvx hgvx gvy hgvy
        rcases mem_append.mp hgvx with hm | hm
        · exact ihv gvx hm (hy.mem_gvs hgvy)
        · rw [mem_singleton.mp hm]
          exact ihe (hy.mem_gvs hgvy)
      refine eventually_of_succ ?_
      filter_upwards [eventually_forall_mem fun gvx hgvx =>
        eventually_forall_mem (hpair gvx hgvx)] with n hn
      rw [hF]
      show Run.Gives (do
        let rows ← (iteAsGvs bs e).mapM fun gvx => (iteAsGvs bs' e').mapM fun gvy => do
          let xy ← F n gvx.2 gvy.2
          let g ← Run.lift (simplifyAnd gvx.1 gvy.1)
          return (g, xy)
        mergeRun (← Run.lift (fromGvs rows.flatten))) _
      refine (Run.Gives.mapM (R := fun gv row => List.Forall₂ (fun gv' r =>
        (G r.1 ∧ Out r.2) ∧ (∀ {V : Type} (I : Interp V),
          r.1.holds I = (gv.1.holds I && gv'.1.holds I)) ∧ Stands₂ R gv.2 gv'.2 r.2)
          (iteAsGvs bs' e') row) fun gvx hgvx => .mapM fun gvy hgvy => ?_).bind
        fun rows _ hrows => ?_
      · refine (hn gvx hgvx gvy hgvy).bind fun r _ hr => ?_
        obtain ⟨g, h₁, h₂, h₃⟩ := M.and gvx.1 gvy.1 (hxu.mem_guards M.truth hgvx)
          (hy.mem_guards M.truth hgvy)
        refine Run.Gives.bind (.lift h₁ (P := fun g' _ => g' = g) rfl) ?_
        rintro _ _ rfl
        exact .pure ⟨⟨h₂, hr.1⟩, h₃, hr.2⟩
      have hlen : 2 ≤ rows.flatten.length := by
        have hpos : 2 ≤ (iteAsGvs bs' e').length := by
          have := length_pos_of_ne_nil hy.of_ite.1
          simp only [iteAsGvs, length_append, length_singleton]
          omega
        cases rows with
        | nil => simpa [iteAsGvs] using hrows.length_eq
        | cons row rows =>
          obtain ⟨gv, -, hrow⟩ := forall₂_mem_right hrows mem_cons_self
          have := hrow.length_eq
          simp only [List.flatten_cons, length_append]
          omega
      have hmem : ∀ r ∈ rows.flatten, G r.1 ∧ Out r.2 := fun r hr => by
        obtain ⟨row, hrow, hr⟩ := List.mem_flatten.mp hr
        obtain ⟨gv, -, hgv⟩ := forall₂_mem_right hrows hrow
        obtain ⟨gv', -, h, -⟩ := forall₂_mem_right hgv hr
        exact h
      refine (mergeRun_gvs M hlen hmem).mono fun r _ hr => ⟨hr.1, fun I => ?_⟩
      obtain ⟨r', hfirst, hst⟩ := First.product (Q := Stands₂ R)
        (hrows.imp fun gv row h => h.imp fun gv' r h => ⟨h.2.1 I, h.2.2⟩)
        (first_iteAsGvs I bs e) (first_iteAsGvs I bs' e')
      obtain ⟨wx, wy, r'', hwx, hwy, hR, heval⟩ := hst I
      exact ⟨wx, wy, r'', .ite hwx, .ite hwy, hR, (hr.2 I hfirst).trans heval⟩

/-- The same for an operation on one term. -/
theorem simplifyGenericUnary_spec {F : ℕ → Term → Run Term} {concrete : Obj → Ty → Run Term}
    {unmatched : ℕ → Term → Run Term}
    (hF : ∀ n, F (n + 1) = simplifyGenericUnary concrete (unmatched n) (F n))
    {R : Term → Term → Prop} (hleaf : ∀ v, NotIte v → Lx v → Returns (F · v) fun r => Out r ∧ R v r)
    (hx : UnionOf G Lx x) : Returns (F · x) fun r => Out r ∧ Stands₁ R x r := by
  induction hx with
  | @leaf v hv hL =>
    exact (hleaf v hv hL).mono fun r hr => ⟨hr.1, fun I => ⟨v, r, .leaf hv, hr.2, rfl⟩⟩
  | @ite bs e hne guards values elseValue ihv ihe =>
    have hx : UnionOf G Lx (.ite bs e) := .ite hne guards values elseValue
    have hgvs : ∀ gv ∈ iteAsGvs bs e, Returns (F · gv.2) fun r => Out r ∧ Stands₁ R gv.2 r := by
      intro gv hgv
      rcases mem_append.mp hgv with hm | hm
      · exact ihv gv hm
      · rw [mem_singleton.mp hm]
        exact ihe
    refine eventually_of_succ ?_
    filter_upwards [eventually_forall_mem hgvs] with n hn
    rw [hF]
    show Run.Gives (do
      let values' ← (iteAsGvs bs e).mapM fun gv => do
        let v ← F n gv.2
        return (gv.1, v)
      mergeRun (← Run.lift (fromGvs values'))) _
    refine (Run.Gives.mapM (R := fun gv gv' => gv'.1 = gv.1 ∧ Out gv'.2 ∧
      Stands₁ R gv.2 gv'.2) fun gv hgv => ?_).bind fun values' _ hvalues' => ?_
    · exact (hn gv hgv).bind fun r _ hr => .pure ⟨rfl, hr⟩
    have hlen : 2 ≤ values'.length := by
      have := length_pos_of_ne_nil hne
      rw [← hvalues'.length_eq]
      simp only [iteAsGvs, length_append, length_singleton]
      omega
    refine (mergeRun_gvs M hlen fun gv' hgv' => ?_).mono fun r _ hr => ⟨hr.1, fun I => ?_⟩
    · obtain ⟨gv, hgv, h⟩ := forall₂_mem_right hvalues' hgv'
      exact ⟨h.1 ▸ hx.mem_guards M.truth hgv, h.2.1⟩
    · obtain ⟨r', hfirst, hst⟩ := First.map (Q := Stands₁ R)
        (hvalues'.imp fun gv gv' h => ⟨h.1, h.2.2⟩) (first_iteAsGvs I bs e)
      obtain ⟨w, r'', hw, hR, heval⟩ := hst I
      exact ⟨w, r'', .ite hw, hR, (hr.2 I hfirst).trans heval⟩

end

/-! ### Merges -/

section

omit [HashOrder FieldId]

/-- A union of leaves keeps its branches, or some of them. -/
theorem simplify_leaves (hbs : ∀ b ∈ bs, NotIte b.2) (he : NotIte e) {res : IteType}
    (h : simplify bs e = .ok res) : ∀ b ∈ res.branches, b ∈ bs := by
  have helse : simplifyElse e = .ok ⟨[], e⟩ := by
    cases e with
    | ite bs e => exact absurd rfl (he bs e)
    | _ => rw [simplifyElse]; simp
  rw [simplify_eq, bind_ok helse] at h
  induction bs generalizing res with
  | nil =>
    cases h
    exact forall_mem_nil _
  | cons b bs ih =>
    obtain ⟨hb, hbs⟩ := forall_mem_cons.mp hbs
    rw [foldrM_cons] at h
    obtain ⟨acc, hacc, h⟩ := bind_eq_ok h
    have hsub : ∀ b' ∈ acc.branches, b' ∈ b :: bs := fun b' hb' =>
      mem_cons_of_mem _ (ih hbs hacc b' hb')
    rw [folder_leaf hb] at h
    cases h
    split
    · exact forall_mem_nil _
    split
    · exact hsub
    · exact forall_mem_cons.mpr ⟨mem_cons_self, hsub⟩

theorem Simple.notIte (h : Simple x) : NotIte x := by
  rintro bs e rfl
  exact h.not_ite

theorem finish_notIte {t : Term} (h : NotIte t) : finish t = .ok t := by
  cases t with
  | ite bs e => exact absurd rfl (h bs e)
  | _ => rfl

theorem finish_eq {r : Term} (h : finish (.ite bs e) = .ok r) :
    r = e ∨ r = .ite bs e := by
  unfold finish at h
  split at h
  · next heq =>
      cases heq
      exact .inl (Except.ok.inj h).symm
  · next heq =>
      cases heq
      split at h
      · exact .inl (Except.ok.inj h).symm
      · unfold mkIte at h
        split at h
        · cases h
        · exact .inr (Except.ok.inj h).symm
  · exact .inr (Except.ok.inj h).symm

end

/-- Truth values under simple conditions merge into a simple condition. -/
theorem merges_simple : Merges Simple Simple where
  truth := .makeBool true
  and _ _ := connected_simple.and
  merge bs e hne hg hv he := by
    obtain ⟨res, h₁, h₂⟩ := simplify_spec (P := Simple) (Q := Simple) (fun _ h => h)
      (fun b hb => .simple (hg b hb)) (fun b hb => .leaf (Simple.notIte (hv b hb)) (hv b hb))
      (.leaf (Simple.notIte he) he)
    have hguards : ∀ b ∈ res.branches, Simple b.1 := fun b hb =>
      hg b (simplify_leaves (fun b hb => Simple.notIte (hv b hb)) (Simple.notIte he) h₁ b hb)
    have hcompress : ∃ r, compress res = .ok r ∧ Simple r ∧ ∀ {V : Type} (I : Interp V),
        r.holds I = (ite res.branches res.elseValue).holds I := by
      by_cases hnil : res.branches = []
      · refine ⟨res.elseValue, by unfold compress; rw [if_pos hnil], h₂.flat.elseLeaf, fun I => ?_⟩
        rw [hnil, holds, holds, eval_ite_nil]
      · exact compress_bool connected_simple hnil hguards h₂.flat.leaves h₂.flat.elseLeaf
          h₂.flat.elseLeaf
    obtain ⟨r, h₃, h₄, h₅⟩ := hcompress
    refine ⟨r, by rw [merge_eq, bind_ok h₁, bind_ok h₃, finish_notIte (Simple.notIte h₄)], h₄,
      fun I => ?_⟩
    have hite : Condition (.ite bs e) := .ite hne (fun b hb => .simple (hg b hb))
      (fun b hb => .simple (hv b hb)) (.simple he)
    rw [condition_eval_eq I (.simple h₄), h₅, condition_eval_eq I hite, holds, holds, h₂.value I]

section
variable (hP : ∀ v, P v → BranchLeaf .plain v)

include hP

/-- Plain values, in unions that leave nothing to hoist, merge into one of them or a flat union. -/
theorem merge_plain (hg : ∀ b ∈ bs, Condition b.1)
    (hv : ∀ b ∈ bs, InBranch P b.2) (he : InBranch P e) :
    ∃ r, merge ⟨bs, e⟩ = .ok r ∧ InBranch P r ∧ UnionOf Condition P r ∧
      ∀ {V : Type} (I : Interp V), r.eval I = (ite bs e).eval I := by
  obtain ⟨res, h₁, h₂⟩ := simplify_spec (P := P) (Q := P) (fun _ h => h) hg hv
    (he.inElse fun _ h => h)
  have hleaf : InBranch P res.elseValue ∧ UnionOf Condition P res.elseValue :=
    ⟨.leaf h₂.flat.elseNotIte h₂.flat.elseLeaf, .leaf h₂.flat.elseNotIte h₂.flat.elseLeaf⟩
  by_cases hnil : res.branches = []
  · have hcompress : compress res = .ok res.elseValue := by unfold compress; rw [if_pos hnil]
    refine ⟨res.elseValue, ?_, hleaf.1, hleaf.2, fun I => ?_⟩
    · rw [merge_eq, bind_ok h₁, bind_ok hcompress, finish_notIte h₂.flat.elseNotIte]
    · rw [← h₂.value I, hnil, eval_ite_nil]
  · obtain ⟨r, h₃, h₄⟩ := finish_spec (ite res.branches res.elseValue)
    have hmerge : merge ⟨bs, e⟩ = .ok r := by
      rw [merge_eq, bind_ok h₁, bind_ok (compress_plain hnil (hP _ h₂.flat.elseLeaf)), h₃]
    have hshape : InBranch P r ∧ UnionOf Condition P r := by
      rcases finish_eq h₃ with rfl | rfl
      · exact hleaf
      · exact ⟨.ite h₂.flat.guards
          (fun b hb => .leaf (h₂.flat.notIte b hb) (h₂.flat.leaves b hb)) h₂.flat.elseNotIte
          h₂.flat.elseLeaf, .ite hnil h₂.flat.guards
          (fun b hb => .leaf (h₂.flat.notIte b hb) (h₂.flat.leaves b hb)) hleaf.2⟩
    exact ⟨r, hmerge, hshape.1, hshape.2, fun I => by rw [h₄, h₂.value I]⟩

theorem merges_plain :
    Merges Condition (InBranch P) where
  truth := .makeBool true
  and _ _ := simplifyAnd_spec
  merge bs e _ hg hv he := by
    obtain ⟨r, h₁, h₂, -, h₃⟩ := merge_plain hP hg hv he
    exact ⟨r, h₁, h₂, h₃⟩

/-- The same, with the results ready to be distributed again. -/
theorem merges_unions :
    Merges Condition fun v => InBranch P v ∧ UnionOf Condition P v where
  truth := .makeBool true
  and _ _ := simplifyAnd_spec
  merge bs e _ hg hv he := by
    obtain ⟨r, h₁, h₂, h₃, h₄⟩ := merge_plain hP hg (fun b hb => (hv b hb).1) he.1
    exact ⟨r, h₁, ⟨h₂, h₃⟩, h₄⟩

end

end

end VSharp
