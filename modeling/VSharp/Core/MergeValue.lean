import VSharp.Core.Merging

/-!
# Core — MergeValue

The value of a merge.  The values of one type have one `Shape`; a union of them is merged into a term
with the value of the union (`merge_value`), as long as no union that stands in a branch has a union
as its else value: `simplify` hoists the branches of that inner union without the guard of the
branch (`merge_leaks`).
-/

namespace VSharp
open Term Propositional Library List PersistentDict

namespace Merging
variable {bs : List (Term × Term)} {e v g : Term} {V : Type}

/-- The term is no union. -/
def NotIte (v : Term) : Prop := ∀ bs e, v ≠ .ite bs e

/-- A value in a branch: a leaf, or a union of such values with a leaf as its else value. -/
inductive InBranch (P : Term → Prop) : Term → Prop where
  | leaf {v : Term} (hv : NotIte v) (h : P v) : InBranch P v
  | ite {bs : List (Term × Term)} {e : Term} (guards : ∀ b ∈ bs, Condition b.1)
      (values : ∀ b ∈ bs, InBranch P b.2) (he : NotIte e) (h : P e) : InBranch P (.ite bs e)

/-- An else value: a leaf, or a union whose else value is one again. -/
inductive InElse (P Q : Term → Prop) : Term → Prop where
  | leaf {v : Term} (hv : NotIte v) (h : Q v) : InElse P Q v
  | ite {bs : List (Term × Term)} {e : Term} (guards : ∀ b ∈ bs, Condition b.1)
      (values : ∀ b ∈ bs, InBranch P b.2) (elseValue : InElse P Q e) : InElse P Q (.ite bs e)

theorem InBranch.of_ite {P : Term → Prop} (h : InBranch P (.ite bs e)) :
    (∀ b ∈ bs, Condition b.1) ∧ (∀ b ∈ bs, InBranch P b.2) ∧ NotIte e ∧ P e := by
  cases h with
  | leaf hv => exact absurd rfl (hv bs e)
  | ite guards values he h => exact ⟨guards, values, he, h⟩

theorem InBranch.of_notIte {P : Term → Prop} (h : InBranch P v) (hv : NotIte v) : P v := by
  cases h with
  | leaf _ h => exact h
  | ite => exact absurd rfl (hv _ _)

theorem InElse.of_ite {P Q : Term → Prop} (h : InElse P Q (.ite bs e)) :
    (∀ b ∈ bs, Condition b.1) ∧ (∀ b ∈ bs, InBranch P b.2) ∧ InElse P Q e := by
  cases h with
  | leaf hv => exact absurd rfl (hv bs e)
  | ite guards values elseValue => exact ⟨guards, values, elseValue⟩

theorem InElse.of_notIte {P Q : Term → Prop} (h : InElse P Q v) (hv : NotIte v) : Q v := by
  cases h with
  | leaf _ h => exact h
  | ite => exact absurd rfl (hv _ _)

theorem notIte_or (v : Term) : NotIte v ∨ ∃ bs e, v = .ite bs e := by
  cases v with
  | ite bs e => exact .inr ⟨bs, e, rfl⟩
  | _ => exact .inl nofun

theorem InBranch.inElse {P Q : Term → Prop} (hPQ : ∀ v, P v → Q v) (h : InBranch P v) :
    InElse P Q v := by
  cases h with
  | leaf hv h => exact .leaf hv (hPQ v h)
  | ite guards values he h => exact .ite guards values (.leaf he (hPQ _ h))

/-- A value all of whose guards are conditions, to any depth. -/
inductive Guarded : Term → Prop where
  | leaf {v : Term} (hv : NotIte v) : Guarded v
  | ite {bs : List (Term × Term)} {e : Term} (guards : ∀ b ∈ bs, Condition b.1)
      (values : ∀ b ∈ bs, Guarded b.2) (elseValue : Guarded e) : Guarded (.ite bs e)

theorem InBranch.guarded {P : Term → Prop} (h : InBranch P v) : Guarded v := by
  induction h with
  | leaf hv => exact .leaf hv
  | ite guards _ he _ ih => exact .ite guards ih (.leaf he)

theorem InElse.guarded {P Q : Term → Prop} (h : InElse P Q v) : Guarded v := by
  induction h with
  | leaf hv => exact .leaf hv
  | ite guards values _ ih => exact .ite guards (fun b hb => (values b hb).guarded) ih

/-! ### Flattening -/

theorem guardBranches_spec (hg : Condition g) (hbs : ∀ b ∈ bs, Condition b.1) :
    ∃ guarded, guardBranches g bs = .ok guarded ∧
      List.Forall₂ (fun b b' => Condition b'.1 ∧ b'.2 = b.2 ∧
        ∀ {V : Type} (I : Interp V), b'.1.holds I = (g.holds I && b.1.holds I)) bs guarded := by
  refine mapM_ok fun b hb => ?_
  obtain ⟨r, h₁, h₂, h₃⟩ := simplifyAnd_spec hg (hbs b hb)
  exact ⟨(r, b.2), by rw [bind_ok h₁], h₂, rfl, h₃⟩

/-- Where the common guard is true, it changes nothing. -/
theorem eval_guarded (I : Interp V) {guarded : List (Term × Term)} (e : Term)
    (hg : g.holds I = true) (h : List.Forall₂ (fun b b' => Condition b'.1 ∧ b'.2 = b.2 ∧
      ∀ {V : Type} (I : Interp V), b'.1.holds I = (g.holds I && b.1.holds I)) bs guarded) :
    (ite guarded e).eval I = (ite bs e).eval I := by
  induction h with
  | nil => rfl
  | cons hb _ ih => rw [eval_ite_cons, eval_ite_cons, hb.2.2, hg, Bool.true_and, hb.2.1, ih]

theorem folder_leaf (hv : NotIte v) (g : Term) (acc : IteType) :
    folder g v acc = .ok (if isTrue g then ⟨[], v⟩ else if isFalse g then acc
      else ⟨(g, v) :: acc.branches, acc.elseValue⟩) := by
  cases v with
  | ite bs e => exact absurd rfl (hv bs e)
  | _ =>
    unfold folder
    split
    · rfl
    split <;> rfl

theorem folder_ite (g : Term) (bs : List (Term × Term)) (e : Term) (acc : IteType) :
    folder g (.ite bs e) acc =
      if isTrue g then simplify bs e else if isFalse g then .ok acc
      else guardBranches g bs >>= fun guarded => simplify guarded e >>= fun simplified =>
        .ok ⟨simplified.branches ++ (g, simplified.elseValue) :: acc.branches, acc.elseValue⟩ := by
  unfold folder
  split
  · rfl
  split
  · rfl
  dsimp only
  split
  · next err h => rw [h]; rfl
  · next guarded h => rw [h]; rfl

theorem simplify_cons (b : Term × Term) (bs : List (Term × Term)) (e : Term) :
    simplify (b :: bs) e = simplify bs e >>= folder b.1 b.2 := by
  rw [simplify_eq, simplify_eq, bind_assoc]
  exact congrArg (simplifyElse e >>= ·) (funext fun acc => foldrM_cons)

theorem simplify_leaf (he : NotIte e) : simplify [] e = .ok ⟨[], e⟩ := by
  rw [simplify_eq]
  unfold simplifyElse
  split
  · exact absurd rfl (he _ _)
  · rfl

theorem simplify_nil_ite (bs : List (Term × Term)) (e : Term) :
    simplify [] (.ite bs e) = simplify bs e := by
  rw [simplify_eq, simplifyElse]
  exact bind_pure _

/-- A value under a literally true guard stands for all that follows. -/
theorem folder_isTrue (hg : isTrue g = true) (v : Term) (acc : IteType) :
    folder g v acc = simplify [] v := by
  rcases notIte_or v with hv | ⟨bs, e, rfl⟩
  · rw [folder_leaf hv, if_pos hg, simplify_leaf hv]
  · rw [folder_ite, if_pos hg, simplify_nil_ite]

/-- A value under a literally false guard is dropped. -/
theorem folder_isFalse (hg : isFalse g = true) (v : Term) (acc : IteType) :
    folder g v acc = .ok acc := by
  have htrue : isTrue g ≠ true := by rw [isFalse_iff.mp hg]; decide
  rcases notIte_or v with hv | ⟨bs, e, rfl⟩
  · rw [folder_leaf hv, if_neg htrue, if_pos hg]
  · rw [folder_ite, if_neg htrue, if_pos hg]

/-- `simplify` returns wherever all guards are conditions. -/
theorem simplify_returns (hg : ∀ b ∈ bs, Condition b.1) (hv : ∀ b ∈ bs, Guarded b.2)
    (he : Guarded e) : ∃ res, simplify bs e = .ok res := by
  induction hn : bulkBranches bs + bulk e using Nat.strong_induction_on generalizing bs e with
  | h n ih =>
  subst hn
  have unions {bs' : List (Term × Term)} {e' : Term} (h : Guarded (.ite bs' e'))
      (hlt : bulkBranches bs' + bulk e' < bulkBranches bs + bulk e) :
      ∃ res, simplify bs' e' = .ok res := by
    cases h with
    | leaf h => exact absurd rfl (h _ _)
    | ite guards values elseValue => exact ih _ hlt guards values elseValue rfl
  cases bs with
  | nil =>
    rcases notIte_or e with h | ⟨bs', e', rfl⟩
    · exact ⟨_, simplify_leaf h⟩
    · rw [simplify_nil_ite]
      exact unions he (by rw [bulk]; omega)
  | cons b bs =>
    obtain ⟨hgb, hg⟩ := forall_mem_cons.mp hg
    obtain ⟨hvb, hv⟩ := forall_mem_cons.mp hv
    have hpos := bulk_pos b.2
    rw [bulkBranches] at ih unions
    obtain ⟨acc, hacc⟩ := ih _ (by omega) hg hv he rfl
    rw [simplify_cons, bind_ok hacc]
    rcases notIte_or b.2 with h | ⟨bs', e', hb⟩
    · exact ⟨_, folder_leaf h _ _⟩
    · rw [hb, bulk] at unions
      rw [hb] at hvb
      rw [hb, folder_ite]
      have hpos := bulk_pos e
      split
      · exact unions hvb (by omega)
      split
      · exact ⟨_, rfl⟩
      cases hvb with
      | leaf h => exact absurd rfl (h _ _)
      | ite guards values elseValue =>
        obtain ⟨guarded, hguarded, hR⟩ := guardBranches_spec hgb guards
        have hbulk := guardBranches_bulk hguarded
        obtain ⟨res, hres⟩ := ih (bulkBranches guarded + bulk e') (by rw [hb, bulk]; omega)
          (fun b' hb' => by
            obtain ⟨b, -, h⟩ := forall₂_mem_right hR hb'
            exact h.1)
          (fun b' hb' => by
            obtain ⟨b, hb, h⟩ := forall₂_mem_right hR hb'
            exact h.2.1 ▸ values b hb) elseValue rfl
        rw [bind_ok hguarded, bind_ok hres]
        exact ⟨_, rfl⟩

/-- Where a union stands: its branches are hoisted as they are, they carry the guard of the branch
that the union stands in, or they would be hoisted out of that branch without its guard. -/
inductive Site where
  | top
  | guarded
  | unguarded
deriving DecidableEq

/-- Where the else value of a union stands. -/
def Site.elseValue : Site → Site
  | .top => .top
  | _ => .unguarded

/-- Where a value stands whose guard is literally true. -/
def Site.certain : Site → Site
  | .unguarded => .unguarded
  | _ => .top

/-- A union that `simplify` flattens with nothing to hoist without a guard.  What comes after a
literally true guard, and what stands under a literally false one, is dropped.  `P` is asked of the
values that are left, with their guards, and `Q` of the else value. -/
inductive Flattenable (P : Term → Term → Prop) :
    Site → (Term → Prop) → List (Term × Term) → Term → Prop where
  | leaf {site : Site} {Q : Term → Prop} {e : Term} (he : NotIte e) (h : Q e) :
      Flattenable P site Q [] e
  | elseValue {site : Site} {Q : Term → Prop} {bs : List (Term × Term)} {e : Term}
      (h : Flattenable P site.elseValue Q bs e) : Flattenable P site Q [] (.ite bs e)
  | certain {site : Site} {Q : Term → Prop} {g v e : Term} {bs : List (Term × Term)}
      (hg : isTrue g = true) (hv : Flattenable P site.certain Q [] v)
      (guards : ∀ b ∈ bs, Condition b.1) (values : ∀ b ∈ bs, Guarded b.2) (he : Guarded e) :
      Flattenable P site Q ((g, v) :: bs) e
  | impossible {site : Site} {Q : Term → Prop} {g v e : Term} {bs : List (Term × Term)}
      (hg : isFalse g = true) (hv : Guarded v) (h : Flattenable P site Q bs e) :
      Flattenable P site Q ((g, v) :: bs) e
  | branch {site : Site} {Q : Term → Prop} {g v e : Term} {bs : List (Term × Term)}
      (hsite : site ≠ .unguarded) (hg : Condition g) (hopen : isTrue g = false ∧ isFalse g = false)
      (hv : NotIte v) (hP : P g v) (h : Flattenable P site Q bs e) :
      Flattenable P site Q ((g, v) :: bs) e
  | union {site : Site} {Q : Term → Prop} {g e e' : Term} {bs bs' guarded : List (Term × Term)}
      (hsite : site ≠ .unguarded) (hg : Condition g) (hopen : isTrue g = false ∧ isFalse g = false)
      (guards : ∀ b ∈ bs', Condition b.1) (hguarded : guardBranches g bs' = .ok guarded)
      (hv : Flattenable P .guarded (P g) guarded e') (h : Flattenable P site Q bs e) :
      Flattenable P site Q ((g, .ite bs' e') :: bs) e

/-- A union whose branches are flat: conditions as guards, leaves as values. -/
structure Flat (P : Term → Term → Prop) (Q : Term → Prop) (ite : IteType) : Prop where
  guards : ∀ b ∈ ite.branches, Condition b.1
  isOpen : ∀ b ∈ ite.branches, isTrue b.1 = false ∧ isFalse b.1 = false
  notIte : ∀ b ∈ ite.branches, NotIte b.2
  leaves : ∀ b ∈ ite.branches, P b.1 b.2
  elseNotIte : NotIte ite.elseValue
  elseLeaf : Q ite.elseValue

variable {P : Term → Term → Prop} {Q P' C : Term → Prop} {s : Shape} {site : Site} {acc : IteType}

theorem Flat.nil (he : NotIte e) (h : Q e) : Flat P Q ⟨[], e⟩ :=
  ⟨forall_mem_nil _, forall_mem_nil _, forall_mem_nil _, forall_mem_nil _, he, h⟩

theorem Flat.cons (hacc : Flat P Q acc) (hg : Condition g)
    (hopen : isTrue g = false ∧ isFalse g = false) (hv : NotIte v) (hP : P g v) :
    Flat P Q ⟨(g, v) :: acc.branches, acc.elseValue⟩ where
  guards := forall_mem_cons.mpr ⟨hg, hacc.guards⟩
  isOpen := forall_mem_cons.mpr ⟨hopen, hacc.isOpen⟩
  notIte := forall_mem_cons.mpr ⟨hv, hacc.notIte⟩
  leaves := forall_mem_cons.mpr ⟨hP, hacc.leaves⟩
  elseNotIte := hacc.elseNotIte
  elseLeaf := hacc.elseLeaf

theorem Flat.append {R : Term → Prop} {ite : IteType} (hacc : Flat P Q acc) (h : Flat P R ite) :
    Flat P Q ⟨ite.branches ++ acc.branches, acc.elseValue⟩ where
  guards := forall_mem_append.mpr ⟨h.guards, hacc.guards⟩
  isOpen := forall_mem_append.mpr ⟨h.isOpen, hacc.isOpen⟩
  notIte := forall_mem_append.mpr ⟨h.notIte, hacc.notIte⟩
  leaves := forall_mem_append.mpr ⟨h.leaves, hacc.leaves⟩
  elseNotIte := hacc.elseNotIte
  elseLeaf := hacc.elseLeaf

/-- What `simplify` makes of a union: a flat one with the same value.  Where the branches must carry
a guard, all are false wherever those of the union are. -/
structure Flattens (P : Term → Term → Prop) (site : Site) (Q : Term → Prop)
    (bs : List (Term × Term)) (e : Term) (res : IteType) : Prop where
  flat : Flat P Q res
  value : ∀ {V : Type} (I : Interp V), (ite res.branches res.elseValue).eval I = (ite bs e).eval I
  none : site = .unguarded → res.branches = []
  quiet : site = .guarded → ∀ {V : Type} (I : Interp V), (∀ b ∈ bs, b.1.holds I = false) →
    ∀ b ∈ res.branches, b.1.holds I = false

/-- `simplify` flattens every union that leaves nothing to hoist without a guard. -/
theorem Flattenable.flattens (h : Flattenable P site Q bs e) :
    ∃ res, simplify bs e = .ok res ∧ Flattens P site Q bs e res := by
  induction h with
  | leaf he h =>
    exact ⟨_, simplify_leaf he, .nil he h, fun I => rfl, fun _ => rfl,
      fun _ V I _ => forall_mem_nil _⟩
  | @elseValue site Q bs e h ih =>
    obtain ⟨res, h₁, h₂⟩ := ih
    refine ⟨res, by rw [simplify_nil_ite, h₁], h₂.flat, h₂.value, fun hs => ?_, fun hs V I _ => ?_⟩
    · exact h₂.none (by rw [hs]; rfl)
    · rw [h₂.none (by rw [hs]; rfl)]
      exact forall_mem_nil _
  | @certain site Q g v e bs hg _ guards values he ih =>
    obtain ⟨res, h₁, h₂⟩ := ih
    obtain ⟨acc, hacc⟩ := simplify_returns guards values he
    refine ⟨res, ?_, h₂.flat, fun I => ?_, fun hs => ?_, fun _ V I hall => ?_⟩
    · rw [simplify_cons, bind_ok hacc, folder_isTrue hg, h₁]
    · rw [h₂.value, isTrue_iff.mp hg, eval_ite_cons, holds_trueTerm, if_pos rfl, eval_ite_nil]
    · exact h₂.none (by rw [hs]; rfl)
    · have hfalse := hall _ mem_cons_self
      rw [isTrue_iff.mp hg, holds_trueTerm] at hfalse
      cases hfalse
  | @impossible site Q g v e bs hg _ _ ih =>
    obtain ⟨res, h₁, h₂⟩ := ih
    refine ⟨res, ?_, h₂.flat, fun I => ?_, h₂.none, fun hs V I hall => ?_⟩
    · rw [simplify_cons, bind_ok h₁, folder_isFalse hg]
    · rw [h₂.value, isFalse_iff.mp hg, eval_ite_cons, holds_falseTerm, if_neg Bool.false_ne_true]
    · exact h₂.quiet hs I (forall_mem_cons.mp hall).2
  | @branch site Q g v e bs hsite hg hopen hv hP _ ih =>
    obtain ⟨acc, h₁, h₂⟩ := ih
    refine ⟨⟨(g, v) :: acc.branches, acc.elseValue⟩, ?_, h₂.flat.cons hg hopen hv hP, fun I => ?_,
      fun hs => absurd hs hsite, fun hs V I hall => ?_⟩
    · rw [simplify_cons, bind_ok h₁, folder_leaf hv, hopen.1, hopen.2]
      rfl
    · rw [eval_ite_cons, eval_ite_cons, h₂.value]
    · obtain ⟨hgI, hall⟩ := forall_mem_cons.mp hall
      exact forall_mem_cons.mpr ⟨hgI, h₂.quiet hs I hall⟩
  | @union site Q g e e' bs bs' guarded hsite hg hopen guards hguarded _ _ ihv ih =>
    obtain ⟨acc, h₁, h₂⟩ := ih
    obtain ⟨res, h₃, h₄⟩ := ihv
    obtain ⟨guarded', heq, hR⟩ := guardBranches_spec hg guards
    cases hguarded.symm.trans heq
    -- Where `g` is false, so are all the guards that are hoisted.
    have hquiet {V : Type} (I : Interp V) (hgI : g.holds I = false) :
        ∀ b ∈ res.branches, b.1.holds I = false := by
      refine h₄.quiet rfl I fun b' hb' => ?_
      obtain ⟨b, -, h⟩ := forall₂_mem_right hR hb'
      rw [h.2.2, hgI, Bool.false_and]
    refine ⟨⟨res.branches ++ (g, res.elseValue) :: acc.branches, acc.elseValue⟩, ?_,
      (h₂.flat.cons hg hopen h₄.flat.elseNotIte h₄.flat.elseLeaf).append h₄.flat, fun I => ?_,
      fun hs => absurd hs hsite, fun hs V I hall => ?_⟩
    · rw [simplify_cons, bind_ok h₁, folder_ite, hopen.1, hopen.2, if_neg Bool.false_ne_true,
        if_neg Bool.false_ne_true, bind_ok hguarded, bind_ok h₃]
    · rw [eval_ite_append]
      cases hgI : g.holds I with
      | true =>
        have hrest : (ite ((g, res.elseValue) :: acc.branches) acc.elseValue).eval I =
            res.elseValue.eval I := by
          rw [eval_ite_cons, if_pos hgI]
        rw [eval_ite_congr_else I _ hrest, h₄.value, eval_guarded I e' hgI hR, eval_ite_cons,
          if_pos hgI]
      | false =>
        rw [eval_ite_of_guards_false I _ (hquiet I hgI), eval_ite_cons, eval_ite_cons, hgI,
          if_neg Bool.false_ne_true, if_neg Bool.false_ne_true, h₂.value]
    · obtain ⟨hgI, hall⟩ := forall_mem_cons.mp hall
      exact forall_mem_append.mpr ⟨hquiet I hgI, forall_mem_cons.mpr ⟨hgI, h₂.quiet hs I hall⟩⟩

/-- A value in a branch with the guard `g`, with nothing to hoist out of that branch. -/
def InGuard (P : Term → Term → Prop) (g v : Term) : Prop :=
  (NotIte v ∧ P g v) ∨ ∃ bs e guarded, v = .ite bs e ∧ (∀ b ∈ bs, Condition b.1) ∧
    guardBranches g bs = .ok guarded ∧ Flattenable P .guarded (P g) guarded e

theorem InGuard.cons (hv : InGuard P g v) (hg : Condition g)
    (hopen : isTrue g = false ∧ isFalse g = false) (hsite : site ≠ .unguarded)
    (h : Flattenable P site Q bs e) : Flattenable P site Q ((g, v) :: bs) e := by
  rcases hv with ⟨hv, hP⟩ | ⟨bs', e', guarded, rfl, guards, hguarded, hv⟩
  · exact .branch hsite hg hopen hv hP h
  · exact .union hsite hg hopen guards hguarded hv h

section
variable (hP : ∀ g v, Condition g → P' v → P g v)

include hP

/-- A union in a branch whose else value is a leaf leaves nothing to hoist, as far as the branches
under their new guards do not. -/
theorem InBranch.inGuard_of (hg : Condition g) (h : InBranch P' v)
    (ih : ∀ bs e, bulkBranches bs + bulk e < bulk v → (∀ b ∈ bs, Condition b.1) →
      (∀ b ∈ bs, InBranch P' b.2) → NotIte e → P' e → Flattenable P .guarded (P g) bs e) :
    InGuard P g v := by
  rcases notIte_or v with hne | ⟨bs, e, rfl⟩
  · exact .inl ⟨hne, hP g v hg (h.of_notIte hne)⟩
  · obtain ⟨hguards, hvalues, hne, hP'⟩ := h.of_ite
    obtain ⟨guarded, hguarded, hR⟩ := guardBranches_spec hg hguards
    have hbulk := guardBranches_bulk hguarded
    refine .inr ⟨bs, e, guarded, rfl, hguards, hguarded, ih guarded e ?_ ?_ ?_ hne hP'⟩
    · rw [bulk]
      omega
    · intro b' hb'
      obtain ⟨b, -, h⟩ := forall₂_mem_right hR hb'
      exact h.1
    · intro b' hb'
      obtain ⟨b, hb, h⟩ := forall₂_mem_right hR hb'
      exact h.2.1 ▸ hvalues b hb

/-- Where no union in a branch has a union as its else value, nothing is hoisted out of the branch. -/
theorem InElse.flattenable {Q' : Term → Prop} (hPQ : ∀ v, P' v → Q v) (hQ : ∀ v, Q' v → Q v)
    (hg : ∀ b ∈ bs, Condition b.1) (hv : ∀ b ∈ bs, InBranch P' b.2) (he : InElse P' Q' e)
    (hsite : site = .top ∨ site = .guarded ∧ NotIte e) : Flattenable P site Q bs e := by
  induction hn : bulkBranches bs + bulk e using Nat.strong_induction_on
    generalizing Q Q' site bs e with
  | h n ih =>
  subst hn
  cases bs with
  | nil =>
    rcases notIte_or e with hne | ⟨bs', e', rfl⟩
    · exact .leaf hne (hQ e (he.of_notIte hne))
    · obtain rfl : site = .top := hsite.elim id fun h => absurd rfl (h.2 bs' e')
      obtain ⟨hg', hv', he'⟩ := he.of_ite
      -- Its branches become branches of the whole union, which needs no guard.
      exact .elseValue (ih _ (by rw [bulk]; omega) hPQ hQ hg' hv' he' (.inl rfl) rfl)
  | cons b bs =>
    obtain ⟨g, v⟩ := b
    obtain ⟨hgb, hg⟩ := forall_mem_cons.mp hg
    obtain ⟨hvb, hv⟩ := forall_mem_cons.mp hv
    have hpos := bulk_pos v
    have hpos' := bulk_pos e
    simp only [bulkBranches] at ih
    have hrest := ih _ (by omega) hPQ hQ hg hv he hsite rfl
    have hsite' : site ≠ .unguarded := by rcases hsite with rfl | ⟨rfl, -⟩ <;> decide
    cases htrue : isTrue g with
    | true =>
      have htop : site.certain = .top := by rcases hsite with rfl | ⟨rfl, -⟩ <;> rfl
      refine .certain htrue ?_ hg (fun b hb => (hv b hb).guarded) he.guarded
      rw [htop]
      exact ih (bulk v) (by omega) hPQ hPQ (forall_mem_nil _) (forall_mem_nil _)
        (hvb.inElse fun _ h => h) (.inl rfl) (by rw [bulkBranches, Nat.zero_add])
    | false =>
      cases hfalse : isFalse g with
      | true => exact .impossible hfalse hvb.guarded hrest
      | false =>
        exact (hvb.inGuard_of hP hgb fun bs' e' (hlt : _ < bulk v) hg' hv' hne hP' =>
          ih _ (by omega) (hP g · hgb) (hP g · hgb) hg' hv' (.leaf hne hP') (.inr ⟨rfl, hne⟩)
            rfl).cons hgb ⟨htrue, hfalse⟩ hsite' hrest

theorem InBranch.inGuard (hg : Condition g) (h : InBranch P' v) : InGuard P g v :=
  h.inGuard_of hP hg fun _ _ _ hg' hv' hne hP' => InElse.flattenable hP (hP g · hg) (hP g · hg) hg'
    hv' (.leaf hne hP') (.inr ⟨rfl, hne⟩)

end

/-- So `simplify` flattens them. -/
theorem simplify_spec {P : Term → Prop} (hPQ : ∀ v, P v → Q v) (hg : ∀ b ∈ bs, Condition b.1)
    (hv : ∀ b ∈ bs, InBranch P b.2) (he : InElse P Q e) :
    ∃ res, simplify bs e = .ok res ∧ Flattens (fun _ => P) .top Q bs e res :=
  (InElse.flattenable (fun _ _ _ h => h) hPQ (fun _ h => h) hg hv he (.inl rfl)).flattens

/-! ### Truth values -/

/-- The guards of `ToDisjunctiveIte` exclude each other, with the one that is returned beside. -/
theorem toDisjunctiveIte_spec (hC : Connected C) {disjG : Term} (hd : C disjG)
    (hg : ∀ b ∈ bs, C b.1) :
    ∃ bs' eg, toDisjunctiveIte disjG bs = .ok (bs', eg) ∧ C eg ∧
      List.Forall₂ (fun b b' => C b'.1 ∧ b'.2 = b.2) bs bs' ∧
      ∀ {V : Type} (I : Interp V) (e : Term),
        (bs'.any (fun b => b.1.holds I && b.2.holds I) || (eg.holds I && e.holds I)) =
          (disjG.holds I && (ite bs e).holds I) := by
  induction bs generalizing disjG with
  | nil => exact ⟨[], disjG, rfl, hd, .nil, fun I e => by simp⟩
  | cons b bs ih =>
    obtain ⟨hgb, hg⟩ := forall_mem_cons.mp hg
    obtain ⟨g', h₁, h₂, h₃⟩ := hC.and hgb hd
    obtain ⟨n, h₄, h₅, h₆⟩ := hC.not hgb
    obtain ⟨d, h₇, h₈, h₉⟩ := hC.and h₅ hd
    obtain ⟨bs', eg, h₁₀, h₁₁, hR, h₁₂⟩ := ih h₈ hg
    refine ⟨(g', b.2) :: bs', eg, ?_, h₁₁, .cons ⟨h₂, rfl⟩ hR, fun I e => ?_⟩
    · rw [toDisjunctiveIte, bind_ok h₁, bind_ok h₄, bind_ok h₇, bind_ok h₁₀]
    · rw [any_cons, Bool.or_assoc, h₁₂, h₃, h₉, h₆, holds_ite_cons]
      cases b.1.holds I <;> simp

theorem condition_eval_eq (I : Interp V) {x : Term} (h : Condition x) :
    x.eval I = I.ofBool (x.holds I) := by
  induction h with
  | simple h =>
    rcases h with ⟨b, rfl⟩ | h
    · rw [eval_makeBool, holds_makeBool]
    · exact h.eval_eq I
  | @ite bs e _ _ _ _ _ ihv ihe =>
    have hchosen : (chosen I ⟨bs, e⟩).eval I = I.ofBool ((chosen I ⟨bs, e⟩).holds I) := by
      rcases chosen_cases I ⟨bs, e⟩ with h | ⟨b, hb, h⟩ <;> rw [h]
      · exact ihe
      · exact ihv b hb
    rwa [holds, eval_chosen] at hchosen

/-- `boolMerge` has the truth value of the union. -/
theorem boolMerge_spec (hC : Connected C) {ite : IteType} (hg : ∀ b ∈ ite.branches, C b.1)
    (hv : ∀ b ∈ ite.branches, C b.2) (he : C ite.elseValue) :
    ∃ r, boolMerge ite = .ok r ∧ C r ∧ ∀ {V : Type} (I : Interp V),
      r.holds I = (Term.ite ite.branches ite.elseValue).holds I := by
  obtain ⟨bs', eg, h₁, hegc, hR, h₂⟩ := toDisjunctiveIte_spec hC
    (show C trueTerm from hC.truth true) hg
  have hgvs : toDisjunctiveGvs ite.branches ite.elseValue = .ok (bs' ++ [(eg, ite.elseValue)]) := by
    rw [toDisjunctiveGvs, bind_ok h₁]
  have hconds : ∀ gv ∈ bs' ++ [(eg, ite.elseValue)], C gv.1 ∧ C gv.2 := by
    intro gv hgv
    rcases mem_append.mp hgv with hgv | hgv
    · obtain ⟨b, hb, h⟩ := forall₂_mem_right hR hgv
      exact ⟨h.1, h.2 ▸ hv b hb⟩
    · obtain rfl := mem_singleton.mp hgv
      exact ⟨hegc, he⟩
  obtain ⟨r, h₃, h₄, h₅⟩ := foldlM_ok (l := bs' ++ [(eg, ite.elseValue)]) (d := []) (b := falseTerm)
    (f := fun acc gv => do simplifyOr acc (← simplifyAnd gv.1 gv.2))
    (P := fun done r => C r ∧ ∀ {V : Type} (I : Interp V),
      r.holds I = done.any fun gv => gv.1.holds I && gv.2.holds I)
    (fun done acc gv hgv hinv => by
      obtain ⟨x, h₃, h₄, h₅⟩ := hC.and (hconds gv hgv).1 (hconds gv hgv).2
      obtain ⟨y, h₆, h₇, h₈⟩ := hC.or hinv.1 h₄
      refine ⟨y, by rw [bind_ok h₃, h₆], h₇, fun I => ?_⟩
      rw [h₈, hinv.2, h₅, any_append]
      simp)
    ⟨hC.truth false, fun I => by simp⟩
  refine ⟨r, by rw [boolMerge, bind_ok hgvs, h₃], h₄, fun I => ?_⟩
  have := h₂ I ite.elseValue
  rw [h₅, nil_append, any_append]
  simpa using this

/-! ### The shape of values -/

/-- What the values of one type look like: truth values, structs with the same fields, or others. -/
inductive Shape where
  | plain
  | bool
  | struct (t : Ty) (fields : List FieldId) (shape : FieldId → Shape)

/-- A leaf of the shape, in a branch where no union has a union as its else value. -/
def BranchLeaf : Shape → Term → Prop
  | .plain, v => (∀ fs t, v ≠ .struct fs t) ∧ ∃ t, typeOf v = .ok t ∧ t ≠ .bool
  | .bool, v => Condition v
  | .struct t fields shape, v => ∃ fs, v = .struct fs t ∧ PersistentDict.Wf fs ∧
      (∀ k, k ∈ PersistentDict.keys fs ↔ k ∈ fields) ∧
      ∀ e ∈ fs, InBranch (BranchLeaf (shape e.1)) e.2

/-- A leaf of the shape, as an else value of branches as above. -/
def ElseLeaf : Shape → Term → Prop
  | .plain, v => (∀ fs t, v ≠ .struct fs t) ∧ ∃ t, typeOf v = .ok t ∧ t ≠ .bool
  | .bool, v => Condition v
  | .struct t fields shape, v => ∃ fs, v = .struct fs t ∧ PersistentDict.Wf fs ∧
      (∀ k, k ∈ PersistentDict.keys fs ↔ k ∈ fields) ∧
      ∀ e ∈ fs, InElse (BranchLeaf (shape e.1)) (ElseLeaf (shape e.1)) e.2

/-- A leaf of the shape under a guard that leaves nothing to hoist out of its fields. -/
def GuardedLeaf : Shape → Term → Term → Prop
  | .plain, _, v => (∀ fs t, v ≠ .struct fs t) ∧ ∃ t, typeOf v = .ok t ∧ t ≠ .bool
  | .bool, _, v => Condition v
  | .struct t fields shape, g, v => ∃ fs, v = .struct fs t ∧ PersistentDict.Wf fs ∧
      (∀ k, k ∈ PersistentDict.keys fs ↔ k ∈ fields) ∧
      ∀ e ∈ fs, InGuard (GuardedLeaf (shape e.1)) g e.2

/-- A leaf of the shape, as an else value whose fields leave nothing to hoist. -/
def LastLeaf : Shape → Term → Prop
  | .plain, v => (∀ fs t, v ≠ .struct fs t) ∧ ∃ t, typeOf v = .ok t ∧ t ≠ .bool
  | .bool, v => Condition v
  | .struct t fields shape, v => ∃ fs, v = .struct fs t ∧ PersistentDict.Wf fs ∧
      (∀ k, k ∈ PersistentDict.keys fs ↔ k ∈ fields) ∧
      ∀ e ∈ fs, Flattenable (GuardedLeaf (shape e.1)) .top (LastLeaf (shape e.1)) [] e.2

theorem BranchLeaf.elseLeaf (h : BranchLeaf s v) : ElseLeaf s v := by
  induction s generalizing v with
  | plain => exact h
  | bool => exact h
  | struct t fields shape ih =>
    obtain ⟨fs, rfl, hwf, hkeys, hfs⟩ := h
    exact ⟨fs, rfl, hwf, hkeys, fun e he => (hfs e he).inElse fun v => ih e.1⟩

theorem BranchLeaf.guardedLeaf (hg : Condition g) (h : BranchLeaf s v) : GuardedLeaf s g v := by
  induction s generalizing g v with
  | plain => exact h
  | bool => exact h
  | struct t fields shape ih =>
    obtain ⟨fs, rfl, hwf, hkeys, hfs⟩ := h
    exact ⟨fs, rfl, hwf, hkeys, fun e he => (hfs e he).inGuard (fun _ _ => ih e.1) hg⟩

theorem ElseLeaf.lastLeaf (h : ElseLeaf s v) : LastLeaf s v := by
  induction s generalizing v with
  | plain => exact h
  | bool => exact h
  | struct t fields shape ih =>
    obtain ⟨fs, rfl, hwf, hkeys, hfs⟩ := h
    exact ⟨fs, rfl, hwf, hkeys, fun e he => InElse.flattenable (fun _ _ => BranchLeaf.guardedLeaf)
      (fun v hv => ih e.1 hv.elseLeaf) (fun v => ih e.1) (forall_mem_nil _)
      (forall_mem_nil _) (hfs e he) (.inl rfl)⟩

/-- A union of values of one shape that leaves nothing to hoist without a guard. -/
def Mergeable (s : Shape) (ite : IteType) : Prop :=
  Flattenable (GuardedLeaf s) .top (LastLeaf s) ite.branches ite.elseValue

/-- A union of values of one shape, none of which has a union as its own else value in a branch. -/
structure Unnested (s : Shape) (ite : IteType) : Prop where
  guards : ∀ b ∈ ite.branches, Condition b.1
  values : ∀ b ∈ ite.branches, InBranch (BranchLeaf s) b.2
  elseValue : InElse (BranchLeaf s) (ElseLeaf s) ite.elseValue

theorem Unnested.mergeable {ite : IteType} (h : Unnested s ite) : Mergeable s ite :=
  InElse.flattenable (fun _ _ => BranchLeaf.guardedLeaf) (fun _ hv => hv.elseLeaf.lastLeaf)
    (fun _ => ElseLeaf.lastLeaf) h.guards h.values h.elseValue (.inl rfl)

section
variable [HashOrder FieldId]
variable {v : Term} {t : Ty} {ks : List FieldId} {ite : IteType} {s : Shape}

/-- The fields of a struct. -/
def fields : Term → Pdict FieldId Term
  | .struct fs _ => fs
  | _ => []

/-- The value of one field of a struct. -/
def field (k : FieldId) (v : Term) : Term := (PersistentDict.tryFind (fields v) k).getD .nop

section

omit [HashOrder FieldId]

variable {k : FieldId}

theorem find_field (h : k ∈ PersistentDict.keys (fields v)) :
    PersistentDict.tryFind (fields v) k = some (field k v) ∧
      PersistentDict.find (fields v) k = .ok (field k v) := by
  cases hx : PersistentDict.tryFind (fields v) k with
  | none => exact absurd h (tryFind_eq_none_iff.mp hx)
  | some x => simp [PersistentDict.find, field, hx]

/-- A struct of the given type and fields. -/
structure IsStruct (t : Ty) (ks : List FieldId) (v : Term) : Prop where
  eq : v = .struct (fields v) t
  wf : PersistentDict.Wf (fields v)
  keys : ∀ k, k ∈ PersistentDict.keys (fields v) ↔ k ∈ ks

theorem IsStruct.fieldsOf (h : IsStruct t ks v) : fieldsOf v = .ok (fields v) := by
  rw [h.eq]
  rfl

theorem mapM_map {α β : Type} {f : α → Except Failure β} {g : α → β} {l : List α}
    (h : ∀ a ∈ l, f a = .ok (g a)) : l.mapM f = .ok (l.map g) :=
  mapM_of_forall₂ (forall₂_map_right_iff.mpr (forall₂_same.mpr h))

theorem branchesFields_eq (h : ∀ b ∈ bs, IsStruct t ks b.2) :
    branchesFields bs = .ok (bs.map fun b => (b.1, fields b.2)) :=
  mapM_map fun b hb => by rw [bind_ok (h b hb).fieldsOf]

theorem fieldUnion_eq (h : ∀ b ∈ ite.branches, IsStruct t ks b.2) (he : IsStruct t ks ite.elseValue)
    (hk : k ∈ ks) :
    fieldUnion (ite.branches.map fun b => (b.1, fields b.2)) (fields ite.elseValue) k =
      .ok ⟨ite.branches.map fun b => (b.1, field k b.2), field k ite.elseValue⟩ := by
  have hbs : (ite.branches.map fun b => (b.1, fields b.2)).mapM
      (fun b => do .ok (b.1, ← PersistentDict.find b.2 k)) =
      .ok (ite.branches.map fun b => (b.1, field k b.2)) := by
    rw [List.mapM_map]
    exact mapM_map fun b hb => by
      rw [Function.comp_apply, bind_ok (find_field (((h b hb).keys k).mpr hk)).2]
  rw [fieldUnion, bind_ok hbs, bind_ok (find_field ((he.keys k).mpr hk)).2]

end

theorem structMerge_eq (typ : Ty) (ite : IteType) :
    structMerge typ ite = (do
      let branchesFs ← branchesFields ite.branches
      let e ← fieldsOf ite.elseValue
      let mergedFields ← (PersistentDict.keys e).foldlM (fun acc k => do
        let union ← fieldUnion branchesFs e k
        .ok (PersistentDict.add k (← merge union) acc)) e
      .ok (.struct mergedFields typ)) := by
  rw [structMerge]
  split
  · next err h => rw [h]; rfl
  next branchesFs h =>
  split
  · next err h' => rw [h, h']; rfl
  next e h' =>
  rw [bind_ok h, bind_ok h']
  congr 2
  funext acc k
  split
  · next err hk => rw [hk]; rfl
  · next union hk => rw [bind_ok hk]

/-- The values of one field of the structs in a union. -/
def fieldIte (k : FieldId) (ite : IteType) : IteType :=
  ⟨ite.branches.map fun b => (b.1, field k b.2), field k ite.elseValue⟩

/-- `r` has the value of the union. -/
abbrev HasValueOf (ite : IteType) (r : Term) : Prop :=
  ∀ {V : Type} (I : Interp V), r.eval I = (Term.ite ite.branches ite.elseValue).eval I

/-- A struct of unions has the value of the union of structs when its fields have. -/
theorem structMerge_spec (h : ∀ b ∈ ite.branches, IsStruct t ks b.2)
    (he : IsStruct t ks ite.elseValue)
    (hmerge : ∀ k ∈ ks, ∃ r, merge (fieldIte k ite) = .ok r ∧ HasValueOf (fieldIte k ite) r) :
    ∃ r, structMerge t ite = .ok r ∧ HasValueOf ite r := by
  obtain ⟨merged, h₁, hwf, hkeys, hfields⟩ := foldlM_ok
    (l := PersistentDict.keys (fields ite.elseValue)) (d := []) (b := fields ite.elseValue)
    (f := fun acc k => do
      let union ← fieldUnion (ite.branches.map fun b => (b.1, fields b.2)) (fields ite.elseValue) k
      .ok (PersistentDict.add k (← merge union) acc))
    (P := fun done acc => PersistentDict.Wf acc ∧
      (∀ k, k ∈ PersistentDict.keys acc ↔ k ∈ ks) ∧
      ∀ k ∈ done, ∃ x, PersistentDict.tryFind acc k = some x ∧ HasValueOf (fieldIte k ite) x)
    (fun done acc k hk hinv => by
      obtain ⟨hwf, hkeys, hdone⟩ := hinv
      have hks := (he.keys k).mp hk
      obtain ⟨r, hr, hval⟩ := hmerge k hks
      refine ⟨PersistentDict.add k r acc, ?_, hwf.add k r, fun k' => ?_, fun k' hk' => ?_⟩
      · rw [bind_ok (fieldUnion_eq h he hks)]
        exact bind_ok hr _
      · rw [mem_keys_add, hkeys]
        exact ⟨fun h => h.elim (fun h => h ▸ hks) id, .inr⟩
      · rw [tryFind_add]
        by_cases hkk : k' = k
        · subst hkk
          exact ⟨r, if_pos rfl, hval⟩
        · rw [if_neg hkk]
          rcases mem_append.mp hk' with hk' | hk'
          · exact hdone k' hk'
          · exact absurd (mem_singleton.mp hk') hkk)
    ⟨he.wf, he.keys, nofun⟩
  refine ⟨.struct merged t, ?_, fun I => ?_⟩
  · rw [structMerge_eq, bind_ok (branchesFields_eq h), bind_ok he.fieldsOf, bind_ok h₁]
  · rw [← eval_chosen]
    have hw : IsStruct t ks (chosen I ite) := by
      rcases chosen_cases I ite with hc | ⟨b, hb, hc⟩ <;> rw [hc]
      · exact he
      · exact h b hb
    rw [hw.eq, eval, eval]
    congr 1
    funext k
    rw [tryFind_evalFields, tryFind_evalFields, hwf.tryFind_reverse, hw.wf.tryFind_reverse]
    by_cases hk : k ∈ ks
    · obtain ⟨x, hx, hval⟩ := hfields k ((he.keys k).mpr hk)
      rw [hx, (find_field ((hw.keys k).mpr hk)).1, Option.map_some, Option.map_some, hval,
        ← eval_chosen]
      exact congrArg (fun v => some (v.eval I)) (chosen_map I (field k) ite)
    · rw [tryFind_eq_none_iff.mpr fun h => hk ((hkeys k).mp h),
        tryFind_eq_none_iff.mpr fun h => hk ((hw.keys k).mp h)]

section

omit [HashOrder FieldId]

theorem isStruct_of_leaf {P' : FieldId → Term → Prop}
    (h : ∃ fs, v = .struct fs t ∧ PersistentDict.Wf fs ∧
      (∀ k, k ∈ PersistentDict.keys fs ↔ k ∈ ks) ∧ ∀ e ∈ fs, P' e.1 e.2) :
    IsStruct t ks v ∧ ∀ k ∈ ks, P' k (field k v) := by
  obtain ⟨fs, rfl, hwf, hkeys, hfs⟩ := h
  refine ⟨⟨rfl, hwf, hkeys⟩, fun k hk => ?_⟩
  have hfind := (find_field (v := .struct fs t) ((hkeys k).mpr hk)).1
  exact hfs (k, _) ((tryFind_eq_some_iff hwf).mp hfind)

theorem typeOf_simple (h : Simple v) : typeOf v = .ok .bool := by
  rcases h with ⟨b, rfl⟩ | h
  · rfl
  cases h with
  | atom h =>
    unfold isAtom at h
    split at h <;> first | rfl | cases h
  | negated h => rfl
  | nary => rfl

theorem Simple.not_struct (h : Simple v) (fs : List (FieldId × Term)) (t : Ty) :
    v ≠ .struct fs t := by
  rintro rfl
  rcases h with ⟨b, hb⟩ | hr
  · cases hb
  · cases hr with
    | atom ha => cases ha

end

/-- A union of plain values is left as it is. -/
theorem compress_plain (hne : ite.branches ≠ []) (he : LastLeaf .plain ite.elseValue) :
    compress ite = .ok (.ite ite.branches ite.elseValue) := by
  obtain ⟨hstruct, t, ht, htb⟩ := he
  unfold compress
  rw [if_neg hne]
  split
  · next fs t' heq => exact absurd heq (hstruct fs t')
  · have hbool : isBool ite.elseValue = .ok false := by
      rw [isBool, bind_ok ht, decide_eq_false htb]
    rw [bind_ok hbool]
    exact mkIte_ok hne _

/-- A union of truth values becomes a formula. -/
theorem compress_bool (hC : Connected C) (hne : ite.branches ≠ []) (hg : ∀ b ∈ ite.branches, C b.1)
    (hv : ∀ b ∈ ite.branches, C b.2) (he : C ite.elseValue) (hs : Simple ite.elseValue) :
    ∃ r, compress ite = .ok r ∧ C r ∧ ∀ {V : Type} (I : Interp V),
      r.holds I = (Term.ite ite.branches ite.elseValue).holds I := by
  unfold compress
  rw [if_neg hne]
  split
  · next fs t' heq => exact absurd heq (Simple.not_struct hs fs t')
  · have hbool : isBool ite.elseValue = .ok true := by rw [isBool, bind_ok (typeOf_simple hs)]; rfl
    obtain ⟨r, h₁, h₂⟩ := boolMerge_spec hC hg hv he
    exact ⟨r, by rw [bind_ok hbool]; exact h₁, h₂⟩

omit [HashOrder FieldId] in
/-- The union of one field of flat structs leaves nothing to hoist either. -/
theorem mergeable_fieldIte {shape : FieldId → Shape} {k : FieldId}
    (hguards : ∀ b ∈ bs, Condition b.1) (hopen : ∀ b ∈ bs, isTrue b.1 = false ∧ isFalse b.1 = false)
    (hbs : ∀ b ∈ bs, InGuard (GuardedLeaf (shape k)) b.1 (field k b.2))
    (he : Flattenable (GuardedLeaf (shape k)) .top (LastLeaf (shape k)) [] (field k e)) :
    Mergeable (shape k) (fieldIte k ⟨bs, e⟩) := by
  induction bs with
  | nil => exact he
  | cons b bs ih =>
    obtain ⟨hb, hbs⟩ := forall_mem_cons.mp hbs
    obtain ⟨hg, hguards⟩ := forall_mem_cons.mp hguards
    obtain ⟨ho, hopen⟩ := forall_mem_cons.mp hopen
    exact hb.cons hg ho (by decide) (ih hguards hopen hbs)

theorem compress_spec (h : Flat (GuardedLeaf s) (LastLeaf s) ite)
    (hmerge : ∀ t ks shape, s = .struct t ks shape → ∀ k ite, Mergeable (shape k) ite →
      ∃ r, merge ite = .ok r ∧ HasValueOf ite r) :
    ∃ r, compress ite = .ok r ∧ HasValueOf ite r := by
  obtain ⟨bs, e⟩ := ite
  by_cases hne : bs = []
  · subst hne
    exact ⟨e, by unfold compress; rw [if_pos rfl], fun I => (eval_ite_nil I e).symm⟩
  have hleaf := h.elseLeaf
  cases s with
  | plain => exact ⟨_, compress_plain hne hleaf, fun I => rfl⟩
  | bool =>
    have hsimple : Simple e := hleaf.simple_of_not_ite h.elseNotIte
    obtain ⟨r, h₁, h₂, h₃⟩ := compress_bool connected_condition hne h.guards h.leaves hleaf hsimple
    refine ⟨r, h₁, fun I => ?_⟩
    have hite : Condition (.ite bs e) := .ite hne h.guards h.leaves hleaf
    rw [condition_eval_eq I h₂, h₃, condition_eval_eq I hite]
  | struct t ks shape =>
    have hb : ∀ b ∈ bs, IsStruct t ks b.2 ∧
        ∀ k ∈ ks, InGuard (GuardedLeaf (shape k)) b.1 (field k b.2) :=
      fun b hb => isStruct_of_leaf (h.leaves b hb)
    have he : IsStruct t ks e ∧ ∀ k ∈ ks,
        Flattenable (GuardedLeaf (shape k)) .top (LastLeaf (shape k)) [] (field k e) :=
      isStruct_of_leaf hleaf
    have hfield (k : FieldId) (hk : k ∈ ks) : Mergeable (shape k) (fieldIte k ⟨bs, e⟩) :=
      mergeable_fieldIte h.guards h.isOpen (fun b hb' => (hb b hb').2 k hk) (he.2 k hk)
    have hspec := structMerge_spec (fun b hb' => (hb b hb').1) he.1 fun k hk =>
      hmerge t ks shape rfl k _ (hfield k hk)
    unfold compress
    rw [if_neg hne, he.1.eq]
    dsimp only
    rw [← he.1.eq]
    exact hspec

omit [HashOrder FieldId] in
/-- The end of `merge`: a union whose values are all equal is that value. -/
def finish : Term → Except Failure Term
  | .ite [] e => .ok e
  | .ite branches e => if branches.all (fun b => b.2 = e) then .ok e else mkIte branches e
  | t => .ok t

omit [HashOrder FieldId] in
theorem finish_spec (t : Term) :
    ∃ r, finish t = .ok r ∧ ∀ {V : Type} (I : Interp V), r.eval I = t.eval I := by
  unfold finish
  split
  · next e => exact ⟨e, rfl, fun I => rfl⟩
  · next bs e hne =>
      split
      · next hall =>
          refine ⟨e, rfl, fun I => ?_⟩
          rw [← eval_chosen]
          rcases chosen_cases I ⟨bs, e⟩ with h | ⟨b, hb, h⟩ <;> rw [h]
          simpa using congrArg (eval I) (of_decide_eq_true (all_eq_true.mp hall b hb)).symm
      · exact ⟨_, mkIte_ok (fun h => hne (by rw [h])) e, fun I => rfl⟩
  · exact ⟨t, rfl, fun I => rfl⟩

theorem merge_eq (ite : IteType) : merge ite = (do
    let simplified ← simplify ite.branches ite.elseValue
    finish (← compress simplified)) := by
  rw [merge]
  split
  · next err h => rw [h]; rfl
  · next simplified h =>
      rw [bind_ok h]
      rfl

theorem merge_step (h : Mergeable s ite)
    (hmerge : ∀ t ks shape, s = .struct t ks shape → ∀ k ite, Mergeable (shape k) ite →
      ∃ r, merge ite = .ok r ∧ HasValueOf ite r) :
    ∃ r, merge ite = .ok r ∧ HasValueOf ite r := by
  obtain ⟨simplified, h₁, h₂⟩ := Flattenable.flattens h
  obtain ⟨t, h₃, h₄⟩ := compress_spec h₂.flat hmerge
  obtain ⟨r, h₅, h₆⟩ := finish_spec t
  refine ⟨r, by rw [merge_eq, bind_ok h₁, bind_ok h₃, h₅], fun I => ?_⟩
  rw [h₆, h₄, h₂.value]

theorem merge_spec (h : Mergeable s ite) :
    ∃ r, merge ite = .ok r ∧ HasValueOf ite r := by
  induction s generalizing ite with
  | plain => exact merge_step h nofun
  | bool => exact merge_step h nofun
  | struct t ks shape ih =>
    refine merge_step h fun t' ks' shape' heq k ite' => ?_
    cases heq
    exact ih k

/-- The value of a merge is the value of the branch with the first true guard, or the else value, for
values of every shape. -/
theorem merge_value {s : Shape} {ite : IteType} (h : Mergeable s ite) :
    ∃ r, merge ite = .ok r ∧ ∀ {V : Type} (I : Interp V), r.eval I = (chosen I ite).eval I := by
  obtain ⟨r, h₁, h₂⟩ := merge_spec h
  exact ⟨r, h₁, fun I => by rw [h₂, ← eval_chosen]⟩

end

/-- Structs with one field, which is itself a union in one branch; a union whose else value is a union
stands under a false guard, and again behind a true one. -/
theorem merge_value_struct : letI : HashOrder FieldId := ⟨fun _ => 0⟩
    let f : FieldId := ⟨.named 0, "flag", .bool⟩
    let struct (v : Term) : Term := .struct [(f, v)] (.named 0)
    let nested : Term := .ite [(boolConstant 1, struct (boolConstant 2))]
      (.ite [(boolConstant 3, struct (boolConstant 4))] (struct (boolConstant 5)))
    let ite : IteType := ⟨[(falseTerm, nested),
      (boolConstant 0, struct (.ite [(boolConstant 1, boolConstant 2)] (boolConstant 3))),
      (trueTerm, struct (boolConstant 4)), (boolConstant 5, nested)], struct (boolConstant 6)⟩
    ∃ r, merge ite = .ok r ∧ ∀ {V : Type} (I : Interp V), r.eval I = (chosen I ite).eval I := by
  intro f struct nested ite
  let _ : HashOrder FieldId := ⟨fun _ => 0⟩
  have hconst (n : ℕ) : Condition (boolConstant n) := (Reduced.atom rfl).condition
  have hunion : InBranch (BranchLeaf .bool)
      (.ite [(boolConstant 1, boolConstant 2)] (boolConstant 3)) :=
    .ite (forall_mem_singleton.mpr (hconst 1))
      (forall_mem_singleton.mpr (.leaf nofun (hconst 2))) nofun (hconst 3)
  have hnested : Guarded nested :=
    .ite (forall_mem_singleton.mpr (hconst 1)) (forall_mem_singleton.mpr (.leaf nofun))
      (.ite (forall_mem_singleton.mpr (hconst 3)) (forall_mem_singleton.mpr (.leaf nofun))
        (.leaf nofun))
  have hlast : Flattenable (GuardedLeaf .bool) .top (LastLeaf .bool) [] (boolConstant 4) :=
    .leaf nofun (hconst 4)
  refine merge_value (s := .struct (.named 0) [f] fun _ => .bool) (.impossible rfl hnested
    (.branch (by decide) (hconst 0) ⟨rfl, rfl⟩ nofun ?_ (.certain rfl (.leaf nofun ?_) ?_ ?_
      (.leaf nofun))))
  · exact ⟨_, rfl, wf_singleton _, fun _ => Iff.rfl,
      forall_mem_singleton.mpr (hunion.inGuard (fun _ _ _ h => h) (hconst 0))⟩
  · exact ⟨_, rfl, wf_singleton _, fun _ => Iff.rfl, forall_mem_singleton.mpr hlast⟩
  · exact forall_mem_singleton.mpr (hconst 5)
  · exact forall_mem_singleton.mpr hnested

/-- A guard that is false, and a branch of the else value of a union under it that is true: the
merge has the value of that branch. -/
theorem merge_leaks : letI : HashOrder FieldId := ⟨fun _ => 0⟩
    ¬ ∀ ite : IteType, (∀ b ∈ ite.branches, Condition b.1) → (∀ b ∈ ite.branches, Condition b.2) →
      Condition ite.elseValue →
      ∃ r, merge ite = .ok r ∧ ∀ {V : Type} (I : Interp V), r.eval I = (chosen I ite).eval I := by
  let _ : HashOrder FieldId := ⟨fun _ => 0⟩
  intro h
  let inner : Term := .ite [(boolConstant 2, trueTerm)] falseTerm
  let ite : IteType := ⟨[(boolConstant 0, .ite [(boolConstant 1, falseTerm)] inner)], falseTerm⟩
  have hconst (n : ℕ) : Condition (boolConstant n) := (Reduced.atom rfl).condition
  have hone (n : ℕ) (b : Bool) {e : Term} (he : Condition e) :
      Condition (.ite [(boolConstant n, makeBool b)] e) :=
    .ite (cons_ne_nil _ _) (forall_mem_singleton.mpr (hconst n))
      (forall_mem_singleton.mpr (.makeBool b)) he
  obtain ⟨r, hr, hval⟩ := h ite (forall_mem_singleton.mpr (hconst 0))
    (forall_mem_singleton.mpr (hone 1 false (hone 2 true (.makeBool false)))) (.makeBool false)
  have hleak : (merge ite).toOption.map (fun r => r.eval (Interp.bools fun n => n == 2)) =
      some true := by
    decide +kernel
  rw [hr] at hleak
  have hright : (chosen (Interp.bools fun n => n == 2) ite).eval (Interp.bools fun n => n == 2) =
      false := by
    decide
  rw [← hval] at hright
  exact absurd ((Option.some.inj hleak).symm.trans hright) (by decide)

end Merging

end VSharp
