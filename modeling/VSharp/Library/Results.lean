import Mathlib.Data.List.Forall2

/-!
# Library — Results

Computations that may fail, run over a list.  When every step succeeds with a result related to its
input, the run succeeds, with the results related one by one.
-/

namespace VSharp.Library
open List
variable {ε α β : Type}
variable {R : α → β → Prop} {l : List α} {l' : List β} {b : β} {x : Except ε α}
  {f : α → Except ε β}

/-- An element on the right of a pointwise relation has a partner on the left. -/
theorem forall₂_mem_right (h : List.Forall₂ R l l') (hb : b ∈ l') : ∃ a ∈ l, R a b := by
  induction h with
  | nil => cases hb
  | @cons a b' l l' hR _ ih =>
    rcases mem_cons.mp hb with rfl | hb
    · exact ⟨a, mem_cons_self, hR⟩
    · obtain ⟨a', ha', hR'⟩ := ih hb
      exact ⟨a', mem_cons_of_mem _ ha', hR'⟩

theorem forall₂_mem_left (h : List.Forall₂ R l l') {a : α} (ha : a ∈ l) : ∃ b ∈ l', R a b :=
  forall₂_mem_right h.flip ha

theorem pairwise_of_forall₂ {S : α → α → Prop} {T : β → β → Prop} (h : List.Forall₂ R l l')
    (hl : l.Pairwise S) (hST : ∀ a a' b b', R a b → R a' b' → S a a' → T b b') : l'.Pairwise T := by
  induction h with
  | nil => exact .nil
  | @cons a b l l' hR h ih =>
    obtain ⟨hhead, hl⟩ := pairwise_cons.mp hl
    refine pairwise_cons.mpr ⟨fun b' hb' => ?_, ih hl⟩
    obtain ⟨a', ha', hR'⟩ := forall₂_mem_right h hb'
    exact hST a a' b b' hR hR' (hhead a' ha')

theorem forall₂_mem_zip {γ : Type} {f : γ → α} {l : List γ} (h : List.Forall₂ R (l.map f) l')
    {e : γ × β} (he : e ∈ l.zip l') : R (f e.1) e.2 := by
  induction l generalizing l' with
  | nil => simp at he
  | cons c l ih =>
    cases h with
    | cons hR hrest =>
      rw [zip_cons_cons, mem_cons] at he
      rcases he with rfl | he
      · exact hR
      · exact ih hrest he

theorem all_eq_of_forall₂ {f : α → Bool} {g : β → Bool}
    (h : List.Forall₂ (fun a b => f a = g b) l l') : l.all f = l'.all g := by
  induction h with
  | nil => rfl
  | cons hfg _ ih => rw [all_cons, all_cons, hfg, ih]

theorem bind_ok {a : α} (h : x = .ok a) (f : α → Except ε β) :
    (x >>= f) = f a := by
  rw [h]
  rfl

/-- What a computation that returns has done. -/
theorem bind_eq_ok (h : (x >>= f) = .ok b) :
    ∃ a, x = .ok a ∧ f a = .ok b := by
  cases x with
  | error e => cases h
  | ok a => exact ⟨a, rfl, h⟩

theorem eq_ok_of_toBool (h : x.toBool = true) : ∃ a, x = .ok a := by
  cases x with
  | error e => cases h
  | ok a => exact ⟨a, rfl⟩

theorem map_eq_ok {f : α → β} (h : f <$> x = .ok b) :
    ∃ a, x = .ok a ∧ f a = b := by
  cases x with
  | error e => cases h
  | ok a => exact ⟨a, rfl, Except.ok.inj h⟩

theorem mapM_ok (h : ∀ a ∈ l, ∃ b, f a = .ok b ∧ R a b) :
    ∃ bs, l.mapM f = .ok bs ∧ List.Forall₂ R l bs := by
  induction l with
  | nil => exact ⟨[], rfl, .nil⟩
  | cons a l ih =>
    obtain ⟨b, hb, hR⟩ := h a mem_cons_self
    obtain ⟨bs, hbs, hRs⟩ := ih fun c hc => h c (mem_cons_of_mem _ hc)
    refine ⟨b :: bs, ?_, .cons hR hRs⟩
    rw [mapM_cons, bind_ok hb, bind_ok hbs]
    rfl

theorem mapM_some {f : α → Option β} (h : ∀ a ∈ l, ∃ b, f a = some b ∧ R a b) :
    ∃ bs, l.mapM f = some bs ∧ List.Forall₂ R l bs := by
  induction l with
  | nil => exact ⟨[], rfl, .nil⟩
  | cons a l ih =>
    obtain ⟨b, hb, hR⟩ := h a mem_cons_self
    obtain ⟨bs, hbs, hall⟩ := ih fun a' ha' => h a' (mem_cons_of_mem a ha')
    refine ⟨b :: bs, ?_, .cons hR hall⟩
    rw [mapM_cons, hb, hbs]
    rfl

theorem forall₂_mapM_some {γ : Type} {R : γ → α → Prop} {S : γ → β → Prop} {f : α → Option β}
    {l : List γ} {l' : List α} (h : List.Forall₂ R l l')
    (hf : ∀ c ∈ l, ∀ a, R c a → ∃ b, f a = some b ∧ S c b) :
    ∃ bs, l'.mapM f = some bs ∧ List.Forall₂ S l bs := by
  induction h with
  | nil => exact ⟨[], rfl, .nil⟩
  | cons hR _ ih =>
    obtain ⟨hhead, htail⟩ := forall_mem_cons.mp hf
    obtain ⟨b, hb, hS⟩ := hhead _ hR
    obtain ⟨bs, hbs, hall⟩ := ih htail
    refine ⟨b :: bs, ?_, .cons hS hall⟩
    rw [mapM_cons, hb, hbs]
    rfl

theorem mapM_of_forall₂ {bs : List β} (h : List.Forall₂ (fun a b => f a = .ok b) l bs) :
    l.mapM f = .ok bs := by
  induction h with
  | nil => rfl
  | cons hb _ ih =>
    rw [mapM_cons, bind_ok hb, bind_ok ih]
    rfl

theorem forall₂_of_mapM {bs : List β} (h : l.mapM f = .ok bs) :
    List.Forall₂ (fun a b => f a = .ok b) l bs := by
  induction l generalizing bs with
  | nil =>
    cases h
    exact .nil
  | cons a l ih =>
    rw [mapM_cons] at h
    obtain ⟨b, hb, h⟩ := bind_eq_ok h
    obtain ⟨bs', hbs, h⟩ := bind_eq_ok h
    cases h
    exact .cons hb (ih hbs)

/-- The same, for a step that is told that its input is in the list. -/
theorem attach_mapM_ok {f : {a // a ∈ l} → Except ε β}
    (h : ∀ a (ha : a ∈ l), ∃ b, f ⟨a, ha⟩ = .ok b ∧ R a b) :
    ∃ bs, l.attach.mapM f = .ok bs ∧ List.Forall₂ R l bs := by
  obtain ⟨bs, hbs, hR⟩ := mapM_ok (f := f) (R := fun a b => R a.1 b) (l := l.attach)
    fun a _ => h a.1 a.2
  refine ⟨bs, hbs, ?_⟩
  have := forall₂_map_left_iff.mpr hR
  rwa [attach_map_subtype_val] at this

theorem filterM_ok {p : α → Except ε Bool} {q : α → Bool} (h : ∀ a ∈ l, p a = .ok (q a)) :
    l.filterM p = .ok (l.filter q) := by
  have haux (acc : List α) : l.filterAuxM p acc = .ok ((l.filter q).reverse ++ acc) := by
    induction l generalizing acc with
    | nil => rfl
    | cons a l ih =>
      rw [List.filterAuxM, bind_ok (h a mem_cons_self), ih fun c hc => h c (mem_cons_of_mem _ hc)]
      cases hq : q a <;> simp [hq]
  rw [List.filterM, bind_ok (haux [])]
  simp [pure, Except.pure]

theorem filterM_sublist {p : α → Except ε Bool} {l' : List α} (h : l.filterM p = .ok l') :
    l'.Sublist l := by
  have haux (l acc res : List α) (h : l.filterAuxM p acc = .ok res) :
      ∃ kept : List α, kept.Sublist l ∧ res = kept.reverse ++ acc := by
    induction l generalizing acc with
    | nil => exact ⟨[], List.Sublist.slnil, (Except.ok.inj h).symm⟩
    | cons a l ih =>
      obtain ⟨b, -, h⟩ := bind_eq_ok h
      obtain ⟨kept, hsub, rfl⟩ := ih _ h
      cases b with
      | true => exact ⟨a :: kept, hsub.cons_cons a, by simp⟩
      | false => exact ⟨kept, hsub.cons a, by simp⟩
  obtain ⟨res, hres, h⟩ := bind_eq_ok h
  obtain ⟨kept, hsub, rfl⟩ := haux l [] res hres
  cases h
  simpa using hsub

/-- A fold whose steps all succeed and keep an invariant of the elements done so far. -/
theorem foldlM_ok {f : β → α → Except ε β} {P : List α → β → Prop}
    (h : ∀ (done : List α) (b : β), ∀ a ∈ l, P done b → ∃ b', f b a = .ok b' ∧ P (done ++ [a]) b')
    {d : List α} (hb : P d b) :
    ∃ b', l.foldlM f b = .ok b' ∧ P (d ++ l) b' := by
  induction l generalizing d b with
  | nil => exact ⟨b, rfl, by simpa using hb⟩
  | cons a l ih =>
    obtain ⟨b', hb', hinv⟩ := h d b a mem_cons_self hb
    obtain ⟨b'', hb'', hinv'⟩ := ih (fun d c e he => h d c e (mem_cons_of_mem _ he)) hinv
    refine ⟨b'', ?_, by simpa using hinv'⟩
    rw [foldlM_cons, bind_ok hb', hb'']

/-- The same over distinct elements, each of which is new to the ones done so far. -/
theorem foldlM_nodup {f : β → α → Except ε β} {P : List α → β → Prop} (hl : l.Nodup)
    (h : ∀ (done : List α) (a : α) (b : β), a ∈ l → a ∉ done → P done b →
      ∃ b', f b a = .ok b' ∧ P (done ++ [a]) b') (hb : P [] b) :
    ∃ b', l.foldlM f b = .ok b' ∧ P l b' := by
  have hgo : ∀ (rest done : List α) (b : β), l = done ++ rest → P done b →
      ∃ b', rest.foldlM f b = .ok b' ∧ P l b' := by
    intro rest
    induction rest with
    | nil =>
      intro done b hsplit hb
      rw [append_nil] at hsplit
      exact ⟨b, rfl, hsplit ▸ hb⟩
    | cons a rest ih =>
      intro done b hsplit hb
      have hfresh : a ∉ done := fun ha =>
        (nodup_append.mp (hsplit ▸ hl)).2.2 a ha a mem_cons_self rfl
      obtain ⟨b', hb', hinv⟩ := h done a b (hsplit ▸ by simp) hfresh hb
      obtain ⟨b'', hb'', hinv'⟩ := ih (done ++ [a]) b' (by simpa using hsplit) hinv
      exact ⟨b'', by rw [foldlM_cons, bind_ok hb', hb''], hinv'⟩
  exact hgo l [] b rfl hb

/-- What every successful step keeps, a successful fold keeps. -/
theorem foldrM_keeps {f : α → β → Except ε β} {P : β → Prop}
    (h : ∀ a b b', P b → f a b = .ok b' → P b') {b' : β} (hb : P b) (heq : l.foldrM f b = .ok b') :
    P b' := by
  induction l generalizing b' with
  | nil =>
    cases heq
    exact hb
  | cons a l ih =>
    rw [foldrM_cons] at heq
    obtain ⟨c, hc, heq⟩ := bind_eq_ok heq
    exact h a c b' (ih hc) heq

end VSharp.Library
