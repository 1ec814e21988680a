import Mathlib.SetTheory.Cardinal.Order
import VSharp.Utils.DiscretePDF

/-!
# Utils — Discrete distributions over hash codes

`DiscretePDF` with `cilStateComparer` of `VSharp.SILI/CILState.fs`, which compares states by their
hash codes, so that two states may compare as equal.

* `step_congr`: two comparers build the same tree where they agree on the states that are compared.
* `holds_of_reaches`: as long as no state is inserted beside one with its hash code, the tree holds
  what has been inserted and not removed; a comparer that breaks the ties is never seen to differ.
* `not_holds_collision`: a state inserted beside one with its hash code is lost.
-/

namespace VSharp.Utils
open Node hiding none

variable {α : Type}

/-- `cilStateComparer`, for these hash codes. -/
def cilStateComparer (getHashCode : α → ℤ) : IComparer α where
  compare x y :=
    if getHashCode x < getHashCode y then -1 else if getHashCode x = getHashCode y then 0 else 1

theorem cilStateComparer_less {getHashCode : α → ℤ} {x y : α} :
    (cilStateComparer getHashCode).less x y ↔ getHashCode x < getHashCode y := by
  unfold IComparer.less cilStateComparer
  dsimp only
  split
  · simp_all
  · split <;> simp_all

/-- The item of an operation. -/
def DiscretePDF.Op.item : DiscretePDF.Op α → α
  | .insert item _ => item
  | .remove item => item
  | .update item _ => item

/-! ### Comparers that agree -/

section
variable {S : α → Prop} {c : IComparer α} {c' : Comparer α} {t : Node α} {item : α} {weight : ℕ}
variable {l r : Node α} {k : α} {h w s n : ℕ} {action action' : Action α} {x : DiscretePDF α}

/-- The comparers agree on the elements of `S`. -/
def AgreeOn (S : α → Prop) (c : IComparer α) (c' : Comparer α) : Prop :=
  ∀ x y, S x → S y → (c.less x y ↔ c'.less x y)

/-- All keys of the tree are in `S`. -/
def KeysIn (S : α → Prop) (t : Node α) : Prop := ∀ e ∈ t.items, S e.1

theorem keysIn_node :
    KeysIn S (.node l r k h w s) ↔ KeysIn S l ∧ S k ∧ KeysIn S r := by
  unfold KeysIn
  rw [items_node, List.forall_mem_append, List.forall_mem_cons]

theorem insert_congr [DecidableEq α] (hagree : AgreeOn S c c') (ht : KeysIn S t) (hitem : S item) :
    t.insert c item weight = t.insert c' item weight := by
  induction t with
  | none => rfl
  | node l r k h w s ihl ihr =>
    obtain ⟨hl, hk, hr⟩ := keysIn_node.mp ht
    simp only [Node.insert, ihl hl, ihr hr, hagree item k hitem hk, hagree k item hk hitem]

theorem keysIn_minValueNode (hmin : minValueNode t = .node l r k h w s) (ht : KeysIn S t) :
    S k := by
  induction t with
  | none => cases hmin
  | node l' r' k' h' w' s' ihl _ =>
    obtain ⟨hl, hk, -⟩ := keysIn_node.mp ht
    rw [minValueNode] at hmin
    split at hmin
    case h_1 =>
      cases hmin
      exact hk
    case h_2 => exact ihl hmin hl

/-- Only the successor is removed from the right child. -/
theorem unlink_congr {f g : α → Option (Node α)} (hr : KeysIn S r) (hfg : ∀ x, S x → f x = g x) :
    unlink l r k h w s f = unlink l r k h w s g := by
  unfold unlink
  split
  case h_1 => rfl
  case h_2 => rfl
  case h_3 =>
    split
    case h_1 => rfl
    case h_2 hmin => rw [hfg _ (keysIn_minValueNode hmin hr)]

theorem remove_congr (hagree : AgreeOn S c c') (ht : KeysIn S t) (hitem : S item) :
    t.remove c item = t.remove c' item := by
  induction t generalizing item with
  | none => rfl
  | node l r k h w s ihl ihr =>
    obtain ⟨hl, hk, hr⟩ := keysIn_node.mp ht
    have hunlink : unlink l r k h w s (r.remove c ·) = unlink l r k h w s (r.remove c' ·) :=
      unlink_congr hr fun x hx => ihr hr hx
    simp only [Node.remove, ihl hl hitem, ihr hr hitem, hunlink, hagree item k hitem hk,
      hagree k item hk hitem]

theorem modifyAt_congr {f : Node α → Option (Node α)} (hagree : AgreeOn S c c') (ht : KeysIn S t)
    (hitem : S item) : modifyAt c item f n t = modifyAt c' item f n t := by
  induction t generalizing n with
  | none => cases n <;> rfl
  | node l r k h w s ihl ihr =>
    obtain ⟨hl, hk, hr⟩ := keysIn_node.mp ht
    cases n with
    | zero => rfl
    | succ n =>
      simp only [modifyAt, ihl hl, ihr hr, hagree item k hitem hk, hagree k item hk hitem]

/-- The keys are left in `S`. -/
def KeepsIn (S : α → Prop) (t t' : Node α) : Prop := KeysIn S t → KeysIn S t'

theorem congruence_keepsIn : Congruence (KeepsIn S) where
  refl _ h := h
  trans h h' ht := h' (h ht)
  left h ht := keysIn_node.mpr ((keysIn_node.mp ht).imp_left h)
  right h ht := keysIn_node.mpr ((keysIn_node.mp ht).imp_right (.imp_right h))

theorem keepsIn_update (t t' : Node α) (hupdate : update t = some t') : KeepsIn S t t' := by
  intro ht
  cases t with
  | none => cases hupdate; exact ht
  | node l r k h w s => exact update_spec hupdate ▸ ht

theorem keepsIn_setWeight (t t' : Node α) (hset : setWeight weight t = some t') :
    KeepsIn S t t' := by
  intro ht
  cases t with
  | none => cases hset; exact ht
  | node l r k h w s => exact Option.some.inj hset ▸ keysIn_node.mpr (keysIn_node.mp ht)

/-- An action does on trees with keys in `S` what another one does, and leaves the keys in `S`. -/
structure SameOn (S : α → Prop) (action action' : Action α) : Prop where
  same : ∀ n t, KeysIn S t → action n t = action' n t
  keeps : ∀ n t t', action' n t = some t' → KeepsIn S t t'

theorem SameOn.extend (h : SameOn S action action') (n : ℕ) :
    SameOn S (extend action n) (extend action' n) where
  same m t ht := by
    unfold Node.extend
    rw [h.same m t ht]
    exact Option.bind_congr fun t' ht' => h.same n t' (h.keeps m t t' ht' ht)
  keeps m t t' hext ht := by
    obtain ⟨t₁, hfirst, hrest⟩ := Option.bind_eq_some_iff.mp hext
    exact h.keeps n t₁ t' hrest (h.keeps m t t₁ hfirst ht)

/-- Both searches end at one node, with actions that do the same. -/
theorem lookup'_congr {β : Type} {k k' : ℕ → Action α → β} {R : β → β → Prop}
    (hagree : AgreeOn S c c') (ht : KeysIn S t) (hitem : S item) (haction : SameOn S action action')
    (hk : ∀ n action action', SameOn S action action' → R (k n action) (k' n action')) :
    Option.Rel R (lookup' c item k t n action) (lookup' c' item k' t n action') := by
  induction t generalizing n action action' with
  | none => exact .none
  | node l r key h w s ihl ihr =>
    obtain ⟨hl, hkey, hr⟩ := keysIn_node.mp ht
    simp only [lookup', hagree item key hitem hkey, hagree key item hkey hitem]
    split
    · exact ihl hl (haction.extend n)
    split
    · exact ihr hr (haction.extend n)
    · exact .some (hk n action action' haction)

/-- What `Update` does where its search ends. -/
def setAt (c : IComparer α) (item : α) (weight p : ℕ) (act : Action α) (tree : Node α) :
    Option (Node α) := do
  let tree ← modifyAt c item (setWeight weight) p tree
  act p tree

theorem update_congr (hagree : AgreeOn S c c') (hx : KeysIn S x.root) (hitem : S item) :
    x.update c item weight = x.update c' item weight := by
  have hfirst : SameOn S (modifyAt c item Node.update) (modifyAt c' item Node.update) :=
    ⟨fun n t ht => modifyAt_congr hagree ht hitem, congruence_keepsIn.modifyAt keepsIn_update⟩
  have hset (n : ℕ) (act act' : Action α) (hsame : SameOn S act act') :
      setAt c item weight n act x.root = setAt c' item weight n act' x.root := by
    unfold setAt
    rw [modifyAt_congr hagree hx hitem]
    exact Option.bind_congr fun t ht =>
      hsame.same n t (congruence_keepsIn.modifyAt keepsIn_setWeight n _ t ht hx)
  have hfound : Option.Rel (fun change change' => change x.root = change' x.root)
      (lookupAndUpdate c x.root item (setAt c item weight))
      (lookupAndUpdate c' x.root item (setAt c' item weight)) :=
    lookup'_congr hagree hx hitem hfirst hset
  unfold DiscretePDF.update
  revert hfound
  unfold setAt
  generalize lookupAndUpdate c x.root item _ = found
  generalize lookupAndUpdate c' x.root item _ = found'
  intro hfound
  cases hfound with
  | none => rfl
  | some hchange => exact congrArg (Option.bind · _) hchange

theorem step_congr [DecidableEq α] {op : DiscretePDF.Op α} (hagree : AgreeOn S c c')
    (hx : KeysIn S x.root) (hitem : S op.item) : x.step c op = x.step c' op := by
  cases op with
  | insert item weight =>
    have hroot : x.root.insert c item weight = x.root.insert c' item weight :=
      insert_congr hagree hx hitem
    show x.insert c item weight = x.insert c' item weight
    unfold DiscretePDF.insert
    rw [hroot]
  | remove item =>
    have hroot : x.root.remove c item = x.root.remove c' item := remove_congr hagree hx hitem
    show x.remove c item = x.remove c' item
    unfold DiscretePDF.remove
    rw [hroot]
  | update item weight => exact update_congr hagree hx hitem

end

/-! ### Ties that are broken -/

section
variable {getHashCode : α → ℤ} {x y : α}

/-- The order of the hash codes, and any order for those with the same hash code. -/
def TieLess (getHashCode : α → ℤ) (x y : α) : Prop :=
  getHashCode x < getHashCode y ∨ getHashCode x = getHashCode y ∧ WellOrderingRel x y

theorem not_tieLess_self (x : α) : ¬ TieLess getHashCode x x := by
  rintro (h | ⟨-, h⟩)
  · exact lt_irrefl _ h
  · exact irrefl x h

theorem TieLess.trans {z : α} (h : TieLess getHashCode x y) (h' : TieLess getHashCode y z) :
    TieLess getHashCode x z := by
  rcases h with h | ⟨heq, h⟩
  · rcases h' with h' | ⟨heq', -⟩
    · exact .inl (h.trans h')
    · exact .inl (heq' ▸ h)
  · rcases h' with h' | ⟨heq', h'⟩
    · exact .inl (heq ▸ h')
    · exact .inr ⟨heq.trans heq', trans_of WellOrderingRel h h'⟩

theorem tieLess_trichotomous (x y : α) :
    TieLess getHashCode x y ∨ x = y ∨ TieLess getHashCode y x := by
  rcases lt_trichotomy (getHashCode x) (getHashCode y) with h | heq | h
  · exact .inl (.inl h)
  · rcases trichotomous_of WellOrderingRel x y with h | h | h
    · exact .inl (.inr ⟨heq, h⟩)
    · exact .inr (.inl h)
    · exact .inr (.inr (.inr ⟨heq.symm, h⟩))
  · exact .inr (.inr (.inl h))

open Classical in
/-- A strict total order that goes by hash codes where they differ. -/
noncomputable def tieBroken (getHashCode : α → ℤ) : Comparer α where
  compare x y := if TieLess getHashCode x y then -1 else if x = y then 0 else 1
  answers x y := by
    split
    · exact .inl rfl
    · split
      · exact .inr (.inl rfl)
      · exact .inr (.inr rfl)
  eq_iff x y := by
    split
    case isTrue h =>
      refine iff_of_false (by decide) ?_
      rintro rfl
      exact not_tieLess_self x h
    case isFalse => simp
  swap x y := by
    have hasymm : ∀ {u v : α}, TieLess getHashCode u v → ¬ TieLess getHashCode v u ∧ v ≠ u := by
      intro u v h
      refine ⟨fun h' => not_tieLess_self u (h.trans h'), ?_⟩
      rintro rfl
      exact not_tieLess_self v h
    rcases @tieLess_trichotomous α getHashCode x y with h | rfl | h
    · obtain ⟨hback, hne⟩ := hasymm h
      simp [h, hback, hne]
    · simp [not_tieLess_self]
    · obtain ⟨hback, hne⟩ := hasymm h
      simp [h, hback, hne]
  trans x y z h h' := by
    have hless : ∀ {u v : α}, (if TieLess getHashCode u v then (-1 : ℤ)
        else if u = v then 0 else 1) = -1 ↔ TieLess getHashCode u v := by
      intro u v
      split
      case isTrue huv => exact iff_of_true rfl huv
      case isFalse huv => exact iff_of_false (by split <;> decide) huv
    rw [hless] at h h' ⊢
    exact h.trans h'

theorem tieBroken_less : (tieBroken getHashCode).less x y ↔ TieLess getHashCode x y := by
  unfold IComparer.less tieBroken
  dsimp only
  split
  case isTrue h => exact iff_of_true rfl h
  case isFalse h => exact iff_of_false (by split <;> decide) h

/-- Where different elements have different hash codes, no tie is broken. -/
theorem agreeOn_tieBroken {S : α → Prop}
    (h : ∀ x y, S x → S y → getHashCode x = getHashCode y → x = y) :
    AgreeOn S (cilStateComparer getHashCode) (tieBroken getHashCode) := by
  intro x y hx hy
  rw [cilStateComparer_less, tieBroken_less]
  refine ⟨.inl, ?_⟩
  rintro (hlt | ⟨heq, hrel⟩)
  · exact hlt
  · obtain rfl := h x y hx hy heq
    exact absurd hrel (irrefl x)

end

/-! ### Runs -/

namespace DiscretePDF
variable [DecidableEq α] {getHashCode : α → ℤ} {x x' : DiscretePDF α} {m : α → Option ℕ} {op : Op α}

/-- No state is inserted beside one with its hash code. -/
def NoCollision (getHashCode : α → ℤ) (m : α → Option ℕ) : Op α → Prop
  | .insert item _ => ∀ other, m other ≠ none → getHashCode other ≠ getHashCode item
  | _ => True

/-- The states held have hash codes of their own. -/
def Separated (getHashCode : α → ℤ) (m : α → Option ℕ) : Prop :=
  ∀ a b, m a ≠ none → m b ≠ none → getHashCode a = getHashCode b → a = b

omit [DecidableEq α] in
/-- The states that are compared by an operation, the item and those held, have hash codes of their
own. -/
theorem separated_with_item (hm : Separated getHashCode m) (hlegal : Legal m op)
    (hno : NoCollision getHashCode m op) {a b : α} (ha : a = op.item ∨ m a ≠ none)
    (hb : b = op.item ∨ m b ≠ none) (heq : getHashCode a = getHashCode b) : a = b := by
  cases op with
  | insert item weight =>
    rcases ha with rfl | ha
    · rcases hb with rfl | hb
      · rfl
      · exact absurd heq.symm (hno b hb)
    · rcases hb with rfl | hb
      · exact absurd heq (hno a ha)
      · exact hm a b ha hb heq
  | remove item =>
    have hheld : m item ≠ none := hlegal
    exact hm a b (ha.elim (fun h => h ▸ hheld) id) (hb.elim (fun h => h ▸ hheld) id) heq
  | update item weight =>
    have hheld : m item ≠ none := hlegal
    exact hm a b (ha.elim (fun h => h ▸ hheld) id) (hb.elim (fun h => h ▸ hheld) id) heq

omit [DecidableEq α] in
theorem keysIn_of_represents {c : Comparer α} (hx : Represents c x m) :
    KeysIn (fun a => m a ≠ none) x.root := by
  intro e he
  rw [(hx.mem_iff e.1 e.2).mp he]
  exact Option.some_ne_none _

theorem Separated.effect (hm : Separated getHashCode m) (hlegal : Legal m op)
    (hno : NoCollision getHashCode m op) : Separated getHashCode (effect m op) := by
  have hheld : ∀ a, DiscretePDF.effect m op a ≠ none → a = op.item ∨ m a ≠ none := by
    intro a ha
    by_cases hitem : a = op.item
    · exact .inl hitem
    · refine .inr fun hnone => ha ?_
      cases op <;> exact (Function.update_of_ne hitem _ m).trans hnone
  exact fun a b ha hb => separated_with_item hm hlegal hno (hheld a ha) (hheld b hb)

/-- What the hash codes build, the total order builds as well. -/
theorem reaches_tieBroken (h : (collection (cilStateComparer getHashCode)).Reaches
    (fun s op => Legal s.2 op ∧ NoCollision getHashCode s.2 op) (x, m)) :
    (collection (tieBroken getHashCode)).Reaches (fun s op => Legal s.2 op) (x, m) ∧
      Separated getHashCode m := by
  refine h.invariant (P := fun s =>
    (collection (tieBroken getHashCode)).Reaches (fun s op => Legal s.2 op) s ∧
      Separated getHashCode s.2) ⟨.start, fun a _ ha => absurd rfl ha⟩ ?_
  rintro ⟨x, m⟩ op s' ⟨hreaches, hm⟩ ⟨hlegal, hno⟩ hstep
  have hkeys := keysIn_of_represents (Represents.of_reaches hreaches)
  have hagree : AgreeOn (fun a => a = op.item ∨ m a ≠ none) (cilStateComparer getHashCode)
      (tieBroken getHashCode) :=
    agreeOn_tieBroken fun a b ha hb => separated_with_item hm hlegal hno ha hb
  have hsame := step_congr hagree (fun e he => .inr (hkeys e he)) (.inl rfl)
  obtain ⟨x', hop, rfl⟩ := Option.map_eq_some_iff.mp hstep
  refine ⟨hreaches.step hlegal ?_, hm.effect hlegal hno⟩
  exact Option.map_eq_some_iff.mpr ⟨x', hsame.symm.trans hop, rfl⟩

/-- `ToSeq` gives what is held, each once, and `Count` is its number. -/
structure Holds (x : DiscretePDF α) (m : α → Option ℕ) : Prop where
  mem_toSeq : ∀ item, item ∈ x.toSeq ↔ m item ≠ none
  nodup_toSeq : x.toSeq.Nodup
  count : x.count = x.toSeq.length

/-- As long as no state is inserted beside one with its hash code, the tree holds the states that
have been inserted and not removed, and a removal leaves the others. -/
theorem holds_of_reaches (h : (collection (cilStateComparer getHashCode)).Reaches
    (fun s op => Legal s.2 op ∧ NoCollision getHashCode s.2 op) (x, m)) :
    Holds x m ∧ ∀ item, m item ≠ none →
      ∀ x', x.remove (cilStateComparer getHashCode) item = some x' →
        ∀ other ∈ x.toSeq, other ≠ item → other ∈ x'.toSeq := by
  have hholds : ∀ {x : DiscretePDF α} {m : α → Option ℕ},
      (collection (cilStateComparer getHashCode)).Reaches
        (fun s op => Legal s.2 op ∧ NoCollision getHashCode s.2 op) (x, m) → Holds x m := by
    intro x m h
    have hagrees := (Represents.of_reaches (reaches_tieBroken h).1).agrees
    exact ⟨hagrees.mem_toSeq, hagrees.nodup_toSeq, hagrees.count⟩
  refine ⟨hholds h, fun item hitem x' hremove other hother hne => ?_⟩
  have hallowed : Legal m (.remove item) ∧ NoCollision getHashCode m (.remove item) :=
    ⟨hitem, trivial⟩
  have hafter : Holds x' (effect m (.remove item)) :=
    hholds (h.step hallowed (Option.map_eq_some_iff.mpr ⟨x', hremove, rfl⟩))
  rw [hafter.mem_toSeq]
  rw [(hholds h).mem_toSeq] at hother
  rwa [effect, Function.update_of_ne hne]

/-- Two states with different hash codes. -/
theorem holds_two : Holds (⟨.node (mkNode 1 5) .none 2 2 7 12, 7, 2⟩ : DiscretePDF ℕ)
    (Function.update (Function.update (fun _ => none) 2 (some 7)) 1 (some 5)) := by
  have hone : (collection (cilStateComparer fun n : ℕ => (n : ℤ))).Reaches
      (fun s op => Legal s.2 op ∧ NoCollision (fun n : ℕ => (n : ℤ)) s.2 op) _ :=
    .step .start (show Legal _ (.insert 2 7) ∧ NoCollision _ _ (.insert 2 7) from
      ⟨rfl, fun other hother => absurd rfl hother⟩) rfl
  refine (holds_of_reaches (.step hone (show Legal _ (.insert 1 5) ∧ NoCollision _ _ (.insert 1 5)
    from ⟨rfl, fun other hother => ?_⟩) rfl)).1
  have htwo : other = 2 := by
    by_contra hne
    exact hother (Function.update_of_ne hne _ _)
  rw [htwo]
  decide

/-- Of two states with one hash code the second is counted, but not held. -/
theorem not_holds_collision : ¬ ∀ (getHashCode : ℕ → ℤ) (x : DiscretePDF ℕ) m,
    (collection (cilStateComparer getHashCode)).Reaches (fun s op => Legal s.2 op) (x, m) →
      Holds x m := by
  intro hall
  have hreaches : (collection (cilStateComparer fun _ : ℕ => 0)).Reaches
      (fun s op => Legal s.2 op) _ :=
    .step (.step .start (show Legal _ (.insert 0 1) from rfl) rfl)
      (show Legal _ (.insert 1 1) from rfl) rfl
  have hcount := (hall _ _ _ hreaches).count
  exact absurd hcount (by decide)

end DiscretePDF

end VSharp.Utils
