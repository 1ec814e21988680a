import VSharp.Utils.DiscretePDF

/-!
# Utils — The augmented data of a distribution

The heights and the sums that the nodes of `VSharp.Utils/DiscretePDF.fs` hold.  `insert` updates each
node on its way back, and the actions of a search end with the updates of the path from below.
`remove` updates nothing: what its rotations do not build anew holds what it held before.
-/

namespace VSharp.Utils.Node
open Option List
variable {α : Type} {c : Comparer α} {l r t t' l' r' : Node α} {k item k' : α}
  {h w s weight n m depth w' : ℕ} {P : Prop}

/-- The sum of the weights in a tree. -/
def total (t : Node α) : ℕ := (t.items.map Prod.snd).sum

/-- At every node the height is one more than the greater height of the children, the sum is that of
the weights in its tree, and the children's heights differ by at most one. -/
def Exact : Node α → Prop
  | .none => True
  | .node l r key h w s => (Exact l ∧ Exact r) ∧ h = max l.height r.height + 1 ∧
      s = total (.node l r key h w s) ∧ l.height ≤ r.height + 1 ∧ r.height ≤ l.height + 1

/-- `Exact`, as far as heights go. -/
def Balanced : Node α → Prop
  | .none => True
  | .node l r _ h _ _ => (Balanced l ∧ Balanced r) ∧ h = max l.height r.height + 1 ∧
      l.height ≤ r.height + 1 ∧ r.height ≤ l.height + 1

/-- `Exact`, as far as sums go. -/
def Summed : Node α → Prop
  | .none => True
  | .node l r _ _ w s => (Summed l ∧ Summed r) ∧ s = w + l.sumWeight + r.sumWeight

theorem Summed.sumWeight_eq (hsummed : Summed t) : t.sumWeight = total t := by
  induction t with
  | none => rfl
  | node l r k h w s ihl ihr =>
    obtain ⟨⟨hl, hr⟩, hs⟩ := hsummed
    rw [sumWeight_node, hs, ihl hl, ihr hr]
    simp only [total, items_node, map_append, map_cons, sum_append, sum_cons]
    omega

theorem exact_iff : Exact t ↔ Balanced t ∧ Summed t := by
  induction t with
  | none => exact ⟨fun _ => ⟨trivial, trivial⟩, fun _ => trivial⟩
  | node l r k h w s ihl ihr =>
    have htotal : total (node l r k h w s) = w + total l + total r := by
      simp only [total, items_node, map_append, map_cons, sum_append, sum_cons]
      omega
    rw [Exact, ihl, ihr, Balanced, Summed, htotal]
    constructor
    · rintro ⟨⟨⟨hl, hls⟩, hr, hrs⟩, hh, hs, hbalance⟩
      exact ⟨⟨⟨hl, hr⟩, hh, hbalance⟩, ⟨hls, hrs⟩, by rw [hs, hls.sumWeight_eq, hrs.sumWeight_eq]⟩
    · rintro ⟨⟨⟨hl, hr⟩, hh, hbalance⟩, ⟨hls, hrs⟩, hs⟩
      exact ⟨⟨⟨hl, hls⟩, hr, hrs⟩, hh, by rw [hs, hls.sumWeight_eq, hrs.sumWeight_eq], hbalance⟩

/-! ### Rotations -/

theorem summed_updated : Summed (updated l r k w) ↔ Summed l ∧ Summed r := by
  simp [Summed, updated]

theorem balanced_updated : Balanced (updated l r k w) ↔ (Balanced l ∧ Balanced r) ∧
    l.height ≤ r.height + 1 ∧ r.height ≤ l.height + 1 := by
  simp [Balanced, updated]

section
variable (hbalances : Balances (.node l r k h w s) t)

include hbalances

/-- A node that is built anew holds the sum of what its children hold. -/
theorem Balances.summed (hl : Summed l)
    (hr : Summed r) (hs : l.height ≤ r.height + 1 → r.height ≤ l.height + 1 →
      s = w + l.sumWeight + r.sumWeight) : Summed t := by
  cases hbalances with
  | keep hlr hrl => exact ⟨⟨hl, hr⟩, hs hlr hrl⟩
  | right hhigh hinner => exact summed_updated.mpr ⟨hl.1.1, summed_updated.mpr ⟨hl.1.2, hr⟩⟩
  | leftRight hhigh hinner =>
    exact summed_updated.mpr ⟨summed_updated.mpr ⟨hl.1.1, hl.1.2.1.1⟩,
      summed_updated.mpr ⟨hl.1.2.1.2, hr⟩⟩
  | left hhigh hinner => exact summed_updated.mpr ⟨summed_updated.mpr ⟨hl, hr.1.1⟩, hr.1.2⟩
  | rightLeft hhigh hinner =>
    exact summed_updated.mpr ⟨summed_updated.mpr ⟨hl, hr.1.1.1.1⟩,
      summed_updated.mpr ⟨hr.1.1.1.2, hr.1.2⟩⟩

section
variable (hl : Balanced l) (hr : Balanced r) (hlr : l.height ≤ r.height + 2)
  (hrl : r.height ≤ l.height + 2)

include hl hr hlr hrl

/-- One rotation is enough where the children's heights differ by two. -/
theorem Balances.balanced
    (hh : l.height ≤ r.height + 1 → r.height ≤ l.height + 1 → h = max l.height r.height + 1) :
    Balanced t := by
  cases hbalances with
  | keep hlr' hrl' => exact ⟨⟨hl, hr⟩, hh hlr' hrl', hlr', hrl'⟩
  | right hhigh hinner =>
    obtain ⟨⟨hll, hlr⟩, hlh, hl₁, hl₂⟩ := hl
    simp only [balanced_updated, height_updated, height_node] at *
    exact ⟨⟨hll, ⟨hlr, hr⟩, by omega, by omega⟩, by omega, by omega⟩
  | leftRight hhigh hinner =>
    obtain ⟨⟨hll, ⟨ha, hb⟩, hmh, hm₁, hm₂⟩, hlh, hl₁, hl₂⟩ := hl
    simp only [balanced_updated, height_updated, height_node] at *
    exact ⟨⟨⟨⟨hll, ha⟩, by omega, by omega⟩, ⟨hb, hr⟩, by omega, by omega⟩, by omega, by omega⟩
  | left hhigh hinner =>
    obtain ⟨⟨hrl, hrr⟩, hrh, hr₁, hr₂⟩ := hr
    simp only [balanced_updated, height_updated, height_node] at *
    exact ⟨⟨⟨⟨hl, hrl⟩, by omega, by omega⟩, hrr⟩, by omega, by omega⟩
  | rightLeft hhigh hinner =>
    obtain ⟨⟨⟨⟨ha, hb⟩, hmh, hm₁, hm₂⟩, hrr⟩, hrh, hr₁, hr₂⟩ := hr
    simp only [balanced_updated, height_updated, height_node] at *
    exact ⟨⟨⟨⟨hl, ha⟩, by omega, by omega⟩, ⟨hb, hrr⟩, by omega, by omega⟩, by omega, by omega⟩

/-- The height after `balance`: a rotation keeps it where the inner heights are equal. -/
theorem Balances.height :
    t.height = if l.height = r.height + 2 then
        if l.left.height = l.right.height then l.height + 1 else l.height
      else if r.height = l.height + 2 then
        if r.left.height = r.right.height then r.height + 1 else r.height
      else h := by
  cases hbalances with
  | keep hlr' hrl' => rw [if_neg (by omega), if_neg (by omega), height_node]
  | right hhigh hinner =>
    obtain ⟨-, hlh, hl₁, hl₂⟩ := hl
    simp only [height_updated, height_node, left_node, right_node] at *
    grind
  | leftRight hhigh hinner =>
    obtain ⟨⟨-, -, hmh, hm₁, hm₂⟩, hlh, hl₁, hl₂⟩ := hl
    simp only [height_updated, height_node, left_node, right_node] at *
    grind
  | left hhigh hinner =>
    obtain ⟨-, hrh, hr₁, hr₂⟩ := hr
    simp only [height_updated, height_node, left_node, right_node] at *
    grind
  | rightLeft hhigh hinner =>
    obtain ⟨⟨⟨-, hmh, hm₁, hm₂⟩, -⟩, hrh, hr₁, hr₂⟩ := hr
    simp only [height_updated, height_node, left_node, right_node] at *
    grind

end

end

/-! ### Insertion -/

/-- What an insertion, and the part of it below a node, keeps and changes. -/
structure Grows (t t' : Node α) : Prop where
  balanced : Balanced t'
  summed : Summed t'
  le_height : t.height ≤ t'.height
  height_le : t'.height ≤ t.height + 1

/-- A node whose children may have grown is updated and balanced. -/
theorem rebalance_grows (hnode : Balanced (.node l r k h w s)) (hl : Grows l l') (hr : Grows r r')
    (hrebalance : (update (.node l' r' k h w s)).bind balance = some t) :
    Grows (.node l r k h w s) t := by
  obtain ⟨n, hupdate, hbalance⟩ := bind_eq_some_iff.mp hrebalance
  obtain ⟨-, hh, hlr, hrl⟩ := hnode
  obtain ⟨hl', hls, hl₁, hl₂⟩ := hl
  obtain ⟨hr', hrs, hr₁, hr₂⟩ := hr
  rw [update_spec hupdate] at hbalance
  have hbalances := balance_spec hbalance
  have hlr' : l'.height ≤ r'.height + 2 := by omega
  have hrl' : r'.height ≤ l'.height + 2 := by omega
  have hheight := hbalances.height hl' hr' hlr' hrl'
  constructor
  case balanced => exact hbalances.balanced hl' hr' hlr' hrl' fun _ _ => rfl
  case summed => exact hbalances.summed hls hrs fun _ _ => rfl
  case le_height => rw [height_node, hheight]; split_ifs <;> omega
  case height_le => rw [height_node, hheight]; split_ifs <;> omega

theorem Grows.refl (hbalanced : Balanced t) (hsummed : Summed t) : Grows t t :=
  ⟨hbalanced, hsummed, le_rfl, Nat.le_add_right ..⟩

theorem insert_grows [DecidableEq α] (hbalanced : Balanced t) (hsummed : Summed t)
    (hinsert : insert c t item weight = some t') : Grows t t' := by
  induction t generalizing t' with
  | none =>
    cases hinsert
    exact ⟨by simp [Balanced, mkNode], by simp [Summed, mkNode], Nat.zero_le _, le_rfl⟩
  | node l r k h w s ihl ihr =>
    have hl := Grows.refl hbalanced.1.1 hsummed.1.1
    have hr := Grows.refl hbalanced.1.2 hsummed.1.2
    rw [insert] at hinsert
    split at hinsert
    case isTrue => cases hinsert; exact .refl hbalanced hsummed
    case isFalse =>
      obtain ⟨n, hn, hrebalance⟩ := bind_eq_some_iff.mp hinsert
      split at hn
      · obtain ⟨l', hl', rfl⟩ := map_eq_some_iff.mp hn
        have hgrows := ihl hbalanced.1.1 hsummed.1.1 hl'
        exact rebalance_grows hbalanced hgrows hr hrebalance
      split at hn
      · obtain ⟨r', hr', rfl⟩ := map_eq_some_iff.mp hn
        have hgrows := ihr hbalanced.1.2 hsummed.1.2 hr'
        exact rebalance_grows hbalanced hl hgrows hrebalance
      · cases hn
        exact rebalance_grows hbalanced hl hr hrebalance

/-! ### Weights along a search path -/

/-- The sums are right from a depth of the search path on, and off the path. -/
def SummedFrom (c : Comparer α) (item : α) : ℕ → Node α → Prop
  | _, .none => True
  | 0, t => Summed t
  | n + 1, .node l r key _ _ _ =>
    if c.less item key then SummedFrom c item n l ∧ Summed r
    else if c.less key item then Summed l ∧ SummedFrom c item n r
    else Summed l ∧ Summed r

/-- Where an action on a tree with `P` ends, `Q` holds. -/
def Takes (f : Node α → Option (Node α)) (P Q : Node α → Prop) : Prop :=
  ∀ t t', P t → f t = some t' → Q t'

theorem Takes.bind {f g : Node α → Option (Node α)} {P Q R : Node α → Prop} (hf : Takes f P Q)
    (hg : Takes g Q R) : Takes (fun t => (f t).bind g) P R := by
  intro t t' ht hact
  obtain ⟨t₁, hfirst, hact⟩ := bind_eq_some_iff.mp hact
  exact hg t₁ t' (hf t t₁ ht hfirst) hact

theorem summedFrom_zero : SummedFrom c item 0 t ↔ Summed t := by
  cases t <;> rfl

theorem Summed.summedFrom (ht : Summed t) (n : ℕ) : SummedFrom c item n t := by
  induction t generalizing n with
  | none => cases n <;> trivial
  | node l r k h w s ihl ihr =>
    cases n with
    | zero => exact ht
    | succ n =>
      rw [SummedFrom]
      split_ifs
      · exact ⟨ihl ht.1.1 n, ht.1.2⟩
      · exact ⟨ht.1.1, ihr ht.1.2 n⟩
      · exact ht.1

/-- What an action at the root makes of the sums, it makes of those from any depth on. -/
theorem Takes.modifyAt {f : Node α → Option (Node α)} {d e : ℕ}
    (hf : Takes f (SummedFrom c item d) (SummedFrom c item e)) (n : ℕ) :
    Takes (modifyAt c item f n) (SummedFrom c item (d + n)) (SummedFrom c item (e + n)) := by
  intro t t' ht hmodify
  induction t generalizing n t' with
  | none => cases n <;> cases hmodify <;> exact Summed.summedFrom (t := .none) trivial _
  | node l r k h w s ihl ihr =>
    cases n with
    | zero => exact hf _ _ ht hmodify
    | succ n =>
      rw [Node.modifyAt] at hmodify
      rw [← Nat.add_assoc, SummedFrom] at ht
      rw [← Nat.add_assoc]
      split_ifs at hmodify ht with hless hless'
      · obtain ⟨l', hl', rfl⟩ := map_eq_some_iff.mp hmodify
        rw [SummedFrom, if_pos hless]
        exact ht.imp_left fun hl => ihl n l' hl hl'
      · obtain ⟨r', hr', rfl⟩ := map_eq_some_iff.mp hmodify
        rw [SummedFrom, if_neg hless, if_pos hless']
        exact ht.imp_right fun hr => ihr n r' hr hr'
      · cases hmodify
        rwa [SummedFrom, if_neg hless, if_neg hless']

/-- An update at a depth makes the sum there right, if those below are. -/
theorem takes_update (n : ℕ) :
    Takes (modifyAt c item update n) (SummedFrom c item (n + 1)) (SummedFrom c item n) := by
  have hroot : Takes update (SummedFrom c item 1) (SummedFrom c item 0) := by
    intro t t' ht hupdate
    cases t with
    | none => cases hupdate; trivial
    | node l r k h w s =>
      rw [update_spec hupdate]
      refine summedFrom_zero.mpr (summed_updated.mpr ?_)
      rw [SummedFrom, summedFrom_zero, summedFrom_zero] at ht
      split_ifs at ht <;> exact ht
  simpa only [Nat.add_comm 1 n, Nat.zero_add] using hroot.modifyAt n

/-- An update above a depth touches nothing from there on. -/
theorem takes_update_above (hn : n < m) :
    Takes (modifyAt c item update n) (SummedFrom c item m) (SummedFrom c item m) := by
  obtain ⟨d, rfl⟩ := Nat.exists_eq_add_of_lt hn
  have hroot : Takes update (SummedFrom c item (d + 1)) (SummedFrom c item (d + 1)) := by
    intro t t' ht hupdate
    cases t with
    | none => cases hupdate; trivial
    | node l r k h w s => rw [update_spec hupdate]; exact ht
  simpa only [Nat.add_comm (d + 1) n, Nat.add_assoc] using hroot.modifyAt n

/-- Once the action of a depth has updated its node, it touches only what is above. -/
theorem takes_actions_above {P : Node α → Prop} (hn : n ≤ m)
    (hfirst : Takes (modifyAt c item update depth) P (SummedFrom c item m)) :
    Takes (actions c item n depth) P (SummedFrom c item m) := by
  induction n generalizing depth P with
  | zero => exact hfirst
  | succ n ih => exact (ih (by omega) hfirst).bind (ih (by omega) (takes_update_above hn))

/-- The action of a depth ends with the updates of the path, from below. -/
theorem takes_actions {P : Node α → Prop}
    (hfirst : Takes (modifyAt c item update depth) P (SummedFrom c item n)) :
    Takes (actions c item n depth) P (SummedFrom c item 0) := by
  induction n generalizing depth P with
  | zero => exact hfirst
  | succ n ih =>
    exact (takes_actions_above (Nat.le_add_right n 1) hfirst).bind (ih (takes_update n))

theorem takes_setWeight (n : ℕ) :
    Takes (modifyAt c item (setWeight weight) n) Summed (SummedFrom c item (n + 1)) := by
  have hroot : Takes (setWeight weight) (SummedFrom c item 1) (SummedFrom c item 1) := by
    intro t t' ht hset
    cases t <;> cases hset <;> exact ht
  intro t t' ht hset
  rw [Nat.add_comm]
  exact hroot.modifyAt n t t' (ht.summedFrom _) hset

/-- Balance is kept, and so is the height. -/
def KeepsHeight (t t' : Node α) : Prop := Balanced t → Balanced t' ∧ t'.height = t.height

theorem congruence_height : Congruence (KeepsHeight (α := α)) where
  refl _ h := ⟨h, rfl⟩
  trans h h' ht := (h' (h ht).1).imp_right (·.trans (h ht).2)
  left h ht := ⟨⟨⟨(h ht.1.1).1, ht.1.2⟩, by rw [(h ht.1.1).2]; exact ht.2⟩, rfl⟩
  right h ht := ⟨⟨⟨ht.1.1, (h ht.1.2).1⟩, by rw [(h ht.1.2).2]; exact ht.2⟩, rfl⟩

theorem keepsHeight_update (t t' : Node α) (hupdate : update t = some t') : KeepsHeight t t' := by
  intro ht
  cases t with
  | none => cases hupdate; exact ⟨trivial, rfl⟩
  | node l r k h w s =>
    rw [update_spec hupdate]
    exact ⟨balanced_updated.mpr ⟨ht.1, ht.2.2⟩, ht.2.1.symm⟩

theorem keepsHeight_setWeight (t t' : Node α) (hset : setWeight weight t = some t') :
    KeepsHeight t t' := by
  intro ht
  cases t <;> cases hset <;> exact ⟨ht, rfl⟩

/-! ### Removal -/

/-- Where a tree gets less high when its child `side` does: it was the higher one, or a rotation
follows that does not make up for it. -/
def Sinks (shrinks : Prop) (side other : Node α) : Prop :=
  shrinks ∧ (other.height < side.height ∨
    side.height < other.height ∧ other.left.height ≠ other.right.height)

/-- At the removed node: a missing child leaves nothing to ask, else `P` of the successor. -/
def AtSuccessor (l r : Node α) (P : α → Prop) : Prop :=
  match l, r with
  | .none, _ => True
  | _, .none => True
  | _, r =>
    match minValueNode r with
    | .none => True
    | .node _ _ tmpKey _ _ _ => P tmpKey

/-- Where the removal of an item makes an exact tree less high. -/
def Shrinks (c : Comparer α) : Node α → α → Prop
  | .none, _ => False
  | .node l r key _ _ _, item =>
    if c.less item key then Sinks (Shrinks c l item) l r
    else if c.less key item then Sinks (Shrinks c r item) r l
    else AtSuccessor l r fun min => Sinks (Shrinks c r min) r l

/-- A node need not be updated when its child `side` loses a weight: a rotation follows, which builds
it anew; or the weight is zero, and the height of the node stays. -/
def Settles (shrinks : Prop) (side other : Node α) (lost : ℕ) : Prop :=
  shrinks ∧ side.height < other.height ∨ lost = 0 ∧ (shrinks → side.height = other.height)

/-- The weight that is removed with an item. -/
def lost (c : Comparer α) (t : Node α) (item : α) : ℕ := (lookup c t item).weight?.getD 0

/-- A removal after which no node on the way to the unlinked one would need an update. -/
def Keeps (c : Comparer α) : Node α → α → Prop
  | .none, _ => True
  | .node l r key _ w _, item =>
    if c.less item key then
      Keeps c l item ∧ Settles (Shrinks c l item) l r (lost c l item)
    else if c.less key item then
      Keeps c r item ∧ Settles (Shrinks c r item) r l (lost c r item)
    else AtSuccessor l r fun min => Keeps c r min ∧ Settles (Shrinks c r min) r l w

/-- `t'` is what is left of `t`, and exact. -/
structure Left (P : Prop) (t t' : Node α) : Prop where
  balanced : Balanced t'
  summed : Summed t'
  shrinks : P → t'.height + 1 = t.height
  stays : ¬ P → t'.height = t.height

/-- A node that settles is rotated, or keeps its height and its sum. -/
theorem Settles.cases {side other side' : Node α} {lost : ℕ} (hsettles : Settles P side other lost)
    (hside : Left P side side') :
    side'.height + 1 = side.height ∧ side.height < other.height ∧
        (Sinks P side other ↔ other.left.height ≠ other.right.height) ∨
      (side'.height = side.height ∨
          side'.height + 1 = side.height ∧ side.height = other.height) ∧
        lost = 0 ∧ ¬ Sinks P side other := by
  rcases hsettles with ⟨hP, hlow⟩ | ⟨hlost, heven⟩
  · refine .inl ⟨hside.shrinks hP, hlow, fun h => ?_, fun h => ⟨hP, .inr ⟨hlow, h⟩⟩⟩
    exact (h.2.resolve_left (Nat.lt_asymm hlow)).2
  · refine .inr ⟨?_, hlost, fun h => ?_⟩
    · by_cases hP : P
      · exact .inr ⟨hside.shrinks hP, heven hP⟩
      · exact .inl (hside.stays hP)
    · rcases h with ⟨hP, hlow | ⟨hlow, -⟩⟩
      · exact Nat.ne_of_lt hlow (heven hP).symm
      · exact Nat.ne_of_lt hlow (heven hP)

/-- A node that is balanced without an update, after its left child lost a weight. -/
theorem balance_left {lost : ℕ} (hnode : Balanced (.node l r k h w s)) (hr : Summed r)
    (hl : Left P l l') (hs : w' + l'.sumWeight + r.sumWeight + lost = s)
    (hsettles : Settles P l r lost) (hbalance : balance (.node l' r k' h w' s) = some t) :
    Left (Sinks P l r) (.node l r k h w s) t := by
  have hbalances := balance_spec hbalance
  obtain ⟨⟨-, hrb⟩, hh, hlr, hrl⟩ := hnode
  have hheight := hbalances.height hl.balanced hrb
  rcases hsettles.cases hl with ⟨hl', hlow, hsinks⟩ | ⟨hl', hlost, hsinks⟩
  · rw [if_neg (by omega), if_pos (by omega)] at hheight
    constructor
    case balanced => exact hbalances.balanced hl.balanced hrb (by omega) (by omega) (by omega)
    case summed => exact hbalances.summed hl.summed hr (by omega)
    case shrinks =>
      intro h
      rw [hheight (by omega) (by omega), if_neg (hsinks.mp h), height_node]
      omega
    case stays =>
      intro h
      rw [hheight (by omega) (by omega), if_pos (not_not.mp (mt hsinks.mpr h)), height_node]
      omega
  · rw [if_neg (by omega), if_neg (by omega)] at hheight
    constructor
    case balanced => exact hbalances.balanced hl.balanced hrb (by omega) (by omega) (by omega)
    case summed => exact hbalances.summed hl.summed hr (by omega)
    case shrinks => exact fun h => absurd h hsinks
    case stays => exact fun _ => hheight (by omega) (by omega)

theorem balance_right {lost : ℕ} (hnode : Balanced (.node l r k h w s)) (hl : Summed l)
    (hr : Left P r r') (hs : w' + l.sumWeight + r'.sumWeight + lost = s)
    (hsettles : Settles P r l lost) (hbalance : balance (.node l r' k' h w' s) = some t) :
    Left (Sinks P r l) (.node l r k h w s) t := by
  have hbalances := balance_spec hbalance
  obtain ⟨⟨hlb, -⟩, hh, hlr, hrl⟩ := hnode
  have hheight := hbalances.height hlb hr.balanced
  rcases hsettles.cases hr with ⟨hr', hlow, hsinks⟩ | ⟨hr', hlost, hsinks⟩
  · rw [if_pos (by omega)] at hheight
    constructor
    case balanced => exact hbalances.balanced hlb hr.balanced (by omega) (by omega) (by omega)
    case summed => exact hbalances.summed hl hr.summed (by omega)
    case shrinks =>
      intro h
      rw [hheight (by omega) (by omega), if_neg (hsinks.mp h), height_node]
      omega
    case stays =>
      intro h
      rw [hheight (by omega) (by omega), if_pos (not_not.mp (mt hsinks.mpr h)), height_node]
      omega
  · rw [if_neg (by omega), if_neg (by omega)] at hheight
    constructor
    case balanced => exact hbalances.balanced hlb hr.balanced (by omega) (by omega) (by omega)
    case summed => exact hbalances.summed hl hr.summed (by omega)
    case shrinks => exact fun h => absurd h hsinks
    case stays => exact fun _ => hheight (by omega) (by omega)

/-- What is removed, and what is left. -/
theorem total_remove [DecidableEq α] (hordered : Ordered c t)
    (hremove : remove c t item = some t') : total t' + lost c t item = total t := by
  rw [total, remove_items hordered hremove, lost]
  cases hweight : (lookup c t item).weight? with
  | none =>
    have habsent : ∀ x ∈ t.items, x.1 ≠ item := by
      rintro x hx rfl
      have hfound := (lookup_spec hordered).mpr hx
      cases hweight.symm.trans hfound
    rw [without_eq_self habsent]
    rfl
  | some w =>
    have hperm := OrderedItems.without_perm hordered ((lookup_spec hordered).mp hweight)
    rw [total, (hperm.map Prod.snd).sum_nat]
    simp [Nat.add_comm]

theorem balance_of_balanced (hbalanced : Balanced t) (hbalance : balance t = some t') : t' = t := by
  cases t with
  | none => cases hbalance; rfl
  | node l r k h w s =>
    obtain ⟨-, -, hlr, hrl⟩ := hbalanced
    cases balance_spec hbalance with
    | keep => rfl
    | right hhigh => exact absurd hlr (not_le.mpr hhigh)
    | leftRight hhigh => exact absurd hlr (not_le.mpr hhigh)
    | left hhigh => exact absurd hrl (not_le.mpr hhigh)
    | rightLeft hhigh => exact absurd hrl (not_le.mpr hhigh)

/-- The only child takes the place of the removed node. -/
theorem left_child (hnode : Balanced (.node l r k h w s)) (hsummed : Summed (.node l r k h w s))
    (hmissing : l = .none ∧ t = r ∨ r = .none ∧ t = l) (hbalance : balance t = some t') :
    Left True (.node l r k h w s) t' := by
  obtain ⟨⟨hl, hr⟩, hh, hlr, hrl⟩ := hnode
  rcases hmissing with ⟨rfl, rfl⟩ | ⟨rfl, rfl⟩
  · rw [balance_of_balanced hr hbalance]
    rw [height_none] at hh
    exact ⟨hr, hsummed.1.2, fun _ => by rw [height_node]; omega, fun h => absurd trivial h⟩
  · rw [balance_of_balanced hl hbalance]
    rw [height_none] at hh
    exact ⟨hl, hsummed.1.1, fun _ => by rw [height_node]; omega, fun h => absurd trivial h⟩

/-- How a node is unlinked: its only child takes its place, or it takes the successor's item. -/
theorem unlink_spec {removeRight : α → Option (Node α)}
    (hunlink : unlink l r k h w s removeRight = some t) :
    ((l = .none ∧ t = r ∨ r = .none ∧ t = l) ∧ ∀ P, AtSuccessor l r P = True) ∨
      ∃ tmpKey tmpWeight r', (tmpKey, tmpWeight) ∈ r.items ∧ removeRight tmpKey = some r' ∧
        t = .node l r' tmpKey h tmpWeight s ∧ ∀ P, AtSuccessor l r P = P tmpKey := by
  cases l with
  | none => cases hunlink; exact .inl ⟨.inl ⟨rfl, rfl⟩, fun _ => rfl⟩
  | node ll lr lk lh lw ls =>
    cases r with
    | none => cases hunlink; exact .inl ⟨.inr ⟨rfl, rfl⟩, fun _ => rfl⟩
    | node rl rr rk rh rw rs =>
      have hmin := minValueNode_spec (node rl rr rk rh rw rs)
      simp only [unlink] at hunlink
      simp only [AtSuccessor]
      cases hmn : minValueNode (node rl rr rk rh rw rs) with
      | none => rw [hmn] at hmin; cases hmin
      | node tl tr tmpKey th tmpWeight ts =>
        rw [hmn] at hmin hunlink
        obtain ⟨r', hr', rfl⟩ := map_eq_some_iff.mp hunlink
        exact .inr ⟨tmpKey, tmpWeight, r', mem_of_head? hmin, hr', rfl, fun _ => rfl⟩

/-- What is left of an exact tree is exact, where no update is missed. -/
theorem remove_left [DecidableEq α] (hordered : Ordered c t) (hbalanced : Balanced t)
    (hsummed : Summed t) (hkeeps : Keeps c t item) (hremove : remove c t item = some t') :
    Left (Shrinks c t item) t t' := by
  induction t generalizing item t' with
  | none =>
    cases hremove
    exact ⟨trivial, trivial, False.elim, fun _ => rfl⟩
  | node l r k h w s ihl ihr =>
    obtain ⟨⟨hl, hr⟩, hlk, hkr⟩ := ordered_node.mp hordered
    obtain ⟨root, hroot, hbalance⟩ := bind_eq_some_iff.mp hremove
    replace hbalance : balance root = some t' := by
      cases root with
      | none => exact hbalance
      | node => exact hbalance
    have hs := hsummed.2
    rw [Keeps] at hkeeps
    rw [Shrinks]
    split_ifs at hroot hkeeps ⊢ with hless hless'
    · obtain ⟨l', hl', rfl⟩ := map_eq_some_iff.mp hroot
      have hleft := ihl hl hbalanced.1.1 hsummed.1.1 hkeeps.1 hl'
      have htotal := total_remove hl hl'
      rw [← hleft.summed.sumWeight_eq, ← hsummed.1.1.sumWeight_eq] at htotal
      exact balance_left hbalanced hsummed.1.2 hleft (by omega) hkeeps.2 hbalance
    · obtain ⟨r', hr', rfl⟩ := map_eq_some_iff.mp hroot
      have hleft := ihr hr hbalanced.1.2 hsummed.1.2 hkeeps.1 hr'
      have htotal := total_remove hr hr'
      rw [← hleft.summed.sumWeight_eq, ← hsummed.1.2.sumWeight_eq] at htotal
      exact balance_right hbalanced hsummed.1.1 hleft (by omega) hkeeps.2 hbalance
    · rcases unlink_spec hroot with ⟨hmissing, hask⟩ | ⟨tmpKey, tmpWeight, r', hmin, hr', rfl, hask⟩
      · rw [hask]
        exact left_child hbalanced hsummed hmissing hbalance
      · rw [hask] at hkeeps ⊢
        have hleft := ihr hr hbalanced.1.2 hsummed.1.2 hkeeps.1 hr'
        have htotal := total_remove hr hr'
        rw [← hleft.summed.sumWeight_eq, ← hsummed.1.2.sumWeight_eq, lost,
          (lookup_spec hr).mpr hmin, getD_some] at htotal
        exact balance_right hbalanced hsummed.1.1 hleft (by omega) hkeeps.2 hbalance

end VSharp.Utils.Node

/-! ### Runs -/

namespace VSharp.Utils.DiscretePDF
open Node

variable {α : Type} [DecidableEq α] {c : Comparer α} {x x' : DiscretePDF α} {m : α → Option ℕ}
  {item : α} {weight : ℕ}

/-- The operations after which no update is missed. -/
def MissesNothing (c : Comparer α) (x : DiscretePDF α) : Op α → Prop
  | .remove item => Keeps c x.root item
  | _ => True

theorem insert_exact (hexact : Exact x.root) (hinsert : x.insert c item weight = some x') :
    Exact x'.root := by
  obtain ⟨hbalanced, hsummed⟩ := exact_iff.mp hexact
  obtain ⟨root, hroot, hinsert⟩ := Option.bind_eq_some_iff.mp hinsert
  obtain ⟨count, -, hinsert⟩ := Option.bind_eq_some_iff.mp hinsert
  cases hinsert
  have hgrows := insert_grows hbalanced hsummed hroot
  exact exact_iff.mpr ⟨hgrows.balanced, hgrows.summed⟩

theorem remove_exact (hx : Represents c x m) (hexact : Exact x.root)
    (hkeeps : Keeps c x.root item) (hremove : x.remove c item = some x') : Exact x'.root := by
  obtain ⟨hbalanced, hsummed⟩ := exact_iff.mp hexact
  obtain ⟨root, hroot, hremove⟩ := Option.bind_eq_some_iff.mp hremove
  have hleft := remove_left hx.ordered hbalanced hsummed hkeeps hroot
  split at hremove
  · cases hremove
  · cases hremove
    exact exact_iff.mpr ⟨hleft.balanced, hleft.summed⟩

omit [DecidableEq α] in
theorem update_exact (hx : Represents c x m) (hexact : Exact x.root) (hpresent : m item ≠ .none)
    (hupdate : x.update c item weight = some x') : Exact x'.root := by
  obtain ⟨hbalanced, hsummed⟩ := exact_iff.mp hexact
  obtain ⟨old, hold⟩ := Option.ne_none_iff_exists'.mp hpresent
  obtain ⟨tree, htree, hroot, -⟩ := update_spec hx.ordered ((hx.mem_iff item old).mpr hold) hupdate
  have hset := takes_setWeight (depth c item x.root) x.root tree hsummed htree
  have hsummed' := takes_actions (takes_update _) tree x'.root hset hroot
  have hset := congruence_height.modifyAt keepsHeight_setWeight _ x.root tree htree hbalanced
  have hbalanced' := congruence_height.actions keepsHeight_update _ _ tree x'.root hroot hset.1
  exact exact_iff.mpr ⟨hbalanced'.1, summedFrom_zero.mp hsummed'⟩

/-- In a run that misses no update, the augmented data of every state is exact. -/
theorem reaches_exact (h : (collection c).Reaches
    (fun s op => Legal s.2 op ∧ MissesNothing c s.1 op) (x, m)) : Exact x.root := by
  suffices hboth : Represents c x m ∧ Exact x.root from hboth.2
  refine h.invariant (P := fun s => Represents c s.1 s.2 ∧ Exact s.1.root)
    ⟨represents_empty, show Exact .none from trivial⟩ ?_
  rintro ⟨_, _⟩ op ⟨_, _⟩ ⟨hx, hexact⟩ ⟨hlegal, hmisses⟩ hstep
  obtain ⟨x', hop, hstep⟩ := Option.map_eq_some_iff.mp hstep
  cases hstep
  refine ⟨hx.step hlegal hop, ?_⟩
  cases op with
  | insert item weight => exact insert_exact hexact hop
  | remove item => exact remove_exact hx hexact hmisses hop
  | update item weight => exact update_exact hx hexact hlegal hop

/-- A removal that sets off a rotation at the root. -/
theorem exact_rotated : ∃ x m, (collection natComparer).Reaches
    (fun s op => Legal s.2 op ∧ MissesNothing natComparer s.1 op) (x, m) ∧
    x.root.height = 2 ∧ x.root.sumWeight = 9 ∧ Exact x.root := by
  have hreaches : (collection natComparer).Reaches
      (fun s op => Legal s.2 op ∧ MissesNothing natComparer s.1 op) _ :=
    .step (.step (.step (.step (.step .start
      (show Legal _ (.insert 2 2) ∧ MissesNothing _ _ (.insert 2 2) from ⟨rfl, trivial⟩) rfl)
      (show Legal _ (.insert 1 1) ∧ MissesNothing _ _ (.insert 1 1) from ⟨rfl, trivial⟩) rfl)
      (show Legal _ (.insert 3 3) ∧ MissesNothing _ _ (.insert 3 3) from ⟨rfl, trivial⟩) rfl)
      (show Legal _ (.insert 4 4) ∧ MissesNothing _ _ (.insert 4 4) from ⟨rfl, trivial⟩) rfl)
      (show Legal _ (.remove 1) ∧ MissesNothing _ _ (.remove 1) from
        ⟨Option.some_ne_none 1, trivial, .inl ⟨trivial, by decide⟩⟩) rfl
  exact ⟨_, _, hreaches, rfl, rfl, reaches_exact hreaches⟩

/-- Three items, of which a leaf is removed: the root holds the sum of all three. -/
theorem stale_after_remove : ¬ ∀ (x : DiscretePDF ℕ) m,
    (collection natComparer).Reaches (fun s op => Legal s.2 op) (x, m) → Exact x.root := by
  intro hall
  have hreaches : (collection natComparer.toIComparer).Reaches (fun s op => Legal s.2 op) _ :=
    .step (.step (.step (.step .start
      (show Legal _ (.insert 2 1) from rfl) rfl)
      (show Legal _ (.insert 1 1) from rfl) rfl)
      (show Legal _ (.insert 3 1) from rfl) rfl)
      (show Legal _ (.remove 1) from Option.some_ne_none 1) rfl
  exact absurd (hall _ _ hreaches).2.2.1 (by decide)

end VSharp.Utils.DiscretePDF
