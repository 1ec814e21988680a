import Mathlib.Algebra.Order.Ring.Int
import Mathlib.Data.List.Basic
import VSharp.Library.Systems

/-!
# Utils — Discrete distributions

The weighted balanced tree of `VSharp.Utils/DiscretePDF.fs`, which searchers draw states from.

- a tree is a `node option`; nodes are not shared, so a node that is assigned to is a node that is
  built anew;
- arithmetic is checked: an operation that overflows raises, and its result is `none`;
- `random.Next` is a parameter: the numbers that it draws one after the other, whatever they are.
-/

namespace VSharp.Utils
open List Option

structure IComparer (α : Type) where
  compare : α → α → ℤ

def IComparer.less {α : Type} (c : IComparer α) (a b : α) : Prop := c.compare a b = -1

instance {α : Type} (c : IComparer α) : DecidableRel c.less :=
  fun a b => inferInstanceAs (Decidable (c.compare a b = -1))

/-- An `IComparer` of a strict total order, which answers `-1`, `0` or `1`. -/
structure Comparer (α : Type) extends IComparer α where
  answers : ∀ a b, compare a b = -1 ∨ compare a b = 0 ∨ compare a b = 1
  eq_iff : ∀ a b, compare a b = 0 ↔ a = b
  swap : ∀ a b, compare a b = -1 ↔ compare b a = 1
  trans : ∀ a b c, compare a b = -1 → compare b c = -1 → compare a c = -1

namespace Comparer
variable {α : Type}

instance : Coe (Comparer α) (IComparer α) := ⟨Comparer.toIComparer⟩

variable {c : Comparer α} {a b d : α}

theorem less_trans (h : c.less a b) (h' : c.less b d) : c.less a d := c.trans a b d h h'

theorem not_less_self : ¬ c.less a a := by
  intro h
  have hzero : c.compare a a = 0 := (c.eq_iff a a).mpr rfl
  exact absurd (hzero.symm.trans h) (by decide)

theorem less_asymm (h : c.less a b) : ¬ c.less b a := fun h' => not_less_self (less_trans h h')

theorem ne_of_less (h : c.less a b) : a ≠ b := by
  rintro rfl
  exact not_less_self h

/-- Two items of which neither is less are one. -/
theorem eq_of_not_less (h : ¬ c.less a b) (h' : ¬ c.less b a) : a = b := by
  rcases c.answers a b with hab | hab | hab
  · exact absurd hab h
  · exact (c.eq_iff a b).mp hab
  · exact absurd ((c.swap b a).mpr hab) h'

end Comparer

/-- `node option`. -/
inductive Node (α : Type) where
  | none
  | node (left right : Node α) (key : α) (height weight sumWeight : ℕ)
deriving DecidableEq, Repr

namespace Node
variable {α : Type}

def left : Node α → Node α
  | .none => .none
  | .node l _ _ _ _ _ => l

def right : Node α → Node α
  | .none => .none
  | .node _ r _ _ _ _ => r

def height : Node α → ℕ
  | .none => 0
  | .node _ _ _ h _ _ => h

def sumWeight : Node α → ℕ
  | .none => 0
  | .node _ _ _ _ _ s => s

@[simp] theorem height_none : height (.none : Node α) = 0 := rfl
@[simp] theorem sumWeight_none : sumWeight (.none : Node α) = 0 := rfl

variable {l r : Node α} {k : α} {h w s : ℕ}

@[simp] theorem left_node : left (.node l r k h w s) = l := rfl
@[simp] theorem right_node : right (.node l r k h w s) = r := rfl
@[simp] theorem height_node : height (.node l r k h w s) = h := rfl
@[simp] theorem sumWeight_node : sumWeight (.node l r k h w s) = s := rfl

/-- The items of a tree and their weights, from left to right. -/
def items : Node α → List (α × ℕ)
  | .none => []
  | .node l r k _ w _ => items l ++ (k, w) :: items r

@[simp] theorem items_none : items (.none : Node α) = [] := rfl

@[simp] theorem items_node : items (.node l r k h w s) = items l ++ (k, w) :: items r := rfl

end Node

/-! ### Checked numbers -/

/-- `+` of two `uint`s. -/
def checkedAdd (a b : ℕ) : Option ℕ := if a + b < 2 ^ 32 then some (a + b) else none

/-- `int` of a `uint`. -/
def checkedInt (a : ℕ) : Option ℕ := if a < 2 ^ 31 then some a else none

/-- `+` of two `int`s that are not negative. -/
def checkedIntAdd (a b : ℕ) : Option ℕ := if a + b < 2 ^ 31 then some (a + b) else none

variable {a x : ℕ}

theorem checkedAdd_eq_some {b : ℕ} (h : checkedAdd a b = some x) : x = a + b := by
  rw [checkedAdd] at h
  split at h
  · exact (some.inj h).symm
  · cases h

theorem checkedInt_eq_some (h : checkedInt a = some x) : x = a := by
  rw [checkedInt] at h
  split at h
  · exact (some.inj h).symm
  · cases h

/-! ### Rotations -/

namespace Node
variable {α : Type}

def mkNode (key : α) (weight : ℕ) : Node α := .node .none .none key 1 weight weight

def update : Node α → Option (Node α)
  | .none => some .none
  | .node l r key _ weight _ => do
      let height ← checkedAdd (max l.height r.height) 1
      let sum ← checkedAdd weight l.sumWeight
      let sum ← checkedAdd sum r.sumWeight
      some (.node l r key height weight sum)

def heightBalance : Node α → Option ℤ
  | .none => some 0
  | .node l r _ _ _ _ => do
      let left ← checkedInt l.height
      let right ← checkedInt r.height
      some (left - right)

def leftRotate : Node α → Option (Node α)
  | .node l (.node t yr yk yh yw ys) xk xh xw xs => do
      let x ← update (.node l t xk xh xw xs)
      update (.node x yr yk yh yw ys)
  | _ => some .none

def rightRotate : Node α → Option (Node α)
  | .node (.node xl t xk xh xw xs) r yk yh yw ys => do
      let y ← update (.node t r yk yh yw ys)
      update (.node xl y xk xh xw xs)
  | _ => some .none

def leftRightRotate : Node α → Option (Node α)
  | .node (.node ll lr lk lh lw ls) r k h w s => do
      let left ← leftRotate (.node ll lr lk lh lw ls)
      rightRotate (.node left r k h w s)
  | _ => some .none

def rightLeftRotate : Node α → Option (Node α)
  | .node l (.node rl rr rk rh rw rs) k h w s => do
      let right ← rightRotate (.node rl rr rk rh rw rs)
      leftRotate (.node l right k h w s)
  | _ => some .none

def balance (n : Node α) : Option (Node α) := do
  let hBalance ← heightBalance n
  let hLeftBalance ← heightBalance n.left
  let hRightBalance ← heightBalance n.right
  if hBalance > 1 ∧ hLeftBalance ≥ 0 then rightRotate n
  else if hBalance > 1 ∧ hLeftBalance < 0 then leftRightRotate n
  else if hBalance < -1 ∧ hRightBalance ≤ 0 then leftRotate n
  else if hBalance < -1 ∧ hRightBalance > 0 then rightLeftRotate n
  else some n

/-- The node that `update` leaves. -/
def updated (l r : Node α) (key : α) (weight : ℕ) : Node α :=
  .node l r key (max l.height r.height + 1) weight (weight + l.sumWeight + r.sumWeight)

variable {l r ll rr a b : Node α} {k lk rk mk : α} {h w s lh lw ls rh rw rs mh mw ms : ℕ}
  {t : Node α}

@[simp] theorem height_updated : (updated l r k w).height = max l.height r.height + 1 := rfl

@[simp] theorem sumWeight_updated :
    (updated l r k w).sumWeight = w + l.sumWeight + r.sumWeight := rfl

@[simp] theorem items_updated : (updated l r k w).items = l.items ++ (k, w) :: r.items := rfl

theorem update_spec (hupdate : update (.node l r k h w s) = some t) : t = updated l r k w := by
  obtain ⟨height, hheight, hupdate⟩ := bind_eq_some_iff.mp hupdate
  obtain ⟨sum, hsum, hupdate⟩ := bind_eq_some_iff.mp hupdate
  obtain ⟨total, htotal, hupdate⟩ := bind_eq_some_iff.mp hupdate
  cases hupdate
  rw [checkedAdd_eq_some htotal, checkedAdd_eq_some hsum, checkedAdd_eq_some hheight, updated]

theorem heightBalance_spec {b : ℤ} (hbalance : heightBalance (.node l r k h w s) = some b) :
    b = l.height - r.height := by
  obtain ⟨left, hleft, hbalance⟩ := bind_eq_some_iff.mp hbalance
  obtain ⟨right, hright, hbalance⟩ := bind_eq_some_iff.mp hbalance
  cases hbalance
  rw [checkedInt_eq_some hleft, checkedInt_eq_some hright]

/-- What `balance` makes of a node. -/
inductive Balances : Node α → Node α → Prop where
  | keep {l r : Node α} {k : α} {h w s : ℕ} (hl : l.height ≤ r.height + 1)
      (hr : r.height ≤ l.height + 1) : Balances (.node l r k h w s) (.node l r k h w s)
  | right {ll lr r : Node α} {lk k : α} {lh lw ls h w s : ℕ} (hl : r.height + 1 < lh)
      (hinner : lr.height ≤ ll.height) :
      Balances (.node (.node ll lr lk lh lw ls) r k h w s) (updated ll (updated lr r k w) lk lw)
  | leftRight {ll a b r : Node α} {lk mk k : α} {lh lw ls mh mw ms h w s : ℕ}
      (hl : r.height + 1 < lh) (hinner : ll.height < mh) :
      Balances (.node (.node ll (.node a b mk mh mw ms) lk lh lw ls) r k h w s)
        (updated (updated ll a lk lw) (updated b r k w) mk mw)
  | left {l rl rr : Node α} {rk k : α} {rh rw rs h w s : ℕ} (hr : l.height + 1 < rh)
      (hinner : rl.height ≤ rr.height) :
      Balances (.node l (.node rl rr rk rh rw rs) k h w s) (updated (updated l rl k w) rr rk rw)
  | rightLeft {l a b rr : Node α} {rk mk k : α} {rh rw rs mh mw ms h w s : ℕ}
      (hr : l.height + 1 < rh) (hinner : rr.height < mh) :
      Balances (.node l (.node (.node a b mk mh mw ms) rr rk rh rw rs) k h w s)
        (updated (updated l a k w) (updated b rr rk rw) mk mw)

theorem rightRotate_spec {lr : Node α}
    (hrotate : rightRotate (.node (.node ll lr lk lh lw ls) r k h w s) = some t) :
    t = updated ll (updated lr r k w) lk lw := by
  obtain ⟨y, hy, hrotate⟩ := bind_eq_some_iff.mp hrotate
  rw [update_spec hy] at hrotate
  exact update_spec hrotate

theorem leftRotate_spec {rl : Node α}
    (hrotate : leftRotate (.node l (.node rl rr rk rh rw rs) k h w s) = some t) :
    t = updated (updated l rl k w) rr rk rw := by
  obtain ⟨x, hx, hrotate⟩ := bind_eq_some_iff.mp hrotate
  rw [update_spec hx] at hrotate
  exact update_spec hrotate

theorem leftRightRotate_spec
    (hrotate : leftRightRotate (.node (.node ll (.node a b mk mh mw ms) lk lh lw ls) r k h w s)
      = some t) : t = updated (updated ll a lk lw) (updated b r k w) mk mw := by
  obtain ⟨left, hleft, hrotate⟩ := bind_eq_some_iff.mp hrotate
  rw [leftRotate_spec hleft] at hrotate
  exact rightRotate_spec hrotate

theorem rightLeftRotate_spec
    (hrotate : rightLeftRotate (.node l (.node (.node a b mk mh mw ms) rr rk rh rw rs) k h w s)
      = some t) : t = updated (updated l a k w) (updated b rr rk rw) mk mw := by
  obtain ⟨right, hright, hrotate⟩ := bind_eq_some_iff.mp hrotate
  rw [rightRotate_spec hright] at hrotate
  exact leftRotate_spec hrotate

/-- A node that is too high on the left has a left child, and is rotated to the right. -/
theorem balance_left_spec {hLeftBalance : ℤ} (hl : r.height + 1 < l.height)
    (hbalance : heightBalance l = some hLeftBalance)
    (hrotate : (if hLeftBalance ≥ 0 then rightRotate (.node l r k h w s)
      else leftRightRotate (.node l r k h w s)) = some t) : Balances (.node l r k h w s) t := by
  cases l with
  | none => simp at hl
  | node ll lr lk lh lw ls =>
    have hinner := heightBalance_spec hbalance
    split at hrotate
    case isTrue hnonneg =>
      rw [rightRotate_spec hrotate]
      exact .right hl (by omega)
    case isFalse hneg =>
      cases lr with
      | none => simp at hinner; omega
      | node a b mk mh mw ms =>
        rw [leftRightRotate_spec hrotate]
        simp only [height_node] at hinner
        exact .leftRight hl (by omega)

theorem balance_right_spec {hRightBalance : ℤ} (hr : l.height + 1 < r.height)
    (hbalance : heightBalance r = some hRightBalance)
    (hrotate : (if hRightBalance ≤ 0 then leftRotate (.node l r k h w s)
      else rightLeftRotate (.node l r k h w s)) = some t) : Balances (.node l r k h w s) t := by
  cases r with
  | none => simp at hr
  | node rl rr rk rh rw rs =>
    have hinner := heightBalance_spec hbalance
    split at hrotate
    case isTrue hnonpos =>
      rw [leftRotate_spec hrotate]
      exact .left hr (by omega)
    case isFalse hpos =>
      cases rl with
      | none => simp at hinner; omega
      | node a b mk mh mw ms =>
        rw [rightLeftRotate_spec hrotate]
        simp only [height_node] at hinner
        exact .rightLeft hr (by omega)

/-- `balance` keeps a node, or rotates it; it never comes to a child that is not there. -/
theorem balance_spec (hbalance : balance (.node l r k h w s) = some t) :
    Balances (.node l r k h w s) t := by
  obtain ⟨hBalance, hnode, hbalance⟩ := bind_eq_some_iff.mp hbalance
  obtain ⟨hLeftBalance, hleft, hbalance⟩ := bind_eq_some_iff.mp hbalance
  obtain ⟨hRightBalance, hright, hbalance⟩ := bind_eq_some_iff.mp hbalance
  have hheights := heightBalance_spec hnode
  split at hbalance
  case isTrue hcase => exact balance_left_spec (by omega) hleft (by rwa [if_pos hcase.2])
  split at hbalance
  case isTrue hcase =>
    exact balance_left_spec (by omega) hleft (by rwa [if_neg (not_le.mpr hcase.2)])
  split at hbalance
  case isTrue hcase => exact balance_right_spec (by omega) hright (by rwa [if_pos hcase.2])
  split at hbalance
  case isTrue hcase =>
    exact balance_right_spec (by omega) hright (by rwa [if_neg (not_le.mpr hcase.2)])
  cases hbalance
  exact .keep (by omega) (by omega)

/-- No rotation loses an item, whatever the heights are that the nodes hold. -/
theorem Balances.items {n : Node α} (hbalances : Balances n t) : t.items = n.items := by
  cases hbalances <;> simp

/-! ### Search, insertion and removal -/

variable (c : IComparer α)

def lookup : Node α → α → Node α
  | .none, _ => .none
  | .node l r key h w s, item =>
    if c.less item key then lookup l item
    else if c.less key item then lookup r item
    else .node l r key h w s

/-- The weight of the node that `lookup` finds. -/
def weight? : Node α → Option ℕ
  | .none => .none
  | .node _ _ _ _ w _ => some w

def insert [DecidableEq α] : Node α → α → ℕ → Option (Node α)
  | .none, item, weight => some (mkNode item weight)
  | .node l r key h w s, item, weight =>
    if key = item then some (.node l r key h w s)
    else
      let n? :=
        if c.less item key then (insert l item weight).map (.node · r key h w s)
        else if c.less key item then (insert r item weight).map (.node l · key h w s)
        else some (.node l r key h w s)
      n?.bind fun n => (update n).bind balance

def minValueNode : Node α → Node α
  | .none => .none
  | .node l r key h w s =>
    match minValueNode l with
    | .none => .node l r key h w s
    | min => min

/-- The node that `remove` leaves in the place of `n`, before it is balanced.
`removeRight` removes an item from the right child. -/
def unlink (l r : Node α) (key : α) (h w s : ℕ) (removeRight : α → Option (Node α)) :
    Option (Node α) :=
  match l, r with
  | .none, tmp => some tmp
  | tmp, .none => some tmp
  | l, r =>
    match minValueNode r with
    | .none => some (.node l r key h w s)
    | .node _ _ tmpKey _ tmpWeight _ =>
      (removeRight tmpKey).map (.node l · tmpKey h tmpWeight s)

/-- `remove`: nothing is updated on the way back, only balanced. -/
def remove : Node α → α → Option (Node α)
  | .none, _ => some .none
  | .node l r key h w s, item =>
    let root? :=
      if c.less item key then (remove l item).map (.node · r key h w s)
      else if c.less key item then (remove r item).map (.node l · key h w s)
      else unlink l r key h w s (remove r ·)
    root?.bind fun
      | .none => some .none
      | root => balance root

def maxWeightOf : Node α → Option ℕ
  | .none => .none
  | .node l r _ _ w _ =>
    match maxWeightOf l, maxWeightOf r with
    | .none, .none => some w
    | some l, .none => some (max w l)
    | .none, some r => some (max w r)
    | some l, some r => some (max w (max l r))

def enumerate : Node α → List α
  | .none => []
  | .node l r key _ _ _ => key :: (enumerate l ++ enumerate r)

/-! ### Weights along a search path -/

/-- A node on the search path of an item is named by its depth, and the tree is the state: an action
on a node is a change of the tree. -/
abbrev Action (α : Type) := ℕ → Node α → Option (Node α)

/-- `f` on the node at a depth of the search path of `item`. -/
def modifyAt (item : α) (f : Node α → Option (Node α)) : Action α
  | _, .none => some .none
  | 0, t => f t
  | depth + 1, .node l r key h w s =>
    if c.less item key then (modifyAt item f depth l).map (.node · r key h w s)
    else if c.less key item then (modifyAt item f depth r).map (.node l · key h w s)
    else some (.node l r key h w s)

/-- The action that `lookup'` hands on to the child of the node at a depth. -/
def extend (action : Action α) (depth : ℕ) : Action α := fun t tree => do
  let tree ← action t tree
  action depth tree

/-- `lookup'`. -/
def lookup' {β : Type} (item : α) (k : ℕ → Action α → β) : Node α → ℕ → Action α → Option β
  | .none, _, _ => .none
  | .node l r key _ _ _, depth, action =>
    let action' := extend action depth
    if c.less item key then lookup' item k l (depth + 1) action'
    else if c.less key item then lookup' item k r (depth + 1) action'
    else some (k depth action)

def lookupAndUpdate {β : Type} (t : Node α) (item : α) (k : ℕ → Action α → β) : Option β :=
  lookup' c item k t 0 (modifyAt c item update)

/-- `n.Weight <- weight`. -/
def setWeight (weight : ℕ) : Node α → Option (Node α)
  | .none => some .none
  | .node l r key h _ s => some (.node l r key h weight s)

end Node

/-! ### The collection -/

/-- The fields of a `DiscretePDF`. -/
structure DiscretePDF (α : Type) where
  root : Node α
  maxWeight : ℕ
  count : ℕ
deriving DecidableEq, Repr

namespace DiscretePDF
variable {α : Type} (c : IComparer α)

def empty : DiscretePDF α := ⟨.none, 0, 0⟩

def insert [DecidableEq α] (x : DiscretePDF α) (item : α) (weight : ℕ) :
    Option (DiscretePDF α) := do
  let root ← x.root.insert c item weight
  let count ← checkedAdd x.count 1
  some ⟨root, max x.maxWeight weight, count⟩

def remove (x : DiscretePDF α) (item : α) : Option (DiscretePDF α) := do
  let root ← x.root.remove c item
  let maxWeight := (root.maxWeightOf).getD x.maxWeight
  if x.count = 0 then none else some ⟨root, maxWeight, x.count - 1⟩

def contains (x : DiscretePDF α) (item : α) : Bool := (x.root.lookup c item).weight?.isSome

def tryGetWeight (x : DiscretePDF α) (item : α) : Option ℕ := (x.root.lookup c item).weight?

def update (x : DiscretePDF α) (item : α) (weight : ℕ) : Option (DiscretePDF α) :=
  match Node.lookupAndUpdate c x.root item (fun p act tree => do
    let tree ← Node.modifyAt c item (Node.setWeight weight) p tree
    act p tree) with
  | none => some x
  | some change => do
      let root ← change x.root
      some ⟨root, max x.maxWeight weight, x.count⟩

def toSeq (x : DiscretePDF α) : List α := x.root.enumerate

/-- An operation that changes the collection. -/
inductive Op (α : Type) where
  | insert (item : α) (weight : ℕ)
  | remove (item : α)
  | update (item : α) (weight : ℕ)
deriving Repr

def step [DecidableEq α] (x : DiscretePDF α) : Op α → Option (DiscretePDF α)
  | .insert item weight => x.insert c item weight
  | .remove item => x.remove c item
  | .update item weight => x.update c item weight

end DiscretePDF

/-! ### Choice -/

/-- A continuation of `chooseInternal`, by how many numbers have been drawn; `none` has raised. -/
abbrev Cont (α : Type) := ℕ → Option (Option α)

section
variable {α : Type} (next : ℕ → ℕ → ℕ)

/-- `selectSegment3`; `next i` is the `i`-th answer of `random.Next(0, ·)`. -/
def selectSegment3 (w1 w2 w3 : ℕ) (on1 on2 on3 : Cont α → Cont α) (k : Cont α) : Cont α := fun i => do
  let bound ← checkedIntAdd w1 w2
  let bound ← checkedIntAdd bound w3
  let weight := next i bound
  if weight < w1 then on1 k (i + 1)
  else if weight < w1 + w2 then on2 k (i + 1)
  else on3 k (i + 1)

def selectSegment2 (w1 w2 : ℕ) (on1 on2 : Cont α → Cont α) (k : Cont α) : Cont α := fun i => do
  let bound ← checkedIntAdd w1 w2
  let weight := next i bound
  if weight < w1 then on1 (on2 k) (i + 1) else on2 (on1 k) (i + 1)

def tryMiddle (selector : α → Bool) (key : α) (k : Cont α) : Cont α := fun i =>
  if selector key then some (some key) else k i

def chooseInternal (selector : α → Bool) : Node α → Cont α → Cont α
  | .none, k => k
  | .node l r key _ weight _, k => fun i => do
      let goToLeft := chooseInternal selector l
      let goToRight := chooseInternal selector r
      let leftWeight ← checkedInt l.sumWeight
      let rightWeight ← checkedInt r.sumWeight
      let weight ← checkedInt weight
      let onLeft k := goToLeft
        (selectSegment2 next weight rightWeight (tryMiddle selector key) goToRight k)
      let onMiddle k := tryMiddle selector key
        (selectSegment2 next leftWeight rightWeight goToLeft goToRight k)
      let onRight k := goToRight
        (selectSegment2 next leftWeight weight goToLeft (tryMiddle selector key) k)
      selectSegment3 next leftWeight weight rightWeight onLeft onMiddle onRight k i

def DiscretePDF.choose (x : DiscretePDF α) (selector : α → Bool) : Option (Option α) :=
  chooseInternal next selector x.root (fun _ => some none) 0

end

namespace Node
variable {α : Type} {l r : Node α} {k : α} {h w s : ℕ}

/-! ### The items of a search tree -/

/-- The items stand in order. -/
def Ordered (c : Comparer α) (t : Node α) : Prop := t.items.Pairwise fun a b => c.less a.1 b.1

variable {c : Comparer α} {item key : α} {weight : ℕ}
variable {t t' : Node α} {R : Node α → Node α → Prop}

/-- The parts of a search tree, and how their items lie to the key. -/
theorem ordered_node : Ordered c (.node l r k h w s) ↔
    (Ordered c l ∧ Ordered c r) ∧ (∀ x ∈ l.items, c.less x.1 k) ∧ ∀ x ∈ r.items, c.less k x.1 := by
  simp only [Ordered, items_node, pairwise_append, pairwise_cons, forall_mem_cons]
  constructor
  · rintro ⟨hl, ⟨hk, hr⟩, hlr⟩
    exact ⟨⟨hl, hr⟩, fun x hx => (hlr x hx).1, hk⟩
  · rintro ⟨⟨hl, hr⟩, hlk, hk⟩
    exact ⟨hl, ⟨hk, hr⟩, fun x hx =>
      ⟨hlk x hx, fun y hy => Comparer.less_trans (hlk x hx) (hk y hy)⟩⟩

/-- An item less than the key can stand on the left only. -/
theorem mem_items_left (hr : ∀ x ∈ r.items, c.less k x.1) (hitem : c.less item k) :
    (item, weight) ∈ (node l r k h w s).items ↔ (item, weight) ∈ l.items := by
  have hkey : item ≠ k := Comparer.ne_of_less hitem
  have hright : (item, weight) ∉ r.items := fun hmem => Comparer.less_asymm hitem (hr _ hmem)
  simp [hkey, hright]

section
variable (hl : ∀ x ∈ l.items, c.less x.1 k)

include hl

theorem mem_items_right (hitem : c.less k item) :
    (item, weight) ∈ (node l r k h w s).items ↔ (item, weight) ∈ r.items := by
  have hkey : item ≠ k := (Comparer.ne_of_less hitem).symm
  have hleft : (item, weight) ∉ l.items := fun hmem => Comparer.less_asymm hitem (hl _ hmem)
  simp [hkey, hleft]

theorem mem_items_key (hr : ∀ x ∈ r.items, c.less k x.1) :
    (k, weight) ∈ (node l r k h w s).items ↔ weight = w := by
  have hleft : (k, weight) ∉ l.items := fun hmem => Comparer.not_less_self (hl _ hmem)
  have hright : (k, weight) ∉ r.items := fun hmem => Comparer.not_less_self (hr _ hmem)
  simp [hleft, hright]

theorem ne_of_mem_left (hitem : ¬ c.less item k) :
    ∀ x ∈ l.items, x.1 ≠ item := fun x hx heq => hitem (heq ▸ hl x hx)

end

theorem ne_of_mem_right (hr : ∀ x ∈ r.items, c.less k x.1) (hitem : ¬ c.less k item) :
    ∀ x ∈ r.items, x.1 ≠ item := fun x hx heq => hitem (heq ▸ hr x hx)

/-- `lookup` finds the items of a search tree. -/
theorem lookup_spec (hordered : Ordered c t) :
    (lookup c t item).weight? = some weight ↔ (item, weight) ∈ t.items := by
  induction t with
  | none => simp [lookup, weight?]
  | node l r k h w s ihl ihr =>
    obtain ⟨⟨hl, hr⟩, hlk, hkr⟩ := ordered_node.mp hordered
    rw [lookup]
    split
    case isTrue hless => rw [mem_items_left hkr hless, ihl hl]
    case isFalse hnot =>
      split
      case isTrue hless => rw [mem_items_right hlk hless, ihr hr]
      case isFalse hnot' =>
        obtain rfl := Comparer.eq_of_not_less hnot hnot'
        rw [mem_items_key hlk hkr, weight?, some.injEq, eq_comm]

/-- `enumerate` lists each item once. -/
theorem enumerate_perm (t : Node α) : t.enumerate.Perm (t.items.map Prod.fst) := by
  induction t with
  | none => exact List.Perm.nil
  | node l r k h w s ihl ihr =>
    rw [enumerate, items_node, map_append, map_cons]
    exact ((ihl.append ihr).cons k).trans perm_middle.symm

/-- Where an item that is absent comes to stand. -/
def placed (c : Comparer α) (items : List (α × ℕ)) (item : α) (weight : ℕ) : List (α × ℕ) :=
  items.filter (c.less ·.1 item) ++ (item, weight) :: items.filter (c.less item ·.1)

theorem placed_left {items rest : List (α × ℕ)} (hrest : ∀ x ∈ rest, c.less item x.1) :
    placed c (items ++ rest) item weight = placed c items item weight ++ rest := by
  have hnone : rest.filter (c.less ·.1 item) = [] :=
    filter_eq_nil_iff.mpr fun x hx => by simpa using Comparer.less_asymm (hrest x hx)
  have hall : rest.filter (c.less item ·.1) = rest :=
    filter_eq_self.mpr fun x hx => by simpa using hrest x hx
  simp [placed, hnone, hall]

theorem placed_right {items rest : List (α × ℕ)} (hrest : ∀ x ∈ rest, c.less x.1 item) :
    placed c (rest ++ items) item weight = rest ++ placed c items item weight := by
  have hnone : rest.filter (c.less item ·.1) = [] :=
    filter_eq_nil_iff.mpr fun x hx => by simpa using Comparer.less_asymm (hrest x hx)
  have hall : rest.filter (c.less ·.1 item) = rest :=
    filter_eq_self.mpr fun x hx => by simpa using hrest x hx
  simp [placed, hnone, hall]

/-- After an insertion nothing but the order of the rotations is left to see to. -/
theorem items_rebalance {n : Node α} (hrebalance : (update n).bind balance = some t) :
    t.items = n.items := by
  obtain ⟨n', hupdate, hbalance⟩ := bind_eq_some_iff.mp hrebalance
  cases n with
  | none => cases hupdate; cases hbalance; rfl
  | node l r k h w s =>
    rw [update_spec hupdate] at hbalance
    exact (balance_spec hbalance).items

theorem insert_items [DecidableEq α] (hordered : Ordered c t) (habsent : ∀ w, (item, w) ∉ t.items)
    (hinsert : insert c t item weight = some t') :
    t'.items = placed c t.items item weight := by
  induction t generalizing t' with
  | none => cases hinsert; rfl
  | node l r k h w s ihl ihr =>
    obtain ⟨⟨hl, hr⟩, hlk, hkr⟩ := ordered_node.mp hordered
    have hkey : k ≠ item := by
      rintro rfl
      exact habsent w (by simp)
    rw [insert, if_neg hkey] at hinsert
    obtain ⟨n, hn, hinsert⟩ := bind_eq_some_iff.mp hinsert
    rw [items_rebalance hinsert]
    split at hn
    case isTrue hless =>
      obtain ⟨l', hl', rfl⟩ := map_eq_some_iff.mp hn
      have habsent' : ∀ w, (item, w) ∉ l.items := fun w hmem => habsent w (by simp [hmem])
      rw [items_node, items_node, ihl hl habsent' hl', placed_left]
      exact forall_mem_cons.mpr ⟨hless, fun x hx => Comparer.less_trans hless (hkr x hx)⟩
    case isFalse hnot =>
      have hless : c.less k item :=
        by_contra fun hnot' => hkey (Comparer.eq_of_not_less hnot' hnot)
      rw [if_pos hless] at hn
      obtain ⟨r', hr', rfl⟩ := map_eq_some_iff.mp hn
      have habsent' : ∀ w, (item, w) ∉ r.items := fun w hmem => habsent w (by simp [hmem])
      have hrest : ∀ x ∈ l.items ++ [(k, w)], c.less x.1 item := by
        intro x hx
        rcases mem_append.mp hx with hx | hx
        · exact Comparer.less_trans (hlk x hx) hless
        · rw [mem_singleton.mp hx]
          exact hless
      rw [items_node, items_node, ihr hr habsent' hr', append_cons l.items _ r.items,
        placed_right hrest, ← append_cons]

/-- The items without one of them. -/
def without [DecidableEq α] (items : List (α × ℕ)) (item : α) : List (α × ℕ) :=
  items.filter (·.1 ≠ item)

section
variable [DecidableEq α] {xs ys : List (α × ℕ)}

theorem without_append : without (xs ++ ys) item = without xs item ++ without ys item :=
  filter_append ..

theorem without_eq_self (hxs : ∀ x ∈ xs, x.1 ≠ item) : without xs item = xs :=
  filter_eq_self.mpr fun x hx => decide_eq_true (hxs x hx)

theorem without_cons_self : without ((item, weight) :: xs) item = without xs item := by
  simp [without]

theorem without_cons_ne (hne : key ≠ item) :
    without ((key, weight) :: xs) item = (key, weight) :: without xs item := by
  simp [without, hne]

end

/-- The node of least key stands first. -/
theorem minValueNode_spec (t : Node α) : match minValueNode t with
    | .none => t = .none
    | .node _ _ key _ weight _ => t.items.head? = some (key, weight) := by
  induction t with
  | none => rfl
  | node l r k h w s ihl ihr =>
    rw [minValueNode]
    cases hmin : minValueNode l with
    | none =>
      rw [hmin] at ihl
      subst ihl
      rfl
    | node ml mr mk mh mw ms =>
      rw [hmin] at ihl
      rw [items_node, head?_append, ihl]
      rfl

/-- The node that takes the place of the removed one. -/
theorem unlink_items {removeRight : α → Option (Node α)} [DecidableEq α] (hordered : Ordered c r)
    (hremove : ∀ key r', removeRight key = some r' → r'.items = without r.items key)
    (hunlink : unlink l r k h w s removeRight = some t) : t.items = l.items ++ r.items := by
  rw [unlink.eq_def] at hunlink
  split at hunlink
  case h_1 => cases hunlink; rfl
  case h_2 => cases hunlink; simp
  case h_3 hr =>
    have hmin := minValueNode_spec r
    split at hunlink
    case h_1 hnone =>
      rw [hnone] at hmin
      exact absurd hmin hr
    case h_2 tl tr tmpKey th tmpWeight ts hsome =>
      rw [hsome] at hmin
      obtain ⟨rest, hrest⟩ := head?_eq_some_iff.mp hmin
      obtain ⟨r', hr', rfl⟩ := map_eq_some_iff.mp hunlink
      have hsorted : ∀ x ∈ rest, c.less tmpKey x.1 := by
        rw [Ordered, hrest, pairwise_cons] at hordered
        exact hordered.1
      rw [items_node, hremove _ _ hr', hrest, without_cons_self,
        without_eq_self fun x hx => (Comparer.ne_of_less (hsorted x hx)).symm]

theorem remove_items [DecidableEq α] (hordered : Ordered c t)
    (hremove : remove c t item = some t') : t'.items = without t.items item := by
  induction t generalizing t' item with
  | none => cases hremove; rfl
  | node l r k h w s ihl ihr =>
    obtain ⟨⟨hl, hr⟩, hlk, hkr⟩ := ordered_node.mp hordered
    obtain ⟨root, hroot, hremove⟩ := bind_eq_some_iff.mp hremove
    have hbalance : t'.items = root.items := by
      cases root with
      | none => cases hremove; rfl
      | node => exact (balance_spec hremove).items
    rw [hbalance, items_node, without_append]
    split at hroot
    case isTrue hless =>
      obtain ⟨l', hl', rfl⟩ := map_eq_some_iff.mp hroot
      have hright := ne_of_mem_right hkr (Comparer.less_asymm hless)
      rw [items_node, ihl hl hl', without_cons_ne (Comparer.ne_of_less hless).symm,
        without_eq_self hright]
    case isFalse hnot =>
      split at hroot
      case isTrue hless =>
        obtain ⟨r', hr', rfl⟩ := map_eq_some_iff.mp hroot
        have hleft := ne_of_mem_left hlk hnot
        rw [items_node, ihr hr hr', without_cons_ne (Comparer.ne_of_less hless),
          without_eq_self hleft]
      case isFalse hnot' =>
        obtain rfl := Comparer.eq_of_not_less hnot hnot'
        have hleft := ne_of_mem_left hlk hnot
        have hright := ne_of_mem_right hkr hnot'
        rw [unlink_items hr (fun _ _ => ihr hr) hroot, without_cons_self, without_eq_self hleft,
          without_eq_self hright]

/-! ### The actions of a search -/

/-- The depth at which a search for an item ends. -/
def depth (c : Comparer α) (item : α) : Node α → ℕ
  | .none => 0
  | .node l r k _ _ _ =>
    if c.less item k then depth c item l + 1
    else if c.less k item then depth c item r + 1
    else 0

/-- The action that comes to a depth. -/
def actions (c : Comparer α) (item : α) : ℕ → Action α
  | 0 => modifyAt c item update
  | n + 1 => extend (actions c item n) n

/-- A search for an item that is there ends at its node, with the action of that depth. -/
theorem lookup'_spec {β : Type} (n : ℕ) (cont : ℕ → Action α → β) (hordered : Ordered c t)
    (hmem : (item, weight) ∈ t.items) :
    lookup' c item cont t n (actions c item n)
      = some (cont (n + depth c item t) (actions c item (n + depth c item t))) := by
  induction t generalizing n with
  | none => cases hmem
  | node l r k h w s ihl ihr =>
    obtain ⟨⟨hl, hr⟩, hlk, hkr⟩ := ordered_node.mp hordered
    rw [lookup', depth]
    split
    case isTrue hless =>
      rw [mem_items_left hkr hless] at hmem
      rw [← Nat.add_assoc, Nat.add_right_comm]
      exact ihl (n + 1) hl hmem
    case isFalse hnot =>
      split
      case isTrue hless =>
        rw [mem_items_right hlk hless] at hmem
        rw [← Nat.add_assoc, Nat.add_right_comm]
        exact ihr (n + 1) hr hmem
      case isFalse hnot' => rfl

/-- A relation between trees that an action below a node carries to the node. -/
structure Congruence (R : Node α → Node α → Prop) : Prop where
  refl t : R t t
  trans {t₁ t₂ t₃} : R t₁ t₂ → R t₂ t₃ → R t₁ t₃
  left {l l' r : Node α} {k : α} {h w s : ℕ} : R l l' → R (.node l r k h w s) (.node l' r k h w s)
  right {l r r' : Node α} {k : α} {h w s : ℕ} : R r r' → R (.node l r k h w s) (.node l r' k h w s)

theorem Congruence.modifyAt {c : IComparer α} (hR : Congruence R) {f : Node α → Option (Node α)}
    (hf : ∀ t t', f t = some t' → R t t') (n : ℕ) (t t' : Node α)
    (hmodify : modifyAt c item f n t = some t') : R t t' := by
  induction t generalizing n t' with
  | none => cases n <;> cases hmodify <;> exact hR.refl _
  | node l r k h w s ihl ihr =>
    cases n with
    | zero => exact hf _ _ hmodify
    | succ n =>
      rw [Node.modifyAt] at hmodify
      split_ifs at hmodify
      · obtain ⟨l', hl', rfl⟩ := map_eq_some_iff.mp hmodify
        exact hR.left (ihl n l' hl')
      · obtain ⟨r', hr', rfl⟩ := map_eq_some_iff.mp hmodify
        exact hR.right (ihr n r' hr')
      · cases hmodify
        exact hR.refl _

theorem Congruence.actions (hR : Congruence R) (hupdate : ∀ t t', update t = some t' → R t t')
    (n m : ℕ) (t t' : Node α) (hact : actions c item n m t = some t') : R t t' := by
  induction n generalizing m t t' with
  | zero => exact hR.modifyAt hupdate m t t' hact
  | succ n ih =>
    obtain ⟨t₁, hfirst, hact⟩ := bind_eq_some_iff.mp hact
    exact hR.trans (ih m t t₁ hfirst) (ih n t₁ t' hact)

theorem congruence_items : Congruence fun t t' : Node α => t'.items = t.items where
  refl _ := rfl
  trans h h' := h'.trans h
  left h := by rw [items_node, items_node, h]
  right h := by rw [items_node, items_node, h]

theorem keepsItems_actions (n m : ℕ) (t t' : Node α) :
    actions c item n m t = some t' → t'.items = t.items := by
  refine congruence_items.actions (fun t t' hupdate => ?_) n m t t'
  cases t with
  | none => cases hupdate; rfl
  | node l r k h w s => rw [update_spec hupdate]; rfl

/-- The items with another weight for one of them. -/
def reweighted [DecidableEq α] (items : List (α × ℕ)) (item : α) (weight : ℕ) : List (α × ℕ) :=
  items.map fun x => if x.1 = item then (item, weight) else x

theorem reweighted_eq_self [DecidableEq α] {xs : List (α × ℕ)} (hxs : ∀ x ∈ xs, x.1 ≠ item) :
    reweighted xs item weight = xs :=
  (map_congr_left fun x hx => if_neg (hxs x hx)).trans (List.map_id xs)

/-- The weight is set at the node of the item. -/
theorem setWeight_items [DecidableEq α] {old : ℕ} (hordered : Ordered c t)
    (hmem : (item, old) ∈ t.items)
    (hset : modifyAt c item (setWeight weight) (depth c item t) t = some t') :
    t'.items = reweighted t.items item weight := by
  induction t generalizing t' with
  | none => cases hmem
  | node l r k h w s ihl ihr =>
    obtain ⟨⟨hl, hr⟩, hlk, hkr⟩ := ordered_node.mp hordered
    rw [items_node, reweighted, map_append, map_cons, ← reweighted, ← reweighted]
    rw [depth] at hset
    split at hset
    case isTrue hless =>
      rw [mem_items_left hkr hless] at hmem
      rw [modifyAt, if_pos hless] at hset
      obtain ⟨l', hl', rfl⟩ := map_eq_some_iff.mp hset
      have hright := ne_of_mem_right hkr (Comparer.less_asymm hless)
      rw [items_node, ihl hl hmem hl', if_neg (Comparer.ne_of_less hless).symm,
        reweighted_eq_self hright]
    case isFalse hnot =>
      split at hset
      case isTrue hless =>
        rw [mem_items_right hlk hless] at hmem
        rw [modifyAt, if_neg hnot, if_pos hless] at hset
        obtain ⟨r', hr', rfl⟩ := map_eq_some_iff.mp hset
        have hleft := ne_of_mem_left hlk hnot
        rw [items_node, ihr hr hmem hr', if_neg (Comparer.ne_of_less hless),
          reweighted_eq_self hleft]
      case isFalse hnot' =>
        obtain rfl := Comparer.eq_of_not_less hnot hnot'
        have hleft := ne_of_mem_left hlk hnot
        have hright := ne_of_mem_right hkr hnot'
        cases hset
        rw [items_node, reweighted_eq_self hleft, reweighted_eq_self hright, if_pos rfl]

/-! ### Ordered lists of items -/

section
variable {xs : List (α × ℕ)}

/-- The items stand in order, so that no key stands twice. -/
abbrev OrderedItems (c : Comparer α) (xs : List (α × ℕ)) : Prop :=
  xs.Pairwise fun a b => c.less a.1 b.1

theorem OrderedItems.nodup_keys (hxs : OrderedItems c xs) : (xs.map Prod.fst).Nodup :=
  pairwise_map.mpr (hxs.imp fun h => Comparer.ne_of_less h)

theorem placed_perm (habsent : ∀ w, (item, w) ∉ xs) :
    (placed c xs item weight).Perm ((item, weight) :: xs) := by
  have hgreater : xs.filter (c.less item ·.1) = xs.filter (! c.less ·.1 item) := by
    refine filter_congr fun x hx => ?_
    have hne : x.1 ≠ item := by
      rintro rfl
      exact habsent x.2 hx
    by_cases hless : c.less x.1 item
    · simp [hless, Comparer.less_asymm hless]
    · have hless' : c.less item x.1 :=
        by_contra fun hnot => hne (Comparer.eq_of_not_less hless hnot)
      simp [hless, hless']
  rw [placed, hgreater]
  exact perm_middle.trans ((filter_append_perm (c.less ·.1 item) xs).cons _)

theorem OrderedItems.placed (hxs : OrderedItems c xs) : OrderedItems c (placed c xs item weight) := by
  refine pairwise_append.mpr ⟨hxs.filter _, pairwise_cons.mpr ⟨?_, hxs.filter _⟩, ?_⟩
  · intro x hx
    simpa using (mem_filter.mp hx).2
  · intro x hx y hy
    have hxitem : c.less x.1 item := by simpa using (mem_filter.mp hx).2
    rcases mem_cons.mp hy with rfl | hy
    · exact hxitem
    · exact Comparer.less_trans hxitem (by simpa using (mem_filter.mp hy).2)

variable [DecidableEq α]

theorem OrderedItems.without_perm (hxs : OrderedItems c xs) (hmem : (item, weight) ∈ xs) :
    xs.Perm ((item, weight) :: without xs item) := by
  obtain ⟨p, q, rfl⟩ := append_of_mem hmem
  obtain ⟨-, hq, hpq⟩ := pairwise_append.mp hxs
  have hp : without p item = p := without_eq_self fun x hx =>
    Comparer.ne_of_less (hpq x hx _ mem_cons_self)
  have hq' : without q item = q := without_eq_self fun x hx =>
    (Comparer.ne_of_less ((pairwise_cons.mp hq).1 x hx)).symm
  rw [without_append, without_cons_self, hp, hq']
  exact perm_middle

theorem reweighted_keys : (reweighted xs item weight).map Prod.fst = xs.map Prod.fst := by
  rw [reweighted, List.map_map]
  refine map_congr_left fun x _ => ?_
  by_cases hx : x.1 = item <;> simp [hx]

theorem OrderedItems.reweighted (hxs : OrderedItems c xs) :
    OrderedItems c (reweighted xs item weight) := by
  have hkeys : ((Node.reweighted xs item weight).map Prod.fst).Pairwise c.less := by
    rw [reweighted_keys]
    exact pairwise_map.mpr hxs
  exact pairwise_map.mp hkeys

end

end Node

/-! ### The finite map -/

namespace DiscretePDF
variable {α : Type} [DecidableEq α]

/-- The finite map after an operation. -/
def effect (m : α → Option ℕ) : Op α → α → Option ℕ
  | .insert item weight => Function.update m item (some weight)
  | .remove item => Function.update m item none
  | .update item weight => Function.update m item (some weight)

/-- What is inserted is absent; what is removed or updated is present. -/
def Legal (m : α → Option ℕ) : Op α → Prop
  | .insert item _ => m item = none
  | .remove item => m item ≠ none
  | .update item _ => m item ≠ none

/-- A collection beside the finite map of its operations. -/
def collection (c : IComparer α) : Library.System (DiscretePDF α × (α → Option ℕ)) (Op α) where
  start := (empty, fun _ => none)
  step s op := (s.1.step c op).map (·, effect s.2 op)

/-- The tree holds the items of the finite map. -/
structure Represents (c : Comparer α) (x : DiscretePDF α) (m : α → Option ℕ) : Prop where
  ordered : x.root.Ordered c
  mem_iff : ∀ item weight, (item, weight) ∈ x.root.items ↔ m item = some weight
  count_eq : x.count = x.root.items.length

variable {c : Comparer α} {x x' : DiscretePDF α} {m : α → Option ℕ} {item : α} {weight : ℕ}

theorem Represents.insert (hx : Represents c x m) (habsent : m item = none)
    (hinsert : x.insert c item weight = some x') :
    Represents c x' (Function.update m item (some weight)) := by
  obtain ⟨root, hroot, hinsert⟩ := bind_eq_some_iff.mp hinsert
  obtain ⟨count, hcount, hinsert⟩ := bind_eq_some_iff.mp hinsert
  cases hinsert
  have hnot : ∀ w, (item, w) ∉ x.root.items := fun w hmem => by
    rw [hx.mem_iff, habsent] at hmem
    cases hmem
  have hitems := Node.insert_items hx.ordered hnot hroot
  have hperm : (Node.placed c x.root.items item weight).Perm _ := Node.placed_perm hnot
  constructor
  case ordered =>
    rw [Node.Ordered, hitems]
    exact Node.OrderedItems.placed hx.ordered
  case mem_iff =>
    intro key w
    rw [hitems, hperm.mem_iff, mem_cons, hx.mem_iff, Function.update_apply]
    split
    case isTrue hkey => simp [hkey, habsent, eq_comm]
    case isFalse hkey => simp [hkey]
  case count_eq =>
    rw [hitems, hperm.length_eq, length_cons, ← hx.count_eq]
    exact checkedAdd_eq_some hcount

theorem Represents.remove (hx : Represents c x m) (hpresent : m item ≠ none)
    (hremove : x.remove c item = some x') : Represents c x' (Function.update m item none) := by
  obtain ⟨root, hroot, hremove⟩ := bind_eq_some_iff.mp hremove
  obtain ⟨w, hw⟩ := ne_none_iff_exists'.mp hpresent
  have hitems := Node.remove_items hx.ordered hroot
  have hperm := Node.OrderedItems.without_perm hx.ordered ((hx.mem_iff item w).mpr hw)
  split at hremove
  case isTrue => cases hremove
  case isFalse hcount =>
    cases hremove
    constructor
    case ordered =>
      rw [Node.Ordered, hitems]
      exact List.Pairwise.filter _ hx.ordered
    case mem_iff =>
      intro key w
      rw [hitems, Node.without, mem_filter, hx.mem_iff, Function.update_apply]
      by_cases hkey : key = item <;> simp [hkey]
    case count_eq =>
      have hlength := hperm.length_eq
      rw [length_cons, ← hx.count_eq] at hlength
      rw [hitems]
      exact Nat.sub_eq_of_eq_add hlength

omit [DecidableEq α] in
/-- `Update` sets the weight of the node that the search ends at, and runs its action. -/
theorem update_spec {old : ℕ} (hordered : x.root.Ordered c) (hmem : (item, old) ∈ x.root.items)
    (hupdate : x.update c item weight = some x') :
    let depth := Node.depth c item x.root
    ∃ tree, Node.modifyAt c item (Node.setWeight weight) depth x.root = some tree ∧
      Node.actions c item depth depth tree = some x'.root ∧ x'.count = x.count := by
  have hfirst : Node.modifyAt c item Node.update = Node.actions c item 0 := rfl
  simp only [DiscretePDF.update, Node.lookupAndUpdate, hfirst,
    Node.lookup'_spec 0 _ hordered hmem, Nat.zero_add] at hupdate
  obtain ⟨root, hchange, hupdate⟩ := bind_eq_some_iff.mp hupdate
  obtain ⟨tree, htree, hact⟩ := bind_eq_some_iff.mp hchange
  cases hupdate
  exact ⟨tree, htree, hact, rfl⟩

theorem Represents.update (hx : Represents c x m) (hpresent : m item ≠ none)
    (hupdate : x.update c item weight = some x') :
    Represents c x' (Function.update m item (some weight)) := by
  obtain ⟨w, hw⟩ := ne_none_iff_exists'.mp hpresent
  have hmem := (hx.mem_iff item w).mpr hw
  obtain ⟨tree, htree, hroot, hcount⟩ := update_spec hx.ordered hmem hupdate
  have hitems : x'.root.items = Node.reweighted x.root.items item weight :=
    (Node.keepsItems_actions _ _ _ _ hroot).trans (Node.setWeight_items hx.ordered hmem htree)
  constructor
  case ordered =>
    rw [Node.Ordered, hitems]
    exact Node.OrderedItems.reweighted hx.ordered
  case mem_iff =>
    intro key w'
    rw [hitems, Node.reweighted, List.mem_map, Function.update_apply]
    split
    case isTrue hkey =>
      subst hkey
      constructor
      · rintro ⟨y, hy, hyw⟩
        split at hyw
        case isTrue => simpa using hyw
        case isFalse hne => exact absurd (congrArg Prod.fst hyw) hne
      · intro hw'
        exact ⟨(key, w), hmem, by simpa using hw'⟩
    case isFalse hkey =>
      rw [← hx.mem_iff]
      constructor
      · rintro ⟨y, hy, hyw⟩
        split at hyw
        case isTrue => exact absurd (congrArg Prod.fst hyw).symm hkey
        case isFalse => exact hyw ▸ hy
      · exact fun hkeymem => ⟨(key, w'), hkeymem, if_neg hkey⟩
  case count_eq => rw [hitems, Node.reweighted, length_map, hcount, hx.count_eq]

end DiscretePDF

/-! ### What is chosen -/

section
variable {α : Type} {selector : α → Bool} {next : ℕ → ℕ → ℕ} {fits : Prop} {S S' S₁ S₂ S₃ : α → Prop}
  {f g f₁ f₂ f₃ : Cont α → Cont α} {w1 w2 w3 : ℕ}

/-- How a search that is to go on with `k` ends for the items of `S`: with one that is selected; or
it goes on, and there is none; or it raises, because the weights do not fit. -/
def Outcome (selector : α → Bool) (fits : Prop) (S : α → Prop) (k : Cont α)
    (o : Option (Option α)) : Prop :=
  (∃ a, S a ∧ selector a = true ∧ o = some (some a)) ∨
    ((∀ a, S a → selector a = false) ∧ ∃ j, o = k j) ∨ (¬ fits ∧ o = none)

/-- A part of a search tries the items of `S`. -/
def Tries (selector : α → Bool) (fits : Prop) (S : α → Prop) (f : Cont α → Cont α) : Prop :=
  ∀ k i, Outcome selector fits S k (f k i)

/-- A number that raises only where the weights do not fit. -/
theorem Outcome.bind {k : Cont α} {n : Option ℕ} {f : ℕ → Option (Option α)}
    (hn : n = some a ∨ ¬ fits ∧ n = none) (hf : Outcome selector fits S k (f a)) :
    Outcome selector fits S k (n.bind f) := by
  rcases hn with rfl | ⟨hfits, rfl⟩
  · exact hf
  · exact .inr (.inr ⟨hfits, rfl⟩)

theorem Tries.congr (hf : Tries selector fits S f) (hS : ∀ a, S a ↔ S' a) :
    Tries selector fits S' f := by
  obtain rfl : S = S' := funext fun a => propext (hS a)
  exact hf

theorem Tries.mono {fits' : Prop} (hf : Tries selector fits S f) (hfits : fits' → fits) :
    Tries selector fits' S f :=
  fun k i => (hf k i).imp_right fun h => h.imp_right fun h' => h'.imp_left fun h => h ∘ hfits

/-- One part, and then the other. -/
theorem Tries.comp (hf : Tries selector fits S f) (hg : Tries selector fits S' g) :
    Tries selector fits (fun a => S a ∨ S' a) fun k => f (g k) := by
  intro k i
  rcases hf (g k) i with ⟨a, ha, hsel, hfound⟩ | ⟨hnone, j, hgo⟩ | hraise
  · exact .inl ⟨a, .inl ha, hsel, hfound⟩
  · rcases hg k j with ⟨a, ha, hsel, hfound⟩ | ⟨hnone', j', hgo'⟩ | ⟨hfits, hraise⟩
    · exact .inl ⟨a, .inr ha, hsel, hgo.trans hfound⟩
    · exact .inr (.inl ⟨fun a ha => ha.elim (hnone a) (hnone' a), j', hgo.trans hgo'⟩)
    · exact .inr (.inr ⟨hfits, hgo.trans hraise⟩)
  · exact .inr (.inr hraise)

theorem checkedInt_cases (hfits : fits → a < 2 ^ 31) :
    checkedInt a = some a ∨ ¬ fits ∧ checkedInt a = none := by
  rw [checkedInt]
  split
  case isTrue => exact .inl rfl
  case isFalse h => exact .inr ⟨h ∘ hfits, rfl⟩

theorem checkedIntAdd_cases {b : ℕ} (hfits : fits → a + b < 2 ^ 31) :
    checkedIntAdd a b = some (a + b) ∨ ¬ fits ∧ checkedIntAdd a b = none := by
  rw [checkedIntAdd]
  split
  case isTrue => exact .inl rfl
  case isFalse h => exact .inr ⟨h ∘ hfits, rfl⟩

theorem Tries.selectSegment2 (hfits : fits → w1 + w2 < 2 ^ 31) (h₁ : Tries selector fits S₁ f₁)
    (h₂ : Tries selector fits S₂ f₂) :
    Tries selector fits (fun a => S₁ a ∨ S₂ a) (selectSegment2 next w1 w2 f₁ f₂) := by
  intro k i
  refine .bind (checkedIntAdd_cases hfits) ?_
  dsimp only
  split
  · exact h₁.comp h₂ k (i + 1)
  · exact (h₂.comp h₁).congr (fun a => or_comm) k (i + 1)

theorem Tries.selectSegment3 (hfits : fits → w1 + w2 + w3 < 2 ^ 31) (h₁ : Tries selector fits S f₁)
    (h₂ : Tries selector fits S f₂) (h₃ : Tries selector fits S f₃) :
    Tries selector fits S (selectSegment3 next w1 w2 w3 f₁ f₂ f₃) := by
  intro k i
  refine .bind (checkedIntAdd_cases fun h => Nat.lt_of_le_of_lt (Nat.le_add_right ..) (hfits h)) ?_
  refine .bind (checkedIntAdd_cases hfits) ?_
  dsimp only
  split
  · exact h₁ k (i + 1)
  split
  · exact h₂ k (i + 1)
  · exact h₃ k (i + 1)

theorem tries_tryMiddle (key : α) : Tries selector fits (· = key) (tryMiddle selector key) := by
  intro k i
  rw [tryMiddle]
  split
  case isTrue hsel => exact .inl ⟨key, rfl, hsel, rfl⟩
  case isFalse hsel =>
    exact .inr (.inl ⟨fun a ha => ha ▸ Bool.eq_false_iff.mpr hsel, i, rfl⟩)

namespace Node

/-- At each node, the three weights that a choice adds up are an `int` together. -/
def Fits : Node α → Prop
  | .none => True
  | .node l r _ _ w _ => (Fits l ∧ Fits r) ∧ l.sumWeight + w + r.sumWeight < 2 ^ 31

/-- The key of an item of the tree. -/
def Has (t : Node α) (a : α) : Prop := a ∈ t.items.map Prod.fst

/-- A search of a tree tries all its items, whatever is drawn. -/
theorem tries_chooseInternal (t : Node α) :
    Tries selector t.Fits t.Has (chooseInternal next selector t) := by
  induction t with
  | none =>
    have hempty : ∀ a, (Node.none : Node α).Has a → selector a = false := fun a ha =>
      (not_mem_nil ha).elim
    exact fun k i => .inr (.inl ⟨hempty, i, rfl⟩)
  | node l r key h w s ihl ihr =>
    intro k i
    have hbound : (node l r key h w s).Fits → l.sumWeight + w + r.sumWeight < 2 ^ 31 := And.right
    have hleft := ihl.mono fun hfits : (node l r key h w s).Fits => hfits.1.1
    have hright := ihr.mono fun hfits : (node l r key h w s).Fits => hfits.1.2
    have hmiddle : Tries selector (node l r key h w s).Fits (· = key) (tryMiddle selector key) :=
      tries_tryMiddle key
    refine .bind (checkedInt_cases fun hfits => by have := hbound hfits; omega) ?_
    refine .bind (checkedInt_cases fun hfits => by have := hbound hfits; omega) ?_
    refine .bind (checkedInt_cases fun hfits => by have := hbound hfits; omega) ?_
    have hitems : ∀ a, (node l r key h w s).Has a ↔ l.Has a ∨ a = key ∨ r.Has a := by
      simp [Has]
    refine Tries.selectSegment3 hbound ?_ ?_ ?_ k i
    · refine (hleft.comp (hmiddle.selectSegment2 ?_ hright)).congr ?_
      · intro hfits; have := hbound hfits; omega
      · intro a; rw [hitems]
    · refine (hmiddle.comp (hleft.selectSegment2 ?_ hright)).congr ?_
      · intro hfits; have := hbound hfits; omega
      · intro a; rw [hitems, or_left_comm]
    · refine (hright.comp (hleft.selectSegment2 ?_ hmiddle)).congr ?_
      · intro hfits; have := hbound hfits; omega
      · intro a; rw [hitems, or_comm]; exact or_assoc

end Node

end

/-! ### Runs -/

namespace Node
variable {α : Type} {c : Comparer α} {t t' : Node α}

/-- Balancing keeps the items in their order, whatever heights the nodes hold. -/
theorem balance_items (hbalance : balance t = some t') : t'.items = t.items := by
  cases t with
  | none => cases hbalance; rfl
  | node l r k h w s => exact (balance_spec hbalance).items

end Node

namespace DiscretePDF
variable {α : Type} {c : Comparer α} {x : DiscretePDF α} {m : α → Option ℕ}

/-- The members that read agree with the finite map. -/
structure Agrees (c : Comparer α) (x : DiscretePDF α) (m : α → Option ℕ) : Prop where
  contains : ∀ item, x.contains c item = (m item).isSome
  tryGetWeight : ∀ item, x.tryGetWeight c item = m item
  mem_toSeq : ∀ item, item ∈ x.toSeq ↔ m item ≠ none
  nodup_toSeq : x.toSeq.Nodup
  count : x.count = x.toSeq.length

/-- What `Choose` answers when it returns: an item of the map that is selected, or `None` where there
is none. -/
def Chooses (m : α → Option ℕ) (selector : α → Bool) : Option α → Prop
  | some a => m a ≠ none ∧ selector a = true
  | none => ∀ a, m a ≠ none → selector a = false

theorem represents_empty : Represents c empty fun _ => none :=
  ⟨List.Pairwise.nil, fun _ _ => by simp [empty], rfl⟩

theorem Represents.step [DecidableEq α] {x' : DiscretePDF α} {op : Op α} (hx : Represents c x m)
    (hlegal : Legal m op) (hstep : x.step c op = some x') : Represents c x' (effect m op) := by
  cases op with
  | insert item weight => exact hx.insert hlegal hstep
  | remove item => exact hx.remove hlegal hstep
  | update item weight => exact hx.update hlegal hstep

theorem Represents.of_reaches [DecidableEq α]
    (h : (collection c).Reaches (fun s op => Legal s.2 op) (x, m)) :
    Represents c x m := by
  refine h.invariant (P := fun s => Represents c s.1 s.2) represents_empty ?_
  rintro ⟨_, _⟩ op ⟨_, _⟩ hx hlegal hstep
  obtain ⟨x', hop, hstep⟩ := map_eq_some_iff.mp hstep
  cases hstep
  exact hx.step hlegal hop

theorem Represents.has_iff (hx : Represents c x m) (a : α) : x.root.Has a ↔ m a ≠ none := by
  rw [Node.Has, List.mem_map, ne_none_iff_exists']
  constructor
  · rintro ⟨y, hy, rfl⟩
    exact ⟨y.2, (hx.mem_iff _ _).mp hy⟩
  · rintro ⟨w, hw⟩
    exact ⟨(a, w), (hx.mem_iff _ _).mpr hw, rfl⟩

theorem Represents.agrees (hx : Represents c x m) : Agrees c x m := by
  have hweight : ∀ item, x.tryGetWeight c item = m item := fun item =>
    Option.ext fun w => (Node.lookup_spec hx.ordered).trans (hx.mem_iff item w)
  have hperm := Node.enumerate_perm x.root
  constructor
  case contains => exact fun item => congrArg Option.isSome (hweight item)
  case tryGetWeight => exact hweight
  case mem_toSeq => exact fun item => hperm.mem_iff.trans (hx.has_iff item)
  case nodup_toSeq => exact hperm.nodup_iff.mpr (Node.OrderedItems.nodup_keys hx.ordered)
  case count => rw [toSeq, hperm.length_eq, length_map, hx.count_eq]

theorem Represents.choose (hx : Represents c x m) (next : ℕ → ℕ → ℕ) (selector : α → Bool) :
    (∃ o, x.choose next selector = some o ∧ Chooses m selector o) ∨
      ¬ x.root.Fits ∧ x.choose next selector = none := by
  rcases Node.tries_chooseInternal x.root (fun _ => some none) 0 with
    ⟨a, ha, hsel, hfound⟩ | ⟨hnone, j, hgo⟩ | hraise
  · exact .inl ⟨some a, hfound, (hx.has_iff a).mp ha, hsel⟩
  · exact .inl ⟨none, hgo, fun a ha => hnone a ((hx.has_iff a).mpr ha)⟩
  · exact .inr hraise

/-- The tree is the finite map of its operations; no rotation and no removal loses an item, whatever
heights the nodes hold; and a choice that does not overflow tries every item. -/
theorem collection_agrees [DecidableEq α]
    (h : (collection c).Reaches (fun s op => Legal s.2 op) (x, m)) :
    Agrees c x m ∧
      (∀ next selector, (∀ o, x.choose next selector = some o → Chooses m selector o) ∧
        (x.root.Fits → ∃ o, x.choose next selector = some o)) ∧
      (∀ t t' : Node α, t.balance = some t' → t'.items = t.items) ∧
      (∀ (t t' : Node α) item, t.Ordered c → t.remove c item = some t' →
        t'.items = Node.without t.items item) := by
  have hx := Represents.of_reaches h
  refine ⟨hx.agrees, fun next selector => ?_, fun _ _ => Node.balance_items,
    fun _ _ _ => Node.remove_items⟩
  rcases hx.choose next selector with ⟨o, ho, hchooses⟩ | ⟨hfits, hraise⟩
  · refine ⟨fun o' ho' => ?_, fun _ => ⟨o, ho⟩⟩
    cases ho.symm.trans ho'
    exact hchooses
  · refine ⟨fun o' ho' => ?_, fun h => absurd h hfits⟩
    cases hraise.symm.trans ho'

/-- The order of the numbers. -/
def natComparer : Comparer ℕ where
  compare a b := if a < b then -1 else if a = b then 0 else 1
  answers a b := by grind
  eq_iff a b := by grind
  swap a b := by grind
  trans a b d := by grind

/-- Two items, of which the first is updated. -/
theorem reaches_two : (collection natComparer).Reaches (fun s op => Legal s.2 op)
    (⟨.node (Node.mkNode 1 5) .none 2 2 6 11, 7, 2⟩,
      Function.update (Function.update (Function.update (fun _ => none) 2 (some 7)) 1 (some 5))
        2 (some 6)) := by
  refine .step (.step (.step .start (show Legal _ (.insert 2 7) from rfl) rfl)
    (show Legal _ (.insert 1 5) from rfl) rfl) (show Legal _ (.update 2 6) from ?_) rfl
  exact some_ne_none 7

/-- From two items, one that is not the root is chosen. -/
theorem agrees_two : let x : DiscretePDF ℕ := ⟨.node (Node.mkNode 1 5) .none 2 2 6 11, 7, 2⟩
    x.toSeq.Nodup ∧ ∀ next, ∃ o, x.choose next (· = 1) = some o := by
  obtain ⟨hagrees, hchoose, -⟩ := collection_agrees reaches_two
  exact ⟨hagrees.nodup_toSeq, fun next => (hchoose next (· = 1)).2 (by simp [Node.Fits, Node.mkNode])⟩

/-- An item so heavy that its weight is no `int` is never chosen: the choice raises. -/
theorem not_chosen_heavy : ¬ ∀ (x : DiscretePDF ℕ) m,
    (collection natComparer).Reaches (fun s op => Legal s.2 op) (x, m) →
    ∀ next selector, ∃ o, x.choose next selector = some o ∧ Chooses m selector o := by
  intro hall
  have hreaches : (collection natComparer).Reaches (fun s op => Legal s.2 op) _ :=
    .step .start (show Legal _ (.insert 0 (2 ^ 31)) from rfl) rfl
  obtain ⟨o, ho, -⟩ := hall _ _ hreaches (fun _ _ => 0) fun _ => true
  cases ho

end DiscretePDF

end VSharp.Utils
