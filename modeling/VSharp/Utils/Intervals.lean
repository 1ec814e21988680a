import VSharp.Utils.Regions
import Mathlib.Data.Prod.Lex

/-!
# Utils — Intervals

`VSharp.Utils/Regions.fs`, `intervals<'a>`: unions of open and closed intervals, as sorted lists of
endpoints.  One merge loop, `combine`, serves all operations through six callbacks.

* `combine_sweep`: on lists that alternate left and right endpoints the counters of the loop say
  whether the sweep stands inside each of the two regions, and every property of the output is an
  induction over the sweep.
* `Ordered`: the cuts of a list do not descend.  This is all that the meaning of a region asks for,
  and all that `Union`, `Intersect` and `Subtract` keep; the endpoints themselves need not ascend.
* `Formed`: such a list that alternates.  All regions made of closed intervals are formed, on formed
  regions the three operations are the set operations, and what `CompareTo` says of inclusion and
  disjointness is true.
-/

namespace VSharp
open List

inductive EndpointSort where
  | openRight | closedLeft | closedRight | openLeft
deriving DecidableEq, Repr

namespace EndpointSort

/-- The value of the enumeration, from zero. -/
def rank : EndpointSort → ℕ
  | .openRight => 0
  | .closedLeft => 1
  | .closedRight => 2
  | .openLeft => 3

def isLeft : EndpointSort → Bool
  | .closedLeft | .openLeft => true
  | _ => false

/-- The sorts `Intervals.flip` exchanges. -/
def flip : EndpointSort → EndpointSort
  | .closedLeft => .openRight
  | .closedRight => .openLeft
  | .openLeft => .closedRight
  | .openRight => .closedLeft

@[simp] theorem isLeft_flip (s : EndpointSort) : s.flip.isLeft = !s.isLeft := by cases s <;> rfl

@[simp] theorem rank_flip_div (s : EndpointSort) : s.flip.rank / 2 = s.rank / 2 := by cases s <;> rfl

theorem rank_eq (s : EndpointSort) : s.rank = 2 * (s.rank / 2) + (if s.isLeft then 1 else 0) := by
  cases s <;> rfl

theorem rank_injective {s s' : EndpointSort} (h : s.rank = s'.rank) : s = s' := by
  cases s <;> cases s' <;> first | rfl | cases h

end EndpointSort

/-- `endpoint<'a>`. -/
structure Endpoint (α : Type) where
  elem : α
  sort : EndpointSort
deriving DecidableEq, Repr

namespace Endpoint
variable {α : Type}
variable {x y : Endpoint α}

/-- The endpoint is a left one. -/
def isLeft (x : Endpoint α) : Bool := x.sort.isLeft

def flip (x : Endpoint α) : Endpoint α := ⟨x.elem, x.sort.flip⟩

/-- Endpoints are compared by their element, then by their sort. -/
def key (x : Endpoint α) : α ×ₗ ℕ := toLex (x.elem, x.sort.rank)

/-- The place where the endpoint cuts: right before its element, or right after. -/
def cut (x : Endpoint α) : α ×ₗ ℕ := toLex (x.elem, x.sort.rank / 2)

@[simp] theorem isLeft_flip (x : Endpoint α) : x.flip.isLeft = !x.isLeft := x.sort.isLeft_flip

@[simp] theorem cut_flip (x : Endpoint α) : x.flip.cut = x.cut := by simp [cut, flip]

theorem key_injective (h : x.key = y.key) : x = y := by
  obtain ⟨he, hs⟩ := Prod.mk.inj (toLex.injective h)
  obtain ⟨e, s⟩ := x
  obtain ⟨e', s'⟩ := y
  rw [show e = e' from he, show s = s' from EndpointSort.rank_injective hs]

variable [LinearOrder α] {p : α}

/-- The point `p` lies after the endpoint. -/
def passed (p : α) (x : Endpoint α) : Bool := decide (x.key < toLex (p, 2))

theorem passed_eq (p : α) (x : Endpoint α) : passed p x =
    if x.sort.rank < 2 then decide (x.elem ≤ p) else decide (x.elem < p) := by
  rw [Bool.eq_iff_iff]
  simp only [passed, key, decide_eq_true_eq, Prod.Lex.toLex_lt_toLex]
  split
  · next h => simp only [h, and_true, decide_eq_true_eq, le_iff_lt_or_eq]
  · next h => simp only [h, and_false, or_false, decide_eq_true_eq]

theorem passed_iff_cut : passed p x = true ↔ x.cut < toLex (p, 1) := by
  have := x.sort.rank_eq
  simp only [passed, key, cut, decide_eq_true_eq, Prod.Lex.toLex_lt_toLex]
  constructor <;> rintro (h | ⟨rfl, h⟩)
  · exact .inl h
  · exact .inr ⟨rfl, by omega⟩
  · exact .inl h
  · exact .inr ⟨rfl, by omega⟩

theorem passed_mono (h : x.cut ≤ y.cut) (hy : passed p y = true) : passed p x = true :=
  passed_iff_cut.mpr (h.trans_lt (passed_iff_cut.mp hy))

/-- At one cut the right endpoints come first. -/
theorem cut_lt_of_key_lt (h : x.key < y.key) (hside : y.isLeft = false ∨ x.isLeft = true) :
    x.cut < y.cut := by
  have hrx := x.sort.rank_eq
  have hry := y.sort.rank_eq
  simp only [key, cut, Prod.Lex.toLex_lt_toLex] at *
  rcases h with h | ⟨he, h⟩
  · exact .inl h
  · refine .inr ⟨he, ?_⟩
    rcases hside with hy | hx
    · rw [show y.sort.isLeft = false from hy, if_neg Bool.false_ne_true] at hry
      omega
    · rw [show x.sort.isLeft = true from hx, if_pos rfl] at hrx
      split at hry <;> omega

theorem cut_le_of_key_le (h : x.key ≤ y.key) : x.cut ≤ y.cut := by
  simp only [key, cut, Prod.Lex.toLex_le_toLex] at *
  rcases h with h | ⟨he, h⟩
  · exact .inl h
  · exact .inr ⟨he, by omega⟩

theorem key_lt_of_cut_lt (h : x.cut < y.cut) : x.key < y.key := by
  simp only [key, cut, Prod.Lex.toLex_lt_toLex] at *
  rcases h with h | ⟨he, h⟩
  · exact .inl h
  · exact .inr ⟨he, by omega⟩

end Endpoint

/-- `intervals<'a>`. -/
structure Intervals (α : Type) where
  points : List (Endpoint α)
deriving DecidableEq, Repr

namespace Intervals
variable {α β : Type}

def closed (x y : α) : Intervals α := ⟨[⟨x, .closedLeft⟩, ⟨y, .closedRight⟩]⟩

def singleton (x : α) : Intervals α := closed x x

/-- The callbacks of `combine`; their flags say whether the sweep is inside the first region and
inside the second. -/
structure Visit (α β : Type) where
  left1 : Endpoint α → Bool → Bool → Option β
  right1 : Endpoint α → Bool → Bool → Option β
  left2 : Endpoint α → Bool → Bool → Option β
  right2 : Endpoint α → Bool → Bool → Option β
  leftBoth : Endpoint α → Bool → Bool → Option β
  rightBoth : Endpoint α → Bool → Bool → Option β

/-- A counter after an endpoint. -/
def count (c : ℤ) (x : Endpoint α) : ℤ := if x.isLeft then c + 1 else c - 1

namespace Visit
variable (v : Visit α β)

/-- The callback for an endpoint of the first region; `c1` counts it already. -/
def first (x : Endpoint α) (c1 c2 : ℤ) : Option β :=
  if x.isLeft then v.left1 x (decide (1 < c1)) (decide (0 < c2))
  else v.right1 x (decide (0 < c1)) (decide (0 < c2))

/-- The callback for an endpoint of the second region. -/
def second (x : Endpoint α) (c1 c2 : ℤ) : Option β :=
  if x.isLeft then v.left2 x (decide (0 < c1)) (decide (1 < c2))
  else v.right2 x (decide (0 < c1)) (decide (0 < c2))

/-- The callback for an endpoint of both. -/
def both (x : Endpoint α) (c1 c2 : ℤ) : Option β :=
  if x.isLeft then v.leftBoth x (decide (1 < c1)) (decide (1 < c2))
  else v.rightBoth x (decide (0 < c1)) (decide (0 < c2))

end Visit

section
variable [LinearOrder α]

/-- `Intervals.combine`, from the counters `c1` and `c2` on. -/
def combine (v : Visit α β) (c1 c2 : ℤ) : List (Endpoint α) → List (Endpoint α) → List β
  | [], [] => []
  | x :: p1, [] => (v.first x (count c1 x) c2).toList ++ combine v (count c1 x) c2 p1 []
  | [], y :: p2 => (v.second y c1 (count c2 y)).toList ++ combine v c1 (count c2 y) [] p2
  | x :: p1, y :: p2 =>
    match compare x.key y.key with
    | .lt => (v.first x (count c1 x) c2).toList ++ combine v (count c1 x) c2 p1 (y :: p2)
    | .gt => (v.second y c1 (count c2 y)).toList ++ combine v c1 (count c2 y) (x :: p1) p2
    | .eq => (v.both x (count c1 x) (count c2 x)).toList ++
        combine v (count c1 x) (count c2 x) p1 p2
termination_by p1 p2 => p1.length + p2.length

/-- The callbacks of `Intervals.union`. -/
def unionVisit : Visit α (Endpoint α) :=
  let visit x (inside1 inside2 : Bool) := if inside1 || inside2 then none else some x
  ⟨visit, visit, visit, visit, visit, visit⟩

/-- The callbacks of `Intervals.intersect`. -/
def intersectVisit : Visit α (Endpoint α) :=
  let visit1 x (inside1 inside2 : Bool) := if !inside1 && inside2 then some x else none
  let visit2 x (inside1 inside2 : Bool) := if !inside2 && inside1 then some x else none
  let visitBoth x (inside1 inside2 : Bool) := if !inside1 && !inside2 then some x else none
  ⟨visit1, visit1, visit2, visit2, visitBoth, visitBoth⟩

/-- The callbacks of `Intervals.subtract`. -/
def subtractVisit : Visit α (Endpoint α) :=
  let visitLeft1 x (_ inside2 : Bool) := if inside2 then none else some x
  let visitRight1 x (_ inside2 : Bool) := if inside2 then none else some x
  let visitLeft2 (x : Endpoint α) (inside1 _ : Bool) := if inside1 then some x.flip else none
  let visitRight2 (x : Endpoint α) (inside1 _ : Bool) := if inside1 then some x.flip else none
  ⟨visitLeft1, visitRight1, visitLeft2, visitRight2, visitLeft2, visitRight2⟩

/-- The callbacks of `Intervals.compare`: what each of them joins to `includes` and `disjoint`. -/
def compareVisit : Visit α (Bool × Bool) :=
  let visitLeft1 _ (_ inside2 : Bool) := some (true, !inside2)
  let visitRight1 _ (_ inside2 : Bool) := some (!inside2, !inside2)
  let visitLeft2 _ (inside1 _ : Bool) := some (inside1, !inside1)
  let visitRight2 _ (inside1 _ : Bool) := some (true, !inside1)
  let visitBoth _ (_ _ : Bool) := some (true, false)
  ⟨visitLeft1, visitRight1, visitLeft2, visitRight2, visitBoth, visitBoth⟩

def union (r s : Intervals α) : Intervals α := ⟨combine unionVisit 0 0 r.points s.points⟩

instance : IRegion (Intervals α) where
  isEmpty r := r.points.isEmpty
  compareTo r s :=
    let flags := combine compareVisit 0 0 r.points s.points
    if flags.all Prod.fst then .includes else if flags.all Prod.snd then .disjoint else .intersects
  subtract r s := ⟨combine subtractVisit 0 0 r.points s.points⟩
  intersect r s := ⟨combine intersectVisit 0 0 r.points s.points⟩

end

/-! ### The sweep -/

section
variable [LinearOrder α]
variable {b1 b2 : Bool} {p1 p2 l : List (Endpoint α)} {x : Endpoint α} {p : α}

/-- Left and right endpoints take turns, from inside the region (`b`) or from outside, and the list
ends outside. -/
def Alternates : Bool → List (Endpoint α) → Prop
  | b, [] => b = false
  | b, x :: l => x.isLeft = !b ∧ Alternates (!b) l

/-- The cuts do not descend. -/
def Ordered (l : List (Endpoint α)) : Prop := l.Pairwise fun x y => x.cut ≤ y.cut

omit [LinearOrder α] in
theorem count_eq {b : Bool} (h : x.isLeft = !b) : count b.toInt x = (!b).toInt := by
  cases b <;> simp [count, h]

theorem decide_pos (b : Bool) : decide (0 < b.toInt) = b := by cases b <;> rfl

theorem decide_one_lt (b : Bool) : decide (1 < b.toInt) = false := by cases b <;> rfl

/-- An endpoint of the first list, of the second or of both is visited: the flags before and after
it, the lists with it and without it, and what the callback returns. -/
inductive Visits (v : Visit α β) (x : Endpoint α) : Bool → Bool → Bool → Bool → List (Endpoint α) →
    List (Endpoint α) → List (Endpoint α) → List (Endpoint α) → Option β → Prop where
  | first {b1 b2 : Bool} {p1 p2 : List (Endpoint α)} (h : x.isLeft = !b1) :
    Visits v x b1 b2 (!b1) b2 (x :: p1) p2 p1 p2
      (if b1 then v.right1 x false b2 else v.left1 x false b2)
  | second {b1 b2 : Bool} {p1 p2 : List (Endpoint α)} (h : x.isLeft = !b2) :
    Visits v x b1 b2 b1 (!b2) p1 (x :: p2) p1 p2
      (if b2 then v.right2 x b1 false else v.left2 x b1 false)
  | both {b : Bool} {p1 p2 : List (Endpoint α)} (h : x.isLeft = !b) :
    Visits v x b b (!b) (!b) (x :: p1) (x :: p2) p1 p2
      (if b then v.rightBoth x false false else v.leftBoth x false false)

section
variable {v : Visit α β} {x : Endpoint α} {c1 c2 : Bool} {q1 q2 : List (Endpoint α)} {o : Option β}

section
variable (h : Visits v x b1 b2 c1 c2 q1 q2 p1 p2 o)

include h

section
omit [LinearOrder α]

theorem Visits.mem : x ∈ q1 ++ q2 := by
  cases h with
  | first | both => exact mem_cons_self
  | second => exact mem_append_right _ mem_cons_self

theorem Visits.subsets : p1 ⊆ q1 ∧ p2 ⊆ q2 := by
  cases h with
  | first => exact ⟨subset_cons_self _ _, List.Subset.refl _⟩
  | second => exact ⟨List.Subset.refl _, subset_cons_self _ _⟩
  | both => exact ⟨subset_cons_self _ _, subset_cons_self _ _⟩

theorem Visits.alternates (h1 : Alternates b1 q1) (h2 : Alternates b2 q2) :
    Alternates c1 p1 ∧ Alternates c2 p2 := by
  cases h with
  | first => exact ⟨h1.2, h2⟩
  | second => exact ⟨h1, h2.2⟩
  | both => exact ⟨h1.2, h2.2⟩

theorem Visits.subset : p1 ++ p2 ⊆ q1 ++ q2 :=
  append_subset.mpr ⟨fun _ hy => mem_append_left _ (h.subsets.1 hy),
    fun _ hy => mem_append_right _ (h.subsets.2 hy)⟩

end

end

end

/-- The sweep over two alternating lists: what holds of the empty output, and is kept when an
endpoint is visited, holds of the whole output.  Each list is in some order `S`; an endpoint is then
`T` to those that are still to come. -/
theorem combine_sweep {v : Visit α β} {S T : Endpoint α → Endpoint α → Prop}
    (hS : ∀ {x y : Endpoint α}, S x y → T x y)
    (hT : ∀ {x y : Endpoint α}, x.key < y.key → T x y)
    (hST : ∀ {x y z : Endpoint α}, x.key < y.key → S y z → T x z)
    {motive : Bool → Bool → List (Endpoint α) → List (Endpoint α) → List β → Prop}
    (nil : motive false false [] [] [])
    (visit : ∀ {x : Endpoint α} {b1 b2 c1 c2 : Bool} {q1 q2 p1 p2 : List (Endpoint α)}
      {o : Option β} {out : List β}, Visits v x b1 b2 c1 c2 q1 q2 p1 p2 o → Alternates b1 q1 →
      Alternates b2 q2 → q1.Pairwise S → q2.Pairwise S → (∀ y ∈ p1 ++ p2, T x y) →
      motive c1 c2 p1 p2 out → motive b1 b2 q1 q2 (o.toList ++ out))
    (h1 : Alternates b1 p1) (h2 : Alternates b2 p2) (s1 : p1.Pairwise S) (s2 : p2.Pairwise S) :
    motive b1 b2 p1 p2 (combine v b1.toInt b2.toInt p1 p2) := by
  induction hn : p1.length + p2.length using Nat.strong_induction_on generalizing b1 b2 p1 p2 with
  | h n ih =>
  subst hn
  have takeFirst {x : Endpoint α} {l : List (Endpoint α)} (h1 : Alternates b1 (x :: l))
      (s1 : (x :: l).Pairwise S) (hlt : ∀ y ∈ p2, T x y)
      (hlen : l.length + p2.length < p1.length + p2.length) :
      motive b1 b2 (x :: l) p2 ((v.first x (count b1.toInt x) b2.toInt).toList ++
        combine v (count b1.toInt x) b2.toInt l p2) := by
    have hx := pairwise_cons.mp s1
    have := visit (.first h1.1) h1 h2 s1 s2
      (forall_mem_append.mpr ⟨fun y hy => hS (hx.1 y hy), hlt⟩) (ih _ hlen h1.2 h2 hx.2 s2 rfl)
    rw [count_eq h1.1, Visit.first, h1.1, decide_pos, decide_pos, decide_one_lt]
    cases b1 <;> exact this
  have takeSecond {x : Endpoint α} {l : List (Endpoint α)} (h2 : Alternates b2 (x :: l))
      (s2 : (x :: l).Pairwise S) (hlt : ∀ y ∈ p1, T x y)
      (hlen : p1.length + l.length < p1.length + p2.length) :
      motive b1 b2 p1 (x :: l) ((v.second x b1.toInt (count b2.toInt x)).toList ++
        combine v b1.toInt (count b2.toInt x) p1 l) := by
    have hx := pairwise_cons.mp s2
    have := visit (.second h2.1) h1 h2 s1 s2
      (forall_mem_append.mpr ⟨hlt, fun y hy => hS (hx.1 y hy)⟩) (ih _ hlen h1 h2.2 s1 hx.2 rfl)
    rw [count_eq h2.1, Visit.second, h2.1, decide_pos, decide_pos, decide_one_lt]
    cases b2 <;> exact this
  match p1, p2, h1, h2, s1, s2 with
  | [], [], h1, h2, _, _ =>
    obtain rfl : b1 = false := h1
    obtain rfl : b2 = false := h2
    rw [combine]
    exact nil
  | x :: l, [], h1, _, s1, _ =>
    rw [combine]
    exact takeFirst h1 s1 nofun (by simp)
  | [], y :: l, _, h2, _, s2 =>
    rw [combine]
    exact takeSecond h2 s2 nofun (by simp)
  | x :: l, y :: l', h1, h2, s1, s2 =>
    have hx := pairwise_cons.mp s1
    have hy := pairwise_cons.mp s2
    rw [combine]
    split
    · next hlt =>
        have hlt := compare_lt_iff_lt.mp hlt
        exact takeFirst h1 s1 (forall_mem_cons.mpr ⟨hT hlt, fun z hz => hST hlt (hy.1 z hz)⟩)
          (by simp)
    · next hgt =>
        have hgt := compare_gt_iff_gt.mp hgt
        exact takeSecond h2 s2
          (forall_mem_cons.mpr ⟨hT hgt, fun z hz => hST hgt (hx.1 z hz)⟩) (by simp)
    · next heq =>
        obtain rfl := Endpoint.key_injective (compare_eq_iff_eq.mp heq)
        obtain rfl : b1 = b2 := by simpa using h1.1.symm.trans h2.1
        have := visit (.both h1.1) h1 h2 s1 s2 (forall_mem_append.mpr
          ⟨fun z hz => hS (hx.1 z hz), fun z hz => hS (hy.1 z hz)⟩)
          (ih _ (by simp; omega) h1.2 h2.2 hx.2 hy.2 rfl)
        rw [count_eq h1.1, Visit.both, h1.1, decide_one_lt, decide_pos]
        cases b1 <;> exact this

/-! ### Points of a list -/

/-- The point has passed an odd number of endpoints. -/
def inside (p : α) : List (Endpoint α) → Bool
  | [] => false
  | x :: l => Endpoint.passed p x ^^ inside p l

/-- The point lies between a left endpoint and the right endpoint after it. -/
def within (p : α) : List (Endpoint α) → Bool
  | x :: y :: l => (Endpoint.passed p x && !Endpoint.passed p y) || within p l
  | _ => false

theorem inside_eq_false (h : ∀ y ∈ l, Endpoint.passed p y = false) : inside p l = false := by
  induction l with
  | nil => rfl
  | cons x l ih =>
    rw [inside, h x mem_cons_self, ih fun y hy => h y (mem_cons_of_mem _ hy)]
    rfl

/-- No endpoint after one that is not passed is passed. -/
theorem passed_eq_false (hlt : ∀ y ∈ l, x.cut ≤ y.cut) (hx : Endpoint.passed p x = false) :
    ∀ y ∈ l, Endpoint.passed p y = false := fun y hy => by
  by_contra h
  rw [Endpoint.passed_mono (hlt y hy) (by simpa using h)] at hx
  cases hx

theorem within_eq_inside {p : α} : ∀ {l : List (Endpoint α)}, Alternates false l → Ordered l →
    within p l = inside p l
  | [], _, _ => rfl
  | [x], h, _ => by
      have : (!false) = false := h.2
      cases this
  | x :: y :: l, h, hs => by
      obtain ⟨hx, hs⟩ := pairwise_cons.mp hs
      obtain ⟨hy, hs⟩ := pairwise_cons.mp hs
      have hrest := within_eq_inside (p := p) h.2.2 hs
      rw [within, inside, inside, hrest]
      cases hpy : Endpoint.passed p y with
      | true =>
        rw [Endpoint.passed_mono (hx y mem_cons_self) hpy]
        simp
      | false =>
        rw [inside_eq_false (passed_eq_false hy hpy)]
        simp

section
variable {v : Visit α β} {x : Endpoint α} {c1 c2 : Bool} {q1 q2 : List (Endpoint α)} {o : Option β}
  {p : α}

theorem Visits.passed (h : Visits v x b1 b2 c1 c2 q1 q2 p1 p2 o)
    (hp : Endpoint.passed p x = true) :
    (b1 ^^ inside p q1) = (c1 ^^ inside p p1) ∧ (b2 ^^ inside p q2) = (c2 ^^ inside p p2) := by
  cases h <;> simp [inside, hp]

/-- A point before the endpoint visited lies before all that are to come. -/
theorem Visits.not_passed (h : Visits v x b1 b2 c1 c2 q1 q2 p1 p2 o)
    (hle : ∀ y ∈ p1 ++ p2, x.cut ≤ y.cut) (hp : Endpoint.passed p x = false) :
    inside p q1 = false ∧ inside p q2 = false ∧ inside p p1 = false ∧ inside p p2 = false := by
  obtain ⟨hle₁, hle₂⟩ := forall_mem_append.mp hle
  have hp₁ := inside_eq_false (passed_eq_false hle₁ hp)
  have hp₂ := inside_eq_false (passed_eq_false hle₂ hp)
  cases h <;> simp [inside, hp, hp₁, hp₂]

end

/-! ### Boolean operations on regions -/

/-- What is emitted at an endpoint where membership goes from `s` to `s'`: nothing when they are the
same, else an endpoint at the same cut, a left one when membership begins. -/
def Emitted (x : Endpoint α) (s s' : Bool) (o : Option (Endpoint α)) : Prop :=
  if s = s' then o = none else ∃ e, o = some e ∧ e.cut = x.cut ∧ e.isLeft = !s

/-- The callbacks emit the endpoints of the region that `φ` makes of the two. -/
structure Emits (v : Visit α (Endpoint α)) (φ : Bool → Bool → Bool) : Prop where
  outside : φ false false = false
  first : ∀ {x : Endpoint α} {b1 b2 : Bool}, x.isLeft = !b1 → Emitted x (φ b1 b2) (φ (!b1) b2)
    (if b1 then v.right1 x false b2 else v.left1 x false b2)
  second : ∀ {x : Endpoint α} {b1 b2 : Bool}, x.isLeft = !b2 → Emitted x (φ b1 b2) (φ b1 (!b2))
    (if b2 then v.right2 x b1 false else v.left2 x b1 false)
  both : ∀ {x : Endpoint α} {b : Bool}, x.isLeft = !b → Emitted x (φ b b) (φ (!b) (!b))
    (if b then v.rightBoth x false false else v.leftBoth x false false)

section

omit [LinearOrder α]

theorem emits_union : Emits (@unionVisit α) (· || ·) := by
  refine ⟨rfl, fun {x b1 b2} h => ?_, fun {x b1 b2} h => ?_, fun {x b} h => ?_⟩
  · cases b1 <;> cases b2 <;> simp [Emitted, unionVisit, h]
  · cases b1 <;> cases b2 <;> simp [Emitted, unionVisit, h]
  · cases b <;> simp [Emitted, unionVisit, h]

theorem emits_intersect : Emits (@intersectVisit α) (· && ·) := by
  refine ⟨rfl, fun {x b1 b2} h => ?_, fun {x b1 b2} h => ?_, fun {x b} h => ?_⟩
  · cases b1 <;> cases b2 <;> simp [Emitted, intersectVisit, h]
  · cases b1 <;> cases b2 <;> simp [Emitted, intersectVisit, h]
  · cases b <;> simp [Emitted, intersectVisit, h]

theorem emits_subtract : Emits (@subtractVisit α) (fun b1 b2 => b1 && !b2) := by
  refine ⟨rfl, fun {x b1 b2} h => ?_, fun {x b1 b2} h => ?_, fun {x b} h => ?_⟩
  · cases b1 <;> cases b2 <;> simp [Emitted, subtractVisit, h]
  · cases b1 <;> cases b2 <;> simp [Emitted, subtractVisit, h]
  · cases b <;> simp [Emitted, subtractVisit]

end

section
variable {v : Visit α (Endpoint α)} {φ : Bool → Bool → Bool}
variable {x e : Endpoint α} {s s' b1 b2 c1 c2 : Bool} {o : Option (Endpoint α)}
  {out q1 q2 p1 p2 : List (Endpoint α)}

omit [LinearOrder α] in
theorem Emits.emitted (hv : Emits v φ) (h : Visits v x b1 b2 c1 c2 q1 q2 p1 p2 o) :
    Emitted x (φ b1 b2) (φ c1 c2) o := by
  cases h with
  | first hx => exact hv.first hx
  | second hx => exact hv.second hx
  | both hx => exact hv.both hx

omit [LinearOrder α] in
theorem Emitted.alternates (h : Emitted x s s' o) (hout : Alternates s' out) :
    Alternates s (o.toList ++ out) := by
  unfold Emitted at h
  split at h
  · next hs =>
      rw [h, hs]
      exact hout
  · next hs =>
      obtain ⟨e, rfl, -, he⟩ := h
      refine ⟨he, ?_⟩
      rwa [show (!s) = s' by cases s <;> cases s' <;> simp_all]

theorem Emitted.inside (h : Emitted x s s' o) (p : α) :
    inside p (o.toList ++ out) = ((Endpoint.passed p x && (s ^^ s')) ^^ inside p out) := by
  unfold Emitted at h
  split at h
  · next hs =>
      rw [h, hs]
      simp
  · next hs =>
      obtain ⟨e, rfl, hcut, -⟩ := h
      have hpassed : Endpoint.passed p e = Endpoint.passed p x := by
        rw [Bool.eq_iff_iff, Endpoint.passed_iff_cut, Endpoint.passed_iff_cut, hcut]
      rw [Option.toList_some, singleton_append, Intervals.inside, hpassed]
      cases s <;> cases s' <;> simp_all

theorem combine_alternates (hv : Emits v φ) (h1 : Alternates b1 p1) (h2 : Alternates b2 p2) :
    Alternates (φ b1 b2) (combine v b1.toInt b2.toInt p1 p2) := by
  have hany (l : List (Endpoint α)) : l.Pairwise fun _ _ => True :=
    pairwise_of_forall fun _ _ => trivial
  refine combine_sweep (S := fun _ _ => True) (T := fun _ _ => True) id (fun _ => trivial)
    (fun _ _ => trivial) (motive := fun b1 b2 _ _ out => Alternates (φ b1 b2) out) hv.outside
    ?_ h1 h2 (hany p1) (hany p2)
  exact fun hvisit _ _ _ _ _ ih => (hv.emitted hvisit).alternates ih

/-- Past an endpoint, membership is what it is after the endpoint; before it, what it was. -/
theorem Emitted.sweep {t : Bool} (h : Emitted x s s' o) (ih : (s' ^^ Intervals.inside p out) = t)
    (hnot : Endpoint.passed p x = false → t = s') :
    (s ^^ Intervals.inside p (o.toList ++ out)) = if Endpoint.passed p x then t else s := by
  rw [h.inside]
  cases hp : Endpoint.passed p x with
  | true =>
    rw [← ih]
    cases s <;> cases s' <;> simp
  | false =>
    rw [hnot hp] at ih
    rw [show Intervals.inside p out = false by cases s' <;> simpa using ih]
    simp

/-- The points of the output. -/
theorem inside_combine (hv : Emits v φ) (p : α) (h1 : Alternates b1 p1) (h2 : Alternates b2 p2)
    (s1 : Ordered p1) (s2 : Ordered p2) :
    (φ b1 b2 ^^ inside p (combine v b1.toInt b2.toInt p1 p2)) =
      φ (b1 ^^ inside p p1) (b2 ^^ inside p p2) := by
  refine combine_sweep (S := fun x y => x.cut ≤ y.cut) (T := fun x y => x.cut ≤ y.cut) id
    (fun h => Endpoint.cut_le_of_key_le h.le) (fun h h' => (Endpoint.cut_le_of_key_le h.le).trans h')
    (motive := fun b1 b2 p1 p2 out => (φ b1 b2 ^^ inside p out) =
      φ (b1 ^^ inside p p1) (b2 ^^ inside p p2)) (by simp [inside]) ?_ h1 h2 s1 s2
  intro x b1 b2 c1 c2 q1 q2 p1 p2 o out hvisit _ _ _ _ hle ih
  rw [(hv.emitted hvisit).sweep ih fun hp => by simp [hvisit.not_passed hle hp]]
  cases hp : Endpoint.passed p x with
  | true => rw [if_pos rfl, (hvisit.passed hp).1, (hvisit.passed hp).2]
  | false => simp [hvisit.not_passed hle hp]

omit [LinearOrder α] in
theorem Emitted.cut_eq (h : Emitted x s s' o) (he : e ∈ o.toList) : e.cut = x.cut ∧ s ≠ s' := by
  unfold Emitted at h
  split at h
  · rw [h] at he
    cases he
  · next hs =>
      obtain ⟨e', rfl, hcut, -⟩ := h
      rw [mem_singleton.mp he]
      exact ⟨hcut, hs⟩

omit [LinearOrder α] in
theorem mem_of_emitted {l l' : List (Endpoint α)} (h : Emitted x s s' o) (hx : x ∈ l')
    (hsub : l ⊆ l') (hout : ∀ e ∈ out, ∃ y ∈ l, e.cut = y.cut) (he : e ∈ o.toList ++ out) :
    ∃ y ∈ l', e.cut = y.cut := by
  rcases mem_append.mp he with he | he
  · exact ⟨x, hx, (h.cut_eq he).1⟩
  · obtain ⟨y, hy, hcut⟩ := hout e he
    exact ⟨y, hsub hy, hcut⟩

theorem Emitted.ordered (h : Emitted x s s' o) (hx : ∀ y ∈ l, x.cut ≤ y.cut)
    (hcuts : ∀ e ∈ out, ∃ y ∈ l, e.cut = y.cut) (hout : Ordered out) :
    Ordered (o.toList ++ out) := by
  refine pairwise_append.mpr ⟨?_, hout, fun e he e' he' => ?_⟩
  · cases o with
    | none => exact .nil
    | some e => exact pairwise_singleton _ e
  · obtain ⟨y, hy, hcut⟩ := hcuts e' he'
    rw [(h.cut_eq he).1, hcut]
    exact hx y hy

/-- The cuts of the output are cuts of the lists, and do not descend. -/
theorem combine_ordered (hv : Emits v φ) (h1 : Alternates b1 p1) (h2 : Alternates b2 p2)
    (s1 : Ordered p1) (s2 : Ordered p2) :
    Ordered (combine v b1.toInt b2.toInt p1 p2) ∧
      ∀ e ∈ combine v b1.toInt b2.toInt p1 p2, ∃ y ∈ p1 ++ p2, e.cut = y.cut := by
  refine combine_sweep (S := fun x y => x.cut ≤ y.cut) (T := fun x y => x.cut ≤ y.cut) id
    (fun h => Endpoint.cut_le_of_key_le h.le) (fun h h' => (Endpoint.cut_le_of_key_le h.le).trans h')
    (motive := fun _ _ p1 p2 out => Ordered out ∧ ∀ e ∈ out, ∃ y ∈ p1 ++ p2, e.cut = y.cut)
    ⟨.nil, nofun⟩ ?_ h1 h2 s1 s2
  intro x b1 b2 c1 c2 q1 q2 p1 p2 o out hvisit _ _ _ _ hle ih
  have hemit := hv.emitted hvisit
  exact ⟨hemit.ordered hle ih.2 ih.1, fun e => mem_of_emitted hemit hvisit.mem hvisit.subset ih.2⟩

end

/-! ### What a comparison says -/

/-- A pair of memberships that every flagged endpoint keeps from coming up is not that of a point. -/
theorem compare_excludes {flag : Bool × Bool → Bool} (bad : Bool → Bool → Bool)
    (hbad : ∀ {x : Endpoint α} {b1 b2 c1 c2 : Bool} {q1 q2 p1 p2 : List (Endpoint α)}
      {o : Option (Bool × Bool)}, Visits compareVisit x b1 b2 c1 c2 q1 q2 p1 p2 o →
      o.toList.all flag = true → bad b1 b2 = false → bad c1 c2 = false)
    (h1 : Alternates b1 p1) (h2 : Alternates b2 p2) (s1 : Ordered p1) (s2 : Ordered p2) :
    (combine compareVisit b1.toInt b2.toInt p1 p2).all flag = true → bad b1 b2 = false →
      ∀ p, bad (b1 ^^ inside p p1) (b2 ^^ inside p p2) = false := by
  refine combine_sweep (S := fun x y => x.cut ≤ y.cut) (T := fun x y => x.cut ≤ y.cut) id
    (fun h => Endpoint.cut_le_of_key_le h.le) (fun h h' => (Endpoint.cut_le_of_key_le h.le).trans h')
    (motive := fun b1 b2 p1 p2 out => out.all flag = true → bad b1 b2 = false →
      ∀ p, bad (b1 ^^ inside p p1) (b2 ^^ inside p p2) = false) (fun _ hb _ => hb) ?_ h1 h2 s1 s2
  intro x b1 b2 c1 c2 q1 q2 p1 p2 o out hvisit _ _ _ _ hle ih hall hb p
  rw [all_append, Bool.and_eq_true] at hall
  cases hpass : Endpoint.passed p x with
  | true =>
    rw [(hvisit.passed hpass).1, (hvisit.passed hpass).2]
    exact ih hall.2 (hbad hvisit hall.1 hb) p
  | false => simpa [hvisit.not_passed hle hpass] using hb

/-! ### Regions made of closed intervals -/

/-- The points of a region. -/
def contains (r : Intervals α) (p : α) : Bool := within p r.points

/-- The endpoints take turns, and their cuts do not descend. -/
structure Formed (r : Intervals α) : Prop where
  alternates : Alternates false r.points
  ordered : Ordered r.points

/-- The regions made of closed intervals by the operations, where `unites r s` allows the union of
two regions and `subtracts r s` their difference. -/
inductive Built (unites subtracts : Intervals α → Intervals α → Prop) : Intervals α → Prop where
  | closed {x y : α} (h : x ≤ y) : Built unites subtracts (closed x y)
  | union {r s : Intervals α} (hr : Built unites subtracts r) (hs : Built unites subtracts s)
      (h : unites r s) : Built unites subtracts (union r s)
  | intersect {r s : Intervals α} (hr : Built unites subtracts r) (hs : Built unites subtracts s) :
      Built unites subtracts (IRegion.intersect r s)
  | subtract {r s : Intervals α} (hr : Built unites subtracts r) (hs : Built unites subtracts s)
      (h : subtracts r s) : Built unites subtracts (IRegion.subtract r s)

theorem Formed.contains_eq {r : Intervals α} (h : Formed r) (p : α) :
    contains r p = inside p r.points :=
  within_eq_inside h.alternates h.ordered

theorem contains_closed (x y p : α) :
    contains (closed x y) p = (decide (x ≤ p) && decide (p ≤ y)) := by
  have hleft : Endpoint.passed p ⟨x, .closedLeft⟩ = decide (x ≤ p) := Endpoint.passed_eq _ _
  have hright : Endpoint.passed p ⟨y, .closedRight⟩ = decide (y < p) := Endpoint.passed_eq _ _
  calc contains (closed x y) p
      = ((Endpoint.passed p ⟨x, .closedLeft⟩ && !Endpoint.passed p ⟨y, .closedRight⟩) || false) :=
        rfl
    _ = (decide (x ≤ p) && decide (p ≤ y)) := by
        rw [hleft, hright, Bool.or_false]
        simp [← not_lt]

theorem formed_closed {x y : α} (h : x ≤ y) : Formed (closed x y) := by
  refine ⟨⟨rfl, rfl, rfl⟩, pairwise_pair.mpr ?_⟩
  rw [Endpoint.cut, Endpoint.cut, Prod.Lex.toLex_le_toLex]
  rcases h.lt_or_eq with hlt | rfl
  · exact .inl hlt
  · exact .inr ⟨rfl, by simp [EndpointSort.rank]⟩

section
variable {v : Visit α (Endpoint α)} {φ : Bool → Bool → Bool} {r s : Intervals α}

theorem Formed.combine (hv : Emits v φ) (hr : Formed r) (hs : Formed s) :
    Formed ⟨combine v 0 0 r.points s.points⟩ := by
  constructor
  · have h := combine_alternates hv hr.alternates hs.alternates
    rwa [hv.outside] at h
  · exact (combine_ordered hv hr.alternates hs.alternates hr.ordered hs.ordered).1

/-- The points of what an operation makes of two regions. -/
theorem Formed.contains_combine (hv : Emits v φ) (hr : Formed r) (hs : Formed s) (p : α) :
    contains ⟨Intervals.combine v 0 0 r.points s.points⟩ p = φ (contains r p) (contains s p) := by
  have h := inside_combine hv p hr.alternates hs.alternates hr.ordered hs.ordered
  rw [hv.outside, Bool.false_xor, Bool.false_xor, Bool.false_xor] at h
  rw [(hr.combine hv hs).contains_eq, hr.contains_eq, hs.contains_eq]
  exact h

end

section
variable {r s : Intervals α}

section
variable (hr : Formed r) (hs : Formed s)

include hr hs

theorem Formed.contains_union (p : α) : contains (union r s) p = (contains r p || contains s p) :=
  hr.contains_combine emits_union hs p

theorem Formed.contains_intersect (p : α) :
    contains (IRegion.intersect r s) p = (contains r p && contains s p) :=
  hr.contains_combine emits_intersect hs p

theorem Formed.contains_subtract (p : α) :
    contains (IRegion.subtract r s) p = (contains r p && !contains s p) :=
  hr.contains_combine emits_subtract hs p

/-- No endpoint tells the second region out of the first. -/
theorem Formed.includes (h : IRegion.compareTo r s = .includes) (p : α) (hp : contains s p = true) :
    contains r p = true := by
  have hall : (Intervals.combine compareVisit 0 0 r.points s.points).all Prod.fst = true := by
    by_contra hno
    simp only [IRegion.compareTo, if_neg hno] at h
    split at h <;> cases h
  rw [hr.contains_eq]
  rw [hs.contains_eq] at hp
  have hbad := compare_excludes (fun b1 b2 => b2 && !b1) (fun {_ b1 b2 _ _ _ _ _ _ _} hvisit => by
    cases b1 <;> cases b2 <;> cases hvisit <;> simp [compareVisit])
    hr.alternates hs.alternates hr.ordered hs.ordered hall rfl p
  simpa [hp] using hbad

/-- No endpoint of one region is inside the other. -/
theorem Formed.disjoint (h : IRegion.compareTo r s = .disjoint) (p : α) (hp : contains s p = true) :
    contains r p = false := by
  have hall : (Intervals.combine compareVisit 0 0 r.points s.points).all Prod.snd = true := by
    by_contra hno
    simp only [IRegion.compareTo, if_neg hno] at h
    split at h <;> cases h
  rw [hr.contains_eq]
  rw [hs.contains_eq] at hp
  have hbad := compare_excludes (fun b1 b2 => b1 && b2) (fun {_ b1 b2 _ _ _ _ _ _ _} hvisit => by
    cases b1 <;> cases b2 <;> cases hvisit <;> simp [compareVisit])
    hr.alternates hs.alternates hr.ordered hs.ordered hall rfl p
  simpa [hp] using hbad

end

theorem Built.formed {unites subtracts : Intervals α → Intervals α → Prop}
    (h : Built unites subtracts r) : Formed r := by
  induction h with
  | closed h => exact formed_closed h
  | union _ _ _ ihr ihs => exact ihr.combine emits_union ihs
  | intersect _ _ ihr ihs => exact ihr.combine emits_intersect ihs
  | subtract _ _ _ ihr ihs => exact ihr.combine emits_subtract ihs

end

end

end Intervals

end VSharp
