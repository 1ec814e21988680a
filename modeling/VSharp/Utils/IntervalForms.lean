import VSharp.Utils.Intervals
import Mathlib.Algebra.Order.Field.Basic
import Mathlib.Algebra.Order.Field.Rat
import Mathlib.Data.Finset.Max

/-!
# Utils — IntervalForms

What the lists of endpoints of `Utils.Intervals` look like, beyond what their meaning asks for.

* `Ascends`: the endpoints ascend.  `Union` and `Intersect` keep this; `Subtract` keeps it unless
  the second region touches itself strictly inside the first (`Clear`), where its two endpoints come
  back flipped and out of order.
* `Separated`: no two endpoints of a list cut at the same place, so no interval of a region touches
  the next.  `Intersect` and `Subtract` keep this; `Union` keeps it if the two regions do not touch
  each other (`Apart`).
* Over a dense order `CompareTo` is complete on separated regions (`separated_exactOn`).
-/

namespace VSharp
open List Endpoint

namespace Intervals
variable {α β : Type} [LinearOrder α] {l : List (Endpoint α)}

/-- The endpoints ascend. -/
def Ascends (l : List (Endpoint α)) : Prop := l.Pairwise fun x y => x.key < y.key

/-- The cuts ascend. -/
def Separated (l : List (Endpoint α)) : Prop := l.Pairwise fun x y => x.cut < y.cut

theorem Separated.ascends (h : Separated l) : Ascends l :=
  h.imp key_lt_of_cut_lt

theorem Ascends.ordered (h : Ascends l) : Ordered l :=
  h.imp fun h => cut_le_of_key_le h.le

/-! ### Lists that ascend -/

section
variable {v : Visit α (Endpoint α)} {φ : Bool → Bool → Bool} {p1 p2 out l : List (Endpoint α)}
  {x : Endpoint α} {o : Option (Endpoint α)} {b1 b2 : Bool}

/-- The callbacks emit the endpoint they are given, or nothing. -/
structure EmitsItself (v : Visit α (Endpoint α)) : Prop where
  first : ∀ {x e : Endpoint α} {b1 b2 : Bool},
    e ∈ (if b1 then v.right1 x false b2 else v.left1 x false b2) → e = x
  second : ∀ {x e : Endpoint α} {b1 b2 : Bool},
    e ∈ (if b2 then v.right2 x b1 false else v.left2 x b1 false) → e = x
  both : ∀ {x e : Endpoint α} {b : Bool},
    e ∈ (if b then v.rightBoth x false false else v.leftBoth x false false) → e = x

section
omit [LinearOrder α]

theorem EmitsItself.eq (hv : EmitsItself v) {c1 c2 : Bool} {q1 q2 : List (Endpoint α)}
    (h : Visits v x b1 b2 c1 c2 q1 q2 p1 p2 o) : ∀ e ∈ o, e = x := by
  cases h with
  | first => exact fun _ => hv.first
  | second => exact fun _ => hv.second
  | both => exact fun _ => hv.both

theorem emitsItself_union : EmitsItself (@unionVisit α) := by
  refine ⟨fun {x e b1 b2} h => ?_, fun {x e b1 b2} h => ?_, fun {x e b} h => ?_⟩
  · cases b1 <;> cases b2 <;> simp_all [unionVisit]
  · cases b1 <;> cases b2 <;> simp_all [unionVisit]
  · cases b <;> simp_all [unionVisit]

theorem emitsItself_intersect : EmitsItself (@intersectVisit α) := by
  refine ⟨fun {x e b1 b2} h => ?_, fun {x e b1 b2} h => ?_, fun {x e b} h => ?_⟩
  · cases b1 <;> cases b2 <;> simp_all [intersectVisit]
  · cases b1 <;> cases b2 <;> simp_all [intersectVisit]
  · cases b <;> simp_all [intersectVisit]

end

theorem ascends_append (ho : ∀ e ∈ o, e = x) (hx : ∀ y ∈ l, x.key < y.key) (hmem : out ⊆ l)
    (hout : Ascends out) : Ascends (o.toList ++ out) := by
  cases o with
  | none => exact hout
  | some e =>
    obtain rfl := ho e rfl
    exact pairwise_cons.mpr ⟨fun y hy => hx y (hmem hy), hout⟩

omit [LinearOrder α] in
theorem subset_of_itself (ho : ∀ e ∈ o, e = x) (hx : x ∈ l) (hmem : out ⊆ l) :
    o.toList ++ out ⊆ l := by
  refine append_subset.mpr ⟨fun e he => ?_, hmem⟩
  rw [ho e (Option.mem_toList.mp he)]
  exact hx

/-- What passes endpoints on keeps their order. -/
theorem combine_ascends (hv : EmitsItself v) (h1 : Alternates b1 p1) (h2 : Alternates b2 p2)
    (s1 : Ascends p1) (s2 : Ascends p2) : Ascends (combine v b1.toInt b2.toInt p1 p2) := by
  refine (combine_sweep (S := fun x y => x.key < y.key) (T := fun x y => x.key < y.key) id id
    lt_trans (motive := fun _ _ p1 p2 out => Ascends out ∧ out ⊆ p1 ++ p2) ⟨.nil, nofun⟩ ?_
    h1 h2 s1 s2).1
  intro x b1 b2 c1 c2 q1 q2 p1 p2 o out hvisit _ _ _ _ hlt ih
  exact ⟨ascends_append (hv.eq hvisit) hlt ih.2 ih.1,
    subset_of_itself (hv.eq hvisit) hvisit.mem (List.Subset.trans ih.2 hvisit.subset)⟩

end

/-- The number of endpoints that cut before `c` is odd. -/
def insideAt (c : α ×ₗ ℕ) : List (Endpoint α) → Bool
  | [] => false
  | x :: l => decide (x.cut < c) ^^ insideAt c l

/-- Wherever the second list touches itself, a right and then a left endpoint at one cut, the first
has an endpoint as well or is outside. -/
def ClearFrom (b : Bool) (p1 p2 : List (Endpoint α)) : Prop :=
  ∀ x ∈ p2, ∀ y ∈ p2, x.isLeft = false → y.isLeft = true → x.cut = y.cut →
    (b ^^ insideAt x.cut p1) = true → ∃ e ∈ p1, e.cut = x.cut

/-- The second region does not touch itself strictly inside the first. -/
def Clear (r s : Intervals α) : Prop := ClearFrom false r.points s.points

section
variable {b b1 b2 : Bool} {x y : Endpoint α} {p1 p2 out : List (Endpoint α)}

/-- At one cut a right endpoint comes before a left one. -/
theorem cut_lt_of_right (h : x.key < y.key) (hne : ¬ (x.isLeft = false ∧ y.isLeft = true)) :
    x.cut < y.cut := by
  refine cut_lt_of_key_lt h ?_
  cases hx : x.isLeft <;> cases hy : y.isLeft <;> simp_all

/-- What is to come is clear once endpoints before every place where `p2` touches itself are
left behind. -/
theorem ClearFrom.tail_first (h : ClearFrom b (x :: p1) p2) (hlt : ∀ y ∈ p2, x.key < y.key) :
    ClearFrom (!b) p1 p2 := by
  intro y hy z hz hright hleft hcut hin
  have hbefore : x.cut < y.cut := cut_lt_of_right (hlt y hy) fun hno => by simp_all
  obtain ⟨e, he, hecut⟩ := h y hy z hz hright hleft hcut (by
    rw [insideAt, decide_eq_true hbefore]
    cases b <;> simpa using hin)
  rcases mem_cons.mp he with rfl | he
  · rw [hecut] at hbefore
    exact (lt_irrefl _ hbefore).elim
  · exact ⟨e, he, hecut⟩

omit [LinearOrder α] in
theorem Alternates.right_of_inside (h : Alternates true (x :: p1)) : x.isLeft = false := h.1

/-- Inside a region the next endpoint is a right one, so at a cut already reached there is none. -/
theorem cut_lt_of_inside (h : Alternates true p1) (s1 : Ordered p1) (hlt : ∀ y ∈ p1, x.key < y.key) :
    ∀ y ∈ p1, x.cut < y.cut := by
  cases p1 with
  | nil => exact nofun
  | cons e p1 =>
    have he : x.cut < e.cut := cut_lt_of_right (hlt e mem_cons_self) fun hno => by
      rw [h.right_of_inside] at hno
      cases hno.2
    have hrest := (pairwise_cons.mp s1).1
    exact forall_mem_cons.mpr ⟨he, fun y hy => he.trans_le (hrest y hy)⟩

omit [LinearOrder α] in
theorem insideAt_eq_false [LinearOrder α] {c : α ×ₗ ℕ} (h : ∀ y ∈ p1, c ≤ y.cut) :
    insideAt c p1 = false := by
  induction p1 with
  | nil => rfl
  | cons e p1 ih =>
    obtain ⟨he, h⟩ := forall_mem_cons.mp h
    rw [insideAt, decide_eq_false (not_lt.mpr he), ih h]
    rfl

/-- What has been put out comes from the first list as it was, or from the second flipped, and only
once the first region has begun. -/
structure Subtracting (b1 : Bool) (p1 p2 out : List (Endpoint α)) : Prop where
  ascends : Ascends out
  source : ∀ e ∈ out, e ∈ p1 ∨ ∃ y ∈ p2, e = y.flip
  begun : b1 = false → ∀ e ∈ out, ∃ z ∈ p1, z.key ≤ e.key

theorem Subtracting.cut_lt (h : Subtracting b1 p1 p2 out) (h₁ : ∀ y ∈ p1, x.cut < y.cut)
    (h₂ : ∀ y ∈ p2, x.cut < y.cut) : ∀ e ∈ out, x.cut < e.cut := by
  intro e he
  rcases h.source e he with he | ⟨y, hy, rfl⟩
  · exact h₁ e he
  · rw [cut_flip]
    exact h₂ y hy

theorem ClearFrom.mono {p2' : List (Endpoint α)} (h : ClearFrom b p1 p2) (hsub : p2' ⊆ p2) :
    ClearFrom b p1 p2' :=
  fun y hy z hz => h y (hsub hy) z (hsub hz)

theorem subtracting_first (h1 : Alternates b1 (x :: p1)) (s1 : Ascends (x :: p1))
    (hlt : ∀ y ∈ p2, x.key < y.key) (hout : Subtracting (!b1) p1 p2 out) :
    Subtracting b1 (x :: p1) p2
      ((if b1 then subtractVisit.right1 x false b2 else subtractVisit.left1 x false b2).toList ++
        out) := by
  have hx := (pairwise_cons.mp s1).1
  have hleft (hb : b1 = false) (y : Endpoint α) (hy : y ∈ p2) : x.key < y.flip.key := by
    refine key_lt_of_cut_lt ?_
    rw [cut_flip]
    refine cut_lt_of_right (hlt y hy) fun hno => ?_
    rw [h1.1, hb] at hno
    cases hno.1
  have hkey : ∀ e ∈ out, x.key < e.key := by
    intro e he
    rcases hout.source e he with he₁ | ⟨y, hy, rfl⟩
    · exact hx e he₁
    · cases hb : b1 with
      | false => exact hleft hb y hy
      | true =>
        obtain ⟨z, hz, hle⟩ := hout.begun (by rw [hb]; rfl) y.flip he
        exact (hx z hz).trans_le hle
  have hemit : ∀ e ∈ (if b1 then subtractVisit.right1 x false b2
      else subtractVisit.left1 x false b2), e = x := by
    cases b1 <;> cases b2 <;> simp [subtractVisit]
  generalize (if b1 then subtractVisit.right1 x false b2 else subtractVisit.left1 x false b2) = o
    at hemit
  refine ⟨?_, fun e he => ?_, fun hb e he => ⟨x, mem_cons_self, ?_⟩⟩
  · cases o with
    | none => exact hout.ascends
    | some e =>
      obtain rfl := hemit e rfl
      exact pairwise_cons.mpr ⟨hkey, hout.ascends⟩
  · rcases mem_append.mp he with he | he
    · rw [hemit e (Option.mem_toList.mp he)]
      exact .inl mem_cons_self
    · exact (hout.source e he).imp_left (mem_cons_of_mem x)
  · rcases mem_append.mp he with he | he
    · rw [hemit e (Option.mem_toList.mp he)]
    · exact (hkey e he).le

theorem subtracting_second (hclear : ClearFrom b1 p1 (x :: p2)) (h1 : Alternates b1 p1)
    (s1 : Ascends p1) (s2 : Ascends (x :: p2)) (hlt : ∀ y ∈ p1, x.key < y.key)
    (hout : Subtracting b1 p1 p2 out) :
    Subtracting b1 p1 (x :: p2)
      ((if b2 then subtractVisit.right2 x b1 false else subtractVisit.left2 x b1 false).toList ++
        out) := by
  have hemit : (if b2 then subtractVisit.right2 x b1 false else subtractVisit.left2 x b1 false) =
      if b1 then some x.flip else none := by
    cases b2 <;> rfl
  rw [hemit]
  have hsource : ∀ e ∈ out, e ∈ p1 ∨ ∃ y ∈ x :: p2, e = y.flip := fun e he =>
    (hout.source e he).imp_right fun ⟨y, hy, heq⟩ => ⟨y, mem_cons_of_mem x hy, heq⟩
  cases b1 with
  | false => exact ⟨hout.ascends, hsource, hout.begun⟩
  | true =>
    have hp1 := cut_lt_of_inside h1 s1.ordered hlt
    have hp2 : ∀ y ∈ p2, x.cut < y.cut := by
      intro y hy
      have hkey := (pairwise_cons.mp s2).1 y hy
      refine (cut_le_of_key_le hkey.le).lt_of_ne fun hcut => ?_
      -- the list touches itself at `x`, where the first region has no endpoint
      have htouch : x.isLeft = false ∧ y.isLeft = true := by
        by_contra hno
        exact (cut_lt_of_right hkey hno).ne hcut
      obtain ⟨e, he, hecut⟩ := hclear x mem_cons_self y (mem_cons_of_mem x hy) htouch.1
        htouch.2 hcut (by rw [insideAt_eq_false fun y hy => (hp1 y hy).le]; rfl)
      exact (hp1 e he).ne hecut.symm
    refine ⟨pairwise_cons.mpr ⟨fun e he => ?_, hout.ascends⟩, fun e he => ?_, nofun⟩
    · refine key_lt_of_cut_lt ?_
      rw [cut_flip]
      exact hout.cut_lt hp1 hp2 e he
    · rcases mem_cons.mp he with rfl | he
      · exact .inr ⟨x, mem_cons_self, rfl⟩
      · exact hsource e he

theorem subtracting_both (h1 : Alternates b (x :: p1)) (s1 : Ascends (x :: p1))
    (s2 : Ascends (x :: p2)) (hout : Subtracting (!b) p1 p2 out) :
    Subtracting b (x :: p1) (x :: p2)
      ((if b then subtractVisit.rightBoth x false false
        else subtractVisit.leftBoth x false false).toList ++ out) := by
  have hemit : (if b then subtractVisit.rightBoth x false false
      else subtractVisit.leftBoth x false false) = none := by
    cases b <;> rfl
  rw [hemit]
  refine ⟨hout.ascends, fun e he => ?_, fun hb e he => ⟨x, mem_cons_self, ?_⟩⟩
  · exact (hout.source e he).imp (mem_cons_of_mem x)
      fun ⟨y, hy, heq⟩ => ⟨y, mem_cons_of_mem x hy, heq⟩
  · rcases hout.source e he with he | ⟨y, hy, rfl⟩
    · exact ((pairwise_cons.mp s1).1 e he).le
    · refine (key_lt_of_cut_lt ?_).le
      rw [cut_flip]
      refine cut_lt_of_right ((pairwise_cons.mp s2).1 y hy) fun hno => ?_
      rw [h1.1, hb] at hno
      cases hno.1

/-- The difference ascends where the second region does not touch itself inside the first. -/
theorem combine_subtract_ascends (h1 : Alternates b1 p1) (h2 : Alternates b2 p2) (s1 : Ascends p1)
    (s2 : Ascends p2) (hclear : ClearFrom b1 p1 p2) :
    Ascends (combine subtractVisit b1.toInt b2.toInt p1 p2) := by
  refine (combine_sweep (S := fun x y => x.key < y.key) (T := fun x y => x.key < y.key) id id
    lt_trans (motive := fun b1 _ p1 p2 out => ClearFrom b1 p1 p2 → Subtracting b1 p1 p2 out)
    (fun _ => ⟨.nil, nofun, nofun⟩) ?_ h1 h2 s1 s2 hclear).ascends
  intro x b1 b2 c1 c2 q1 q2 p1 p2 o out hvisit h1 _ s1 s2 hlt ih hclear
  obtain ⟨hlt₁, hlt₂⟩ := forall_mem_append.mp hlt
  cases hvisit with
  | first => exact subtracting_first h1 s1 hlt₂ (ih (hclear.tail_first hlt₂))
  | second =>
    exact subtracting_second hclear h1 s1 s2 hlt₁ (ih (hclear.mono (subset_cons_self _ _)))
  | both =>
    exact subtracting_both h1 s1 s2 (ih ((hclear.mono (subset_cons_self _ _)).tail_first hlt₂))

end

/-- Two regions act as sets of points, and so do their comparisons. -/
structure IntervalSets (p q : Intervals α) : Prop where
  ascends : Ascends p.points ∧ Ascends q.points
  alternates : Alternates false p.points ∧ Alternates false q.points
  union : ∀ x, contains (union p q) x = (contains p x || contains q x)
  intersect : ∀ x, contains (IRegion.intersect p q) x = (contains p x && contains q x)
  subtract : ∀ x, contains (IRegion.subtract p q) x = (contains p x && !contains q x)
  includes : IRegion.compareTo p q = .includes → ∀ x, contains q x = true → contains p x = true
  disjoint : IRegion.compareTo p q = .disjoint → ∀ x, contains q x = true → contains p x = false

theorem Built.ascends {p : Intervals α} (h : Built (fun _ _ => True) Clear p) :
    Ascends p.points := by
  induction h with
  | closed h =>
    refine pairwise_pair.mpr ?_
    rw [key, key, Prod.Lex.toLex_lt_toLex]
    exact h.lt_or_eq.imp_right fun heq => ⟨heq, by simp [EndpointSort.rank]⟩
  | union hr hs _ ihr ihs =>
    exact combine_ascends emitsItself_union hr.formed.alternates hs.formed.alternates ihr ihs
  | intersect hr hs ihr ihs =>
    exact combine_ascends emitsItself_intersect hr.formed.alternates hs.formed.alternates ihr ihs
  | subtract hr hs hclear ihr ihs =>
    exact combine_subtract_ascends hr.formed.alternates hs.formed.alternates ihr ihs hclear

/-- Regions made of closed intervals, where no region subtracted touches itself strictly inside the
other, are sorted lists that act as sets. -/
theorem built_intervalSets {p q : Intervals α} (hp : Built (fun _ _ => True) Clear p)
    (hq : Built (fun _ _ => True) Clear q) : IntervalSets p q where
  ascends := ⟨hp.ascends, hq.ascends⟩
  alternates := ⟨hp.formed.alternates, hq.formed.alternates⟩
  union := hp.formed.contains_union hq.formed
  intersect := hp.formed.contains_intersect hq.formed
  subtract := hp.formed.contains_subtract hq.formed
  includes := hp.formed.includes hq.formed
  disjoint := hp.formed.disjoint hq.formed

/-- A closed interval without its end, and an interval in one piece. -/
theorem built_intervalSets_halfOpen :
    IntervalSets (IRegion.subtract (closed 1 2) (closed 2 2) : Intervals ℕ) (closed 2 3) :=
  built_intervalSets
    (.subtract (.closed (by decide)) (.closed (by decide)) (by unfold Clear ClearFrom; decide))
    (.closed (by decide))

/-- `[0, 5]` without the union of `[1, 2)` and `[2, 3]`, which touches itself at `2`. -/
theorem subtract_disorders :
    ¬ ∀ p q : Intervals ℕ, Built (fun _ _ => True) (fun _ _ => True) p →
      Built (fun _ _ => True) (fun _ _ => True) q → IntervalSets p q := by
  intro h
  have hhalf : Built (fun _ _ => True) (fun _ _ => True)
      (IRegion.subtract (closed 1 2) (closed 2 2) : Intervals ℕ) :=
    .subtract (.closed (by decide)) (.closed (by decide)) trivial
  have hrest := Built.subtract (.closed (show 0 ≤ 5 by decide))
    (hhalf.union (.closed (show 2 ≤ 3 by decide)) trivial) trivial
  have hsorted := (h _ _ hrest hrest).ascends.1
  revert hsorted
  unfold Ascends
  decide +kernel

/-! ### Lists without touching endpoints -/

section
variable {v : Visit α (Endpoint α)} {φ : Bool → Bool → Bool} {b b1 b2 : Bool} {x : Endpoint α}
  {p1 p2 out : List (Endpoint α)}

theorem Emitted.separated {s s' : Bool} {o : Option (Endpoint α)} (h : Emitted x s s' o)
    (hlt : ∀ e ∈ out, x.cut < e.cut) (hout : Separated out) : Separated (o.toList ++ out) := by
  refine pairwise_append.mpr ⟨?_, hout, fun e he e' he' => ?_⟩
  · cases o with
    | none => exact .nil
    | some e => exact pairwise_singleton _ e
  · rw [(h.cut_eq he).1]
    exact hlt e' he'

theorem cut_lt_of_left (hx : x.isLeft = true) (hlt : ∀ y ∈ p2, x.key < y.key) :
    ∀ y ∈ p2, x.cut < y.cut :=
  fun y hy => cut_lt_of_key_lt (hlt y hy) (.inr hx)

/-- Where the sweep is inside a region after an endpoint, all that are to come cut later. -/
theorem Visits.cut_lt {v : Visit α β} {c1 c2 : Bool} {q1 q2 : List (Endpoint α)} {o : Option β}
    (h : Visits v x b1 b2 c1 c2 q1 q2 p1 p2 o) (h1 : Alternates b1 q1) (h2 : Alternates b2 q2)
    (s1 : Separated q1) (s2 : Separated q2) (hlt : ∀ y ∈ p1 ++ p2, x.key < y.key)
    (hin : c1 = true ∨ c2 = true) : ∀ y ∈ p1 ++ p2, x.cut < y.cut := by
  obtain ⟨hlt₁, hlt₂⟩ := forall_mem_append.mp hlt
  cases h with
  | first hx =>
    refine forall_mem_append.mpr ⟨(pairwise_cons.mp s1).1, ?_⟩
    cases b2 with
    | true => exact cut_lt_of_inside h2 s2.ascends.ordered hlt₂
    | false => exact cut_lt_of_left (hx.trans (hin.resolve_right nofun)) hlt₂
  | second hx =>
    refine forall_mem_append.mpr ⟨?_, (pairwise_cons.mp s2).1⟩
    cases b1 with
    | true => exact cut_lt_of_inside h1 s1.ascends.ordered hlt₁
    | false => exact cut_lt_of_left (hx.trans (hin.resolve_left nofun)) hlt₁
  | both =>
    exact forall_mem_append.mpr ⟨(pairwise_cons.mp s1).1, (pairwise_cons.mp s2).1⟩

/-- What has been put out is separated, has the cuts of the lists, and begins no earlier than the
first region. -/
structure Separating (b1 : Bool) (p1 p2 out : List (Endpoint α)) : Prop where
  separated : Separated out
  cuts : ∀ e ∈ out, ∃ y ∈ p1 ++ p2, e.cut = y.cut
  begun : b1 = false → ∀ e ∈ out, ∃ z ∈ p1, z.cut ≤ e.cut

theorem Separating.cut_lt (h : Separating b1 p1 p2 out) (h₁ : ∀ y ∈ p1, x.cut < y.cut)
    (h₂ : ∀ y ∈ p2, x.cut < y.cut) : ∀ e ∈ out, x.cut < e.cut := by
  intro e he
  obtain ⟨y, hy, hcut⟩ := h.cuts e he
  rw [hcut]
  exact (mem_append.mp hy).elim (h₁ y) (h₂ y)

theorem separating_first (hv : Emits v φ) (h1 : Alternates b1 (x :: p1))
    (s1 : Separated (x :: p1)) (hlt : ∀ y ∈ p2, x.key < y.key)
    (hout : Separating (!b1) p1 p2 out) : Separating b1 (x :: p1) p2
      ((if b1 then v.right1 x false b2 else v.left1 x false b2).toList ++ out) := by
  have hx := (pairwise_cons.mp s1).1
  have hcut : ∀ e ∈ out, x.cut < e.cut := by
    cases b1 with
    | false => exact hout.cut_lt hx (cut_lt_of_left h1.1 hlt)
    | true =>
      intro e he
      obtain ⟨z, hz, hle⟩ := hout.begun rfl e he
      exact (hx z hz).trans_le hle
  have hemit := @Emits.first _ _ _ hv x b1 b2 h1.1
  refine ⟨hemit.separated hcut hout.separated, fun e => ?_, fun _ e he => ?_⟩
  · exact mem_of_emitted hemit mem_cons_self (subset_cons_self x _) hout.cuts
  · refine ⟨x, mem_cons_self, ?_⟩
    rcases mem_append.mp he with he | he
    · exact (hemit.cut_eq he).1.ge
    · exact (hcut e he).le

/-- Outside the first region, endpoints of the second put nothing out. -/
theorem separating_second (hv : Emits v φ) (hφ : ∀ b, φ false b = false) (h1 : Alternates b1 p1)
    (h2 : Alternates b2 (x :: p2)) (s1 : Separated p1) (s2 : Separated (x :: p2))
    (hlt : ∀ y ∈ p1, x.key < y.key) (hout : Separating b1 p1 p2 out) : Separating b1 p1 (x :: p2)
      ((if b2 then v.right2 x b1 false else v.left2 x b1 false).toList ++ out) := by
  have hemit := @Emits.second _ _ _ hv x b1 b2 h2.1
  have hcuts := fun e => mem_of_emitted (e := e) hemit (mem_append_right p1 mem_cons_self)
    (append_subset.mpr ⟨subset_append_left _ _,
      fun y hy => mem_append_right _ (mem_cons_of_mem x hy)⟩) hout.cuts
  cases b1 with
  | false =>
    have hnone : (if b2 then v.right2 x false false else v.left2 x false false) = none := by
      rw [Emitted, hφ, hφ, if_pos rfl] at hemit
      exact hemit
    rw [hnone] at hcuts ⊢
    exact ⟨hout.separated, hcuts, hout.begun⟩
  | true =>
    have hcut := hout.cut_lt (cut_lt_of_inside h1 s1.ascends.ordered hlt) (pairwise_cons.mp s2).1
    exact ⟨hemit.separated hcut hout.separated, hcuts, fun h => by cases h⟩

theorem separating_both (hv : Emits v φ) (h1 : Alternates b (x :: p1)) (s1 : Separated (x :: p1))
    (s2 : Separated (x :: p2)) (hout : Separating (!b) p1 p2 out) :
    Separating b (x :: p1) (x :: p2)
      ((if b then v.rightBoth x false false else v.leftBoth x false false).toList ++ out) := by
  have hemit := hv.both h1.1
  have hcut := hout.cut_lt (pairwise_cons.mp s1).1 (pairwise_cons.mp s2).1
  refine ⟨hemit.separated hcut hout.separated, fun e => ?_, fun _ e he => ?_⟩
  · exact mem_of_emitted hemit mem_cons_self
      (append_subset.mpr ⟨fun y hy => mem_cons_of_mem x (mem_append_left _ hy),
        fun y hy => mem_cons_of_mem x (mem_append_right _ (mem_cons_of_mem x hy))⟩) hout.cuts
  · refine ⟨x, mem_cons_self, ?_⟩
    rcases mem_append.mp he with he | he
    · exact (hemit.cut_eq he).1.ge
    · exact (hcut e he).le

theorem sweep_separated {v : Visit α β}
    {motive : Bool → Bool → List (Endpoint α) → List (Endpoint α) → List β → Prop}
    (nil : motive false false [] [] [])
    (visit : ∀ {x : Endpoint α} {b1 b2 c1 c2 : Bool} {q1 q2 p1 p2 : List (Endpoint α)}
      {o : Option β} {out : List β}, Visits v x b1 b2 c1 c2 q1 q2 p1 p2 o → Alternates b1 q1 →
      Alternates b2 q2 → Separated q1 → Separated q2 → (∀ y ∈ p1 ++ p2, x.key < y.key) →
      motive c1 c2 p1 p2 out → motive b1 b2 q1 q2 (o.toList ++ out))
    (h1 : Alternates b1 p1) (h2 : Alternates b2 p2) (s1 : Separated p1) (s2 : Separated p2) :
    motive b1 b2 p1 p2 (combine v b1.toInt b2.toInt p1 p2) :=
  combine_sweep key_lt_of_cut_lt id (fun h h' => h.trans (key_lt_of_cut_lt h')) nil
    visit h1 h2 s1 s2

/-- Operations whose result lies in the first region keep lists separated. -/
theorem combine_separated (hv : Emits v φ) (hφ : ∀ b, φ false b = false) (h1 : Alternates b1 p1)
    (h2 : Alternates b2 p2) (s1 : Separated p1) (s2 : Separated p2) :
    Separated (combine v b1.toInt b2.toInt p1 p2) := by
  refine (sweep_separated (motive := fun b1 _ p1 p2 out => Separating b1 p1 p2 out)
    ⟨.nil, nofun, nofun⟩ ?_ h1 h2 s1 s2).separated
  intro x b1 b2 c1 c2 q1 q2 p1 p2 o out hvisit h1 h2 s1 s2 hlt ih
  obtain ⟨hlt₁, hlt₂⟩ := forall_mem_append.mp hlt
  cases hvisit with
  | first => exact separating_first hv h1 s1 hlt₂ ih
  | second => exact separating_second hv hφ h1 h2 s1 s2 hlt₁ ih
  | both => exact separating_both hv h1 s1 s2 ih

/-- No endpoint of one list stands where one of the other side of the other list does. -/
def ApartLists (p1 p2 : List (Endpoint α)) : Prop :=
  ∀ x ∈ p1, ∀ y ∈ p2, x.cut = y.cut → x.isLeft = y.isLeft

/-- The two regions do not touch: nowhere does one end where the other begins. -/
def Apart (r s : Intervals α) : Prop := ApartLists r.points s.points

/-- Endpoints of one side at one cut are equal. -/
theorem cut_lt_of_apart {y : Endpoint α} (h : x.key < y.key)
    (happart : x.cut = y.cut → x.isLeft = y.isLeft) : x.cut < y.cut := by
  refine (cut_le_of_key_le h.le).lt_of_ne fun hcut => ?_
  refine (cut_lt_of_right h fun hno => ?_).ne hcut
  have := happart hcut
  simp_all

/-- The union of two regions that do not touch each other is separated. -/
theorem combine_union_separated (h1 : Alternates b1 p1) (h2 : Alternates b2 p2)
    (s1 : Separated p1) (s2 : Separated p2) (happart : ApartLists p1 p2) :
    Separated (combine unionVisit b1.toInt b2.toInt p1 p2) := by
  refine (sweep_separated (motive := fun _ _ p1 p2 out => ApartLists p1 p2 → Separated out ∧
    ∀ e ∈ out, ∃ y ∈ p1 ++ p2, e.cut = y.cut) (fun _ => ⟨.nil, nofun⟩) ?_ h1 h2 s1 s2 happart).1
  intro x b1 b2 c1 c2 q1 q2 p1 p2 o out hvisit _ _ s1 s2 hlt ih happart
  obtain ⟨hlt₁, hlt₂⟩ := forall_mem_append.mp hlt
  obtain ⟨hsep, hcuts⟩ := ih fun y hy z hz =>
    happart y (hvisit.subsets.1 hy) z (hvisit.subsets.2 hz)
  have hcut : ∀ y ∈ p1 ++ p2, x.cut < y.cut := by
    refine forall_mem_append.mpr ?_
    cases hvisit with
    | first =>
      exact ⟨(pairwise_cons.mp s1).1, fun y hy =>
        cut_lt_of_apart (hlt₂ y hy) (happart x mem_cons_self y hy)⟩
    | second =>
      exact ⟨fun y hy => cut_lt_of_apart (hlt₁ y hy) fun hcut =>
        (happart y hy x mem_cons_self hcut.symm).symm, (pairwise_cons.mp s2).1⟩
    | both => exact ⟨(pairwise_cons.mp s1).1, (pairwise_cons.mp s2).1⟩
  have hemit := emits_union.emitted hvisit
  refine ⟨hemit.separated (fun e he => ?_) hsep, fun e =>
    mem_of_emitted hemit hvisit.mem hvisit.subset hcuts⟩
  obtain ⟨y, hy, heq⟩ := hcuts e he
  exact heq ▸ hcut y hy

end

/-! ### Comparison over a dense order -/

section
variable [DenselyOrdered α] {b1 b2 : Bool} {x y : Endpoint α} {p1 p2 l : List (Endpoint α)}

/-- A point lies between two endpoints at different cuts. -/
theorem exists_between_cuts (h : x.cut < y.cut) :
    ∃ p, passed p x = true ∧ passed p y = false := by
  have hx := x.sort.rank_eq
  have hside : ∀ e : Endpoint α, e.sort.rank / 2 ≤ 1 := fun e => by cases e.sort <;> decide
  simp only [← Bool.not_eq_true, passed_iff_cut, not_lt]
  simp only [cut, Prod.Lex.toLex_lt_toLex, Prod.Lex.toLex_le_toLex] at h ⊢
  rcases h with h | ⟨he, h⟩
  · obtain ⟨p, hxp, hpy⟩ := exists_between h
    exact ⟨p, .inl hxp, .inl hpy⟩
  · have := hside y
    exact ⟨x.elem, .inr ⟨rfl, by omega⟩, .inr ⟨he, by omega⟩⟩

/-- A point lies right after an endpoint and before all that cut later. -/
theorem exists_point_after (hne : l ≠ []) (hlt : ∀ y ∈ l, x.cut < y.cut) :
    ∃ p, passed p x = true ∧ ∀ y ∈ l, passed p y = false := by
  obtain ⟨y, hy, hmin⟩ := Finset.exists_min_image l.toFinset cut (by simpa using hne)
  obtain ⟨p, hx, hy⟩ := exists_between_cuts (hlt y (mem_toFinset.mp hy))
  refine ⟨p, hx, fun z hz => ?_⟩
  by_contra hpass
  rw [passed_mono (hmin z (mem_toFinset.mpr hz)) (by simpa using hpass)] at hy
  cases hy

omit [LinearOrder α] [DenselyOrdered α] in
theorem Alternates.ne_nil (h : Alternates true l) : l ≠ [] := by
  rintro rfl
  cases h

/-- Right after an endpoint membership is what the sweep says, if one of the regions has a later
endpoint. -/
theorem exists_after (h1 : Alternates b1 p1) (h2 : Alternates b2 p2) (hin : b1 = true ∨ b2 = true)
    (hlt₁ : ∀ y ∈ p1, x.cut < y.cut) (hlt₂ : ∀ y ∈ p2, x.cut < y.cut) :
    ∃ p, passed p x = true ∧ inside p p1 = false ∧ inside p p2 = false := by
  have hne : p1 ++ p2 ≠ [] := by
    intro hnil
    obtain ⟨rfl, rfl⟩ := append_eq_nil_iff.mp hnil
    rcases hin with rfl | rfl
    · exact h1.ne_nil rfl
    · exact h2.ne_nil rfl
  obtain ⟨p, hx, hnone⟩ := exists_point_after hne (forall_mem_append.mpr ⟨hlt₁, hlt₂⟩)
  obtain ⟨hn₁, hn₂⟩ := forall_mem_append.mp hnone
  exact ⟨p, hx, inside_eq_false hn₁, inside_eq_false hn₂⟩

/-- A flag is down only where a pair of memberships comes up or was before, and there a point has
that pair. -/
theorem compare_complete {flag : Bool × Bool → Bool} (bad : Bool → Bool → Bool)
    (hflag : ∀ {x : Endpoint α} {b1 b2 c1 c2 : Bool} {q1 q2 p1 p2 : List (Endpoint α)}
      {o : Option (Bool × Bool)}, Visits compareVisit x b1 b2 c1 c2 q1 q2 p1 p2 o →
      o.toList.all flag = true ∨ bad b1 b2 = true ∨ bad c1 c2 = true)
    (hin : ∀ {b1 b2}, bad b1 b2 = true → b1 = true ∨ b2 = true)
    (h1 : Alternates b1 p1) (h2 : Alternates b2 p2) (s1 : Separated p1) (s2 : Separated p2) :
    (combine compareVisit b1.toInt b2.toInt p1 p2).all flag = false →
      bad b1 b2 = true ∨ ∃ p, bad (b1 ^^ inside p p1) (b2 ^^ inside p p2) = true := by
  refine sweep_separated (motive := fun b1 b2 p1 p2 out => out.all flag = false →
    bad b1 b2 = true ∨ ∃ p, bad (b1 ^^ inside p p1) (b2 ^^ inside p p2) = true) nofun ?_ h1 h2 s1 s2
  intro x b1 b2 c1 c2 q1 q2 p1 p2 o out hvisit h1 h2 s1 s2 hlt ih hall
  have hafter : bad c1 c2 = true →
      ∃ p, bad (b1 ^^ inside p q1) (b2 ^^ inside p q2) = true := by
    intro hbad
    have hcut := forall_mem_append.mp (hvisit.cut_lt h1 h2 s1 s2 hlt (hin hbad))
    obtain ⟨h1', h2'⟩ := hvisit.alternates h1 h2
    obtain ⟨p, hp, hn₁, hn₂⟩ := exists_after h1' h2' (hin hbad) hcut.1 hcut.2
    refine ⟨p, ?_⟩
    rw [(hvisit.passed hp).1, (hvisit.passed hp).2, hn₁, hn₂, Bool.xor_false, Bool.xor_false, hbad]
  rcases hflag hvisit with hflag | hbad | hbad
  · rw [all_append, hflag, Bool.true_and] at hall
    rcases ih hall with hbad | ⟨p, hbad⟩
    · exact .inr (hafter hbad)
    · cases hp : passed p x with
      | true =>
        rw [← (hvisit.passed hp).1, ← (hvisit.passed hp).2] at hbad
        exact .inr ⟨p, hbad⟩
      | false =>
        -- the point lies before all that is to come, so the pair comes up at the endpoint
        have hle : ∀ y ∈ p1 ++ p2, x.cut ≤ y.cut := fun y hy => cut_le_of_key_le (hlt y hy).le
        obtain ⟨-, -, hn₁, hn₂⟩ := hvisit.not_passed hle hp
        rw [hn₁, hn₂, Bool.xor_false, Bool.xor_false] at hbad
        exact .inr (hafter hbad)
  · exact .inl hbad
  · exact .inr (hafter hbad)

end

/-! ### Exact regions -/

/-- The endpoints take turns and no two cut at one place. -/
structure Canonical (r : Intervals α) : Prop where
  alternates : Alternates false r.points
  separated : Separated r.points

section
variable {r s : Intervals α}

theorem Canonical.formed (h : Canonical r) : Formed r := ⟨h.alternates, h.separated.ascends.ordered⟩

theorem canonical_closed {x y : α} (h : x ≤ y) : Canonical (closed x y) := by
  refine ⟨⟨rfl, rfl, rfl⟩, pairwise_pair.mpr ?_⟩
  rw [cut, cut, Prod.Lex.toLex_lt_toLex]
  exact h.lt_or_eq.imp_right fun heq => ⟨heq, by simp [EndpointSort.rank]⟩

theorem Canonical.union (hr : Canonical r) (hs : Canonical s) (h : Apart r s) :
    Canonical (union r s) :=
  ⟨(hr.formed.combine emits_union hs.formed).alternates,
    combine_union_separated hr.alternates hs.alternates hr.separated hs.separated h⟩

theorem Canonical.intersect (hr : Canonical r) (hs : Canonical s) :
    Canonical (IRegion.intersect r s) :=
  ⟨(hr.formed.combine emits_intersect hs.formed).alternates, combine_separated emits_intersect
    (fun _ => rfl) hr.alternates hs.alternates hr.separated hs.separated⟩

theorem Canonical.subtract (hr : Canonical r) (hs : Canonical s) :
    Canonical (IRegion.subtract r s) :=
  ⟨(hr.formed.combine emits_subtract hs.formed).alternates, combine_separated emits_subtract
    (fun _ => rfl) hr.alternates hs.alternates hr.separated hs.separated⟩

theorem Built.canonical {subtracts : Intervals α → Intervals α → Prop}
    (h : Built Apart subtracts r) : Canonical r := by
  induction h with
  | closed h => exact canonical_closed h
  | union _ _ happart ihr ihs => exact ihr.union ihs happart
  | intersect _ _ ihr ihs => exact ihr.intersect ihs
  | subtract _ _ _ ihr ihs => exact ihr.subtract ihs

variable [DenselyOrdered α]

theorem Canonical.not_subset (hr : Canonical r) (hs : Canonical s)
    (h : IRegion.compareTo r s ≠ .includes) : ∃ p, contains s p = true ∧ contains r p = false := by
  have hall : (combine compareVisit 0 0 r.points s.points).all Prod.fst = false := by
    by_contra hall
    have hall : (combine compareVisit 0 0 r.points s.points).all Prod.fst = true := by
      simpa using hall
    exact h (by simp only [IRegion.compareTo, hall, if_true])
  obtain ⟨p, hp⟩ := (compare_complete (fun b1 b2 => b2 && !b1) (fun {_ b1 b2 _ _ _ _ _ _ _} hvisit =>
    by cases b1 <;> cases b2 <;> cases hvisit <;> simp [compareVisit]) (by simp) hr.alternates
    hs.alternates hr.separated hs.separated hall).resolve_left nofun
  rw [Bool.false_xor, Bool.false_xor, Bool.and_eq_true, Bool.not_eq_true'] at hp
  exact ⟨p, (hs.formed.contains_eq p).trans hp.1, (hr.formed.contains_eq p).trans hp.2⟩

theorem Canonical.not_disjoint (hr : Canonical r) (hs : Canonical s)
    (h : IRegion.compareTo r s = .intersects) : ∃ p, contains s p = true ∧ contains r p = true := by
  have hall : (combine compareVisit 0 0 r.points s.points).all Prod.snd = false := by
    by_contra hall
    have hall : (combine compareVisit 0 0 r.points s.points).all Prod.snd = true := by
      simpa using hall
    simp only [IRegion.compareTo, hall, if_true] at h
    split at h <;> cases h
  obtain ⟨p, hp⟩ := (compare_complete (fun b1 b2 => b2 && b1) (fun {_ b1 b2 _ _ _ _ _ _ _} hvisit =>
    by cases b1 <;> cases b2 <;> cases hvisit <;> simp [compareVisit]) (by simp) hr.alternates
    hs.alternates hr.separated hs.separated hall).resolve_left nofun
  rw [Bool.false_xor, Bool.false_xor, Bool.and_eq_true] at hp
  exact ⟨p, (hs.formed.contains_eq p).trans hp.1, (hr.formed.contains_eq p).trans hp.2⟩

/-- A region with an endpoint has a point. -/
theorem Canonical.isEmpty_iff (h : Canonical r) :
    IRegion.isEmpty r = true ↔ ∀ p, contains r p = false := by
  obtain ⟨points⟩ := r
  rw [show IRegion.isEmpty (⟨points⟩ : Intervals α) = points.isEmpty from rfl, List.isEmpty_iff]
  constructor
  · rintro rfl p
    rfl
  · intro hnone
    match points, h with
    | [], _ => rfl
    | [x], h => cases h.alternates.2
    | x :: y :: l, h =>
      obtain ⟨p, hpx, hpy⟩ := exists_between_cuts ((pairwise_cons.mp h.separated).1 y mem_cons_self)
      have hp := hnone p
      rw [contains, within, hpx, hpy] at hp
      cases hp

/-- Over a dense order, regions whose intervals do not touch are exact. -/
theorem canonical_exactOn : ExactOn (contains : Intervals α → α → Bool) Canonical where
  isEmpty_iff h := h.isEmpty_iff
  valid_intersect hr hs := hr.intersect hs
  valid_subtract hr hs := hr.subtract hs
  contains_intersect hr hs := hr.formed.contains_intersect hs.formed
  contains_subtract hr hs _ := hr.formed.contains_subtract hs.formed
  includes hr hs := hr.formed.includes hs.formed
  disjoint hr hs := hr.formed.disjoint hs.formed
  intersects hr hs h := ⟨hr.not_disjoint hs h, hr.not_subset hs (by rw [h]; exact nofun)⟩

/-- The comparison tells inclusion and disjointness of the sets of points. -/
structure ComparesSets (p q : Intervals α) : Prop where
  includes_iff : IRegion.compareTo p q = .includes ↔ ∀ x, contains q x = true → contains p x = true
  disjoint_iff : IRegion.compareTo p q ≠ .includes →
    (IRegion.compareTo p q = .disjoint ↔ ∀ x, contains q x = true → contains p x = false)

theorem Canonical.comparesSets (hr : Canonical r) (hs : Canonical s) : ComparesSets r s := by
  refine ⟨⟨hr.formed.includes hs.formed, fun hsub => ?_⟩, fun hnot =>
    ⟨hr.formed.disjoint hs.formed, fun hdisj => ?_⟩⟩
  · by_contra hnot
    obtain ⟨p, hp, hp'⟩ := hr.not_subset hs hnot
    rw [hsub p hp] at hp'
    cases hp'
  · cases hc : IRegion.compareTo r s with
    | includes => exact (hnot hc).elim
    | disjoint => rfl
    | intersects =>
      obtain ⟨p, hp, hp'⟩ := hr.not_disjoint hs hc
      rw [hdisj p hp] at hp'
      cases hp'

/-- Regions made of closed intervals, where no two regions united touch each other, are compared as
sets of points. -/
theorem built_comparesSets {p q : Intervals α} (hp : Built Apart (fun _ _ => True) p)
    (hq : Built Apart (fun _ _ => True) q) : ComparesSets p q :=
  hp.canonical.comparesSets hq.canonical

/-- Two intervals with a gap between them. -/
theorem built_comparesSets_gap :
    ComparesSets (union (closed 1 2) (closed 3 4) : Intervals ℚ) (closed 1 2) :=
  built_comparesSets
    (.union (.closed (by decide)) (.closed (by decide))
      (by unfold Apart ApartLists; decide +kernel))
    (.closed (by decide))

/-- The union of `[1, 2)` and `[2, 3]` has the points of `[1, 3]`, and is not found to include
them. -/
theorem union_hides_inclusion :
    ¬ ∀ p q : Intervals ℚ, Built (fun _ _ => True) (fun _ _ => True) p →
      Built (fun _ _ => True) (fun _ _ => True) q → ComparesSets p q := by
  intro h
  have hhalf : Built (fun _ _ => True) (fun _ _ => True)
      (IRegion.subtract (closed 1 2) (closed 2 2) : Intervals ℚ) :=
    .subtract (.closed (by decide)) (.closed (by decide)) trivial
  have hwhole : Built (fun _ _ => True) (fun _ _ => True) (closed 2 3 : Intervals ℚ) :=
    .closed (by decide)
  have hcompare := (h _ _ (hhalf.union hwhole trivial)
    (.closed (show (1 : ℚ) ≤ 3 by decide))).includes_iff.mpr fun x hx => by
      rw [hhalf.formed.contains_union hwhole.formed, (formed_closed (by decide)).contains_subtract
        (formed_closed (by decide)), contains_closed, contains_closed, contains_closed]
      rw [contains_closed] at hx
      by_cases hlt : x < 2
      · simp_all [hlt.le, hlt.not_ge]
      · simp_all
  revert hcompare
  decide +kernel

end

end Intervals

end VSharp
