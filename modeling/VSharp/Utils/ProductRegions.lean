import VSharp.Utils.IntervalForms
import VSharp.Utils.Points

/-!
# Utils — ProductRegions

`VSharp.Utils/Regions.fs`, `productRegion` and `listProductRegion`: lists of rectangles, which may
overlap, and their nesting over the dimensions of an array.

* `Subtracted`: what the subtraction of rectangles, one after the other, keeps; its flag says that
  no rectangle met one of those subtracted;
* `products_exactOn`: products of exact regions are exact, as long as the rectangles of a list are
  all empty or all not (`Uniform`), which `Intersect` and `Subtract` keep;
* `ListProduct A n` has the regions of rank `n`, where the source raises for two ranks that differ;
  at rank `0` a region includes the whole and its difference is not empty, yet no product asks for
  that difference.
-/

namespace VSharp
open List

/-- `productRegion<'a, 'b>`. -/
structure ProductRegion (A B : Type) where
  products : List (A × B)
deriving DecidableEq

namespace CartesianRegions
variable {A B P Q : Type}

section
variable [IRegion A] [IRegion B]

def isEmpty (r : A × B) : Bool := IRegion.isEmpty r.1 || IRegion.isEmpty r.2

/-- `CartesianRegions.intersect`, of two rectangles. -/
def intersectRects (rect1 rect2 : A × B) : List (A × B) :=
  match IRegion.compareTo rect1.1 rect2.1, IRegion.compareTo rect1.2 rect2.2 with
  | .disjoint, _ | _, .disjoint => []
  | .includes, .includes => [rect2]
  | _, _ => [(IRegion.intersect rect1.1 rect2.1, IRegion.intersect rect1.2 rect2.2)]

def intersect (r1 r2 : List (A × B)) : List (A × B) :=
  r1.flatMap fun rect1 => r2.flatMap fun rect2 => intersectRects rect1 rect2

/-- One turn of the loop of `subtractRect`: what is left of a rectangle, and whether it is as it
was. -/
def subtractOne (rect2 rect1 : A × B) : List (A × B) × Bool :=
  match IRegion.compareTo rect2.1 rect1.1, IRegion.compareTo rect2.2 rect1.2 with
  | .disjoint, _ | _, .disjoint => ([rect1], true)
  | c1, c2 =>
    ((if c1 ≠ .includes then [(IRegion.subtract rect1.1 rect2.1, rect1.2)] else []) ++
      (if c2 ≠ .includes then [(rect1.1, IRegion.subtract rect1.2 rect2.2)] else []), false)

/-- `CartesianRegions.subtractRect`, with the flag `unchanged`. -/
def subtractRect (r : List (A × B)) (rect2 : A × B) : List (A × B) × Bool :=
  if isEmpty rect2 then (r, true)
  else ((r.flatMap fun rect1 => (subtractOne rect2 rect1).1).filter (!isEmpty ·),
    r.all fun rect1 => (subtractOne rect2 rect1).2)

def subtract (r1 r2 : List (A × B)) : List (A × B) × Bool :=
  r2.foldl (fun acc rect =>
    let result := subtractRect acc.1 rect
    if result.2 then acc else (result.1, false)) (r1, true)

def compare (r1 r2 : List (A × B)) : RegionComparisonResult :=
  let result := subtract r2 r1
  if result.2 then .disjoint else if result.1.isEmpty then .includes else .intersects

instance : IRegion (ProductRegion A B) where
  isEmpty r := r.products.all isEmpty
  compareTo r s := compare r.products s.products
  subtract r s := ⟨(subtract r.products s.products).1⟩
  intersect r s := ⟨intersect r.products s.products⟩

end

/-! ### The points of rectangles -/

section
variable (cA : A → P → Bool) (cB : B → Q → Bool)

/-- A point of a rectangle. -/
def inRect (rect : A × B) (p : P × Q) : Bool := cA rect.1 p.1 && cB rect.2 p.2

/-- A point of one of the rectangles. -/
def inRects (r : List (A × B)) (p : P × Q) : Bool := r.any (inRect cA cB · p)

variable {cA cB} {r s : List (A × B)} {p : P × Q}

theorem inRects_append : inRects cA cB (r ++ s) p = (inRects cA cB r p || inRects cA cB s p) :=
  any_append

theorem inRects_eq_true : inRects cA cB r p = true ↔ ∃ rect ∈ r, inRect cA cB rect p = true :=
  any_eq_true

theorem inRects_eq_false : inRects cA cB r p = false ↔ ∀ rect ∈ r, inRect cA cB rect p = false := by
  simp [inRects]

end

section
variable [IRegion A] [IRegion B] {cA : A → P → Bool} {cB : B → Q → Bool} {vA : A → Prop}
  {vB : B → Prop}

/-- Both sides of a rectangle are valid. -/
def ValidRect (vA : A → Prop) (vB : B → Prop) (rect : A × B) : Prop := vA rect.1 ∧ vB rect.2

/-- All rectangles are valid, and either all or none is empty. -/
structure Uniform (vA : A → Prop) (vB : B → Prop) (r : List (A × B)) : Prop where
  valid : ∀ rect ∈ r, ValidRect vA vB rect
  uniform : (∀ rect ∈ r, isEmpty rect = true) ∨ ∀ rect ∈ r, isEmpty rect = false

variable (hA : ExactOn cA vA) (hB : ExactOn cB vB) {rect rect1 rect2 : A × B}
variable {r1 r2 r : List (A × B)}

include hA hB

theorem isEmpty_iff (h : ValidRect vA vB rect) :
    isEmpty rect = true ↔ ∀ p, inRect cA cB rect p = false := by
  rw [isEmpty, Bool.or_eq_true, hA.isEmpty_iff h.1, hB.isEmpty_iff h.2]
  constructor
  · rintro (hno | hno) p
    · rw [inRect, hno, Bool.false_and]
    · rw [inRect, hno, Bool.and_false]
  · intro hno
    by_contra hpoints
    push Not at hpoints
    obtain ⟨⟨x, hx⟩, y, hy⟩ := hpoints
    have hxy := hno (x, y)
    simp only [inRect, Bool.and_eq_false_iff] at hxy
    exact hxy.elim hx hy

theorem exists_of_isEmpty_false (h : ValidRect vA vB rect) (hne : isEmpty rect = false) :
    ∃ p, inRect cA cB rect p = true := by
  by_contra hno
  have hempty : isEmpty rect = true := (isEmpty_iff hA hB h).mpr fun p => by
    simpa using not_exists.mp hno p
  rw [hempty] at hne
  cases hne

/-- Two rectangles that are not found disjoint in either component have a common point. -/
theorem exists_common (h₁ : ValidRect vA vB rect1) (h₂ : ValidRect vA vB rect2)
    (hne : isEmpty rect2 = false) (hcA : IRegion.compareTo rect1.1 rect2.1 ≠ .disjoint)
    (hcB : IRegion.compareTo rect1.2 rect2.2 ≠ .disjoint) :
    ∃ p, inRect cA cB rect1 p = true ∧ inRect cA cB rect2 p = true := by
  obtain ⟨hneA, hneB⟩ := Bool.or_eq_false_iff.mp hne
  obtain ⟨x, hx₁, hx₂⟩ := hA.meets h₁.1 h₂.1 hneA hcA
  obtain ⟨y, hy₁, hy₂⟩ := hB.meets h₁.2 h₂.2 hneB hcB
  exact ⟨(x, y), by simp [inRect, *], by simp [inRect, *]⟩

/-! ### Intersection -/

theorem inRects_intersectRects (h₁ : ValidRect vA vB rect1) (h₂ : ValidRect vA vB rect2)
    (p : P × Q) : inRects cA cB (intersectRects rect1 rect2) p =
      (inRect cA cB rect1 p && inRect cA cB rect2 p) := by
  have hdisjA : IRegion.compareTo rect1.1 rect2.1 = .disjoint →
      (inRect cA cB rect1 p && inRect cA cB rect2 p) = false := fun hc => by
    have hno := hA.disjoint h₁.1 h₂.1 hc p.1
    cases hx : cA rect2.1 p.1 <;> simp_all [inRect]
  have hdisjB : IRegion.compareTo rect1.2 rect2.2 = .disjoint →
      (inRect cA cB rect1 p && inRect cA cB rect2 p) = false := fun hc => by
    have hno := hB.disjoint h₁.2 h₂.2 hc p.2
    cases hy : cB rect2.2 p.2 <;> simp_all [inRect]
  unfold intersectRects
  split
  · next hc => rw [hdisjA hc]; rfl
  · next hc _ => rw [hdisjB hc]; rfl
  · next hcA hcB =>
      have hx := hA.includes h₁.1 h₂.1 hcA p.1
      have hy := hB.includes h₁.2 h₂.2 hcB p.2
      simp only [inRects, inRect, any_cons, any_nil, Bool.or_false]
      cases hx₂ : cA rect2.1 p.1 <;> cases hy₂ : cB rect2.2 p.2 <;> simp_all
  · simp only [inRects, inRect, any_cons, any_nil, Bool.or_false,
      hA.contains_intersect h₁.1 h₂.1, hB.contains_intersect h₁.2 h₂.2]
    ac_rfl

omit hA hB in
/-- Two rectangles have one common rectangle at most, and none where a component is disjoint. -/
theorem mem_intersectRects (h : rect ∈ intersectRects rect1 rect2) :
    intersectRects rect1 rect2 = [rect] ∧ IRegion.compareTo rect1.1 rect2.1 ≠ .disjoint ∧
      IRegion.compareTo rect1.2 rect2.2 ≠ .disjoint := by
  unfold intersectRects at h ⊢
  split at h
  · cases h
  · cases h
  · next hcA hcB =>
      obtain rfl := mem_singleton.mp h
      exact ⟨rfl, by simp [hcA], by simp [hcB]⟩
  · next hcA hcB hne =>
      obtain rfl := mem_singleton.mp h
      exact ⟨rfl, hcA, hcB⟩

theorem valid_intersectRects (h₁ : ValidRect vA vB rect1) (h₂ : ValidRect vA vB rect2) :
    ∀ rect ∈ intersectRects rect1 rect2, ValidRect vA vB rect := by
  intro rect h
  unfold intersectRects at h
  split at h
  · cases h
  · cases h
  · obtain rfl := mem_singleton.mp h
    exact h₂
  · obtain rfl := mem_singleton.mp h
    exact ⟨hA.valid_intersect h₁.1 h₂.1, hB.valid_intersect h₁.2 h₂.2⟩

/-- The common rectangle is empty exactly where one of the two is. -/
theorem isEmpty_of_mem_intersectRects (h₁ : ValidRect vA vB rect1) (h₂ : ValidRect vA vB rect2)
    (h : rect ∈ intersectRects rect1 rect2) : isEmpty rect = (isEmpty rect1 || isEmpty rect2) := by
  have hvalid := valid_intersectRects hA hB h₁ h₂ rect h
  obtain ⟨heq, hcA, hcB⟩ := mem_intersectRects h
  have hpoints (p : P × Q) : inRect cA cB rect p =
      (inRect cA cB rect1 p && inRect cA cB rect2 p) := by
    rw [← inRects_intersectRects hA hB h₁ h₂ p, heq]
    simp [inRects]
  rw [Bool.eq_iff_iff, Bool.or_eq_true, isEmpty_iff hA hB hvalid]
  constructor
  · intro hno
    by_contra hne
    push Not at hne
    obtain ⟨p, hp₁, hp₂⟩ := exists_common hA hB h₁ h₂ (by simpa using hne.2) hcA hcB
    have hp := hno p
    rw [hpoints, hp₁, hp₂] at hp
    cases hp
  · rintro (he | he) p
    · rw [hpoints, (isEmpty_iff hA hB h₁).mp he p, Bool.false_and]
    · rw [hpoints, (isEmpty_iff hA hB h₂).mp he p, Bool.and_false]

theorem inRects_intersect (h₁ : ∀ rect ∈ r1, ValidRect vA vB rect)
    (h₂ : ∀ rect ∈ r2, ValidRect vA vB rect) (p : P × Q) :
    inRects cA cB (intersect r1 r2) p = (inRects cA cB r1 p && inRects cA cB r2 p) := by
  rw [Bool.eq_iff_iff, Bool.and_eq_true, inRects_eq_true, inRects_eq_true, inRects_eq_true]
  have hone (rect1 : A × B) (hr₁ : rect1 ∈ r1) (rect2 : A × B) (hr₂ : rect2 ∈ r2) :=
    inRects_intersectRects hA hB (h₁ rect1 hr₁) (h₂ rect2 hr₂) p
  constructor
  · rintro ⟨rect, hrect, hp⟩
    obtain ⟨rect1, hr₁, hrect⟩ := mem_flatMap.mp hrect
    obtain ⟨rect2, hr₂, hrect⟩ := mem_flatMap.mp hrect
    have hboth := (hone rect1 hr₁ rect2 hr₂).symm.trans (inRects_eq_true.mpr ⟨rect, hrect, hp⟩)
    obtain ⟨hp₁, hp₂⟩ := Bool.and_eq_true_iff.mp hboth
    exact ⟨⟨rect1, hr₁, hp₁⟩, rect2, hr₂, hp₂⟩
  · rintro ⟨⟨rect1, hr₁, hp₁⟩, rect2, hr₂, hp₂⟩
    have hboth := hone rect1 hr₁ rect2 hr₂
    rw [hp₁, hp₂, Bool.and_true] at hboth
    obtain ⟨rect, hrect, hp⟩ := inRects_eq_true.mp hboth
    exact ⟨rect, mem_flatMap.mpr ⟨rect1, hr₁, mem_flatMap.mpr ⟨rect2, hr₂, hrect⟩⟩, hp⟩

theorem Uniform.intersect (h₁ : Uniform vA vB r1) (h₂ : Uniform vA vB r2) :
    Uniform vA vB (intersect r1 r2) := by
  have hmem : ∀ rect ∈ CartesianRegions.intersect r1 r2, ∃ rect1 ∈ r1, ∃ rect2 ∈ r2,
      ValidRect vA vB rect ∧ isEmpty rect = (isEmpty rect1 || isEmpty rect2) := by
    intro rect hrect
    obtain ⟨rect1, hr₁, hrect⟩ := mem_flatMap.mp hrect
    obtain ⟨rect2, hr₂, hrect⟩ := mem_flatMap.mp hrect
    have hv₁ := h₁.valid rect1 hr₁
    have hv₂ := h₂.valid rect2 hr₂
    exact ⟨rect1, hr₁, rect2, hr₂, valid_intersectRects hA hB hv₁ hv₂ rect hrect,
      isEmpty_of_mem_intersectRects hA hB hv₁ hv₂ hrect⟩
  constructor
  · intro rect hrect
    obtain ⟨_, _, _, _, hvalid, _⟩ := hmem rect hrect
    exact hvalid
  · rcases h₁.uniform with he₁ | hn₁
    · left
      intro rect hrect
      obtain ⟨rect1, hr₁, _, _, _, hempty⟩ := hmem rect hrect
      rw [hempty, he₁ rect1 hr₁, Bool.true_or]
    · rcases h₂.uniform with he₂ | hn₂
      · left
        intro rect hrect
        obtain ⟨_, _, rect2, hr₂, _, hempty⟩ := hmem rect hrect
        rw [hempty, he₂ rect2 hr₂, Bool.or_true]
      · right
        intro rect hrect
        obtain ⟨rect1, hr₁, rect2, hr₂, _, hempty⟩ := hmem rect hrect
        rw [hempty, hn₁ rect1 hr₁, hn₂ rect2 hr₂, Bool.or_false]

/-! ### Subtraction -/

theorem inRects_subtractOne (h₁ : ValidRect vA vB rect1) (h₂ : ValidRect vA vB rect2)
    (p : P × Q) : inRects cA cB (subtractOne rect2 rect1).1 p =
      (inRect cA cB rect1 p && !inRect cA cB rect2 p) := by
  have hdisjA := hA.disjoint h₂.1 h₁.1
  have hdisjB := hB.disjoint h₂.2 h₁.2
  have hincA := hA.includes h₂.1 h₁.1
  have hincB := hB.includes h₂.2 h₁.2
  have hsubA := hA.contains_subtract h₁.1 h₂.1
  have hsubB := hB.contains_subtract h₁.2 h₂.2
  unfold subtractOne
  split
  · next hc =>
      have hno := hdisjA hc p.1
      simp only [inRects, inRect, any_cons, any_nil, Bool.or_false]
      cases hx : cA rect1.1 p.1 <;> simp_all
  · next hc _ =>
      have hno := hdisjB hc p.2
      simp only [inRects, inRect, any_cons, any_nil, Bool.or_false]
      cases hy : cB rect1.2 p.2 <;> simp_all
  · have hleft : inRects cA cB (if IRegion.compareTo rect2.1 rect1.1 ≠ .includes then
        [(IRegion.subtract rect1.1 rect2.1, rect1.2)] else []) p =
          (cA rect1.1 p.1 && !cA rect2.1 p.1 && cB rect1.2 p.2) := by
      split
      · next hc => simp [inRects, inRect, hsubA hc p.1]
      · next hc =>
          have hx := hincA (not_not.mp hc) p.1
          cases hx₁ : cA rect1.1 p.1 <;> simp_all [inRects]
    have hright : inRects cA cB (if IRegion.compareTo rect2.2 rect1.2 ≠ .includes then
        [(rect1.1, IRegion.subtract rect1.2 rect2.2)] else []) p =
          (cA rect1.1 p.1 && (cB rect1.2 p.2 && !cB rect2.2 p.2)) := by
      split
      · next hc => simp [inRects, inRect, hsubB hc p.2]
      · next hc =>
          have hy := hincB (not_not.mp hc) p.2
          cases hy₁ : cB rect1.2 p.2 <;> simp_all [inRects]
    rw [inRects_append, hleft, hright, inRect, inRect]
    cases cA rect1.1 p.1 <;> cases cA rect2.1 p.1 <;> cases cB rect1.2 p.2 <;> simp

theorem valid_subtractOne (h₁ : ValidRect vA vB rect1) (h₂ : ValidRect vA vB rect2) :
    ∀ rect ∈ (subtractOne rect2 rect1).1, ValidRect vA vB rect := by
  intro rect h
  unfold subtractOne at h
  split at h
  · obtain rfl := mem_singleton.mp h
    exact h₁
  · obtain rfl := mem_singleton.mp h
    exact h₁
  · rcases mem_append.mp h with h | h
    · split at h
      · obtain rfl := mem_singleton.mp h
        exact ⟨hA.valid_subtract h₁.1 h₂.1, h₁.2⟩
      · cases h
    · split at h
      · obtain rfl := mem_singleton.mp h
        exact ⟨h₁.1, hB.valid_subtract h₁.2 h₂.2⟩
      · cases h

omit hA hB in
/-- A rectangle is as it was where a component is disjoint, and only there. -/
theorem subtractOne_flag : (subtractOne rect2 rect1).2 = false →
    IRegion.compareTo rect2.1 rect1.1 ≠ .disjoint ∧
      IRegion.compareTo rect2.2 rect1.2 ≠ .disjoint := by
  unfold subtractOne
  split
  · exact nofun
  · exact nofun
  · next hcA hcB => exact fun _ => ⟨hcA, hcB⟩

omit hA hB in
theorem subtractOne_unchanged : (subtractOne rect2 rect1).2 = true →
    (subtractOne rect2 rect1).1 = [rect1] := by
  unfold subtractOne
  split
  · exact fun _ => rfl
  · exact fun _ => rfl
  · exact nofun

section
variable (h₁ : ∀ rect ∈ r, ValidRect vA vB rect) (h₂ : ValidRect vA vB rect2)

include h₁ h₂

theorem inRects_subtractRect (p : P × Q) :
    inRects cA cB (subtractRect r rect2).1 p = (inRects cA cB r p && !inRect cA cB rect2 p) := by
  unfold subtractRect
  split
  · next hempty => rw [(isEmpty_iff hA hB h₂).mp hempty p, Bool.not_false, Bool.and_true]
  · rw [Bool.eq_iff_iff, Bool.and_eq_true, inRects_eq_true, inRects_eq_true]
    have hone (rect1 : A × B) (hr : rect1 ∈ r) := inRects_subtractOne hA hB (h₁ rect1 hr) h₂ p
    constructor
    · rintro ⟨rect, hrect, hp⟩
      obtain ⟨rect1, hr, hrect⟩ := mem_flatMap.mp (mem_of_mem_filter hrect)
      have hboth := (hone rect1 hr).symm.trans (inRects_eq_true.mpr ⟨rect, hrect, hp⟩)
      obtain ⟨hp₁, hp₂⟩ := Bool.and_eq_true_iff.mp hboth
      exact ⟨⟨rect1, hr, hp₁⟩, hp₂⟩
    · rintro ⟨⟨rect1, hr, hp₁⟩, hp₂⟩
      have hboth := hone rect1 hr
      rw [hp₁, hp₂, Bool.and_true] at hboth
      obtain ⟨rect, hrect, hp⟩ := inRects_eq_true.mp hboth
      refine ⟨rect, mem_filter.mpr ⟨mem_flatMap.mpr ⟨rect1, hr, hrect⟩, ?_⟩, hp⟩
      -- a rectangle with a point is not filtered out
      by_contra hempty
      have hempty : isEmpty rect = true := by simpa using hempty
      have hvalid := valid_subtractOne hA hB (h₁ rect1 hr) h₂ rect hrect
      rw [(isEmpty_iff hA hB hvalid).mp hempty p] at hp
      cases hp

theorem valid_subtractRect : ∀ rect ∈ (subtractRect r rect2).1, ValidRect vA vB rect := by
  intro rect h
  unfold subtractRect at h
  split at h
  · exact h₁ rect h
  · obtain ⟨rect1, hr, hrect⟩ := mem_flatMap.mp (mem_of_mem_filter h)
    exact valid_subtractOne hA hB (h₁ rect1 hr) h₂ rect hrect

end

omit hA hB in
/-- A change means that the rectangle is not empty and meets one of the list, and leaves no empty
rectangle. -/
theorem subtractRect_flag (h : (subtractRect r rect2).2 = false) :
    isEmpty rect2 = false ∧ (∀ rect ∈ (subtractRect r rect2).1, isEmpty rect = false) ∧
      ∃ rect1 ∈ r, IRegion.compareTo rect2.1 rect1.1 ≠ .disjoint ∧
        IRegion.compareTo rect2.2 rect1.2 ≠ .disjoint := by
  unfold subtractRect at h ⊢
  split at h
  · cases h
  · next hempty =>
      rw [if_neg hempty]
      obtain ⟨rect1, hr, hflag⟩ := all_eq_false.mp h
      refine ⟨by simpa using hempty, fun rect hrect => ?_, rect1, hr,
        subtractOne_flag (by simpa using hflag)⟩
      simpa using (mem_filter.mp hrect).2

/-- Without a change the rectangle meets none of the list. -/
theorem disjoint_of_unchanged (h₁ : ∀ rect ∈ r, ValidRect vA vB rect) (h₂ : ValidRect vA vB rect2)
    (h : (subtractRect r rect2).2 = true) {p : P × Q} (hp : inRects cA cB r p = true) :
    inRect cA cB rect2 p = false := by
  unfold subtractRect at h
  split at h
  · next hempty => exact (isEmpty_iff hA hB h₂).mp hempty p
  · obtain ⟨rect1, hr, hp₁⟩ := inRects_eq_true.mp hp
    have hflag : (subtractOne rect2 rect1).2 = true := all_eq_true.mp h rect1 hr
    have hone := inRects_subtractOne hA hB (h₁ rect1 hr) h₂ p
    rw [subtractOne_unchanged hflag] at hone
    simpa [inRects, hp₁] using hone

/-- What the subtraction of rectangles from `r` has come to once it has subtracted `gone`. -/
structure Subtracted (cA : A → P → Bool) (cB : B → Q → Bool) (vA : A → Prop) (vB : B → Prop)
    (r gone : List (A × B)) (out : List (A × B) × Bool) : Prop where
  valid : ∀ rect ∈ out.1, ValidRect vA vB rect
  points : ∀ p, inRects cA cB out.1 p = (inRects cA cB r p && !inRects cA cB gone p)
  unchanged : out.2 = true → out.1 = r
  /-- After a change no rectangle is empty, -/
  nonempty : out.2 = false → ∀ rect ∈ out.1, isEmpty rect = false
  /-- and the first change was made by a rectangle that meets one of those there at the start. -/
  meets : out.2 = false → ∃ rect1 ∈ r, ∃ rect2 ∈ gone, isEmpty rect2 = false ∧
    IRegion.compareTo rect2.1 rect1.1 ≠ .disjoint ∧ IRegion.compareTo rect2.2 rect1.2 ≠ .disjoint

theorem Subtracted.step {gone : List (A × B)} {out : List (A × B) × Bool}
    (h : Subtracted cA cB vA vB r gone out) (h₂ : ValidRect vA vB rect2) :
    Subtracted cA cB vA vB r (gone ++ [rect2])
      (if (subtractRect out.1 rect2).2 then out else ((subtractRect out.1 rect2).1, false)) := by
  have hpoints (p : P × Q) : inRects cA cB (subtractRect out.1 rect2).1 p =
      (inRects cA cB r p && !inRects cA cB (gone ++ [rect2]) p) := by
    rw [inRects_subtractRect hA hB h.valid h₂, h.points, inRects_append]
    simp [inRects, Bool.and_assoc]
  split
  · next hflag =>
      refine ⟨h.valid, fun p => ?_, h.unchanged, h.nonempty, fun hout => ?_⟩
      · rw [← hpoints, inRects_subtractRect hA hB h.valid h₂]
        cases hp : inRects cA cB out.1 p with
        | false => rfl
        | true => rw [disjoint_of_unchanged hA hB h.valid h₂ hflag hp]; rfl
      · obtain ⟨rect1, hr, rect, hgone, hmeets⟩ := h.meets hout
        exact ⟨rect1, hr, rect, mem_append_left _ hgone, hmeets⟩
  · next hflag =>
      have hflag : (subtractRect out.1 rect2).2 = false := by simpa using hflag
      obtain ⟨hempty, hnonempty, rect1, hr, hmeets⟩ := subtractRect_flag hflag
      refine ⟨valid_subtractRect hA hB h.valid h₂, hpoints, nofun, fun _ => hnonempty, fun _ => ?_⟩
      cases hout : out.2 with
      | false =>
        obtain ⟨rect1, hr, rect, hgone, hmeets⟩ := h.meets hout
        exact ⟨rect1, hr, rect, mem_append_left _ hgone, hmeets⟩
      | true =>
        rw [h.unchanged hout] at hr
        exact ⟨rect1, hr, rect2, mem_append_right _ mem_cons_self, hempty, hmeets⟩

theorem subtracted (h₁ : ∀ rect ∈ r1, ValidRect vA vB rect)
    (h₂ : ∀ rect ∈ r2, ValidRect vA vB rect) :
    Subtracted cA cB vA vB r1 r2 (subtract r1 r2) := by
  have hrun (gone : List (A × B)) (out : List (A × B) × Bool)
      (h : Subtracted cA cB vA vB r1 gone out) :
      Subtracted cA cB vA vB r1 (gone ++ r2) (r2.foldl (fun acc rect =>
        let result := subtractRect acc.1 rect
        if result.2 then acc else (result.1, false)) out) := by
    induction r2 generalizing gone out with
    | nil => rwa [append_nil]
    | cons rect r2 ih =>
      obtain ⟨hrect, hothers⟩ := forall_mem_cons.mp h₂
      rw [append_cons]
      exact ih hothers _ _ (h.step hA hB hrect)
  refine hrun [] (r1, true) ⟨h₁, fun p => ?_, fun _ => rfl, nofun, nofun⟩
  simp [inRects]

theorem Uniform.subtract (h₁ : Uniform vA vB r1) (h₂ : Uniform vA vB r2) :
    Uniform vA vB (subtract r1 r2).1 := by
  have h := subtracted hA hB h₁.valid h₂.valid
  cases hout : (CartesianRegions.subtract r1 r2).2 with
  | true =>
    rw [h.unchanged hout]
    exact h₁
  | false => exact ⟨h.valid, .inr (h.nonempty hout)⟩

/-! ### Comparison -/

/-- A list of rectangles without a point has only empty ones. -/
theorem all_isEmpty_iff (h : ∀ rect ∈ r, ValidRect vA vB rect) :
    r.all isEmpty = true ↔ ∀ p, inRects cA cB r p = false := by
  rw [all_eq_true]
  constructor
  · intro hempty p
    exact inRects_eq_false.mpr fun rect hr => (isEmpty_iff hA hB (h rect hr)).mp (hempty rect hr) p
  · intro hno rect hr
    exact (isEmpty_iff hA hB (h rect hr)).mpr fun p => inRects_eq_false.mp (hno p) rect hr

theorem compare_spec (h₁ : Uniform vA vB r1) (h₂ : Uniform vA vB r2) :
    (compare r1 r2 = .includes → ∀ p, inRects cA cB r2 p = true → inRects cA cB r1 p = true) ∧
    (compare r1 r2 = .disjoint → ∀ p, inRects cA cB r2 p = true → inRects cA cB r1 p = false) ∧
    (compare r1 r2 = .intersects →
      (∃ p, inRects cA cB r2 p = true ∧ inRects cA cB r1 p = true) ∧
      ∃ p, inRects cA cB r2 p = true ∧ inRects cA cB r1 p = false) := by
  have h := subtracted hA hB h₂.valid h₁.valid
  rw [compare]
  generalize subtract r2 r1 = out at h ⊢
  obtain ⟨diff, unchanged⟩ := out
  cases unchanged with
  | true =>
    refine ⟨nofun, fun _ p hp => ?_, nofun⟩
    have hdiff := h.points p
    rw [show diff = r2 from h.unchanged rfl, hp] at hdiff
    simpa using hdiff.symm
  | false =>
    cases diff with
    | nil =>
      refine ⟨fun _ p hp => ?_, nofun, nofun⟩
      have hdiff := h.points p
      rw [hp] at hdiff
      simpa [inRects] using hdiff.symm
    | cons rect diff =>
      refine ⟨nofun, nofun, fun _ => ?_⟩
      have hmem : rect ∈ rect :: diff := mem_cons_self
      -- the point left over
      obtain ⟨p, hp⟩ := exists_of_isEmpty_false hA hB (h.valid rect hmem) (h.nonempty rfl rect hmem)
      have hleft := h.points p
      rw [inRects_eq_true.mpr ⟨rect, hmem, hp⟩] at hleft
      obtain ⟨hp₂, hp₁⟩ := Bool.and_eq_true_iff.mp hleft.symm
      refine ⟨?_, p, hp₂, by simpa using hp₁⟩
      -- the common point
      obtain ⟨rectA, hrA, rectB, hrB, hne, hcA, hcB⟩ := h.meets rfl
      have hneA : isEmpty rectA = false := by
        refine h₂.uniform.elim (fun hempty => ?_) fun hne => hne rectA hrA
        rw [(all_isEmpty_iff hA hB h₂.valid).mp (all_eq_true.mpr hempty) p] at hp₂
        cases hp₂
      obtain ⟨q, hq₁, hq₂⟩ := exists_common hA hB (h₁.valid rectB hrB) (h₂.valid rectA hrA)
        hneA hcA hcB
      exact ⟨q, inRects_eq_true.mpr ⟨rectA, hrA, hq₂⟩, inRects_eq_true.mpr ⟨rectB, hrB, hq₁⟩⟩

end

/-! ### Sides -/

section
variable [IRegion A] [IRegion B] {vA : A → Prop} {vB : B → Prop} {rect rect1 rect2 : A × B}
  {r1 r2 : List (A × B)}

/-- Properties of the sides that the operations on rectangles keep.  Of the second sides they
intersect only those that are not disjoint, and keep only differences that are not empty. -/
structure Kept (vA : A → Prop) (vB : B → Prop) : Prop where
  intersect_fst : ∀ {a c : A}, vA a → vA c → vA (IRegion.intersect a c)
  subtract_fst : ∀ {a c : A}, vA a → vA c → vA (IRegion.subtract a c)
  intersect_snd : ∀ {b d : B}, vB b → vB d → IRegion.compareTo b d ≠ .disjoint →
    vB (IRegion.intersect b d)
  subtract_snd : ∀ {b d : B}, vB b → vB d → IRegion.isEmpty (IRegion.subtract b d) = false →
    vB (IRegion.subtract b d)

section
variable (h : Kept vA vB) (h₁ : ∀ rect ∈ r1, ValidRect vA vB rect)

include h h₁

theorem Kept.intersect (h₂ : ∀ rect ∈ r2, ValidRect vA vB rect) :
    ∀ rect ∈ intersect r1 r2, ValidRect vA vB rect := by
  intro rect hrect
  obtain ⟨rect1, hr1, hrect⟩ := mem_flatMap.mp hrect
  obtain ⟨rect2, hr2, hrect⟩ := mem_flatMap.mp hrect
  have hmeets := (mem_intersectRects hrect).2.2
  unfold intersectRects at hrect
  split at hrect
  · cases hrect
  · cases hrect
  · obtain rfl := mem_singleton.mp hrect
    exact h₂ rect hr2
  · obtain rfl := mem_singleton.mp hrect
    exact ⟨h.intersect_fst (h₁ rect1 hr1).1 (h₂ rect2 hr2).1,
      h.intersect_snd (h₁ rect1 hr1).2 (h₂ rect2 hr2).2 hmeets⟩

theorem Kept.subtractRect (h₂ : ValidRect vA vB rect2) :
    ∀ rect ∈ (subtractRect r1 rect2).1, ValidRect vA vB rect := by
  intro rect hrect
  unfold CartesianRegions.subtractRect at hrect
  split at hrect
  · exact h₁ rect hrect
  · obtain ⟨hrect, hnonempty⟩ := mem_filter.mp hrect
    obtain ⟨-, hsnd⟩ : IRegion.isEmpty rect.1 = false ∧ IRegion.isEmpty rect.2 = false := by
      simpa [isEmpty] using hnonempty
    obtain ⟨rect1, hr1, hrect⟩ := mem_flatMap.mp hrect
    have hrect1 := h₁ rect1 hr1
    unfold subtractOne at hrect
    split at hrect
    · obtain rfl := mem_singleton.mp hrect
      exact hrect1
    · obtain rfl := mem_singleton.mp hrect
      exact hrect1
    · rcases mem_append.mp hrect with hrect | hrect
      · split at hrect
        · obtain rfl := mem_singleton.mp hrect
          exact ⟨h.subtract_fst hrect1.1 h₂.1, hrect1.2⟩
        · cases hrect
      · split at hrect
        · obtain rfl := mem_singleton.mp hrect
          exact ⟨hrect1.1, h.subtract_snd hrect1.2 h₂.2 hsnd⟩
        · cases hrect

theorem Kept.subtract (h₂ : ∀ rect ∈ r2, ValidRect vA vB rect) :
    ∀ rect ∈ (subtract r1 r2).1, ValidRect vA vB rect := by
  unfold CartesianRegions.subtract
  refine List.foldlRecOn (motive := fun acc : List (A × B) × Bool =>
    ∀ rect ∈ acc.1, ValidRect vA vB rect) r2 _ h₁ fun acc hacc rect hrect => ?_
  dsimp only
  split
  · exact hacc
  · exact h.subtractRect hacc (h₂ rect hrect)

end

theorem subtract_flag (h : (subtract r1 r2).2 = false) : ∃ rect2 ∈ r2, ∃ rect1 ∈ r1,
    IRegion.compareTo rect2.1 rect1.1 ≠ .disjoint ∧
      IRegion.compareTo rect2.2 rect1.2 ≠ .disjoint := by
  unfold CartesianRegions.subtract at h
  induction r2 with
  | nil => cases h
  | cons rect2 r2 ih =>
    cases hflag : (CartesianRegions.subtractRect r1 rect2).2 with
    | true =>
      rw [foldl_cons] at h
      simp only [hflag, if_true] at h
      obtain ⟨rect, hrect, hmeets⟩ := ih h
      exact ⟨rect, mem_cons_of_mem _ hrect, hmeets⟩
    | false => exact ⟨rect2, mem_cons_self, (subtractRect_flag hflag).2.2⟩

/-- Regions that are not told to be disjoint have a common rectangle. -/
theorem intersect_ne_nil (h : compare r1 r2 ≠ .disjoint) : intersect r1 r2 ≠ [] := by
  have hflag : (CartesianRegions.subtract r2 r1).2 = false := by
    rw [compare] at h
    by_contra hflag
    exact h (if_pos (by simpa using hflag))
  obtain ⟨rect1, hr1, rect2, hr2, hfst, hsnd⟩ := subtract_flag hflag
  obtain ⟨rect, hrect⟩ : ∃ rect, rect ∈ intersectRects rect1 rect2 := by
    unfold intersectRects
    split
    · next hc => exact absurd hc hfst
    · next hc _ => exact absurd hc hsnd
    · exact ⟨_, mem_singleton_self _⟩
    · exact ⟨_, mem_singleton_self _⟩
  exact ne_nil_of_mem (mem_flatMap.mpr ⟨rect1, hr1, mem_flatMap.mpr ⟨rect2, hr2, hrect⟩⟩)

end

end CartesianRegions

namespace ProductRegion
open CartesianRegions

variable {A B P Q : Type}

def productOf (x : A) (y : B) : ProductRegion A B := ⟨[(x, y)]⟩

/-- The points of a product region: those of one of its rectangles. -/
def contains (cA : A → P → Bool) (cB : B → Q → Bool) (r : ProductRegion A B) (p : P × Q) : Bool :=
  inRects cA cB r.products p

section
variable {cA : A → P → Bool} {cB cB' : B → Q → Bool} {r : ProductRegion A B} {p : P × Q}

/-- Every rectangle holds the point. -/
def inEvery (cA : A → P → Bool) (cB : B → Q → Bool) (r : ProductRegion A B) (p : P × Q) : Bool :=
  r.products.all (inRect cA cB · p)

/-- There is a rectangle, and a point of one is a point of all. -/
def Agrees (cA : A → P → Bool) (cB cB' : B → Q → Bool) (r : ProductRegion A B) (p : P × Q) : Prop :=
  r.products ≠ [] ∧ (contains cA cB r p = true → inEvery cA cB' r p = true)

section
variable (h : ∀ rect ∈ r.products, ∀ q, cB' rect.2 q = true → cB rect.2 q = true)

include h

theorem contains_of_inEvery (hne : r.products ≠ []) (hp : inEvery cA cB' r p = true) :
    contains cA cB r p = true := by
  obtain ⟨rect, hrect⟩ := exists_mem_of_ne_nil _ hne
  have hin := all_eq_true.mp hp rect hrect
  rw [inRect, Bool.and_eq_true] at hin
  refine any_eq_true.mpr ⟨rect, hrect, ?_⟩
  rw [inRect, hin.1, h rect hrect _ hin.2]
  rfl

/-- Every rectangle holds exactly the points of the region where the rectangles agree. -/
theorem inEvery_iff_contains :
    (inEvery cA cB' r p = true ↔ contains cA cB r p = true) ↔ Agrees cA cB cB' r p := by
  constructor
  · refine fun hiff => ⟨fun hnil => ?_, hiff.mpr⟩
    have hin : contains cA cB r p = true := hiff.mp (by rw [inEvery, hnil]; rfl)
    rw [contains, inRects, hnil] at hin
    cases hin
  · exact fun ⟨hne, hagree⟩ => ⟨contains_of_inEvery h hne, hagree⟩

end

end

/-- The rectangles of a product region are valid, and all or none empty. -/
def Valid [IRegion A] [IRegion B] (vA : A → Prop) (vB : B → Prop) (r : ProductRegion A B) : Prop :=
  Uniform vA vB r.products

variable [IRegion A] [IRegion B] {cA : A → P → Bool} {cB : B → Q → Bool} {vA : A → Prop}
  {vB : B → Prop}

theorem valid_productOf {x : A} {y : B} (hx : vA x) (hy : vB y) : (productOf x y).Valid vA vB := by
  constructor
  · exact forall_mem_singleton.mpr ⟨hx, hy⟩
  · cases hempty : CartesianRegions.isEmpty (x, y) with
    | true => exact .inl (forall_mem_singleton.mpr hempty)
    | false => exact .inr (forall_mem_singleton.mpr hempty)

variable (hA : ExactOn cA vA) (hB : ExactOn cB vB) {r s : ProductRegion A B}

include hA hB

theorem contains_subtract (hr : r.Valid vA vB) (hs : s.Valid vA vB) (p : P × Q) :
    contains cA cB (IRegion.subtract r s) p = (contains cA cB r p && !contains cA cB s p) :=
  (subtracted hA hB hr.valid hs.valid).points p

/-- Products of exact regions are exact. -/
theorem products_exactOn : ExactOn (contains cA cB) (Valid vA vB) where
  isEmpty_iff hr := all_isEmpty_iff hA hB hr.valid
  valid_intersect hr hs := hr.intersect hA hB hs
  valid_subtract hr hs := hr.subtract hA hB hs
  contains_intersect hr hs := inRects_intersect hA hB hr.valid hs.valid
  contains_subtract hr hs _ := contains_subtract hA hB hr hs
  includes hr hs := (compare_spec hA hB hr hs).1
  disjoint hr hs := (compare_spec hA hB hr hs).2.1
  intersects hr hs := (compare_spec hA hB hr hs).2.2

theorem products_actAsSets (hr : r.Valid vA vB) (hs : s.Valid vA vB) :
    ActsAsSets (contains cA cB) r s :=
  (products_exactOn hA hB).actsAsSets hr hs (contains_subtract hA hB hr hs)

end ProductRegion

/-! ### List products -/

inductive NilRegion where
  | nilRegion
deriving DecidableEq

/-- A `NilRegion` includes itself, and stays when it is subtracted from itself. -/
instance : IRegion NilRegion where
  isEmpty _ := false
  compareTo _ _ := .includes
  subtract r _ := r
  intersect r _ := r

/-- `listProductRegion<'a>`, of rank `n`. -/
def ListProduct (A : Type) : ℕ → Type
  | 0 => NilRegion
  | n + 1 => ProductRegion A (ListProduct A n)

/-- Lists of length `n`. -/
def Tuple (A : Type) : ℕ → Type
  | 0 => Unit
  | n + 1 => A × Tuple A n

namespace ListProduct
variable {A P : Type} {cA : A → P → Bool}

instance instIRegion [IRegion A] : (n : ℕ) → IRegion (ListProduct A n)
  | 0 => inferInstanceAs (IRegion NilRegion)
  | n + 1 =>
    let _ := instIRegion n
    inferInstanceAs (IRegion (ProductRegion A (ListProduct A n)))

def ofSeq : (n : ℕ) → Tuple A n → ListProduct A n
  | 0, _ => NilRegion.nilRegion
  | n + 1, (reg, xs) => ProductRegion.productOf reg (ofSeq n xs)

/-- The index lists of a region. -/
def contains (cA : A → P → Bool) : (n : ℕ) → ListProduct A n → Tuple P n → Bool
  | 0, _, _ => true
  | n + 1, r, p => ProductRegion.contains cA (contains cA n) r p

/-- The rectangles of a region are valid at every depth, and at each all or none empty. -/
def Valid [IRegion A] (vA : A → Prop) : (n : ℕ) → ListProduct A n → Prop
  | 0, _ => True
  | n + 1, r => ProductRegion.Valid vA (Valid vA n) r

/-- The regions made from lists of component regions. -/
inductive Built [IRegion A] {n : ℕ} : ListProduct A n → Prop where
  | ofSeq (xs : Tuple A n) : Built (ofSeq n xs)
  | intersect {r s : ListProduct A n} (hr : Built r) (hs : Built s) : Built (IRegion.intersect r s)
  | subtract {r s : ListProduct A n} (hr : Built r) (hs : Built s) : Built (IRegion.subtract r s)

theorem nil_exactOn [IRegion A] {vA : A → Prop} : ExactOn (contains cA 0) (Valid vA 0) where
  isEmpty_iff _ := ⟨nofun, fun h => nomatch h ()⟩
  valid_intersect _ _ := trivial
  valid_subtract _ _ := trivial
  contains_intersect _ _ _ := rfl
  contains_subtract _ _ hc := (hc rfl).elim
  includes _ _ _ _ _ := rfl
  disjoint _ _ hc := by cases hc
  intersects _ _ hc := by cases hc

/-- The regions of a rank are exact, up to the difference at rank `0`. -/
theorem listProduct_exactOn [IRegion A] {cA : A → P → Bool} {vA : A → Prop} (hA : ExactOn cA vA) :
    (n : ℕ) → ExactOn (contains cA n) (Valid vA n)
  | 0 => nil_exactOn
  | n + 1 => ProductRegion.products_exactOn hA (listProduct_exactOn hA n)

theorem valid_ofSeq [IRegion A] : (n : ℕ) → (xs : Tuple A n) → Valid (fun _ => True) n (ofSeq n xs)
  | 0, _ => trivial
  | n + 1, (_, xs) => ProductRegion.valid_productOf trivial (valid_ofSeq n xs)

theorem Built.valid [IRegion A] (hA : ExactOn cA fun _ => True) {n : ℕ} {r : ListProduct A n}
    (h : Built r) : Valid (fun _ => True) n r := by
  induction h with
  | ofSeq xs => exact valid_ofSeq n xs
  | intersect _ _ ihr ihs => exact (listProduct_exactOn hA n).valid_intersect ihr ihs
  | subtract _ _ ihr ihs => exact (listProduct_exactOn hA n).valid_subtract ihr ihs

/-- Every side of every rectangle, at every depth, holds its index. -/
def inEvery (cA : A → P → Bool) : (n : ℕ) → ListProduct A n → Tuple P n → Bool
  | 0, _, _ => true
  | n + 1, r, p => ProductRegion.inEvery cA (inEvery cA n) r p

theorem inEvery_ofSeq {cA : A → P → Bool} : (n : ℕ) → (xs : Tuple A n) → (p : Tuple P n) →
    inEvery cA n (ofSeq n xs) p = contains cA n (ofSeq n xs) p
  | 0, _, _ => rfl
  | n + 1, (x, xs), (i, is) => by
      have hrest := @inEvery_ofSeq cA n xs is
      show (cA x i && inEvery cA n (ofSeq n xs) is && true) =
        (cA x i && contains cA n (ofSeq n xs) is || false)
      rw [hrest, Bool.and_true, Bool.or_false]

/-- At every depth there is a rectangle. -/
def Branches : (n : ℕ) → ListProduct A n → Prop
  | 0, _ => True
  | n + 1, r => r.products ≠ [] ∧ ∀ rect ∈ r.products, Branches n rect.2

theorem branches_ofSeq : (n : ℕ) → (xs : Tuple A n) → Branches n (ofSeq n xs)
  | 0, _ => trivial
  | n + 1, (_, xs) =>
    ⟨cons_ne_nil _ _, forall_mem_singleton.mpr (branches_ofSeq n xs)⟩

/-- With a rectangle at every depth, an index list that every side holds is one of the region. -/
theorem contains_of_inEvery {cA : A → P → Bool} : (n : ℕ) → {r : ListProduct A n} →
    Branches n r → {p : Tuple P n} → inEvery cA n r p = true → contains cA n r p = true
  | 0, _, _, _, _ => rfl
  | n + 1, _, hr, _, hp => ProductRegion.contains_of_inEvery
      (fun rect hrect _ => contains_of_inEvery n (hr.2 rect hrect)) hr.1 hp

/-- Nested regions keep a rectangle at every depth. -/
theorem branches_kept [IRegion A] :
    (n : ℕ) → CartesianRegions.Kept (fun _ : A => True) (Branches (A := A) n)
  | 0 => ⟨fun _ _ => trivial, fun _ _ => trivial, fun _ _ _ => trivial, fun _ _ _ => trivial⟩
  | n + 1 => by
      have hkept := branches_kept n
      have hvalid (r : ListProduct A (n + 1)) (h : Branches (n + 1) r) :
          ∀ rect ∈ r.products, CartesianRegions.ValidRect (fun _ => True) (Branches n) rect :=
        fun rect hrect => ⟨trivial, h.2 rect hrect⟩
      refine ⟨fun _ _ => trivial, fun _ _ => trivial, fun {r s} hr hs hmeets => ?_,
        fun {r s} hr hs hne => ?_⟩
      · exact ⟨CartesianRegions.intersect_ne_nil hmeets,
          fun rect hrect => (hkept.intersect (hvalid r hr) (hvalid s hs) rect hrect).2⟩
      · refine ⟨fun hnil => ?_,
          fun rect hrect => (hkept.subtract (hvalid r hr) (hvalid s hs) rect hrect).2⟩
        have hall : (CartesianRegions.subtract r.products s.products).1.all
            CartesianRegions.isEmpty = false := hne
        rw [show (CartesianRegions.subtract r.products s.products).1 = [] from hnil] at hall
        cases hall

end ListProduct

/-! ### The regions of arrays -/

namespace Points

def range [HashOrder ℤ] (lowerBound upperBound : ℤ) : Points ℤ :=
  ⟨PersistentSet.ofSeq ((List.range (upperBound + 1 - lowerBound).toNat).map fun i : ℕ =>
    lowerBound + (i : ℤ)), false⟩

end Points

/-- The product regions made from a valid region of the addresses and a region of the indices. -/
inductive ArrayRegion {I A : Type} [IRegion I] [IRegion A] (vI : I → Prop) {n : ℕ} :
    ProductRegion I (ListProduct A n) → Prop where
  | productOf {x : I} {y : ListProduct A n} (hx : vI x) (hy : ListProduct.Built y) :
      ArrayRegion vI (.productOf x y)
  | intersect {r s : ProductRegion I (ListProduct A n)} (hr : ArrayRegion vI r)
      (hs : ArrayRegion vI s) : ArrayRegion vI (IRegion.intersect r s)
  | subtract {r s : ProductRegion I (ListProduct A n)} (hr : ArrayRegion vI r)
      (hs : ArrayRegion vI s) : ArrayRegion vI (IRegion.subtract r s)

section
variable {I T : Type} [IRegion I] {cI : I → T → Bool} {vI : I → Prop}

theorem ArrayRegion.valid {A P : Type} [IRegion A] {cA : A → P → Bool} (hI : ExactOn cI vI)
    (hA : ExactOn cA fun _ => True) {n : ℕ} {r : ProductRegion I (ListProduct A n)}
    (h : ArrayRegion vI r) : r.Valid vI (ListProduct.Valid (fun _ => True) n) := by
  have hexact := ProductRegion.products_exactOn hI (ListProduct.listProduct_exactOn hA n)
  induction h with
  | productOf hx hy => exact ProductRegion.valid_productOf hx (hy.valid hA)
  | intersect _ _ ihr ihs => exact hexact.valid_intersect ihr ihs
  | subtract _ _ ihr ihs => exact hexact.valid_subtract ihr ihs

/-- Sets of integers, the regions of index lists over them, and their products with exact regions
of addresses act as sets. -/
theorem arrayRegions_actAsSets [HashOrder ℤ] (hI : ExactOn cI vI) (n : ℕ) :
    (∀ p q : Points ℤ, ActsAsSets Points.contains p q) ∧
    (∀ p q : ListProduct (Points ℤ) (n + 1), p.Built → q.Built →
      ActsAsSets (ListProduct.contains Points.contains (n + 1)) p q) ∧
    ∀ p q : ProductRegion I (ListProduct (Points ℤ) (n + 1)), ArrayRegion vI p → ArrayRegion vI q →
      ActsAsSets (ProductRegion.contains cI (ListProduct.contains Points.contains (n + 1))) p q := by
  have hA : ExactOn (Points.contains : Points ℤ → ℤ → Bool) fun _ => True := ExactRegion.exactOn
  have hB := ListProduct.listProduct_exactOn hA
  refine ⟨fun p q => ?_, fun p q hp hq => ?_, fun p q hp hq => ?_⟩
  · exact hA.actsAsSets trivial trivial (ExactRegion.contains_subtract p q)
  · exact ProductRegion.products_actAsSets hA (hB n) (hp.valid hA) (hq.valid hA)
  · exact ProductRegion.products_actAsSets hI (hB (n + 1)) (hp.valid hI hA) (hq.valid hI hA)

/-- The indices from `1` to `3` and those from `2` on to `5`, of the addresses up to `1` and from `0`
on to `2`. -/
theorem arrayRegions_actAsSets_ranges :
    letI : HashOrder ℤ := ⟨Int.natAbs⟩
    ActsAsSets (ProductRegion.contains (Intervals.contains : Intervals ℚ → ℚ → Bool)
        (ListProduct.contains Points.contains 1))
      (.productOf (.closed 0 1) (ListProduct.ofSeq 1 (Points.range 1 3, ())))
      (.productOf (.closed 0 2) (ListProduct.ofSeq 1 (Points.range 2 5, ()))) := by
  let _ : HashOrder ℤ := ⟨Int.natAbs⟩
  exact (arrayRegions_actAsSets Intervals.canonical_exactOn 0).2.2 _ _
    (.productOf (Intervals.canonical_closed (by decide)) (.ofSeq _))
    (.productOf (Intervals.canonical_closed (by decide)) (.ofSeq _))

end

end VSharp
