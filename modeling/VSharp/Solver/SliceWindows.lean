import VSharp.Core.Slices

/-!
# Solver — Slice windows

What a list of concrete cuts leaves of a term, in integers without limit: the variables that
`createSlice` narrows in `VSharp.SILI.Core/Terms.fs`, and the bounds that `ComputeSliceBounds` folds
in `VSharp.Solver/Z3.fs`.

- Both go through the cuts from the last one on; `createSlice` stops at the first empty window.
- The term itself is kept whole, which is the window of all its bytes.
-/

namespace VSharp.Unlimited

/-- A step of `createSlice` on its variables. -/
def narrow (c : Cut) (s : Narrowing) : Narrowing :=
  if s.isValid then
    let sliceLeft := max (c.startByte - s.position) 0
    let left := sliceLeft + s.left
    let sliceRight := min (c.endByte - s.position) s.right
    let sliceSize := sliceRight - sliceLeft
    let right := min (left + sliceSize) s.right
    let position :=
      if c.isWrite then max c.position s.position else max (s.position + c.position) 0
    ⟨left, right, position, c.isWrite, right - left > 0⟩
  else s

def narrowAll (termSize : Int) (cuts : List Cut) : Narrowing :=
  cuts.foldr narrow ⟨0, termSize, 0, false, true⟩

/-- What `createSlice` returns: the term itself, or a slice of it. -/
inductive Created where
  | term
  | slice (cuts : List Cut)
deriving DecidableEq, Repr

/-- `createSlice` by concrete cuts. -/
def createSlice (termSize : Int) (cuts : List Cut) : Created :=
  let s := narrowAll termSize cuts
  if s.isValid = false then .slice []
  else if s.narrowed termSize then .slice [⟨s.left, s.right, s.position, s.resultIsWrite⟩]
  else .term

/-- The start and the end of what is kept, and where it goes. -/
abbrev Window := Int × Int × Int

/-- `addBounds` of `ComputeSliceBounds`, on the start, the end and the position so far. -/
def addBounds (c : Cut) : Window → Window
  | (startExpr, sizeExpr, position) =>
    let startByte := c.startByte - position
    let endByte := c.endByte - position
    let left := max startByte 0
    let right := min endByte sizeExpr
    let sliceSize := right - left
    let newLeft := startExpr + left
    let newRight := min (newLeft + sliceSize) sizeExpr
    let newPos := if c.isWrite then max c.position position else max (position + c.position) 0
    (newLeft, newRight, newPos)

/-- `ComputeSliceBounds` of a term of `size` bytes. -/
def computeSliceBounds (cuts : List Cut) (size : Int) : Window := cuts.foldr addBounds (0, size, 0)

/-- A window whose end is not behind its start is empty. -/
def nonempty : Window → Option Window
  | (left, right, position) => if right ≤ left then none else some (left, right, position)

/-- The window that a result of `createSlice` keeps. -/
def Created.window (termSize : Int) : Created → Option Window
  | term => nonempty (0, termSize, 0)
  | slice [] => none
  | slice (c :: _) => nonempty (c.startByte, c.endByte, c.position)

/-! ### The bounds -/

variable {termSize : Int} {c : Cut} {cuts : List Cut}

/-- The fold computes the bounds of the cuts. -/
theorem computeSliceBounds_eq (cuts : List Cut) (size : Int) :
    computeSliceBounds cuts size = ((Bounds.ofCuts size cuts).left,
      (Bounds.ofCuts size cuts).right, (Bounds.ofCuts size cuts).position) := by
  induction cuts with
  | nil => rfl
  | cons c cuts ih =>
    have hstep : computeSliceBounds (c :: cuts) size =
        addBounds c (computeSliceBounds cuts size) := rfl
    rw [hstep, ih]
    rfl

theorem nonempty_eq_none {left right position : Int} :
    nonempty (left, right, position) = none ↔ right ≤ left := by
  rw [nonempty]
  split
  case isTrue h => exact ⟨fun _ => h, fun _ => rfl⟩
  case isFalse h => exact ⟨nofun, fun hle => absurd hle h⟩

/-- What is empty stays empty. -/
theorem ofCuts_append_empty (more : List Cut)
    (h : (Bounds.ofCuts termSize cuts).right ≤ (Bounds.ofCuts termSize cuts).left) :
    (Bounds.ofCuts termSize (more ++ cuts)).right ≤
      (Bounds.ofCuts termSize (more ++ cuts)).left := by
  induction more with
  | nil => exact h
  | cons c more ih => exact Bounds.narrow_of_empty ih

/-! ### The variables -/

/-- The variables hold the bounds as long as they are valid; when they are not, the bounds are
empty. -/
def Follows (b : Bounds) (s : Narrowing) : Prop :=
  if s.isValid then s.left = b.left ∧ s.right = b.right ∧ s.position = b.position
  else b.right ≤ b.left

theorem Follows.narrow {b : Bounds} {s : Narrowing} (h : Follows b s) (c : Cut) :
    Follows (b.narrow c) (Unlimited.narrow c s) := by
  rw [Follows] at h
  split at h
  case isTrue hvalid =>
    obtain ⟨hl, hr, hp⟩ := h
    have hleft : max (c.startByte - b.position) 0 + b.left = (b.narrow c).left :=
      Int.add_comm _ _
    have hright : min ((b.narrow c).left +
        (min (c.endByte - b.position) b.right - max (c.startByte - b.position) 0)) b.right =
          (b.narrow c).right := rfl
    have hposition : (if c.isWrite then max c.position b.position
        else max (b.position + c.position) 0) = (b.narrow c).position := rfl
    rw [Unlimited.narrow, if_pos hvalid, hl, hr, hp]
    dsimp only
    rw [hleft, hright, hposition, Follows]
    split
    case isTrue => exact ⟨rfl, rfl, rfl⟩
    case isFalse hempty =>
      have : ¬ (b.narrow c).right - (b.narrow c).left > 0 := by simpa using hempty
      omega
  case isFalse hinvalid =>
    rw [Unlimited.narrow, if_neg hinvalid, Follows, if_neg hinvalid]
    exact Bounds.narrow_of_empty h

theorem follows_narrowAll (termSize : Int) (cuts : List Cut) :
    Follows (Bounds.ofCuts termSize cuts) (narrowAll termSize cuts) := by
  induction cuts with
  | nil => exact ⟨rfl, rfl, rfl⟩
  | cons c cuts ih => exact ih.narrow c

/-- `createSlice` keeps the window of the bounds. -/
theorem window_createSlice (termSize : Int) (cuts : List Cut) :
    (createSlice termSize cuts).window termSize = nonempty (computeSliceBounds cuts termSize) := by
  have hfollows := follows_narrowAll termSize cuts
  obtain ⟨hleft, hright, -⟩ := @Bounds.inside_ofCuts termSize cuts
  rw [computeSliceBounds_eq]
  unfold createSlice
  rw [Follows] at hfollows
  split at hfollows
  case isTrue hvalid =>
    obtain ⟨hl, hr, hp⟩ := hfollows
    dsimp only
    rw [if_neg (by rw [hvalid]; decide)]
    split
    case isTrue => rw [Created.window, hl, hr, hp]
    case isFalse hwhole =>
      simp only [Narrowing.narrowed, hl, hr, hp] at hwhole
      have hl' : (Bounds.ofCuts termSize cuts).left = 0 := by omega
      have hr' : (Bounds.ofCuts termSize cuts).right = termSize := by omega
      have hp' : (Bounds.ofCuts termSize cuts).position = 0 := by omega
      rw [Created.window, hl', hr', hp']
  case isFalse hinvalid =>
    rw [if_pos (Bool.eq_false_iff.mpr hinvalid)]
    exact (nonempty_eq_none.mpr hfollows).symm

/-- `createSlice` and `ComputeSliceBounds` keep the same window of a term, and what is empty stays
empty for further cuts. -/
theorem createSlice_agrees (termSize : Int) (cuts : List Cut) :
    (createSlice termSize cuts).window termSize = nonempty (computeSliceBounds cuts termSize) ∧
    (nonempty (computeSliceBounds cuts termSize) = none →
      ∀ more, nonempty (computeSliceBounds (more ++ cuts) termSize) = none ∧
        (createSlice termSize (more ++ cuts)).window termSize = none) := by
  refine ⟨window_createSlice termSize cuts, fun hempty more => ?_⟩
  rw [computeSliceBounds_eq, nonempty_eq_none] at hempty
  have hmore : nonempty (computeSliceBounds (more ++ cuts) termSize) = none := by
    rw [computeSliceBounds_eq, nonempty_eq_none]
    exact ofCuts_append_empty more hempty
  exact ⟨hmore, (window_createSlice termSize (more ++ cuts)).trans hmore⟩

/-- A cut that sticks out, of one that does. -/
example : createSlice 8 [⟨-2, 3, 1, true⟩, ⟨2, 9, -1, false⟩] =
    .slice [⟨2, 5, 1, true⟩] ∧ computeSliceBounds [⟨-2, 3, 1, true⟩, ⟨2, 9, -1, false⟩] 8 =
    (2, 5, 1) := by
  decide

end VSharp.Unlimited
