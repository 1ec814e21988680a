import VSharp.Core.ConcreteMemory

/-!
# Core — ChildTables

The tables `children` and `parents` of a concrete memory against each other.  `parents` keeps one
cell for each parent of an object and nothing is ever deleted from it, so that it leads back to the
cells of `children` (`Inverse`) only as long as no cell is overwritten with another object or with
null, no object is stored in two cells of one parent, and no object is removed that a cell holds
(`KeepsInverse`).

* `inverse_of_reached`: along runs that keep to this, the tables are inverse of each other, and
  `Remove` turns the cells that hold the removed object into symbolic ones and no others.
* `remove_marks_overwritten`: a cell that was overwritten goes symbolic with the object that is no
  longer there.
-/

namespace VSharp.ConcreteMemory
open Dictionary
open PersistentDict (tryFind keys Wf)

variable {A O L F T : Type} [DecidableEq O] [DecidableEq L]

/-- `parents` leads from each object to the cells that hold it. -/
def Inverse (cm : ConcreteMemory A O L) : Prop :=
  ∀ p c loc, cell cm.children p loc = some (.concrete c) ↔ parentLoc cm.parents c p = some loc

/-- The parents of each object are listed once. -/
def ParentsWf (cm : ConcreteMemory A O L) : Prop :=
  ∀ c, Wf ((tryFind cm.parents c).getD [])

/-- The cell does not hold another object, no other cell of the parent holds the child, and a cell
that is only read is not symbolic. -/
def keepsInverse (A O L : Type) [DecidableEq O] [DecidableEq L] (update : Bool) :
    CellCondition A O L where
  put cm p c loc :=
    (∀ c', cell cm.children p loc = some (.concrete c') → c' = c) ∧
      (∀ loc', cell cm.children p loc' = some (.concrete c) → loc' = loc) ∧
      (update = true ∨ cell cm.children p loc ≠ some .symbolic)
  null cm p loc := ∀ c, cell cm.children p loc ≠ some (.concrete c)

/-- The condition of each operation; an object is removed only when no cell holds it. -/
def KeepsInverse [DecidableEq A] [DecidableEq F] [DecidableEq T]
    (_ : CellOrder O (ChildLocation F T)) (cm : ConcreteMemory A O (ChildLocation F T)) : Operation A O F T → Prop
  | .allocate _ _ | .tryFullyConcrete _ => True
  | .trackChild parent child childKind =>
    ChildMeets (keepsInverse A O _ false) cm parent child (.create childKind) false
  | .setChild parent child childKind =>
    ChildMeets (keepsInverse A O _ true) cm parent child (.create childKind) true
  | .remove address => ∀ phys, tryFind cm.virtToPhys address = some phys →
      ∀ p loc, cell cm.children p loc ≠ some (.concrete phys)

variable {cm : ConcreteMemory A O L} {p c q : O} {loc loc' : L} {update : Bool}
  {children : Pdict O (Pdict L (Cell O))}

theorem cell_putChild (h : update = true ∨ cell children p loc ≠ some .symbolic) :
    cell (putChild children p c loc update) q loc' =
      if q = p ∧ loc' = loc then some (.concrete c) else cell children q loc' := by
  rw [cell, cells_putChild h]
  by_cases hq : q = p
  · subst hq
    simp [tryFind_set, cell]
  · simp [hq, cell]

theorem cell_removeChild :
    cell (removeChild children p loc) q loc' =
      if q = p ∧ loc' = loc then none else cell children q loc' := by
  rw [cell, cells_removeChild]
  by_cases hq : q = p
  · subst hq
    simp [tryFind_remove, cell]
  · simp [hq, cell]

theorem Inverse.addRefChild [CellOrder O L] (h : Inverse cm) (hput : (keepsInverse A O L update).put cm p c loc) :
    Inverse (cm.addRefChild p c loc update) := by
  obtain ⟨hcell, hother, hread⟩ := hput
  intro p' c' loc'
  rw [addRefChild_children, cell_putChild hread, parentLoc_addRefChild]
  by_cases hpl : p' = p ∧ loc' = loc
  · obtain ⟨rfl, rfl⟩ := hpl
    by_cases hc : c' = c
    · simp [hc]
    · have hnot : parentLoc cm.parents c' p' ≠ some loc' :=
        fun hrec => hc (hcell c' ((h p' c' loc').mpr hrec))
      simp [hc, Ne.symm hc, hnot]
  · rw [if_neg hpl]
    by_cases hcp : c' = c ∧ p' = p
    · obtain ⟨rfl, rfl⟩ := hcp
      have hne : loc' ≠ loc := fun hl => hpl ⟨rfl, hl⟩
      have hnot : cell cm.children p' loc' ≠ some (.concrete c') :=
        fun hrec => hne (hother loc' hrec)
      simp [hnot, Ne.symm hne]
    · rw [if_neg hcp]
      exact h p' c' loc'

theorem Inverse.removeChild (h : Inverse cm) (hnull : (keepsInverse A O L update).null cm p loc) :
    Inverse { cm with children := removeChild cm.children p loc } := by
  intro p' c' loc'
  rw [cell_removeChild, ← h p' c' loc']
  split
  case isTrue hpl =>
    obtain ⟨rfl, rfl⟩ := hpl
    simp [hnull c']
  case isFalse => rfl

omit [DecidableEq L] in
theorem parentsWf_addToParents (h : ParentsWf cm) : ParentsWf (cm.addToParents p c loc) := by
  intro c'
  unfold addToParents
  cases hc : tryFind cm.parents c with
  | none =>
    simp only [tryFind_set]
    split
    case isTrue => exact PersistentDict.wf_singleton _
    case isFalse => exact h c'
  | some parentDict =>
    simp only [tryFind_set]
    split
    case isTrue =>
      have hdict := h c
      rw [hc, Option.getD_some] at hdict
      exact wf_set hdict p loc
    case isFalse => exact h c'

theorem parentsWf_addRefChild [CellOrder O L] (h : ParentsWf cm) :
    ParentsWf (cm.addRefChild p c loc update) := by
  refine parentsWf_addToParents fun c' => ?_
  simp only [apply_ite ConcreteMemory.parents, recheck_parents, ite_self]
  exact h c'

/-! ### Removal -/

/-- The cells that `MarkSymbolic` comes to go symbolic, the others stay. -/
theorem cell_markSymbolic_loop (entries : List (O × L)) (children : Pdict O (Pdict L (Cell O)))
    (q : O) (loc' : L) :
    cell (entries.foldl (fun children e =>
        Dictionary.set e.1 (Dictionary.set e.2 .symbolic (cells children e.1)) children)
      children) q loc' =
      if (q, loc') ∈ entries then some .symbolic else cell children q loc' := by
  induction entries generalizing children with
  | nil => simp
  | cons e entries ih =>
    have hstep : cell (Dictionary.set e.1 (Dictionary.set e.2 .symbolic (cells children e.1))
        children) q loc' = if (q, loc') = e then some .symbolic else cell children q loc' := by
      rw [cell, cells_set]
      by_cases hq : q = e.1
      · subst hq
        simp [tryFind_set, Prod.ext_iff, cell]
      · simp [hq, Prod.ext_iff, cell]
    rw [List.foldl_cons, ih, hstep]
    by_cases hmem : (q, loc') ∈ entries
    · simp [hmem]
    · simp [hmem]

theorem cell_markSymbolic (h : Inverse cm) (hwf : ParentsWf cm) (phys q : O) (loc' : L) :
    cell (cm.markSymbolic phys).children q loc' =
      if cell cm.children q loc' = some (.concrete phys) then some .symbolic
      else cell cm.children q loc' := by
  rw [markSymbolic, cell_markSymbolic_loop]
  have hiff : (q, loc') ∈ (tryFind cm.parents phys).getD [] ↔
      cell cm.children q loc' = some (.concrete phys) := by
    rw [h q phys loc', parentLoc, PersistentDict.tryFind_eq_some_iff (hwf phys)]
  simp only [hiff]

variable [DecidableEq A]

/-- `Remove` turns the cells that hold the object into symbolic ones and leaves the others. -/
theorem remove_exact (h : Inverse cm) (hwf : ParentsWf cm) {address : A} {phys : O}
    (haddress : tryFind cm.virtToPhys address = some phys) :
    ∃ cm', cm.remove address = some cm' ∧ cm'.parents = cm.parents ∧
      ∀ q loc', cell cm'.children q loc' =
        if cell cm.children q loc' = some (.concrete phys) then some .symbolic
        else cell cm.children q loc' := by
  rw [remove, haddress]
  exact ⟨_, rfl, rfl, fun q loc' => cell_markSymbolic h hwf phys q loc'⟩

/-! ### Runs -/

section
variable [DecidableEq F] [DecidableEq T]

section
variable [order : CellOrder O (ChildLocation F T)]

omit [DecidableEq A] in
theorem addChild_inverse {cm : ConcreteMemory A O (ChildLocation F T)} {parent : O}
    {child : Child O F} {childLoc : ChildLocation F T} (h : Inverse cm ∧ ParentsWf cm)
    (hmeets : ChildMeets (keepsInverse A O _ update) cm parent child childLoc update) :
    Inverse (cm.addChild parent child childLoc update) ∧
      ParentsWf (cm.addChild parent child childLoc update) := by
  refine addChild_inv (I := fun cm => Inverse cm ∧ ParentsWf cm) ?_ ?_ child childLoc hmeets h
  · intro cm loc hcm hnull
    exact ⟨hcm.1.removeChild hnull, hcm.2⟩
  · intro cm child loc hcm _ hput
    exact ⟨hcm.1.addRefChild hput, parentsWf_addRefChild hcm.2⟩

theorem step_inverse {cm cm' : ConcreteMemory A O (ChildLocation F T)} {op : Operation A O F T}
    (h : Inverse cm ∧ ParentsWf cm) (hmeets : KeepsInverse order cm op) (hstep : cm.step op = some cm') :
    Inverse cm' ∧ ParentsWf cm' := by
  cases op with
  | allocate address obj =>
    simp only [step, allocate] at hstep
    split at hstep
    · cases hstep
    · cases hstep
      exact h
  | trackChild parent child childKind =>
    cases hstep
    exact addChild_inverse h hmeets
  | setChild parent child childKind =>
    cases hstep
    exact addChild_inverse h hmeets
  | tryFullyConcrete address =>
    cases hstep
    unfold tryFullyConcrete
    split
    · exact h
    · exact h
  | remove address =>
    cases haddress : tryFind cm.virtToPhys address with
    | none =>
      simp only [step, remove, haddress] at hstep
      cases hstep
    | some phys =>
      obtain ⟨cm₁, hremove, hparents, hcells⟩ := remove_exact h.1 h.2 haddress
      have heq : cm₁ = cm' := Option.some.inj (hremove.symm.trans hstep)
      subst heq
      refine ⟨fun p c loc => ?_, fun c => ?_⟩
      · rw [hcells, if_neg (hmeets phys haddress p loc), hparents]
        exact h.1 p c loc
      · rw [hparents]
        exact h.2 c

end

/-- Along runs that keep to the condition, the tables are inverse of each other, and a removal
turns exactly the cells that hold the object into symbolic ones. -/
theorem inverse_of_reached {cm : ConcreteMemory A O (ChildLocation F T)}
    (h : Reached KeepsInverse cm) :
    (∀ p c loc, cell cm.children p loc = some (.concrete c) ↔ parentLoc cm.parents c p = some loc) ∧
    ∀ address phys, tryFind cm.virtToPhys address = some phys →
      ∃ cm', cm.remove address = some cm' ∧ ∀ p loc, cell cm'.children p loc =
        if cell cm.children p loc = some (.concrete phys) then some .symbolic
        else cell cm.children p loc := by
  have hinv : Inverse cm ∧ ParentsWf cm := by
    induction h with
    | empty =>
      refine ⟨fun p c loc => ?_, fun c => PersistentDict.wf_nil⟩
      simp [cell, cells, parentLoc, empty, tryFind]
    | step _ hmeets hstep ih => exact step_inverse ih hmeets hstep
  refine ⟨hinv.1, fun address phys haddress => ?_⟩
  obtain ⟨cm', hremove, -, hcells⟩ := remove_exact hinv.1 hinv.2 haddress
  exact ⟨cm', hremove, hcells⟩

end

/-! ### One object in one cell, and a cell overwritten -/

/-- Objects `0` and `1`, with nothing known about their cells. -/
def twoAllocated : ConcreteMemory ℕ ℕ (ChildLocation Unit Unit) :=
  ⟨[(0, 0), (1, 1)], [(0, 0), (1, 1)], [], [], []⟩

theorem inverse_of_reached_stored :
    ∃ cm : ConcreteMemory ℕ ℕ (ChildLocation Unit Unit), Reached KeepsInverse cm ∧
      cell cm.children 0 (.create (.field ())) = some (.concrete 1) ∧
      ∃ cm', cm.remove 1 = some cm' ∧ ∀ p loc, cell cm'.children p loc =
        if cell cm.children p loc = some (.concrete 1) then some .symbolic
        else cell cm.children p loc := by
  let _ : CellOrder ℕ (ChildLocation Unit Unit) := insertionOrder
  have hfirst : KeepsInverse insertionOrder (.empty : ConcreteMemory ℕ ℕ (ChildLocation Unit Unit))
      (.allocate 0 0) := trivial
  have hsecond : KeepsInverse insertionOrder (⟨[(0, 0)], [(0, 0)], [], [], []⟩ :
      ConcreteMemory ℕ ℕ (ChildLocation Unit Unit)) (.allocate 1 1) := trivial
  have hset : KeepsInverse insertionOrder twoAllocated (.setChild 0 (.ref 1) (.field ())) :=
    fun _ => ⟨nofun, nofun, .inl rfl⟩
  have hreached := ((Reached.empty.step hfirst rfl).step hsecond rfl).step hset rfl
  exact ⟨_, hreached, by decide +kernel, (inverse_of_reached hreached).2 1 1 (by decide +kernel)⟩

/-- Object `1` is put in the field of `0`, which is then overwritten with the object `2`. -/
def overwritten : List (Operation ℕ ℕ Unit Unit) :=
  [.allocate 0 0, .allocate 1 1, .allocate 2 2, .setChild 0 (.ref 1) (.field ()),
    .setChild 0 (.ref 2) (.field ())]

/-- The cell holds `2`, yet `parents` still leads from `1` to it, and removing `1` makes the cell
symbolic. -/
theorem remove_marks_overwritten : letI : CellOrder ℕ (ChildLocation Unit Unit) := insertionOrder
    ∃ cm cm', run overwritten = some cm ∧
      cell cm.children 0 (.create (.field ())) = some (.concrete 2) ∧
      parentLoc cm.parents 1 0 = some (.create (.field ())) ∧
      cm.remove 1 = some cm' ∧ cell cm'.children 0 (.create (.field ())) = some .symbolic := by
  let _ : CellOrder ℕ (ChildLocation Unit Unit) := insertionOrder
  have hfacts : (run overwritten).any (fun cm =>
      cell cm.children 0 (.create (.field ())) = some (.concrete 2) &&
      parentLoc cm.parents 1 0 = some (.create (.field ())) &&
      (cm.remove 1).any fun cm' => cell cm'.children 0 (.create (.field ())) = some .symbolic) =
      true := by
    decide +kernel
  obtain ⟨cm, hrun, hfacts⟩ := (Option.any_eq_true _ _).mp hfacts
  simp only [Bool.and_eq_true, decide_eq_true_eq] at hfacts
  obtain ⟨⟨hcell, hparent⟩, hremove⟩ := hfacts
  obtain ⟨cm', hremove, hsymbolic⟩ := (Option.any_eq_true _ _).mp hremove
  exact ⟨cm, cm', hrun, hcell, hparent, hremove, of_decide_eq_true hsymbolic⟩

end VSharp.ConcreteMemory
