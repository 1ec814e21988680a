import VSharp.Core.ConcreteMemory

/-!
# Core — Concreteness

What `fullyConcretes` promises: an object in it reaches no symbolic cell (`FullyConcrete`).  The check
is a depth-first search that takes an object it is still busy with for concrete and caches what it
finishes.  When it meets such an open object and then a symbolic cell, it may have cached an object
that reaches the cell.  And a reference that is only read is put in its cell without a look at the
cache.

* `fullyConcretes_of_reached`: along runs without these two steps (`KeepsConcreteness`), the cache
  holds fully concrete objects only, and so does `TryFullyConcrete` return one.
* `tryFullyConcrete_lies`: a cycle with a symbolic cell, half of which gets cached.
-/

namespace VSharp.ConcreteMemory
open List HashSet
open PersistentDict (tryFind keys)

variable {A O L F T : Type} [DecidableEq O]

section
variable (children : Pdict O (Pdict L (Cell O)))

/-- A cell of `p` holds `c`. -/
def Refers (p c : O) : Prop := ∃ loc, (loc, Cell.concrete c) ∈ cells children p

/-- A cell of `p` is symbolic. -/
def HasSymbolic (p : O) : Prop := ∃ loc, (loc, Cell.symbolic) ∈ cells children p

/-- Reachability through the cells. -/
def Reaches : O → O → Prop := Relation.ReflTransGen (Refers children)

/-- No symbolic cell is reachable. -/
def FullyConcrete (phys : O) : Prop := ∀ x, Reaches children phys x → ¬ HasSymbolic children x

/-- A set of objects without symbolic cells that holds what its objects refer to. -/
def Safe (W : O → Prop) : Prop :=
  ∀ x, W x → ¬ HasSymbolic children x ∧ ∀ c, Refers children x c → W c

end

variable {children : Pdict O (Pdict L (Cell O))} {W : O → Prop} {x c p : O}
variable {s s' : Check O} {opened : Bool}

theorem Safe.fullyConcrete (h : Safe children W) (hx : W x) : FullyConcrete children x := by
  intro y hy
  have hW : W y := by
    induction hy with
    | refl => exact hx
    | tail _ hc ih => exact (h _ ih).2 _ hc
  exact (h y hW).1

theorem safe_fullyConcrete : Safe children (FullyConcrete children) :=
  fun x hx => ⟨hx x .refl, fun _ hc y hy => hx y (.head hc hy)⟩

/-! ### The check -/

/-- The loop over the cells comes back to an object that is still being checked. -/
def cellsMeetOpen (checkRec : Check O → O → Option (Bool × Check O))
    (meetsRec : Check O → O → Bool) : Pdict L (Cell O) → Check O → Bool
  | [], _ => false
  | (_, .symbolic) :: _, _ => false
  | (_, .concrete child) :: rest, s =>
    meetsRec s child ||
      match checkRec s child with
      | some (true, s') => cellsMeetOpen checkRec meetsRec rest s'
      | _ => false

/-- The check of `phys` comes back to an object that is still being checked. -/
def meetsOpen [CellOrder O L] (children : Pdict O (Pdict L (Cell O))) : ℕ → Check O → O → Bool
  | 0, _, _ => false
  | depth + 1, s, phys =>
    if phys ∈ s.fullyConcretes then false
    else if phys ∈ s.tracked then true
    else cellsMeetOpen (checkConcretenessRec children depth) (meetsOpen children depth)
      (enumerated children phys) { s with tracked := add s.tracked phys }

/-- What a check from `s` to `s'` has done.  With the answer true, each object it has cached refers
to objects that are cached or were tracked before; and when it has met no open object, to cached
ones, whatever the answer. -/
structure Checked (children : Pdict O (Pdict L (Cell O))) (s s' : Check O) (answer opened : Bool) :
    Prop where
  grows : s.fullyConcretes ⊆ s'.fullyConcretes
  tracked : answer = true → ∀ y ∈ s'.tracked, y ∈ s.tracked ∨ y ∈ s'.fullyConcretes
  cached : answer = true → ∀ y ∈ s'.fullyConcretes, y ∉ s.fullyConcretes →
    ¬ HasSymbolic children y ∧ ∀ c, Refers children y c → c ∈ s'.fullyConcretes ∨ c ∈ s.tracked
  closed : opened = false → ∀ y ∈ s'.fullyConcretes, y ∉ s.fullyConcretes →
    ¬ HasSymbolic children y ∧ ∀ c, Refers children y c → c ∈ s'.fullyConcretes

/-- The checked object itself: cached or tracked before when the answer is true, cached when no open
object was met, and a way to a symbolic cell when the answer is false. -/
structure CheckedObject (children : Pdict O (Pdict L (Cell O))) (s s' : Check O)
    (answer opened : Bool) (phys : O) : Prop extends Checked children s s' answer opened where
  self : answer = true → phys ∈ s'.fullyConcretes ∨ phys ∈ s.tracked
  selfClosed : answer = true → opened = false → phys ∈ s'.fullyConcretes
  symbolic : answer = false → ¬ FullyConcrete children phys

/-- The same for a run over the cells of an object. -/
structure CheckedCells (children : Pdict O (Pdict L (Cell O))) (s s' : Check O)
    (answer opened : Bool) (entries : Pdict L (Cell O)) : Prop
    extends Checked children s s' answer opened where
  noSymbolic : answer = true → ∀ loc, (loc, Cell.symbolic) ∉ entries
  self : answer = true → ∀ loc c, (loc, Cell.concrete c) ∈ entries →
    c ∈ s'.fullyConcretes ∨ c ∈ s.tracked
  selfClosed : answer = true → opened = false → ∀ loc c, (loc, Cell.concrete c) ∈ entries →
    c ∈ s'.fullyConcretes
  symbolic : answer = false → (∃ loc, (loc, Cell.symbolic) ∈ entries) ∨
    ∃ loc c, (loc, Cell.concrete c) ∈ entries ∧ ¬ FullyConcrete children c

theorem checked_refl (children : Pdict O (Pdict L (Cell O))) (s : Check O) (answer opened : Bool) :
    Checked children s s answer opened where
  grows := List.Subset.refl _
  tracked _ _ hy := .inl hy
  cached _ _ hy hn := absurd hy hn
  closed _ _ hy hn := absurd hy hn

theorem Checked.trans {s₁ s₂ : Check O} {answer o₁ o₂ : Bool} (h₁ : Checked children s s₁ true o₁)
    (h₂ : Checked children s₁ s₂ answer o₂) :
    Checked children s s₂ answer (o₁ || o₂) where
  grows := List.Subset.trans h₁.grows h₂.grows
  tracked ha y hy := by
    rcases h₂.tracked ha y hy with hy | hy
    · rcases h₁.tracked rfl y hy with hy | hy
      · exact .inl hy
      · exact .inr (h₂.grows hy)
    · exact .inr hy
  cached ha y hy hn := by
    by_cases hy₁ : y ∈ s₁.fullyConcretes
    · obtain ⟨hsym, hrefs⟩ := h₁.cached rfl y hy₁ hn
      refine ⟨hsym, fun c hc => ?_⟩
      exact (hrefs c hc).imp_left fun hc => h₂.grows hc
    · obtain ⟨hsym, hrefs⟩ := h₂.cached ha y hy hy₁
      refine ⟨hsym, fun c hc => ?_⟩
      rcases hrefs c hc with hc | hc
      · exact .inl hc
      · exact (h₁.tracked rfl c hc).symm.imp_left fun hc => h₂.grows hc
  closed ho y hy hn := by
    rw [Bool.or_eq_false_iff] at ho
    by_cases hy₁ : y ∈ s₁.fullyConcretes
    · obtain ⟨hsym, hrefs⟩ := h₁.closed ho.1 y hy₁ hn
      exact ⟨hsym, fun c hc => h₂.grows (hrefs c hc)⟩
    · exact h₂.closed ho.2 y hy hy₁

theorem checkCells_checked {checkRec : Check O → O → Option (Bool × Check O)}
    {meetsRec : Check O → O → Bool} (hrec : ∀ s phys b s', checkRec s phys = some (b, s') →
      CheckedObject children s s' b (meetsRec s phys) phys) {entries : Pdict L (Cell O)}
    {b : Bool} (h : checkCells checkRec entries s = some (b, s')) :
    CheckedCells children s s' b (cellsMeetOpen checkRec meetsRec entries s) entries := by
  induction entries generalizing s with
  | nil =>
    cases h
    exact { checked_refl children _ true false with
      noSymbolic := by simp
      self := by simp
      selfClosed := by simp
      symbolic := fun h => by cases h }
  | cons e rest ih =>
    obtain ⟨loc, cl⟩ := e
    cases cl with
    | symbolic =>
      cases h
      exact { checked_refl children _ false false with
        noSymbolic := fun h => by cases h
        self := fun h => by cases h
        selfClosed := fun h => by cases h
        symbolic := fun _ => .inl ⟨loc, mem_cons_self⟩ }
    | concrete child =>
      rw [checkCells] at h
      cases hr : checkRec s child with
      | none =>
        rw [hr] at h
        cases h
      | some r =>
        obtain ⟨b₁, s₁⟩ := r
        have hchild := hrec s child b₁ s₁ hr
        rw [hr] at h
        cases b₁ with
        | false =>
          cases h
          simp only [cellsMeetOpen, hr, Bool.or_false]
          exact { hchild with
            noSymbolic := fun h => by cases h
            self := fun h => by cases h
            selfClosed := fun h => by cases h
            symbolic := fun _ =>
              .inr ⟨loc, child, mem_cons_self, hchild.symbolic rfl⟩ }
        | true =>
          have hrest := ih h
          simp only [cellsMeetOpen, hr]
          refine { hchild.toChecked.trans hrest.toChecked with
            noSymbolic := ?_
            self := ?_
            selfClosed := ?_
            symbolic := ?_ }
          · intro ha loc' hmem
            rcases mem_cons.mp hmem with heq | hmem
            · cases heq
            · exact hrest.noSymbolic ha loc' hmem
          · intro ha loc' c hmem
            rcases mem_cons.mp hmem with heq | hmem
            · cases heq
              exact (hchild.self rfl).imp_left fun hc => hrest.grows hc
            · rcases hrest.self ha loc' c hmem with hc | hc
              · exact .inl hc
              · exact (hchild.tracked rfl c hc).symm.imp_left fun hc => hrest.grows hc
          · intro ha ho loc' c hmem
            rw [Bool.or_eq_false_iff] at ho
            rcases mem_cons.mp hmem with heq | hmem
            · cases heq
              exact hrest.grows (hchild.selfClosed rfl ho.1)
            · exact hrest.selfClosed ha ho.2 loc' c hmem
          · intro ha
            rcases hrest.symbolic ha with ⟨loc', hmem⟩ | ⟨loc', c, hmem, hc⟩
            · exact .inl ⟨loc', mem_cons_of_mem _ hmem⟩
            · exact .inr ⟨loc', c, mem_cons_of_mem _ hmem, hc⟩

/-- The cells of `phys` hold a symbolic cell, now or further on. -/
theorem CheckedCells.not_fullyConcrete {phys : O}
    (h : CheckedCells children s s' false opened (cells children phys)) :
    ¬ FullyConcrete children phys := by
  intro hphys
  rcases h.symbolic rfl with ⟨loc, hmem⟩ | ⟨loc, c, hmem, hc⟩
  · exact hphys phys .refl ⟨loc, hmem⟩
  · exact hc ((safe_fullyConcrete phys hphys).2 c ⟨loc, hmem⟩)

/-- All cells of `phys` found concrete, `phys` is cached. -/
theorem CheckedCells.cache {phys : O}
    (h : CheckedCells children { s with tracked := add s.tracked phys } s' true opened
      (cells children phys)) :
    CheckedObject children s
      { s' with fullyConcretes := add s'.fullyConcretes phys } true opened phys where
  grows y hy := mem_add.mpr (.inl (h.grows hy))
  tracked _ y hy := by
    rcases h.tracked rfl y hy with hy | hy
    · exact (mem_add.mp hy).imp_right fun hy => mem_add.mpr (.inr hy)
    · exact .inr (mem_add.mpr (.inl hy))
  cached _ y hy hn := by
    -- an object that was open because `phys` was is cached by now
    have hstill : ∀ c, c ∈ s'.fullyConcretes ∨ c ∈ add s.tracked phys →
        c ∈ add s'.fullyConcretes phys ∨ c ∈ s.tracked := by
      intro c hc
      rw [mem_add] at hc ⊢
      tauto
    rcases mem_add.mp hy with hy | rfl
    · obtain ⟨hsym, hrefs⟩ := h.cached rfl y hy hn
      exact ⟨hsym, fun c hc => hstill c (hrefs c hc)⟩
    · refine ⟨fun ⟨loc, hmem⟩ => h.noSymbolic rfl loc hmem, fun c hc => ?_⟩
      obtain ⟨loc, hmem⟩ := hc
      exact hstill c (h.self rfl loc c hmem)
  closed ho y hy hn := by
    rcases mem_add.mp hy with hy | rfl
    · obtain ⟨hsym, hrefs⟩ := h.closed ho y hy hn
      exact ⟨hsym, fun c hc => mem_add.mpr (.inl (hrefs c hc))⟩
    · refine ⟨fun ⟨loc, hmem⟩ => h.noSymbolic rfl loc hmem, fun c hc => ?_⟩
      obtain ⟨loc, hmem⟩ := hc
      exact mem_add.mpr (.inl (h.selfClosed rfl ho loc c hmem))
  self _ := .inl (mem_add.mpr (.inr rfl))
  selfClosed _ _ := mem_add.mpr (.inr rfl)
  symbolic := nofun

section
variable [CellOrder O L]

/-- The order of the cells does not matter for what the run over them has done. -/
theorem CheckedCells.of_enumerated {phys : O} {answer : Bool}
    (h : CheckedCells children s s' answer opened (enumerated children phys)) :
    CheckedCells children s s' answer opened (cells children phys) where
  toChecked := h.toChecked
  noSymbolic ha loc hmem := h.noSymbolic ha loc (mem_enumerated.mpr hmem)
  self ha loc c hmem := h.self ha loc c (mem_enumerated.mpr hmem)
  selfClosed ha ho loc c hmem := h.selfClosed ha ho loc c (mem_enumerated.mpr hmem)
  symbolic ha := by
    rcases h.symbolic ha with ⟨loc, hmem⟩ | ⟨loc, c, hmem, hc⟩
    · exact .inl ⟨loc, mem_enumerated.mp hmem⟩
    · exact .inr ⟨loc, c, mem_enumerated.mp hmem, hc⟩

theorem checkConcretenessRec_checked (depth : ℕ) {phys : O} {b : Bool}
    (h : checkConcretenessRec children depth s phys = some (b, s')) :
    CheckedObject children s s' b (meetsOpen children depth s phys) phys := by
  induction depth generalizing s phys b s' with
  | zero => cases h
  | succ depth ih =>
    rw [checkConcretenessRec] at h
    split at h
    case isTrue hknown =>
      cases h
      refine { checked_refl children s true _ with
        self := fun _ => hknown
        selfClosed := fun _ ho => ?_
        symbolic := fun h => by cases h }
      by_contra hn
      simp only [meetsOpen, if_neg hn, if_pos (hknown.resolve_left hn)] at ho
      cases ho
    case isFalse hnew =>
      rw [not_or] at hnew
      have hopened : meetsOpen children (depth + 1) s phys =
          cellsMeetOpen (checkConcretenessRec children depth) (meetsOpen children depth)
            (enumerated children phys) { s with tracked := add s.tracked phys } := by
        simp only [meetsOpen, if_neg hnew.1, if_neg hnew.2]
      rw [hopened]
      cases hr : checkCells (checkConcretenessRec children depth) (enumerated children phys)
          { s with tracked := add s.tracked phys } with
      | none =>
        rw [hr] at h
        cases h
      | some r =>
        obtain ⟨b₁, s₁⟩ := r
        have hcells := (checkCells_checked (fun _ _ _ _ => ih) hr).of_enumerated
        rw [hr] at h
        cases b₁ with
        | false =>
          cases h
          have hno {p : Prop} (h : false = true) : p := by cases h
          exact ⟨⟨hcells.grows, hno, hno, hcells.closed⟩, hno, hno,
            fun _ => hcells.not_fullyConcrete⟩
        | true =>
          cases h
          exact hcells.cache

/-- The check of `phys` comes back to an object that it has not finished. -/
def checkMeetsOpen (cm : ConcreteMemory A O L) (phys : O) : Bool :=
  meetsOpen cm.children (cm.children.length + 1) ⟨[], cm.fullyConcretes⟩ phys

section
variable (cm : ConcreteMemory A O L) (phys : O)

theorem checkConcreteness_checked :
    ∃ s, CheckedObject cm.children ⟨[], cm.fullyConcretes⟩ s (cm.checkConcreteness phys).1
        (cm.checkMeetsOpen phys) phys ∧
      (cm.checkConcreteness phys).2.fullyConcretes = s.fullyConcretes := by
  obtain ⟨r, hr⟩ := Option.isSome_iff_exists.mp (runCheck_isSome cm.children cm.fullyConcretes phys)
  have hresult : cm.checkConcreteness phys =
      (r.1, { cm with fullyConcretes := r.2.fullyConcretes }) := by
    simp only [checkConcreteness, hr, Option.get_some]
  rw [hresult]
  exact ⟨r.2, checkConcretenessRec_checked _ hr, rfl⟩

variable {cm phys}

/-- What a check with the answer true, or without open objects, adds to the cache is closed. -/
theorem checkConcreteness_cached
    (h : (cm.checkConcreteness phys).1 = true ∨ cm.checkMeetsOpen phys = false) {y : O}
    (hy : y ∈ (cm.checkConcreteness phys).2.fullyConcretes) (hn : y ∉ cm.fullyConcretes) :
    ¬ HasSymbolic cm.children y ∧
      ∀ c, Refers cm.children y c → c ∈ (cm.checkConcreteness phys).2.fullyConcretes := by
  obtain ⟨s, hs, hfc⟩ := cm.checkConcreteness_checked phys
  rw [hfc] at hy ⊢
  rcases h with h | h
  · obtain ⟨hsym, hrefs⟩ := hs.cached h y hy hn
    exact ⟨hsym, fun c hc => (hrefs c hc).resolve_right not_mem_nil⟩
  · exact hs.closed h y hy hn

theorem mem_of_checkConcreteness (h : (cm.checkConcreteness phys).1 = true) :
    phys ∈ (cm.checkConcreteness phys).2.fullyConcretes := by
  obtain ⟨s, hs, hfc⟩ := cm.checkConcreteness_checked phys
  rw [hfc]
  exact (hs.self h).resolve_right not_mem_nil

theorem checkConcreteness_of_fullyConcrete (h : FullyConcrete cm.children phys) :
    (cm.checkConcreteness phys).1 = true := by
  obtain ⟨s, hs, -⟩ := cm.checkConcreteness_checked phys
  by_contra hn
  exact hs.symbolic (Bool.eq_false_of_not_eq_true hn) h

end

end

/-! ### The invariant -/

/-- The cache holds fully concrete objects, and the parents of an object are recorded. -/
structure CacheSound (cm : ConcreteMemory A O L) : Prop where
  sound : ∀ x ∈ cm.fullyConcretes, FullyConcrete cm.children x
  recorded : ∀ p c, Refers cm.children p c → parentLoc cm.parents c p ≠ none

variable {cm : ConcreteMemory A O L} {phys y : O}

theorem CacheSound.mem_ancestors (h : CacheSound cm) (hc : c ∈ ancestors cm.parents phys)
    (hy : Refers cm.children y c) : y ∈ ancestors cm.parents phys := by
  rw [ancestors, Library.Links.mem_visit] at hc ⊢
  exact hc.tail (mem_parentLinks_next.mpr (h.recorded y c hy))

theorem self_mem_ancestors (parents : Pdict O (Pdict O L)) (phys : O) :
    phys ∈ ancestors parents phys := by
  rw [ancestors, Library.Links.mem_visit]
  exact .refl

theorem CacheSound.ancestors_of_reaches (h : CacheSound cm) (hy : Reaches cm.children y phys) :
    y ∈ ancestors cm.parents phys := by
  induction hy using Relation.ReflTransGen.head_induction_on with
  | refl => exact self_mem_ancestors _ _
  | head hc _ ih => exact h.mem_ancestors ih hc

theorem mem_removeFromFullyConcretesRec :
    x ∈ (cm.removeFromFullyConcretesRec phys).fullyConcretes ↔
      x ∈ cm.fullyConcretes ∧ x ∉ ancestors cm.parents phys := by
  have hloop (l fc : List O) :
      x ∈ l.foldl (fun fullyConcretes child => fullyConcretes.filter (· ≠ child)) fc ↔
        x ∈ fc ∧ x ∉ l := by
    induction l generalizing fc with
    | nil => simp
    | cons a l ih =>
      rw [foldl_cons, ih]
      simp [and_assoc]
  exact hloop _ _

/-- A check that is careful keeps the cache sound. -/
theorem CacheSound.check [CellOrder O L] (h : CacheSound cm)
    (hcheck : (cm.checkConcreteness phys).1 = true ∨ cm.checkMeetsOpen phys = false) :
    CacheSound (cm.checkConcreteness phys).2 where
  recorded := h.recorded
  sound := by
    have hsafe : Safe cm.children fun y => FullyConcrete cm.children y ∨
        y ∈ (cm.checkConcreteness phys).2.fullyConcretes := by
      intro y hy
      by_cases hfull : FullyConcrete cm.children y
      · obtain ⟨hsym, hrefs⟩ := safe_fullyConcrete y hfull
        exact ⟨hsym, fun c hc => .inl (hrefs c hc)⟩
      · obtain ⟨hsym, hrefs⟩ := checkConcreteness_cached hcheck (hy.resolve_left hfull)
          fun hmem => hfull (h.sound y hmem)
        exact ⟨hsym, fun c hc => .inr (hrefs c hc)⟩
    exact fun x hx => hsafe.fullyConcrete (.inr hx)

/-! ### Writes and reads of a cell -/

section
variable [DecidableEq L] {loc : L} {update : Bool}

section
variable (h : update = true ∨ cell children p loc ≠ some .symbolic)

include h

theorem refers_putChild {q d : O}
    (hd : Refers (putChild children p c loc update) q d) :
    q = p ∧ d = c ∨ Refers children q d := by
  obtain ⟨loc', hmem⟩ := hd
  rw [cells_putChild h] at hmem
  split at hmem
  case isTrue hq =>
    subst hq
    rcases Dictionary.mem_set.mp hmem with heq | ⟨-, hmem⟩
    · cases heq
      exact .inl ⟨rfl, rfl⟩
    · exact .inr ⟨loc', hmem⟩
  case isFalse => exact .inr ⟨loc', hmem⟩

theorem hasSymbolic_putChild {q : O}
    (hq : HasSymbolic (putChild children p c loc update) q) : HasSymbolic children q := by
  obtain ⟨loc', hmem⟩ := hq
  rw [cells_putChild h] at hmem
  split at hmem
  case isTrue hq =>
    subst hq
    rcases Dictionary.mem_set.mp hmem with heq | ⟨-, hmem⟩
    · cases heq
    · exact ⟨loc', hmem⟩
  case isFalse => exact ⟨loc', hmem⟩

/-- An object that does not reach `p` does not see the new reference. -/
theorem fullyConcrete_putChild_of_not_reaches (hx : FullyConcrete children x)
    (hp : ¬ Reaches children x p) : FullyConcrete (putChild children p c loc update) x := by
  have hsafe : Safe (putChild children p c loc update) fun y =>
      FullyConcrete children y ∧ ¬ Reaches children y p := by
    intro y hy
    obtain ⟨hsym, hrefs⟩ := safe_fullyConcrete y hy.1
    refine ⟨fun hnew => hsym (hasSymbolic_putChild h hnew), fun d hd => ?_⟩
    rcases refers_putChild h hd with ⟨rfl, -⟩ | hd
    · exact absurd .refl hy.2
    · exact ⟨hrefs d hd, fun hreach => hy.2 (.head hd hreach)⟩
  exact hsafe.fullyConcrete ⟨hx, hp⟩

/-- The new reference leads to a set of objects that is closed but for what was fully concrete. -/
theorem fullyConcrete_putChild {V : O → Prop} (hc : V c)
    (hV : ∀ y, V y → FullyConcrete children y ∨
      ¬ HasSymbolic (putChild children p c loc update) y ∧
        ∀ d, Refers (putChild children p c loc update) y d → V d)
    (hx : FullyConcrete children x ∨ V x) :
    FullyConcrete (putChild children p c loc update) x := by
  have hsafe : Safe (putChild children p c loc update) fun y => FullyConcrete children y ∨ V y := by
    intro y hy
    by_cases hfull : FullyConcrete children y
    · obtain ⟨hsym, hrefs⟩ := safe_fullyConcrete y hfull
      refine ⟨fun hnew => hsym (hasSymbolic_putChild h hnew), fun d hd => ?_⟩
      rcases refers_putChild h hd with ⟨-, rfl⟩ | hd
      · exact .inr hc
      · exact .inl (hrefs d hd)
    · obtain ⟨hsym, hrefs⟩ := (hV y (hy.resolve_left hfull)).resolve_left hfull
      exact ⟨hsym, fun d hd => .inr (hrefs d hd)⟩
  exact hsafe.fullyConcrete hx

end

theorem CacheSound.recorded_addRefChild [CellOrder O L] (h : CacheSound cm)
    (hread : update = true ∨ cell cm.children p loc ≠ some .symbolic) {q d : O}
    (hd : Refers (putChild cm.children p c loc update) q d) :
    parentLoc (cm.addRefChild p c loc update).parents d q ≠ none := by
  rw [parentLoc_addRefChild]
  split
  case isTrue => simp
  case isFalse hne =>
    rcases refers_putChild hread hd with ⟨hq, hdc⟩ | hd
    · exact absurd ⟨hdc, hq⟩ hne
    · exact h.recorded q d hd

/-- A write, when the check of the new child is careful. -/
theorem CacheSound.setRefChild [CellOrder O L] (h : CacheSound cm)
    (hcheck : { cm with children := putChild cm.children p c loc true }.hasFullyConcreteParent p =
        true →
      FullyConcrete (putChild cm.children p c loc true) c ∨
      { cm with children := putChild cm.children p c loc true }.checkMeetsOpen c = false) :
    CacheSound (cm.addRefChild p c loc true) where
  recorded q d hd := by
    rw [addRefChild_children] at hd
    exact h.recorded_addRefChild (.inl rfl) hd
  sound := by
    rw [addRefChild_children]
    intro x hx
    generalize hcm₁ : { cm with children := putChild cm.children p c loc true } = cm₁ at hcheck
    have hchildren : cm₁.children = putChild cm.children p c loc true := by rw [← hcm₁]
    have hparents : cm₁.parents = cm.parents := by rw [← hcm₁]
    have hcache : cm₁.fullyConcretes = cm.fullyConcretes := by rw [← hcm₁]
    have hx : x ∈ (cm₁.recheck p c).fullyConcretes := by
      simpa [addRefChild, addToParents, hcm₁] using hx
    rw [recheck] at hx
    split at hx
    case isFalse hnone =>
      -- no ancestor of `p` is cached: no cached object reaches `p`
      rw [hcache] at hx
      refine fullyConcrete_putChild_of_not_reaches (.inl rfl) (h.sound x hx) fun hreach => hnone ?_
      rw [hasFullyConcreteParent, any_eq_true, hparents]
      exact ⟨x, h.ancestors_of_reaches hreach, by simpa [hcache] using hx⟩
    case isTrue hsome =>
      have hcheck := hcheck hsome
      rw [← hchildren] at hcheck
      have hcareful : (cm₁.checkConcreteness c).1 = true ∨ cm₁.checkMeetsOpen c = false :=
        hcheck.imp_left checkConcreteness_of_fullyConcrete
      have hcached : ∀ y ∈ (cm₁.checkConcreteness c).2.fullyConcretes,
          FullyConcrete cm.children y ∨ ¬ HasSymbolic (putChild cm.children p c loc true) y ∧
            ∀ d, Refers (putChild cm.children p c loc true) y d →
              d ∈ (cm₁.checkConcreteness c).2.fullyConcretes := by
        intro y hy
        by_cases hold : y ∈ cm.fullyConcretes
        · exact .inl (h.sound y hold)
        · rw [← hchildren]
          exact .inr (checkConcreteness_cached hcareful hy (hcache ▸ hold))
      simp only at hx
      split at hx
      case isTrue htrue =>
        exact fullyConcrete_putChild (.inl rfl) (mem_of_checkConcreteness htrue) hcached (.inr hx)
      case isFalse =>
        -- what is left in the cache has no way to `p`
        rw [mem_removeFromFullyConcretesRec, checkConcreteness_parents, hparents] at hx
        have hsafe : Safe (putChild cm.children p c loc true) fun y =>
            y ∉ ancestors cm.parents p ∧ (FullyConcrete cm.children y ∨
              y ∈ (cm₁.checkConcreteness c).2.fullyConcretes) := by
          intro y hy
          have hold : ∀ d, Refers (putChild cm.children p c loc true) y d →
              Refers cm.children y d := by
            intro d hd
            rcases refers_putChild (.inl rfl) hd with ⟨rfl, -⟩ | hd
            · exact absurd (self_mem_ancestors _ _) hy.1
            · exact hd
          have hout : ∀ d, Refers cm.children y d → d ∉ ancestors cm.parents p :=
            fun d hd hmem => hy.1 (h.mem_ancestors hmem hd)
          by_cases hfull : FullyConcrete cm.children y
          · obtain ⟨hsym, hrefs⟩ := safe_fullyConcrete y hfull
            exact ⟨fun hnew => hsym (hasSymbolic_putChild (.inl rfl) hnew),
              fun d hd => ⟨hout d (hold d hd), .inl (hrefs d (hold d hd))⟩⟩
          · obtain ⟨hsym, hrefs⟩ :=
              (hcached y (hy.2.resolve_left hfull)).resolve_left hfull
            exact ⟨hsym, fun d hd => ⟨hout d (hold d hd), .inr (hrefs d hd)⟩⟩
        exact hsafe.fullyConcrete ⟨hx.2, .inr hx.1⟩

/-- A read, when the child is fully concrete or no cached object reaches the parent. -/
theorem CacheSound.trackRefChild [CellOrder O L] (h : CacheSound cm)
    (htrack : cell cm.children p loc ≠ some .symbolic →
      (∃ x ∈ cm.fullyConcretes, Reaches cm.children x p) → FullyConcrete cm.children c) :
    CacheSound (cm.addRefChild p c loc false) := by
  have hcache : (cm.addRefChild p c loc false).fullyConcretes = cm.fullyConcretes := rfl
  by_cases hread : cell cm.children p loc = some .symbolic
  · have hchildren : (cm.addRefChild p c loc false).children = cm.children := by
      rw [addRefChild_children, putChild_symbolic hread]
    refine ⟨?_, fun q d hd => ?_⟩
    · rw [hchildren, hcache]
      exact h.sound
    · rw [hchildren] at hd
      rw [parentLoc_addRefChild]
      split
      · simp
      · exact h.recorded q d hd
  · refine ⟨fun x hx => ?_, fun q d hd => ?_⟩
    · rw [hcache] at hx
      rw [addRefChild_children]
      by_cases hreach : Reaches cm.children x p
      · have hc := htrack hread ⟨x, hx, hreach⟩
        exact fullyConcrete_putChild (V := FullyConcrete cm.children) (.inr hread) hc
          (fun y hy => .inl hy) (.inl (h.sound x hx))
      · exact fullyConcrete_putChild_of_not_reaches (.inr hread) (h.sound x hx) hreach
    · rw [addRefChild_children] at hd
      exact h.recorded_addRefChild (.inr hread) hd

theorem CacheSound.nullChild (h : CacheSound cm) :
    CacheSound { cm with children := removeChild cm.children p loc } := by
  have hsub : ∀ q, ∀ e ∈ cells (removeChild cm.children p loc) q, e ∈ cells cm.children q := by
    intro q e he
    rw [cells_removeChild] at he
    split at he
    case isTrue hq =>
      subst hq
      exact (PersistentDict.mem_remove.mp he).1
    case isFalse => exact he
  have hsafe : Safe (removeChild cm.children p loc) (FullyConcrete cm.children) := by
    intro y hy
    obtain ⟨hsym, hrefs⟩ := safe_fullyConcrete y hy
    exact ⟨fun ⟨loc', hmem⟩ => hsym ⟨loc', hsub y _ hmem⟩,
      fun d ⟨loc', hmem⟩ => hrefs d ⟨loc', hsub y _ hmem⟩⟩
  exact ⟨fun x hx => hsafe.fullyConcrete (h.sound x hx),
    fun q d ⟨loc', hmem⟩ => h.recorded q d ⟨loc', hsub q _ hmem⟩⟩

/-! ### Removal -/

/-- `MarkSymbolic` changes only cells of the parents it comes to, and only to symbolic ones. -/
theorem mem_cells_markSymbolic {q : O} {e : L × Cell O}
    (he : e ∈ cells (cm.markSymbolic phys).children q) :
    e ∈ cells cm.children q ∨ e.2 = .symbolic ∧ q ∈ keys ((tryFind cm.parents phys).getD []) := by
  have hloop (entries : Pdict O L) (children : Pdict O (Pdict L (Cell O)))
      (he : e ∈ cells (entries.foldl (fun children e =>
        Dictionary.set e.1 (Dictionary.set e.2 .symbolic (cells children e.1)) children)
        children) q) :
      e ∈ cells children q ∨ e.2 = .symbolic ∧ q ∈ keys entries := by
    induction entries generalizing children with
    | nil => exact .inl he
    | cons a entries ih =>
      rcases ih _ he with he | ⟨hsym, hq⟩
      · rw [cells_set] at he
        split at he
        case isTrue hq =>
          rcases Dictionary.mem_set.mp he with rfl | ⟨-, he⟩
          · exact .inr ⟨rfl, by simp [PersistentDict.keys, hq]⟩
          · exact .inl (hq ▸ he)
        case isFalse => exact .inl he
      · exact .inr ⟨hsym, mem_cons_of_mem _ hq⟩
  exact hloop _ _ he

/-- The removal of an object takes its ancestors from the cache before their cells go symbolic. -/
theorem CacheSound.remove (h : CacheSound cm) :
    CacheSound ((cm.removeFromFullyConcretesRec phys).markSymbolic phys) := by
  have hparents : (cm.removeFromFullyConcretesRec phys).parents = cm.parents := rfl
  have hrefers : ∀ q d,
      Refers ((cm.removeFromFullyConcretesRec phys).markSymbolic phys).children q d →
      Refers cm.children q d := by
    rintro q d ⟨loc', hmem⟩
    rcases mem_cells_markSymbolic hmem with hmem | ⟨hsym, -⟩
    · exact ⟨loc', hmem⟩
    · cases hsym
  have hsafe : Safe ((cm.removeFromFullyConcretesRec phys).markSymbolic phys).children fun y =>
      y ∉ ancestors cm.parents phys ∧ FullyConcrete cm.children y := by
    intro y hy
    obtain ⟨hsym, hrefs⟩ := safe_fullyConcrete y hy.2
    refine ⟨?_, fun d hd => ⟨fun hmem => hy.1 (h.mem_ancestors hmem (hrefers y d hd)),
      hrefs d (hrefers y d hd)⟩⟩
    rintro ⟨loc', hmem⟩
    rcases mem_cells_markSymbolic hmem with hmem | ⟨-, hkey⟩
    · exact hsym ⟨loc', hmem⟩
    · rw [hparents] at hkey
      refine hy.1 ?_
      rw [ancestors, Library.Links.mem_visit]
      exact .single hkey
  refine ⟨fun x hx => ?_, fun q d hd => h.recorded q d (hrefers q d hd)⟩
  have hx' := mem_removeFromFullyConcretesRec.mp hx
  exact hsafe.fullyConcrete ⟨hx'.2, h.sound x hx'.1⟩

end

/-! ### Runs -/

section
variable [DecidableEq A] [DecidableEq F] [DecidableEq T]

/-- The condition of a check: it meets no symbolic cell, or no object that it has not finished. -/
def CheckCareful [CellOrder O L] (cm : ConcreteMemory A O L) (phys : O) : Prop :=
  FullyConcrete cm.children phys ∨ cm.checkMeetsOpen phys = false

/-- The condition of a reference put in a cell: for a write that has the new child checked, that of
the check; for a read that adds a reference, that the child is fully concrete if a cached object
reaches the parent. -/
def keepsConcreteness (A O L : Type) [DecidableEq O] [DecidableEq L] [CellOrder O L] (update : Bool) :
    CellCondition A O L where
  put cm p c loc :=
    let written := { cm with children := putChild cm.children p c loc true }
    if update then written.hasFullyConcreteParent p = true → CheckCareful written c
    else cell cm.children p loc ≠ some .symbolic →
      (∃ x ∈ cm.fullyConcretes, Reaches cm.children x p) → FullyConcrete cm.children c
  null _ _ _ := True

/-- The condition of each operation. -/
def KeepsConcreteness (_ : CellOrder O (ChildLocation F T))
    (cm : ConcreteMemory A O (ChildLocation F T)) : Operation A O F T → Prop
  | .allocate _ _ | .remove _ => True
  | .trackChild parent child childKind =>
    ChildMeets (keepsConcreteness A O _ false) cm parent child (.create childKind) false
  | .setChild parent child childKind =>
    ChildMeets (keepsConcreteness A O _ true) cm parent child (.create childKind) true
  | .tryFullyConcrete address => ∀ phys, tryFind cm.virtToPhys address = some phys →
      CheckCareful cm phys

omit [DecidableEq A] in
theorem addChild_cacheSound [CellOrder O (ChildLocation F T)] {cm : ConcreteMemory A O (ChildLocation F T)} {parent : O}
    {child : Child O F} {childLoc : ChildLocation F T} {update : Bool} (h : CacheSound cm)
    (hmeets : ChildMeets (keepsConcreteness A O _ update) cm parent child childLoc update) :
    CacheSound (cm.addChild parent child childLoc update) := by
  refine addChild_inv (fun cm loc hcm _ => hcm.nullChild) (fun cm child loc hcm _ hput => ?_)
    child childLoc hmeets h
  cases update with
  | true => exact hcm.setRefChild hput
  | false => exact hcm.trackRefChild hput

theorem step_cacheSound [order : CellOrder O (ChildLocation F T)]
    {cm cm' : ConcreteMemory A O (ChildLocation F T)}
    {op : Operation A O F T} (h : CacheSound cm) (hmeets : KeepsConcreteness order cm op)
    (hstep : cm.step op = some cm') : CacheSound cm' := by
  cases op with
  | allocate address obj =>
    simp only [step, allocate] at hstep
    split at hstep
    · cases hstep
    · cases hstep
      exact ⟨h.sound, h.recorded⟩
  | trackChild parent child childKind =>
    cases hstep
    exact addChild_cacheSound h hmeets
  | setChild parent child childKind =>
    cases hstep
    exact addChild_cacheSound h hmeets
  | tryFullyConcrete address =>
    cases hstep
    unfold tryFullyConcrete
    split
    case h_1 phys haddress =>
      exact h.check ((hmeets phys haddress).imp_left checkConcreteness_of_fullyConcrete)
    case h_2 => exact h
  | remove address =>
    simp only [step, ConcreteMemory.remove] at hstep
    split at hstep
    · cases hstep
    · cases hstep
      exact CacheSound.remove ⟨h.sound, h.recorded⟩

/-- Along runs that keep to the condition, cached objects reach no symbolic cell, and neither does
an object that `TryFullyConcrete` returns. -/
theorem fullyConcretes_of_reached {cm : ConcreteMemory A O (ChildLocation F T)}
    (h : Reached KeepsConcreteness cm) :
    (∀ x ∈ cm.fullyConcretes, FullyConcrete cm.children x) ∧
    ∀ [CellOrder O (ChildLocation F T)] address obj,
      (cm.tryFullyConcrete address).1 = some obj → FullyConcrete cm.children obj := by
  have hsound : CacheSound cm := by
    induction h with
    | empty =>
      refine ⟨nofun, ?_⟩
      rintro p c ⟨loc, hmem⟩
      cases hmem
    | step _ hmeets hstep ih => exact step_cacheSound ih hmeets hstep
  refine ⟨hsound.sound, fun {_} address obj hobj => ?_⟩
  unfold tryFullyConcrete at hobj
  split at hobj
  case h_1 phys _ =>
    simp only at hobj
    split at hobj
    case isTrue htrue =>
      cases hobj
      exact (hsound.check (.inl htrue)).sound obj (mem_of_checkConcreteness htrue)
    case isFalse => cases hobj
  case h_2 => cases hobj

end

/-! ### A cycle with a symbolic cell

Object `0` holds `1` and then `2`, object `1` holds `0`; `2` is removed, so that `0` has a symbolic
cell.  The check of `0` meets `1`, which refers back to `0`, and caches it before it comes to the
symbolic cell. -/

/-- The cycle, with the check of `0`. -/
def halfSymbolicCycle : List (Operation ℕ ℕ Bool Unit) :=
  [.allocate 0 0, .allocate 1 1, .allocate 2 2, .setChild 0 (.ref 1) (.field false),
    .setChild 0 (.ref 2) (.field true), .setChild 1 (.ref 0) (.field false), .remove 2,
    .tryFullyConcrete 0]

/-- `1` is returned as fully concrete and reaches the symbolic cell of `0`. -/
theorem tryFullyConcrete_lies : letI : CellOrder ℕ (ChildLocation Bool Unit) := insertionOrder
    ∃ cm, run halfSymbolicCycle = some cm ∧ (cm.tryFullyConcrete 1).1 = some 1 ∧
      ¬ FullyConcrete cm.children 1 := by
  let _ : CellOrder ℕ (ChildLocation Bool Unit) := insertionOrder
  have hfacts : (run halfSymbolicCycle).any (fun cm => (cm.tryFullyConcrete 1).1 = some 1 &&
      (ChildLocation.create (.field false), Cell.concrete 0) ∈ cells cm.children 1 &&
      (ChildLocation.create (.field true), Cell.symbolic) ∈ cells cm.children 0) = true := by
    decide +kernel
  obtain ⟨cm, hrun, hfacts⟩ := (Option.any_eq_true _ _).mp hfacts
  simp only [Bool.and_eq_true, decide_eq_true_eq] at hfacts
  obtain ⟨⟨hanswer, hrefers⟩, hsymbolic⟩ := hfacts
  exact ⟨cm, hrun, hanswer, fun h => h 0 (.single ⟨_, hrefers⟩) ⟨_, hsymbolic⟩⟩

/-- Object `0`, with nothing known about its cells. -/
def zeroAllocated : ConcreteMemory ℕ ℕ (ChildLocation Unit Unit) :=
  ⟨[(0, 0)], [(0, 0)], [], [], []⟩

/-- Object `0` holds `1`, and both get cached. -/
theorem fullyConcretes_of_reached_chain :
    ∃ cm : ConcreteMemory ℕ ℕ (ChildLocation Unit Unit), Reached KeepsConcreteness cm ∧
      0 ∈ cm.fullyConcretes ∧ FullyConcrete cm.children 0 := by
  let _ : CellOrder ℕ (ChildLocation Unit Unit) := insertionOrder
  have hallocate : KeepsConcreteness insertionOrder (.empty : ConcreteMemory ℕ ℕ (ChildLocation Unit Unit))
      (.allocate 0 0) := trivial
  have hset : KeepsConcreteness insertionOrder zeroAllocated (.setChild 0 (.ref 1) (.field ())) := by
    intro _ hparent
    simp [zeroAllocated, hasFullyConcreteParent] at hparent
  have hcheck : KeepsConcreteness insertionOrder (zeroAllocated.setChild 0 (.ref 1) (.field ()))
      (.tryFullyConcrete 0) := by
    intro phys hphys
    have hzero : tryFind (zeroAllocated.setChild 0 (.ref 1) (.field ())).virtToPhys 0 = some 0 := by
      decide +kernel
    cases Option.some.inj (hphys.symm.trans hzero)
    exact .inr (by decide +kernel)
  have hreached := ((Reached.empty.step hallocate rfl).step hset rfl).step hcheck rfl
  have hmem : 0 ∈ ((zeroAllocated.setChild 0 (.ref 1) (.field ())).tryFullyConcrete
      0).2.fullyConcretes := by
    decide +kernel
  exact ⟨_, hreached, hmem, (fullyConcretes_of_reached hreached).1 0 hmem⟩

end VSharp.ConcreteMemory
