import Mathlib.Data.List.Find
import VSharp.Utils.RegionTree

/-!
# Utils — RegionPieces

The nodes of a region tree, each a region with its key.  Writes cut nodes into pieces; what holds of
a node and of every piece of it holds of all nodes after a split.

* `Everywhere Q`: `Q` holds of every node of a tree;
* `splitNode_everywhere`: splitting keeps what pieces inherit, and puts every piece on its side;
* `find_flatten`: the first entry of the flattening among those that cover `p` is the first on the
  history of `p`.
-/

namespace VSharp
open List PersistentDict

namespace RegionTree
variable {K R P : Type}

/-- Every node of the tree satisfies `Q`. -/
inductive Everywhere (Q : R → K → Prop) : RegionTree K R → Prop where
  | node {d : Pdict R (K × RegionTree K R)} (here : ∀ e ∈ d, Q e.1 e.2.1)
      (below : ∀ e ∈ d, Everywhere Q e.2.2) : Everywhere Q (.node d)

namespace Everywhere
variable {Q Q' : R → K → Prop} {t : RegionTree K R} {d : Pdict R (K × RegionTree K R)}

theorem nil : Everywhere Q (.node []) := .node nofun nofun

theorem here (h : Everywhere Q t) {e : R × K × RegionTree K R} (he : e ∈ t.entries) :
    Q e.1 e.2.1 := by
  cases h with
  | node here _ => exact here e he

theorem child (h : Everywhere Q t) {e : R × K × RegionTree K R} (he : e ∈ t.entries) :
    Everywhere Q e.2.2 := by
  cases h with
  | node _ below => exact below e he

/-- The entries of a node, as a statement about each. -/
theorem of_entries (h : ∀ e ∈ t.entries, Q e.1 e.2.1 ∧ Everywhere Q e.2.2) : Everywhere Q t := by
  cases t with
  | node d => exact .node (fun e he => (h e he).1) fun e he => (h e he).2

theorem mono (h : Everywhere Q t) (hQ : ∀ r k, Q r k → Q' r k) : Everywhere Q' t := by
  induction h with
  | node here _ ih => exact .node (fun e he => hQ _ _ (here e he)) ih

theorem and (h : Everywhere Q t) (h' : Everywhere Q' t) :
    Everywhere (fun r k => Q r k ∧ Q' r k) t := by
  induction h with
  | node here _ ih =>
    exact .node (fun e he => ⟨here e he, h'.here he⟩) fun e he => ih e he (h'.child he)

theorem sub {d' : Pdict R (K × RegionTree K R)} (h : Everywhere Q (.node d)) (hsub : d' ⊆ d) :
    Everywhere Q (.node d') :=
  .node (fun _ he => h.here (hsub he)) fun _ he => h.child (hsub he)

end Everywhere

section
variable [ExactRegion R P] {t : RegionTree K R} {Q : R → K → Prop}
  {d₁ d₂ d : Pdict R (K × RegionTree K R)} {p : P} {reg : R}

open ExactRegion (contains)

/-- What holds of the roots and of every smaller region holds everywhere. -/
theorem Invariant.everywhere {S : R → Prop} (h : Invariant t)
    (hS : ∀ r r', S r → ExactRegion.Subset r' r → S r') (hroots : ∀ e ∈ t.entries, S e.1) :
    Everywhere (fun r _ => S r) t := by
  induction h with
  | node wf disjoint included subtrees ih =>
    exact .node hroots fun e he => ih e he fun e' he' => hS _ _ (hroots e he) (included e he e' he')

/-- The keys of a history are keys of nodes that cover the point. -/
theorem Everywhere.path (ht : Invariant t) (h : Everywhere Q t) :
    ∀ k ∈ path p t, ∃ r, contains r p = true ∧ Q r k := by
  induction h with
  | @node d here below ih =>
    intro k hk
    by_cases hex : ∃ e ∈ d, contains e.1 p = true
    · obtain ⟨e, he, hp⟩ := hex
      rw [path_of_mem ht he hp] at hk
      rcases mem_cons.mp hk with rfl | hk
      · exact ⟨e.1, hp, here e he⟩
      · exact ih e he (ht.laid.subtrees e he) k hk
    · rw [path_nil fun e he => by simpa using fun hp => hex ⟨e, he, hp⟩] at hk
      cases hk

theorem Everywhere.flatten (h : Everywhere Q t) : ∀ e ∈ flatten t, Q e.1 e.2 := by
  induction h with
  | @node d here below ih =>
    induction d with
    | nil => exact nofun
    | cons e d ihd =>
      obtain ⟨r, k, t⟩ := e
      rw [flatten_cons]
      refine forall_mem_append.mpr ⟨?_, forall_mem_cons.mpr ⟨?_, ?_⟩⟩
      · exact ihd (fun e he => here e (mem_cons_of_mem _ he))
          (fun e he => below e (mem_cons_of_mem _ he))
          fun e he => ih e (mem_cons_of_mem _ he)
      · exact here (r, k, t) mem_cons_self
      · exact ih (r, k, t) mem_cons_self

theorem Everywhere.of_flatten (ht : Invariant t) (h : ∀ e ∈ RegionTree.flatten t, Q e.1 e.2) :
    Everywhere Q t := by
  induction ht with
  | node wf disjoint included subtrees ih =>
    refine .node (fun e he => h _ (mem_flatten_of_mem he).1) fun e he => ih e he ?_
    exact fun x hx => h x ((mem_flatten_of_mem he).2 hx)

section
variable [DecidableEq R] [HashOrder R] {t : RegionTree K R} {Q : R → K → Prop}
  {filterOut : K → Bool} {reg : R}

/-- A property that the pieces of a node inherit. -/
def Inherited (Q : R → K → Prop) : Prop :=
  ∀ r r' k, Q r k → ExactRegion.Subset r' r → (∃ p, contains r' p = true) → Q r' k

/-- Both halves of a split keep what pieces inherit. -/
theorem splitNode_everywhere {Q : R → K → Prop} (hQ : Inherited Q) {filterOut : K → Bool} {reg : R}
    {t : RegionTree K R} (h : Everywhere Q t) :
    Everywhere Q (.node (splitNode filterOut reg t).1) ∧
      Everywhere Q (.node (splitNode filterOut reg t).2) := by
  induction h with
  | @node d here below ih =>
    cases hfind : PersistentDict.tryFind d reg with
    | some x =>
      obtain ⟨key, ⟨child⟩⟩ := x
      have hm : (reg, key, .node child) ∈ d := by
        unfold PersistentDict.tryFind at hfind
        obtain ⟨e, he, heq⟩ := Option.map_eq_some_iff.mp hfind
        have hreg : e.1 = reg := by simpa using find?_some he
        have hmem := mem_of_find?_eq_some he
        obtain ⟨r, v⟩ := e
        obtain rfl : r = reg := hreg
        obtain rfl : v = _ := heq
        exact hmem
      have hne : d.isEmpty = false := by
        cases d with
        | nil => cases hm
        | cons => rfl
      have hd : Everywhere Q (.node d) := .node here below
      have hsplit : splitNode filterOut reg (.node d) =
          (if filterOut key then child else [(reg, key, .node child)],
            PersistentDict.remove reg d) := by simp [splitNode, hne, hfind]
      rw [hsplit]
      refine ⟨?_, hd.sub fun e he => (mem_remove.mp he).1⟩
      dsimp only
      split
      · exact below _ hm
      · exact hd.sub (by simpa using hm)
    | none =>
      obtain ⟨s, s', heq, hs, hs'⟩ := splitNode_eq filterOut hfind
      rw [heq]
      have hincluded : ∀ o ∈ d, Everywhere Q (.node (includedOf filterOut reg o)) := by
        intro o ho
        unfold includedOf
        split
        · have := below o ho
          obtain ⟨r, k, ⟨c⟩⟩ := o
          exact this
        split
        · exact .node (forall_mem_singleton.mpr (here o ho)) (forall_mem_singleton.mpr (below o ho))
        · exact .nil
        · next hc =>
            obtain ⟨⟨p, hp, hp'⟩, -⟩ := ExactRegion.compareTo_intersects hc
            refine .node (forall_mem_singleton.mpr (hQ _ _ _ (here o ho)
              (ExactRegion.intersect_subset_left _ _) ⟨p, ?_⟩))
              (forall_mem_singleton.mpr (ih o ho).1)
            rw [ExactRegion.contains_intersect, hp, hp', Bool.and_self]
      have hdisjoint : ∀ o ∈ d, Everywhere Q (.node (disjointOf filterOut reg o)) := by
        intro o ho
        unfold disjointOf
        split
        · exact .nil
        split
        · exact .nil
        · exact .node (forall_mem_singleton.mpr (here o ho)) (forall_mem_singleton.mpr (below o ho))
        · next hc =>
            obtain ⟨-, p, hp, hp'⟩ := ExactRegion.compareTo_intersects hc
            refine .node (forall_mem_singleton.mpr (hQ _ _ _ (here o ho)
              (ExactRegion.subtract_subset _ _) ⟨p, ?_⟩))
              (forall_mem_singleton.mpr (ih o ho).2)
            rw [ExactRegion.contains_subtract, hp, hp']
            rfl
      constructor
      · refine .of_entries fun e he => ?_
        obtain ⟨o, ho, he⟩ := mem_flatMap.mp ((hs e).mp (mem_of_mem_ofSeq he))
        exact ⟨(hincluded o ho).here he, (hincluded o ho).child he⟩
      · refine .of_entries fun e he => ?_
        obtain ⟨o, ho, he⟩ := mem_flatMap.mp ((hs' e).mp (mem_of_mem_ofSeq he))
        exact ⟨(hdisjoint o ho).here he, (hdisjoint o ho).child he⟩

/-- A split of contained keys puts every piece on its side. -/
theorem splitNode_sides (hQ : Inherited Q) (ht : Invariant t) (hc : Contained filterOut reg t)
    (h : Everywhere Q t) :
    Everywhere (fun r k => Q r k ∧ ExactRegion.Subset r reg) (.node (splitNode filterOut reg t).1) ∧
      Everywhere (fun r k => Q r k ∧ ExactRegion.Disjoint r reg)
        (.node (splitNode filterOut reg t).2) := by
  obtain ⟨hinc, hdis⟩ := splitNode_spec ht hc
  have ⟨h₁, h₂⟩ : Everywhere Q (.node (splitNode filterOut reg t).1) ∧
      Everywhere Q (.node (splitNode filterOut reg t).2) := splitNode_everywhere hQ h
  refine ⟨h₁.and (hinc.invariant.everywhere (fun _ _ h h' => h'.trans h) hinc.side),
    h₂.and (hdis.invariant.everywhere (fun _ _ h h' => h.mono h' (.refl _)) hdis.side)⟩

/-- A run of writes keeps what pieces inherit. -/
theorem run_everywhere [IRegionTreeKey K] (hQ : Inherited Q) (h : Everywhere Q t) {l : List (R × K)}
    (hl : ∀ e ∈ l, Q e.1 e.2) : Everywhere Q (l.foldr (fun e acc => write e.1 e.2 acc) t) := by
  induction l with
  | nil => exact h
  | cons e l ih =>
    obtain ⟨he, hl⟩ := forall_mem_cons.mp hl
    have ⟨hinc, hdis⟩ := @splitNode_everywhere _ _ _ _ _ _ Q hQ (IRegionTreeKey.hides e.2) e.1 _
      (ih hl)
    refine .of_entries fun o ho => ?_
    rcases mem_add.mp ho with rfl | ⟨-, ho⟩
    · exact ⟨he, hinc⟩
    · exact ⟨hdis.here ho, hdis.child ho⟩

omit [DecidableEq R] [HashOrder R] in
/-- A node whose filtered keys all lie in the region can be split. -/
theorem Everywhere.contained (ht : Invariant t)
    (h : Everywhere (fun r k => filterOut k = true → ExactRegion.Subset r reg) t) :
    Contained filterOut reg t :=
  .of_flatten ht h.flatten

end

/-! ### Adding laid entries -/

/-- Entries of two laid lists that lie apart are laid together. -/
theorem Laid.append {l l' : List (R × K × RegionTree K R)} (h : Laid l) (h' : Laid l')
    (hd : ∀ e ∈ l, ∀ e' ∈ l', ExactRegion.Disjoint e.1 e'.1) : Laid (l ++ l') := by
  refine ⟨fun e he e' he' hne => ?_, ?_, ?_⟩
  · rcases mem_append.mp he with he | he <;> rcases mem_append.mp he' with he' | he'
    · exact h.disjoint e he e' he' hne
    · exact hd e he e' he'
    · exact (hd e' he' e he).symm
    · exact h'.disjoint e he e' he' hne
  · exact forall_mem_append.mpr ⟨h.included, h'.included⟩
  · exact forall_mem_append.mpr ⟨h.subtrees, h'.subtrees⟩

/-- The history at `p` of a node that is listed with the entries of `l`, as points can tell. -/
theorem path_ofSeq [DecidableEq R] [HashOrder R] {l : List (R × K × RegionTree K R)} (h : Laid l)
    {e : R × K × RegionTree K R} (he : e ∈ l) (hp : contains e.1 p = true) :
    RegionTree.path p (.node (PersistentDict.ofSeq l)) = e.2.1 :: RegionTree.path p e.2.2 :=
  path_of_mem h.invariant_ofSeq ((h.mem_ofSeq hp).mpr he) hp

/-- A node made of entries inside a region and entries outside it has the histories of either
part. -/
theorem Invariant.join (h₁ : Invariant (.node d₁)) (h₂ : Invariant (.node d₂))
    (hin : ∀ e ∈ d₁, ExactRegion.Subset e.1 reg) (hout : ∀ e ∈ d₂, ExactRegion.Disjoint e.1 reg)
    (wf : PersistentDict.Wf d) (hmem : ∀ e ∈ d, e ∈ d₁ ∨ e ∈ d₂)
    (hall : ∀ e, e ∈ d₁ ∨ e ∈ d₂ → ∀ p, contains e.1 p = true → e ∈ d) :
    Invariant (.node d) ∧
      (∀ p, contains reg p = true → RegionTree.path p (.node d) = RegionTree.path p (.node d₁)) ∧
      ∀ p, contains reg p = false → RegionTree.path p (.node d) = RegionTree.path p (.node d₂) := by
  have hlaid : Laid (d₁ ++ d₂) := h₁.laid.append h₂.laid fun e he e' he' =>
    (hout e' he').symm.mono (hin e he) (.refl _)
  have hinv : Invariant (.node d) :=
    (hlaid.mono fun e he => mem_append.mpr (hmem e he)).invariant wf
  refine ⟨hinv, fun p hp => path_congr hinv h₁ fun e hpe => ?_,
    fun p hp => path_congr hinv h₂ fun e hpe => ?_⟩
  · refine ⟨fun he => (hmem e he).resolve_right fun he₂ => ?_, fun he => hall e (.inl he) p hpe⟩
    rw [hout e he₂ p hpe] at hp
    cases hp
  · refine ⟨fun he => (hmem e he).resolve_left fun he₁ => ?_, fun he => hall e (.inr he) p hpe⟩
    rw [hin e he₁ p hpe] at hp
    cases hp

/-- One entry over a region, added to entries outside it. -/
theorem Invariant.add_over [DecidableEq R] [HashOrder R] {k : K} (ht : Invariant t)
    (hin : ∀ e ∈ t.entries, ExactRegion.Subset e.1 reg) (hd : Invariant (.node d))
    (hout : ∀ e ∈ d, ExactRegion.Disjoint e.1 reg) :
    Invariant (.node (PersistentDict.add reg (k, t) d)) ∧
      (∀ p, contains reg p = true → RegionTree.path p (.node (PersistentDict.add reg (k, t) d)) =
        k :: RegionTree.path p t) ∧
      ∀ p, contains reg p = false → RegionTree.path p (.node (PersistentDict.add reg (k, t) d)) =
        RegionTree.path p (.node d) := by
  have hone : Invariant (.node [(reg, k, t)]) := invariant_singleton ht hin
  have hwf : PersistentDict.Wf d := hd.wf
  have hmem (e : R × K × RegionTree K R) : e ∈ PersistentDict.add reg (k, t) d ↔
      e = (reg, k, t) ∨ e.1 ≠ reg ∧ e ∈ d := mem_add
  have hne (e : R × K × RegionTree K R) (he : e ∈ d) (p : P) (hp : contains e.1 p = true) :
      e.1 ≠ reg := fun heq => by
    have hno := hout e he p hp
    rw [← heq, hp] at hno
    cases hno
  obtain ⟨h₁, h₂, h₃⟩ := hone.join hd (forall_mem_singleton.mpr (.refl reg)) hout
    (hwf.add reg (k, t)) (fun e he => ((hmem e).mp he).imp mem_singleton.mpr And.right)
    fun e he p hp => (hmem e).mpr (he.imp mem_singleton.mp fun he => ⟨hne e he p hp, he⟩)
  exact ⟨h₁, fun p hp => by rw [h₂ p hp, path_singleton, hp, if_pos rfl], h₃⟩

/-- Entries inside a region, with those outside it appended. -/
theorem Invariant.append_over [DecidableEq R] [HashOrder R] (h₁ : Invariant (.node d₁))
    (h₂ : Invariant (.node d₂)) (hin : ∀ e ∈ d₁, ExactRegion.Subset e.1 reg)
    (hout : ∀ e ∈ d₂, ExactRegion.Disjoint e.1 reg) :
    Invariant (.node (PersistentDict.append d₁ d₂)) ∧
      (∀ p, contains reg p = true → RegionTree.path p (.node (PersistentDict.append d₁ d₂)) =
        RegionTree.path p (.node d₁)) ∧
      ∀ p, contains reg p = false → RegionTree.path p (.node (PersistentDict.append d₁ d₂)) =
        RegionTree.path p (.node d₂) := by
  have hlaid : Laid (d₁ ++ d₂) := h₁.laid.append h₂.laid fun e he e' he' =>
    (hout e' he').symm.mono (hin e he) (.refl _)
  refine h₁.join h₂ hin hout (h₁.wf.append d₂) (fun e he => mem_of_mem_append he)
    fun e he p hp => mem_append_of_unique he fun b hb hbe => ?_
  exact hlaid.eq_of_contains (mem_append_right _ hb) (mem_append.mpr he) (hbe ▸ hp) hp

end

end RegionTree

end VSharp
