import VSharp.Core.TypeCandidates

/-!
# Core — Type mocks

One mock is shared by all addresses with the same supertypes, and `refineMock` changes it in place:
the other addresses that have it then have a mock of supertypes they do not ask for.
`OwnMocks` asks that a mock is changed only by constraints that all of its addresses have, and that
a query changes none; then every mock keeps to the constraints of each address that has it
(`mocks_own`).

- `Keyed`: the table has each mock under its supertypes, in order.
- `Grows` and `Frame`: what making mocks, and what refining them, leaves of a table and its mocks.
- `Held`: the mock of an address is in the table, below supertypes of that address.
-/

namespace VSharp.Core
open PersistentDict Library List

section
variable {A T Asm : Type} [DecidableEq A] [DecidableEq T] [DecidableEq Asm]
variable {u : TypeUniverse T Asm} {m m' m'' : Mocks T} {k : List T} {i : ℕ}
variable {s : TypeStorage A T} {heap : MockHeap T} {w w' : Storages A T} {op : ℕ × StorageOp A T}

/-! ### Tables -/

/-- The table has mocks under their supertypes, in order. -/
structure Keyed (u : TypeUniverse T Asm) (m : Mocks T) : Prop where
  wf : Wf m.typeMocks
  key : ∀ k i, (k, i) ∈ m.typeMocks → m.heap.superTypes[i]? = some k
  sorted : ∀ k i, (k, i) ∈ m.typeMocks → sortTypes u k = k

/-- The table has the mock. -/
def Owns (m : Mocks T) (i : ℕ) : Prop := ∃ k, (k, i) ∈ m.typeMocks

/-- Only new mocks are made. -/
structure Grows (m m' : Mocks T) : Prop where
  superTypes : m.heap.superTypes <+: m'.heap.superTypes
  asserted : m'.heap.asserted = m.heap.asserted
  kept : ∀ e ∈ m.typeMocks, e ∈ m'.typeMocks
  new : ∀ e ∈ m'.typeMocks, e ∈ m.typeMocks ∨ m.heap.superTypes.length ≤ e.2

/-- Only mocks of the table, and new ones, are changed. -/
structure Frame (m m' : Mocks T) : Prop where
  length_le : m.heap.superTypes.length ≤ m'.heap.superTypes.length
  asserted : m'.heap.asserted = m.heap.asserted
  kept : ∀ i < m.heap.superTypes.length, ¬ Owns m i → m'.heap.superTypes[i]? = m.heap.superTypes[i]?
  owns : ∀ i, Owns m' i → Owns m i ∨ m.heap.superTypes.length ≤ i

section

omit [DecidableEq T]

theorem Grows.refl (m : Mocks T) : Grows m m :=
  ⟨prefix_refl _, rfl, fun _ he => he, fun _ he => .inl he⟩

theorem Grows.trans (h : Grows m m') (h' : Grows m' m'') : Grows m m'' where
  superTypes := h.superTypes.trans h'.superTypes
  asserted := h'.asserted.trans h.asserted
  kept e he := h'.kept e (h.kept e he)
  new e he := by
    rcases h'.new e he with he | hle
    · exact h.new e he
    · exact .inr (h.superTypes.length_le.trans hle)

theorem Grows.getElem? (h : Grows m m') (hi : m.heap.superTypes[i]? = some k) :
    m'.heap.superTypes[i]? = some k := by
  obtain ⟨l, hl⟩ := h.superTypes
  rw [← hl, getElem?_append_left (List.getElem?_eq_some_iff.mp hi).1, hi]

theorem Grows.frame (h : Grows m m') : Frame m m' where
  length_le := h.superTypes.length_le
  asserted := h.asserted
  kept i hi _ := by
    obtain ⟨l, hl⟩ := h.superTypes
    rw [← hl, getElem?_append_left hi]
  owns := by
    rintro i ⟨k, hk⟩
    exact (h.new (k, i) hk).imp_left fun hmem => ⟨k, hmem⟩

theorem Frame.refl (m : Mocks T) : Frame m m := (Grows.refl m).frame

theorem Frame.trans (h : Frame m m') (h' : Frame m' m'') : Frame m m'' where
  length_le := h.length_le.trans h'.length_le
  asserted := h'.asserted.trans h.asserted
  kept i hi hnot := by
    have hnot' : ¬ Owns m' i := fun howns =>
      (h.owns i howns).elim hnot fun hle => absurd hle (Nat.not_le.mpr hi)
    rw [h'.kept i (hi.trans_le h.length_le) hnot', h.kept i hi hnot]
  owns i howns := by
    rcases h'.owns i howns with howns | hle
    · exact h.owns i howns
    · exact .inr (h.length_le.trans hle)

end

section

omit [DecidableEq T] [DecidableEq Asm]

theorem sortTypes_sortTypes (types : List T) :
    sortTypes u (sortTypes u types) = sortTypes u types := by
  have : IsTrans T fun t t' => u.le t t' = true := ⟨u.le_trans⟩
  have : Std.Total fun t t' => u.le t t' = true :=
    ⟨fun t t' => by simpa using u.le_total t t'⟩
  exact (pairwise_insertionSort _ types).insertionSort_eq

theorem mem_sortTypes {types : List T} {t : T} : t ∈ sortTypes u types ↔ t ∈ types :=
  mem_insertionSort _

theorem Keyed.superTypesOf (h : Keyed u m) (hk : (k, i) ∈ m.typeMocks) :
    m.heap.superTypesOf i = k := by
  rw [MockHeap.superTypesOf, getD_eq_getElem?_getD, h.key k i hk, Option.getD_some]

theorem Keyed.lt_length (h : Keyed u m) (hi : Owns m i) : i < m.heap.superTypes.length := by
  obtain ⟨k, hk⟩ := hi
  exact (List.getElem?_eq_some_iff.mp (h.key k i hk)).1

end

section

omit [DecidableEq Asm]

/-- A new mock under a key that the table does not have. -/
theorem Keyed.addMock (h : Keyed u m) (hsorted : sortTypes u k = k) (hk : k ∉ keys m.typeMocks) :
    Keyed u (m.addMock k).2 ∧ Grows m (m.addMock k).2 ∧
      (k, (m.addMock k).1) ∈ (m.addMock k).2.typeMocks := by
  have hset : ∀ e, e ∈ (m.addMock k).2.typeMocks ↔
      e = (k, m.heap.superTypes.length) ∨ e ∈ m.typeMocks := by
    intro e
    rw [Mocks.addMock, Dictionary.mem_set]
    refine or_congr_right (and_iff_right_of_imp fun he heq => hk ?_)
    exact heq ▸ mem_keys.mpr ⟨e.2, he⟩
  have hgrows : Grows m (m.addMock k).2 := by
    refine ⟨prefix_append _ _, rfl, fun e he => (hset e).mpr (.inr he), fun e he => ?_⟩
    rcases (hset e).mp he with rfl | he
    · exact .inr (le_refl _)
    · exact .inl he
  refine ⟨⟨Dictionary.wf_set h.wf _ _, fun k' i' he => ?_, fun k' i' he => ?_⟩, hgrows,
    (hset _).mpr (.inl rfl)⟩
  · rcases (hset _).mp he with heq | he
    · cases heq
      exact getElem?_concat_length
    · exact hgrows.getElem? (h.key k' i' he)
  · rcases (hset _).mp he with heq | he
    · cases heq
      exact hsorted
    · exact h.sorted k' i' he

/-- A mock of the table under a key that the table does not have. -/
theorem Keyed.rekey {old : List T} (h : Keyed u m) (hi : (old, i) ∈ m.typeMocks)
    (hsorted : sortTypes u k = k) (hk : k ∉ keys m.typeMocks) :
    Keyed u (m.rekey i k) ∧ Frame m (m.rekey i k) ∧ (k, i) ∈ (m.rekey i k).typeMocks ∧
      ∀ e ∈ m.typeMocks, e.2 ≠ i → e ∈ (m.rekey i k).typeMocks := by
  have hold : m.heap.superTypesOf i = old := h.superTypesOf hi
  have hlt : i < m.heap.superTypes.length := h.lt_length ⟨old, hi⟩
  have hset : ∀ e, e ∈ (m.rekey i k).typeMocks ↔ e = (k, i) ∨ e ∈ m.typeMocks ∧ e.1 ≠ old := by
    intro e
    rw [Mocks.rekey, Dictionary.mem_set, remove, mem_filter, hold, decide_eq_true_eq]
    refine or_congr_right (and_iff_right_of_imp fun he heq => hk ?_)
    exact heq ▸ mem_keys.mpr ⟨e.2, he.1⟩
  have hne : ∀ e ∈ m.typeMocks, e.1 ≠ old → i ≠ e.2 := by
    intro e he hkey heq
    have hsame := h.key e.1 e.2 he
    rw [← heq, h.key old i hi] at hsame
    exact hkey (Option.some.inj hsame).symm
  refine ⟨⟨Dictionary.wf_set (h.wf.filter _) _ _, fun k' i' he => ?_, fun k' i' he => ?_⟩,
    ⟨(length_set ..).ge, ?_, fun j hj hnot => ?_, ?_⟩, (hset _).mpr (.inl rfl),
    fun e he hne' => ?_⟩
  · rcases (hset _).mp he with heq | ⟨he, hkey⟩
    · cases heq
      exact getElem?_set_self hlt
    · rw [Mocks.rekey, getElem?_set_ne (hne _ he hkey)]
      exact h.key k' i' he
  · rcases (hset _).mp he with heq | ⟨he, -⟩
    · cases heq
      exact hsorted
    · exact h.sorted k' i' he
  · rw [Mocks.rekey, hold, decide_eq_true (mem_keys.mpr ⟨i, hi⟩), Bool.and_true]
  · rw [Mocks.rekey, getElem?_set_ne]
    rintro rfl
    exact hnot ⟨old, hi⟩
  · rintro j ⟨k', hk'⟩
    rcases (hset _).mp hk' with heq | ⟨he, -⟩
    · cases heq
      exact .inl ⟨old, hi⟩
    · exact .inl ⟨k', he⟩
  · refine (hset e).mpr (.inr ⟨he, fun heq => hne' ?_⟩)
    have huniq : (old, e.2) ∈ m.typeMocks := heq ▸ he
    exact h.wf.val_unique huniq hi

/-! ### Making mocks -/

/-- `getMock`, when no mock is refined. -/
theorem Keyed.getMock_none (h : Keyed u m) (supertypes : List T) :
    Keyed u (getMock u none supertypes m).2 ∧ Grows m (getMock u none supertypes m).2 ∧
      (sortTypes u supertypes, (getMock u none supertypes m).1) ∈
        (getMock u none supertypes m).2.typeMocks := by
  rw [getMock]
  cases hfind : tryFind m.typeMocks (sortTypes u supertypes) with
  | some j => exact ⟨h, .refl m, Dictionary.mem_of_tryFind hfind⟩
  | none => exact h.addMock (sortTypes_sortTypes _) (tryFind_eq_none_iff.mp hfind)

end

/-- What `typeCandidates` leaves of the mocks, and the mock it gives. -/
theorem Keyed.typeCandidates (h : Keyed u m) (c : TypeConstraints T) :
    Keyed u (typeCandidates u c m).2 ∧ Grows m (typeCandidates u c m).2 ∧
      ∀ j ∈ (typeCandidates u c m).1.mock,
        (sortTypes u c.supertypes, j) ∈ (typeCandidates u c m).2.typeMocks := by
  obtain ⟨hkeyed, hgrows, hmem⟩ := h.getMock_none c.supertypes
  have hnone : Keyed u m ∧ Grows m m ∧
      ∀ j ∈ (none : Option ℕ), (sortTypes u c.supertypes, j) ∈ m.typeMocks :=
    ⟨h, .refl m, fun _ hj => by cases hj⟩
  have hsome : ∀ j ∈ some (getMock u none c.supertypes m).1,
      (sortTypes u c.supertypes, j) ∈ (getMock u none c.supertypes m).2.typeMocks := by
    rintro j ⟨⟩
    exact hmem
  rw [VSharp.Core.typeCandidates]
  split
  case h_1 t _ =>
    split
    case isTrue => exact ⟨hkeyed, hgrows, hsome⟩
    case isFalse => exact hnone
  case h_2 =>
    split
    case h_1 => exact hnone
    case h_2 =>
      rw [enumerateNonAbstractTypes, enumerateTypes]
      dsimp only
      split
      case isTrue => exact ⟨hkeyed, hgrows, hsome⟩
      case isFalse => exact hnone
    case h_3 => exact hnone

section
variable (h : Keyed u m) (cs : List (TypeConstraints T))

include h cs

theorem Keyed.mapCandidates :
    Keyed u (mapCandidates u cs m).2 ∧ Grows m (mapCandidates u cs m).2 ∧
      List.Forall₂ (fun c x => ∀ j ∈ x.mock,
        (sortTypes u c.supertypes, j) ∈ (mapCandidates u cs m).2.typeMocks)
        cs (mapCandidates u cs m).1 := by
  induction cs generalizing m with
  | nil => exact ⟨h, .refl m, .nil⟩
  | cons c cs ih =>
    obtain ⟨hkeyed, hgrows, hmock⟩ := h.typeCandidates c
    obtain ⟨hkeyed', hgrows', hall⟩ := ih hkeyed
    exact ⟨hkeyed', hgrows.trans hgrows', .cons (fun j hj => hgrows'.kept _ (hmock j hj)) hall⟩

theorem Keyed.solveConstraints :
    Keyed u (solveConstraints u cs m).2 ∧ Grows m (solveConstraints u cs m).2 ∧
      ∀ xs ∈ (solveConstraints u cs m).1, List.Forall₂ (fun c x => ∀ j ∈ x.mock,
        (sortTypes u c.supertypes, j) ∈ (solveConstraints u cs m).2.typeMocks) cs xs := by
  obtain ⟨hkeyed, hgrows, hall⟩ := h.mapCandidates cs
  refine ⟨hkeyed, hgrows, fun xs hxs => ?_⟩
  rw [VSharp.Core.solveConstraints] at hxs
  dsimp only at hxs
  split at hxs
  case isTrue => cases hxs
  case isFalse =>
    cases hxs
    exact hall

/-- What `solve` leaves of the mocks, and the mocks it gives. -/
theorem Keyed.solve :
    Keyed u (solve u cs m).2 ∧ Grows m (solve u cs m).2 ∧
      ∀ xs ∈ (solve u cs m).1, List.Forall₂ (fun c x => ∀ j ∈ x.mock,
        (sortTypes u c.supertypes, j) ∈ (solve u cs m).2.typeMocks) cs xs := by
  rw [VSharp.Core.solve]
  split
  case isTrue => exact ⟨h, .refl m, fun _ hxs => by cases hxs⟩
  case isFalse =>
    have hfirst := h.solveConstraints cs
    split
    case h_1 xs m₁ heq =>
      rw [heq] at hfirst
      exact hfirst
    case h_2 m₁ heq =>
      rw [heq] at hfirst
      obtain ⟨hkeyed, hgrows, hall⟩ := hfirst.1.solveConstraints cs
      exact ⟨hkeyed, hfirst.2.1.trans hgrows, hall⟩

end

/-! ### Refining mocks -/

/-- `refineMock` changes the mock itself: it adds supertypes, and the table has no mock of them. -/
def Rekeys (u : TypeUniverse T Asm) (c : TypeConstraints T) (i : ℕ) (m : Mocks T) : Prop :=
  nonSuitable u c = false ∧
    (refinedSupertypes c (m.heap.superTypesOf i)).length ≠ (m.heap.superTypesOf i).length ∧
    { c with supertypes := refinedSupertypes c (m.heap.superTypesOf i) }.isContradicting
      u.toTypeHierarchy = false ∧
    sortTypes u (refinedSupertypes c (m.heap.superTypesOf i)) ∉ keys m.typeMocks

section

omit [DecidableEq Asm]

theorem mem_refinedSupertypes {c : TypeConstraints T} {t : T} :
    t ∈ refinedSupertypes c k ↔ t ∈ k ∨ t ∈ c.supertypes := by
  rw [refinedSupertypes]
  split
  case isTrue h =>
    rw [List.isEmpty_iff] at h
    rw [h, or_iff_left not_mem_nil]
  case isFalse => rw [mem_eraseDups, mem_append]

/-- `refineMock` leaves the mocks, or changes the one that it refines. -/
theorem refineMock_cases (h : Keyed u m) (c : TypeConstraints T) (hi : (k, i) ∈ m.typeMocks) :
    (¬ Rekeys u c i m ∧ (refineMock u (getMock u) c i m).2 = m ∧
      ∀ j ∈ (refineMock u (getMock u) c i m).1,
        j = i ∨ (sortTypes u (refinedSupertypes c k), j) ∈ m.typeMocks) ∨
    (Rekeys u c i m ∧ refineMock u (getMock u) c i m =
      (some i, m.rekey i (sortTypes u (refinedSupertypes c k)))) := by
  have hsuper : m.heap.superTypesOf i = k := h.superTypesOf hi
  rw [Rekeys, refineMock, hsuper]
  split
  case isTrue hnot =>
    exact .inl ⟨fun hr => (Bool.eq_false_iff.mp hr.1) hnot, rfl, fun _ hj => by cases hj⟩
  case isFalse hsuitable =>
  dsimp only
  split
  case isTrue hchanged =>
    rw [Bool.and_eq_true, Bool.not_eq_true', decide_eq_true_eq] at hchanged
    rw [getMock]
    dsimp only
    cases hfind : tryFind m.typeMocks (sortTypes u (refinedSupertypes c k)) with
    | some j =>
      refine .inl ⟨fun hr => hr.2.2.2 (Dictionary.mem_keys_of_tryFind hfind), rfl, ?_⟩
      rintro j' ⟨⟩
      exact .inr (Dictionary.mem_of_tryFind hfind)
    | none =>
      exact .inr ⟨⟨Bool.eq_false_iff.mpr hsuitable, hchanged.2, hchanged.1,
        tryFind_eq_none_iff.mp hfind⟩, rfl⟩
  case isFalse hsame =>
    rw [Bool.and_eq_true, Bool.not_eq_true', decide_eq_true_eq] at hsame
    refine .inl ⟨fun hr => hsame ⟨hr.2.2.1, hr.2.1⟩, ?_⟩
    split
    case isTrue => exact ⟨rfl, fun j hj => .inl (Option.some.inj hj).symm⟩
    case isFalse => exact ⟨rfl, fun _ hj => by cases hj⟩

/-- The mock of each address is in the table, below supertypes of that address. -/
def Held (constraints : TypesConstraints A T) (types : Pdict A (Candidates T)) (m : Mocks T) :
    Prop :=
  ∀ e ∈ types, ∀ i ∈ e.2.mock,
    ∃ k, (k, i) ∈ m.typeMocks ∧ ∀ t ∈ k, t ∈ (constraints.item e.1).supertypes

/-- The addresses with the mock that is changed for an address have the supertypes it gets. -/
def KeepsOthers (u : TypeUniverse T Asm) (constraints : TypesConstraints A T)
    (types : Pdict A (Candidates T)) (m : Mocks T) (address : A) : Prop :=
  ∀ x ∈ tryFind types address, ∀ i ∈ x.mock, Rekeys u (constraints.item address) i m →
    ∀ e ∈ types, i ∈ e.2.mock →
      ∀ t ∈ (constraints.item address).supertypes, t ∈ (constraints.item e.1).supertypes

/-- No mock is changed for an address. -/
def KeepsAll (u : TypeUniverse T Asm) (constraints : TypesConstraints A T)
    (types : Pdict A (Candidates T)) (m : Mocks T) (address : A) : Prop :=
  ∀ x ∈ tryFind types address, ∀ i ∈ x.mock, ¬ Rekeys u (constraints.item address) i m

variable {constraints : TypesConstraints A T} {types : Pdict A (Candidates T)}

omit [DecidableEq T] in
theorem Held.grows (h : Held constraints types m) (hgrows : Grows m m') :
    Held constraints types m' := by
  intro e he i hi
  obtain ⟨k, hk, hall⟩ := h e he i hi
  exact ⟨k, hgrows.kept _ hk, hall⟩

/-- The mocks after an address is refined. -/
theorem Held.refineCandidates {address : A} {x : Candidates T} (h : Held constraints types m)
    (hkeyed : Keyed u m) (hfind : tryFind types address = some x)
    (hkeeps : KeepsOthers u constraints types m address) :
    let r := refineCandidates u (getMock u) (constraints.item address) x m
    Keyed u r.2 ∧ Frame m r.2 ∧ Held constraints (Dictionary.set address r.1 types) r.2 := by
  have hset : ∀ (y : Candidates T) (m' : Mocks T),
      (∀ e ∈ types, ∀ i ∈ e.2.mock,
        ∃ k, (k, i) ∈ m'.typeMocks ∧ ∀ t ∈ k, t ∈ (constraints.item e.1).supertypes) →
      (∀ j ∈ y.mock, ∃ k, (k, j) ∈ m'.typeMocks ∧
        ∀ t ∈ k, t ∈ (constraints.item address).supertypes) →
      Held constraints (Dictionary.set address y types) m' := by
    intro y m' hothers hown e he
    rcases Dictionary.mem_set.mp he with rfl | ⟨-, he⟩
    · exact hown
    · exact hothers e he
  dsimp only
  rw [VSharp.Core.refineCandidates]
  cases hmock : x.mock with
  | none => exact ⟨hkeyed, .refl m, hset _ m h fun _ hj => by cases hj⟩
  | some i =>
    obtain ⟨k, hk, hall⟩ := h (address, x) (Dictionary.mem_of_tryFind hfind) i hmock
    have hnew : ∀ t ∈ sortTypes u (refinedSupertypes (constraints.item address) k),
        t ∈ (constraints.item address).supertypes := by
      intro t ht
      rcases mem_refinedSupertypes.mp (mem_sortTypes.mp ht) with ht | ht
      · exact hall t ht
      · exact ht
    dsimp only
    rcases refineMock_cases hkeyed (constraints.item address) hk with
      ⟨-, hsame, hmocks⟩ | ⟨hrekeys, heq⟩
    · rw [hsame]
      refine ⟨hkeyed, .refl m, hset _ m h fun j hj => ?_⟩
      rcases hmocks j hj with rfl | hmem
      · exact ⟨k, hk, hall⟩
      · exact ⟨_, hmem, hnew⟩
    · obtain ⟨hkeyed', hframe, hmem, hothers⟩ :=
        hkeyed.rekey hk (sortTypes_sortTypes (refinedSupertypes (constraints.item address) k))
          (hkeyed.superTypesOf hk ▸ hrekeys.2.2.2)
      rw [heq]
      refine ⟨hkeyed', hframe, hset _ _ (fun e he i' hi' => ?_) fun j hj => ?_⟩
      · obtain ⟨k', hk', hall'⟩ := h e he i' hi'
        by_cases hi : i' = i
        case neg => exact ⟨k', hothers _ hk' hi, hall'⟩
        subst hi
        obtain rfl : k' = k :=
          Option.some.inj ((hkeyed.key k' i' hk').symm.trans (hkeyed.key k i' hk))
        refine ⟨_, hmem, fun t ht => ?_⟩
        rcases mem_refinedSupertypes.mp (mem_sortTypes.mp ht) with ht | ht
        · exact hall' t ht
        · exact hkeeps x hfind i' hmock hrekeys e he hi' t ht
      · cases hj
        exact ⟨_, hmem, hnew⟩

/-! ### Storages -/

/-- The table of a storage and the mocks of its addresses. -/
structure Mocked (u : TypeUniverse T Asm) (s : TypeStorage A T) (heap : MockHeap T) : Prop where
  keyed : Keyed u ⟨s.typeMocks, heap⟩
  held : Held s.constraints s.addressesTypes ⟨s.typeMocks, heap⟩

/-- `P` holds of the candidates and the mocks before each address is refined. -/
def BeforeEach (u : TypeUniverse T Asm) (s : TypeStorage A T) (heap : MockHeap T)
    (P : Pdict A (Candidates T) → Mocks T → A → Prop) : Prop :=
  ∀ addresses address rest, s.constraints.newAddresses = addresses ++ address :: rest →
    (refineAddresses u s heap addresses).emptyCandidates = false →
      P (refineAddresses u s heap addresses).addressesTypes
        (refineAddresses u s heap addresses).mocks address

/-- The mocks in the loop of `refineStorage`. -/
theorem Mocked.refineAddresses (h : Mocked u s heap)
    (hkeeps : BeforeEach u s heap (KeepsOthers u s.constraints)) (addresses rest : List A)
    (hnew : s.constraints.newAddresses = addresses ++ rest) :
    let r := refineAddresses u s heap addresses
    Keyed u r.mocks ∧ Frame ⟨s.typeMocks, heap⟩ r.mocks ∧
      Held s.constraints r.addressesTypes r.mocks := by
  induction addresses using List.reverseRecOn generalizing rest with
  | nil => exact ⟨h.keyed, .refl _, h.held⟩
  | append_singleton addresses a ih =>
    rw [append_assoc, singleton_append] at hnew
    obtain ⟨hkeyed, hframe, hheld⟩ := ih (a :: rest) hnew
    have hbefore := hkeeps addresses a rest hnew
    rw [refineAddresses_append]
    generalize VSharp.Core.refineAddresses u s heap addresses = r at hkeyed hframe hheld hbefore
    rw [refineAddress]
    split
    case isTrue => exact ⟨hkeyed, hframe, hheld⟩
    case isFalse hempty =>
      dsimp only
      cases hfind : tryFind r.addressesTypes a with
      | none => exact ⟨hkeyed, hframe, hheld⟩
      | some x =>
        obtain ⟨hkeyed', hframe', hheld'⟩ :=
          hheld.refineCandidates hkeyed hfind (hbefore (Bool.eq_false_iff.mpr hempty))
        exact ⟨hkeyed', hframe.trans hframe', hheld'⟩

end

/-- The mocks after `refineStorage`. -/
theorem Mocked.refineStorage (h : Mocked u s heap)
    (hkeeps : BeforeEach u s heap (KeepsOthers u s.constraints)) : let r := refineStorage u s heap
    Mocked u r.2.1 r.2.2 ∧ Frame ⟨s.typeMocks, heap⟩ ⟨r.2.1.typeMocks, r.2.2⟩ := by
  obtain ⟨hkeyed, hframe, hheld⟩ :=
    h.refineAddresses hkeeps s.constraints.newAddresses [] (append_nil _).symm
  have hrefined : (VSharp.Core.refineAddresses u s heap s.constraints.newAddresses).emptyCandidates =
      false → Refined u s s.constraints.newAddresses
        (VSharp.Core.refineAddresses u s heap s.constraints.newAddresses) :=
    refined_refineAddresses s.constraints.newAddresses
  dsimp only at hkeyed hframe hheld ⊢
  rw [VSharp.Core.refineStorage]
  generalize VSharp.Core.refineAddresses u s heap s.constraints.newAddresses = r
    at hkeyed hframe hheld hrefined
  dsimp only
  split
  case isTrue => exact ⟨⟨hkeyed, hheld⟩, hframe⟩
  case isFalse hempty =>
  split
  case isTrue => exact ⟨⟨hkeyed, hheld⟩, hframe⟩
  case isFalse =>
  have hr := hrefined (Bool.eq_false_iff.mpr hempty)
  obtain ⟨hkeyed', hgrows, hall⟩ := hkeyed.solve (r.newAddresses.map Prod.snd)
  split
  case h_1 m' heq =>
    rw [heq] at hkeyed' hgrows
    exact ⟨⟨hkeyed', hheld.grows hgrows⟩, hframe.trans hgrows.frame⟩
  case h_2 xs m' heq =>
    rw [heq] at hkeyed' hgrows hall
    refine ⟨⟨hkeyed', fun e he i hmock => ?_⟩, hframe.trans hgrows.frame⟩
    rcases Dictionary.mem_foldl_set he with hmem | he
    · rw [PersistentDict.keys, zip_map_left, mem_map] at hmem
      obtain ⟨⟨e', x⟩, hzip, rfl⟩ := hmem
      have hitem : e'.2 = s.constraints.item e'.1 := hr.new e' (of_mem_zip hzip).1
      refine ⟨_, Library.forall₂_mem_zip (hall xs rfl) hzip i hmock, fun t ht => ?_⟩
      exact hitem ▸ mem_sortTypes.mp ht
    · exact hheld.grows hgrows e he i hmock

/-! ### Queries -/

omit [DecidableEq Asm] in
/-- Refining changes no mock where `refineMock` would not. -/
theorem mocks_refineCandidates {c : TypeConstraints T} {x : Candidates T} (hkeyed : Keyed u m)
    (hx : ∀ i ∈ x.mock, Owns m i ∧ ¬ Rekeys u c i m) :
    (refineCandidates u (getMock u) c x m).2 = m := by
  rw [refineCandidates]
  cases hmock : x.mock with
  | none => rfl
  | some i =>
    obtain ⟨⟨k, hk⟩, hnot⟩ := hx i hmock
    rcases refineMock_cases hkeyed c hk with ⟨-, hsame, -⟩ | ⟨hrekeys, -⟩
    · exact hsame
    · exact absurd hrekeys hnot

section
variable (h : Mocked u s heap) (hkeeps : BeforeEach u s heap (KeepsAll u s.constraints))

include h hkeeps

omit [DecidableEq Asm] in
/-- The loop of `refineStorage`, when no mock is changed for an address. -/
theorem Mocked.mocks_refineAddresses (addresses rest : List A)
    (hnew : s.constraints.newAddresses = addresses ++ rest) :
    (VSharp.Core.refineAddresses u s heap addresses).mocks = ⟨s.typeMocks, heap⟩ := by
  have hothers : BeforeEach u s heap (KeepsOthers u s.constraints) :=
    fun addresses a rest hnew hempty x hx i hi hrekeys =>
      absurd hrekeys (hkeeps addresses a rest hnew hempty x hx i hi)
  induction addresses using List.reverseRecOn generalizing rest with
  | nil => rfl
  | append_singleton addresses a ih =>
    rw [append_assoc, singleton_append] at hnew
    obtain ⟨hkeyed, -, hheld⟩ := h.refineAddresses hothers addresses (a :: rest) hnew
    have hsame := ih (a :: rest) hnew
    have hbefore := hkeeps addresses a rest hnew
    rw [refineAddresses_append]
    generalize VSharp.Core.refineAddresses u s heap addresses = r at hkeyed hheld hsame hbefore
    rw [refineAddress]
    split
    case isTrue => exact hsame
    case isFalse hempty =>
      dsimp only
      cases hfind : tryFind r.addressesTypes a with
      | none => exact hsame
      | some x =>
        refine Eq.trans (mocks_refineCandidates hkeyed fun i hi => ⟨?_, ?_⟩) hsame
        · obtain ⟨k, hk, -⟩ := hheld (a, x) (Dictionary.mem_of_tryFind hfind) i hi
          exact ⟨k, hk⟩
        · exact hbefore (Bool.eq_false_iff.mpr hempty) x hfind i hi

/-- The mocks after a `refineStorage` that changes none. -/
theorem Mocked.grows_refineStorage : let r := VSharp.Core.refineStorage u s heap
    Grows ⟨s.typeMocks, heap⟩ ⟨r.2.1.typeMocks, r.2.2⟩ := by
  have hmocks := h.mocks_refineAddresses hkeeps s.constraints.newAddresses [] (append_nil _).symm
  dsimp only
  rw [VSharp.Core.refineStorage]
  generalize VSharp.Core.refineAddresses u s heap s.constraints.newAddresses = r at hmocks
  have hsolve := h.keyed.solve (r.newAddresses.map Prod.snd)
  rw [← hmocks] at hsolve
  dsimp only
  split
  case isTrue => exact hmocks ▸ .refl _
  case isFalse =>
  split
  case isTrue => exact hmocks ▸ .refl _
  case isFalse =>
  split
  case h_1 m' heq =>
    rw [heq, hmocks] at hsolve
    exact hsolve.2.1
  case h_2 xs m' heq =>
    rw [heq, hmocks] at hsolve
    exact hsolve.2.1

end

/-- No mock is changed for a pair of addresses. -/
def KeepsPairs (u : TypeUniverse T Asm) (s : TypeStorage A T) (heap : MockHeap T) : Prop :=
  ∀ e₁ ∈ s.addressesTypes, ∀ e₂ ∈ s.addressesTypes, e₁.1 ≠ e₂.1 → ∀ i ∈ e₁.2.mock,
    ¬ Rekeys u ((s.constraints.item e₁.1).merge (s.constraints.item e₂.1)) i ⟨s.typeMocks, heap⟩

section

omit [DecidableEq Asm]

/-- The mocks after a query that changes none. -/
theorem Mocked.mocks_checkInequalityViaCandidates (h : Mocked u s heap)
    (hkeeps : KeepsPairs u s heap) :
    (checkInequalityViaCandidates u s heap).2 = ⟨s.typeMocks, heap⟩ := by
  rw [checkInequalityViaCandidates_eq]
  have hfold : ∀ (ps : List ((A × Candidates T) × A × Candidates T)) (r : List (A × A) × Mocks T),
      (∀ q ∈ ps, q.1 ∈ s.addressesTypes ∧ q.2 ∈ s.addressesTypes) → r.2 = ⟨s.typeMocks, heap⟩ →
        (ps.foldl (fun r q => checkPair u s q.1 q.2 r) r).2 = ⟨s.typeMocks, heap⟩ := by
    intro ps
    induction ps with
    | nil => exact fun r _ hr => hr
    | cons q ps ih =>
      intro r hmem hr
      refine ih _ (fun q' hq' => hmem q' (mem_cons_of_mem _ hq')) ?_
      obtain ⟨hq₁, hq₂⟩ := hmem q mem_cons_self
      dsimp only
      rw [checkPair]
      split
      case isFalse => exact hr
      case isTrue hne =>
        dsimp only
        rw [hr]
        refine mocks_refineCandidates h.keyed fun i hi => ⟨?_, hkeeps q.1 hq₁ q.2 hq₂ hne i hi⟩
        obtain ⟨k, hk, -⟩ := h.held q.1 hq₁ i hi
        exact ⟨k, hk⟩
  exact hfold _ _ (fun q hq => pair_mem_product.mp hq) rfl

/-- `refineMock` in a model makes new mocks only. -/
theorem Keyed.refineMock_new (h : Keyed u m) (c : TypeConstraints T) (i : ℕ) :
    Keyed u (refineMock u (getNewMock u) c i m).2 ∧
      Grows m (refineMock u (getNewMock u) c i m).2 := by
  rw [refineMock]
  split
  case isTrue => exact ⟨h, .refl m⟩
  case isFalse =>
  dsimp only
  split
  case isTrue =>
    obtain ⟨hkeyed, hgrows, -⟩ := h.getMock_none (refinedSupertypes c (m.heap.superTypesOf i))
    exact ⟨hkeyed, hgrows⟩
  case isFalse =>
    split
    case isTrue => exact ⟨h, .refl m⟩
    case isFalse => exact ⟨h, .refl m⟩

theorem Keyed.evalCluster (h : Keyed u m) (s : TypeStorage A T) (same : List A) :
    Keyed u (evalCluster u s same m).2 ∧ Grows m (evalCluster u s same m).2 := by
  rw [VSharp.Core.evalCluster]
  split
  case h_1 => exact ⟨h, .refl m⟩
  case h_2 x _ =>
    split
    case isFalse => exact ⟨h, .refl m⟩
    case isTrue =>
      dsimp only
      rw [refineCandidates]
      cases x.mock with
      | none => exact ⟨h, .refl m⟩
      | some i => exact h.refineMock_new _ i

/-- `evalInModel` makes new mocks only. -/
theorem Keyed.evalClusters (h : Keyed u m) (s : TypeStorage A T)
    (clusters : List (VectorTime × List A)) :
    Keyed u (evalClusters u s clusters m).2 ∧ Grows m (evalClusters u s clusters m).2 := by
  induction clusters generalizing m with
  | nil => exact ⟨h, .refl m⟩
  | cons entry rest ih =>
    obtain ⟨hkeyed, hgrows⟩ := h.evalCluster s entry.2
    rw [VSharp.Core.evalClusters]
    split
    case h_1 m' heq =>
      rw [heq] at hkeyed hgrows
      exact ⟨hkeyed, hgrows⟩
    case h_2 t m' heq =>
      rw [heq] at hkeyed hgrows
      obtain ⟨hkeyed', hgrows'⟩ := ih hkeyed
      exact ⟨hkeyed', hgrows.trans hgrows'⟩

/-! ### Copies -/

theorem Keyed.changeMock (h : Keyed u m) (hi : m.heap.superTypes[i]? = some k)
    (hsorted : sortTypes u k = k) :
    Keyed u (changeMock i m).2 ∧ Grows m (changeMock i m).2 ∧
      (k, (changeMock i m).1) ∈ (changeMock i m).2.typeMocks := by
  have hk : m.heap.superTypesOf i = k := by
    rw [MockHeap.superTypesOf, getD_eq_getElem?_getD, hi, Option.getD_some]
  rw [VSharp.Core.changeMock, hk]
  cases hfind : tryFind m.typeMocks k with
  | some j => exact ⟨h, .refl m, Dictionary.mem_of_tryFind hfind⟩
  | none => exact h.addMock hsorted (tryFind_eq_none_iff.mp hfind)

/-- The mocks of copied addresses. -/
theorem Keyed.copyTypes {constraints : TypesConstraints A T} {types : Pdict A (Candidates T)}
    (h : Keyed u m) (hmocks : ∀ e ∈ types, ∀ i ∈ e.2.mock, ∃ k, m.heap.superTypes[i]? = some k ∧
      sortTypes u k = k ∧ ∀ t ∈ k, t ∈ (constraints.item e.1).supertypes) :
    Keyed u (copyTypes types m).2 ∧ Grows m (copyTypes types m).2 ∧
      Held constraints (copyTypes types m).1 (copyTypes types m).2 := by
  induction types generalizing m with
  | nil => exact ⟨h, .refl m, fun e he => absurd he not_mem_nil⟩
  | cons e types ih =>
    rw [VSharp.Core.copyTypes]
    cases hmock : e.2.mock with
    | none =>
      obtain ⟨hkeyed, hgrows, hheld⟩ :=
        ih h fun e' he' => hmocks e' (mem_cons_of_mem _ he')
      refine ⟨hkeyed, hgrows, forall_mem_cons.mpr ⟨fun i hi => ?_, hheld⟩⟩
      dsimp only at hi
      rw [hmock] at hi
      cases hi
    | some i =>
      obtain ⟨k, hk, hsorted, hall⟩ := hmocks e mem_cons_self i hmock
      obtain ⟨hkeyed, hgrows, hmem⟩ := h.changeMock hk hsorted
      obtain ⟨hkeyed', hgrows', hheld⟩ := ih hkeyed fun e' he' i' hi' => by
        obtain ⟨k', hk', hrest⟩ := hmocks e' (mem_cons_of_mem _ he') i' hi'
        exact ⟨k', hgrows.getElem? hk', hrest⟩
      refine ⟨hkeyed', hgrows.trans hgrows', forall_mem_cons.mpr ⟨?_, hheld⟩⟩
      rintro j ⟨⟩
      exact ⟨k, hgrows'.kept _ hmem, hall⟩

/-! ### Runs -/

/-- The conditions under which an operation leaves the mocks of all addresses their own. -/
def OwnMocks (u : TypeUniverse T Asm) (w : Storages A T) (op : ℕ × StorageOp A T) : Prop :=
  ∀ s ∈ w.storages[op.1]?, match op.2 with
    | .refineStorage => BeforeEach u s w.heap (KeepsOthers u s.constraints)
    | .checkInequality => hasInterface u s = true →
        BeforeEach u s w.heap (KeepsAll u s.constraints) ∧
          ((refineStorage u s w.heap).1 = .typeSat →
            KeepsPairs u (refineStorage u s w.heap).2.1 (refineStorage u s w.heap).2.2)
    | _ => True

/-- What holds of the storages of a run and of the mocks they have. -/
structure MocksApart (u : TypeUniverse T Asm) (w : Storages A T) : Prop where
  asserted : w.heap.asserted = true
  mocked : ∀ s ∈ w.storages, Mocked u s w.heap
  apart : ∀ (j j' : ℕ) (s s' : TypeStorage A T), j ≠ j' → w.storages[j]? = some s →
    w.storages[j']? = some s' → ∀ i, Owns ⟨s.typeMocks, w.heap⟩ i → ¬ Owns ⟨s'.typeMocks, w.heap⟩ i

variable {heap' : MockHeap T}

omit [DecidableEq T] in
/-- A storage whose mocks a step on another one does not touch. -/
theorem Mocked.frame {s' : TypeStorage A T} {typeMocks : Pdict (List T) ℕ} (h : Mocked u s heap)
    (hframe : Frame ⟨s'.typeMocks, heap⟩ ⟨typeMocks, heap'⟩)
    (hapart : ∀ i, Owns ⟨s.typeMocks, heap⟩ i → ¬ Owns ⟨s'.typeMocks, heap⟩ i) :
    Mocked u s heap' := by
  refine ⟨⟨h.keyed.wf, fun k i hk => ?_, h.keyed.sorted⟩, h.held⟩
  rw [← h.keyed.key k i hk]
  exact hframe.kept i (h.keyed.lt_length ⟨k, hk⟩) (hapart i ⟨k, hk⟩)

omit [DecidableEq T] in
theorem Mocked.grows (h : Mocked u s heap) (hgrows : heap.superTypes <+: heap'.superTypes) :
    Mocked u s heap' := by
  refine ⟨⟨h.keyed.wf, fun k i hk => ?_, h.keyed.sorted⟩, h.held⟩
  obtain ⟨l, hl⟩ := hgrows
  have hkey := h.keyed.key k i hk
  rw [← hl, getElem?_append_left (List.getElem?_eq_some_iff.mp hkey).1]
  exact hkey

end

/-- The mocks after `checkInequality`: no mock was changed. -/
theorem Mocked.checkInequality (h : Mocked u s heap)
    (hkeeps : hasInterface u s = true → BeforeEach u s heap (KeepsAll u s.constraints) ∧
      ((VSharp.Core.refineStorage u s heap).1 = .typeSat →
        KeepsPairs u (VSharp.Core.refineStorage u s heap).2.1
          (VSharp.Core.refineStorage u s heap).2.2)) :
    let r := VSharp.Core.checkInequality u s heap
    Mocked u r.2.1 r.2.2 ∧ Grows ⟨s.typeMocks, heap⟩ ⟨r.2.1.typeMocks, r.2.2⟩ := by
  dsimp only
  rw [VSharp.Core.checkInequality]
  split
  case isFalse => exact ⟨h, .refl _⟩
  case isTrue hinterface =>
    obtain ⟨hall, hpairs⟩ := hkeeps hinterface
    have hgrows := h.grows_refineStorage hall
    obtain ⟨hmocked, -⟩ := h.refineStorage fun addresses a rest hnew hempty x hx i hi hrekeys =>
      absurd hrekeys (hall addresses a rest hnew hempty x hx i hi)
    split
    case h_1 s' heap' heq =>
      rw [heq] at hgrows hmocked hpairs
      have hsame := hmocked.mocks_checkInequalityViaCandidates (hpairs rfl)
      dsimp only at hsame ⊢
      rw [hsame]
      exact ⟨hmocked, hgrows⟩
    case h_2 s' heap' heq =>
      rw [heq] at hgrows hmocked
      exact ⟨hmocked, hgrows⟩

/-- The storage, its copy and the mocks after an operation. -/
theorem Mocked.applyOp (h : Mocked u s w.heap) (hs : w.storages[op.1]? = some s)
    (hown : OwnMocks u w op) : let r := applyOp u s w.heap op.2
    Mocked u r.1 r.2.2 ∧ Frame ⟨s.typeMocks, w.heap⟩ ⟨r.1.typeMocks, r.2.2⟩ ∧
      ∀ s' ∈ r.2.1, r.1 = s ∧ Mocked u s' r.2.2 ∧
        ∀ i, Owns ⟨s'.typeMocks, r.2.2⟩ i → w.heap.superTypes.length ≤ i := by
  have hown := hown s hs
  cases hop : op.2 with
  | addConstraint address c =>
    refine ⟨⟨h.keyed, fun e he i hi => ?_⟩, .refl _, fun _ hs' => nomatch hs'⟩
    obtain ⟨k, hk, hall⟩ := h.held e he i hi
    exact ⟨k, hk, fun t ht => TypesConstraints.mem_supertypes_item_add (hall t ht)⟩
  | refineStorage =>
    rw [hop] at hown
    obtain ⟨hmocked, hframe⟩ := h.refineStorage hown
    exact ⟨hmocked, hframe, fun _ hs' => nomatch hs'⟩
  | checkInequality =>
    rw [hop] at hown
    obtain ⟨hmocked, hgrows⟩ := h.checkInequality hown
    exact ⟨hmocked, hgrows.frame, fun _ hs' => nomatch hs'⟩
  | evalInModel model =>
    obtain ⟨hkeyed, hgrows⟩ :=
      h.keyed.evalClusters s (eqInModel model (keys s.addressesTypes))
    exact ⟨⟨hkeyed, h.held.grows hgrows⟩, hgrows.frame, fun _ hs' => nomatch hs'⟩
  | copy =>
    have hempty : Keyed u ⟨[], w.heap⟩ :=
      ⟨wf_nil, fun _ _ hk => absurd hk not_mem_nil, fun _ _ hk => absurd hk not_mem_nil⟩
    have hmocks : ∀ e ∈ s.addressesTypes, ∀ i ∈ e.2.mock, ∃ k,
        w.heap.superTypes[i]? = some k ∧ sortTypes u k = k ∧
          ∀ t ∈ k, t ∈ (s.constraints.item e.1).supertypes := by
      intro e he i hi
      obtain ⟨k, hk, hall⟩ := h.held e he i hi
      exact ⟨k, h.keyed.key k i hk, h.keyed.sorted k i hk, hall⟩
    obtain ⟨hkeyed, hgrows, hheld⟩ := hempty.copyTypes hmocks
    refine ⟨h.grows hgrows.superTypes, ?_, ?_⟩
    · refine ⟨hgrows.superTypes.length_le, hgrows.asserted, fun i hi _ => ?_,
        fun i hi => .inl hi⟩
      exact hgrows.frame.kept i hi fun ⟨k, hk⟩ => not_mem_nil hk
    · rintro s' ⟨⟩
      refine ⟨rfl, ⟨hkeyed, hheld⟩, fun i hi => ?_⟩
      obtain ⟨k, hk⟩ := hi
      exact (hgrows.new (k, i) hk).resolve_left not_mem_nil

omit [DecidableEq A] [DecidableEq T] [DecidableEq Asm] in
/-- The storages after an operation on one of them. -/
theorem getElem?_set_append {l : List (TypeStorage A T)} {i j : ℕ} {s' : TypeStorage A T}
    {c : Option (TypeStorage A T)} (h : (l.set i s ++ c.toList)[j]? = some s') :
    j = i ∧ s' = s ∨ j ≠ i ∧ l[j]? = some s' ∨ j = l.length ∧ c = some s' := by
  by_cases hj : j < l.length
  · rw [getElem?_append_left (by simpa using hj)] at h
    by_cases hji : j = i
    · subst hji
      rw [getElem?_set_self hj] at h
      exact .inl ⟨rfl, (Option.some.inj h).symm⟩
    · rw [getElem?_set_ne (Ne.symm hji)] at h
      exact .inr (.inl ⟨hji, h⟩)
  · rw [getElem?_append_right (by simpa using hj)] at h
    rw [length_set] at h
    cases c with
    | none => simp at h
    | some c' =>
      rw [Option.toList_some, getElem?_singleton] at h
      split at h
      case isTrue hzero => exact .inr (.inr ⟨by omega, h⟩)
      case isFalse => cases h

/-- An operation that meets its condition keeps the mocks of the storages apart. -/
theorem MocksApart.step (h : MocksApart u w) (hown : OwnMocks u w op)
    (hstep : stepStorages u w op = some w') : MocksApart u w' := by
  obtain ⟨s, hs, rfl⟩ := Option.map_eq_some_iff.mp hstep
  obtain ⟨hmocked, hframe, hcopy⟩ :=
    (h.mocked s (mem_of_getElem? hs)).applyOp hs hown
  generalize applyOp u s w.heap op.2 = r at hmocked hframe hcopy
  have hother : ∀ j s', j ≠ op.1 → w.storages[j]? = some s' → Mocked u s' r.2.2 := by
    intro j s' hj hs'
    exact (h.mocked s' (mem_of_getElem? hs')).frame hframe (h.apart j op.1 s' s hj hs' hs)
  have hlt : ∀ (j : ℕ) (s' : TypeStorage A T), w.storages[j]? = some s' →
      ∀ i, Owns ⟨s'.typeMocks, w.heap⟩ i → i < w.heap.superTypes.length :=
    fun j s' hs' i hi => (h.mocked s' (mem_of_getElem? hs')).keyed.lt_length hi
  -- a mock was in the storage before, or it is new in the storage that changed or in the copy
  have howner : ∀ (j : ℕ) (s' : TypeStorage A T),
      (w.storages.set op.1 r.1 ++ r.2.1.toList)[j]? = some s' →
        ∀ i, Owns ⟨s'.typeMocks, r.2.2⟩ i →
          (∃ t, w.storages[j]? = some t ∧ Owns ⟨t.typeMocks, w.heap⟩ i) ∨
          w.heap.superTypes.length ≤ i ∧ j = if r.2.1.isSome then w.storages.length else op.1 := by
    intro j s' hs' i hi
    rcases getElem?_set_append hs' with ⟨rfl, rfl⟩ | ⟨-, hold⟩ | ⟨hj, hsome⟩
    · cases hnone : r.2.1 with
      | some c =>
        rw [(hcopy c hnone).1] at hi
        exact .inl ⟨s, hs, hi⟩
      | none =>
        rcases hframe.owns i hi with hi | hle
        · exact .inl ⟨s, hs, hi⟩
        · exact .inr ⟨hle, rfl⟩
    · exact .inl ⟨s', hold, hi⟩
    · refine .inr ⟨(hcopy s' hsome).2.2 i hi, ?_⟩
      rw [hsome, hj, Option.isSome_some, if_pos rfl]
  refine ⟨hframe.asserted.trans h.asserted, fun s' hs' => ?_, fun j j' s₁ s₂ hne h₁ h₂ i hi hi' => ?_⟩
  · obtain ⟨j, hj⟩ := mem_iff_getElem?.mp hs'
    rcases getElem?_set_append hj with ⟨-, rfl⟩ | ⟨hne, hold⟩ | ⟨-, hsome⟩
    · exact hmocked
    · exact hother j s' hne hold
    · exact (hcopy s' hsome).2.1
  · rcases howner j s₁ h₁ i hi with ⟨t, ht, hold⟩ | ⟨hle, hj⟩
    · rcases howner j' s₂ h₂ i hi' with ⟨t', ht', hold'⟩ | ⟨hle, -⟩
      · exact h.apart j j' t t' hne ht ht' i hold hold'
      · exact absurd (hlt j t ht i hold) (Nat.not_lt.mpr hle)
    · rcases howner j' s₂ h₂ i hi' with ⟨t', ht', hold'⟩ | ⟨-, hj'⟩
      · exact absurd (hlt j' t' ht' i hold') (Nat.not_lt.mpr hle)
      · exact hne (hj.trans hj'.symm)

/-- The mocks of an address have only supertypes that its constraints have, and are in the table
under these supertypes, in order. -/
structure OwnSupertypes (u : TypeUniverse T Asm) (w : Storages A T) : Prop where
  asserted : w.heap.asserted = true
  keyed : ∀ s ∈ w.storages, ∀ e ∈ s.typeMocks, ∃ supertypes,
    w.heap.superTypes[e.2]? = some supertypes ∧ e.1 = sortTypes u supertypes
  own : ∀ s ∈ w.storages, ∀ e ∈ s.addressesTypes, ∀ i ∈ e.2.mock, ∃ supertypes,
    w.heap.superTypes[i]? = some supertypes ∧
      ∀ t ∈ supertypes, t ∈ (s.constraints.item e.1).supertypes

/-- The operations that only ask. -/
def StorageOp.IsQuery : StorageOp A T → Prop
  | .checkInequality | .evalInModel _ => True
  | _ => False

theorem mocksApart_of_reaches (h : (storageSystem u A).Reaches (OwnMocks u) w) :
    MocksApart u w := by
  refine h.invariant (P := MocksApart u) ⟨rfl, ?_, ?_⟩ fun w op w' hw hown hstep =>
    hw.step hown hstep
  · intro s hs
    rw [storageSystem, mem_singleton] at hs
    subst hs
    exact ⟨⟨wf_nil, fun _ _ hk => absurd hk not_mem_nil,
      fun _ _ hk => absurd hk not_mem_nil⟩, fun _ he => absurd he not_mem_nil⟩
  · intro j j' s s' _ hs _ i hi
    have hmem := mem_of_getElem? hs
    rw [storageSystem, mem_singleton] at hmem
    subst hmem
    obtain ⟨k, hk⟩ := hi
    exact absurd hk not_mem_nil

/-- A query that meets its condition changes no mock. -/
theorem MocksApart.query (h : MocksApart u w) (hquery : op.2.IsQuery) (hown : OwnMocks u w op)
    (hstep : stepStorages u w op = some w') : w.heap.superTypes <+: w'.heap.superTypes := by
  obtain ⟨s, hs, rfl⟩ := Option.map_eq_some_iff.mp hstep
  have hmocked := h.mocked s (mem_of_getElem? hs)
  have hown := hown s hs
  cases hop : op.2 with
  | checkInequality =>
    rw [hop] at hown
    exact (hmocked.checkInequality hown).2.superTypes
  | evalInModel model => exact (hmocked.keyed.evalClusters s _).2.superTypes
  | _ =>
    rw [hop] at hquery
    exact hquery.elim

/-- In a run whose operations meet `OwnMocks` every mock keeps to the constraints of its addresses,
and a query changes none. -/
theorem mocks_own {w : Storages A T} (h : (storageSystem u A).Reaches (OwnMocks u) w) :
    OwnSupertypes u w ∧ ∀ op w', op.2.IsQuery → OwnMocks u w op → stepStorages u w op = some w' →
      w.heap.superTypes <+: w'.heap.superTypes := by
  have hw := mocksApart_of_reaches h
  refine ⟨⟨hw.asserted, fun s hs e he => ?_, fun s hs e he i hi => ?_⟩,
    fun op w' hquery hown hstep => hw.query hquery hown hstep⟩
  · have hkeyed := (hw.mocked s hs).keyed
    exact ⟨e.1, hkeyed.key e.1 e.2 he, (hkeyed.sorted e.1 e.2 he).symm⟩
  · obtain ⟨k, hk, hall⟩ := (hw.mocked s hs).held e he i hi
    exact ⟨k, (hw.mocked s hs).keyed.key k i hk, hall⟩

end

namespace SampleType

/-- The constraint that asks for one supertype. -/
def below (t : SampleType) : TypeConstraints SampleType :=
  .fromSuperTypes sampleUniverse.toTypeHierarchy [t]

/-- Addresses that share a mock of the given supertypes, after they got the given constraints. -/
def sharing (supertypes : List SampleType) (constraints : Pdict ℕ (TypeConstraints SampleType)) :
    Storages ℕ SampleType where
  storages := [⟨⟨[], constraints⟩, constraints.map fun e => (e.1, ⟨[], some 0⟩), [(supertypes, 0)]⟩]
  heap := ⟨[supertypes], true⟩

theorem eq_of_pair_eq_append {addresses rest : List ℕ} {a b c : ℕ}
    (h : [b, c] = addresses ++ a :: rest) :
    addresses = [] ∧ a = b ∨ addresses = [b] ∧ a = c := by
  match addresses with
  | [] => exact .inl ⟨rfl, (List.cons.inj h).1.symm⟩
  | [d] =>
    obtain ⟨hd, h⟩ := List.cons.inj h
    exact .inr ⟨hd ▸ rfl, (List.cons.inj h).1.symm⟩
  | _ :: _ :: addresses => simp at h

/-- Two addresses share a mock, which is changed for a second supertype of both. -/
theorem mock_of_two_addresses :
    let both := (below iRead).merge (below iWrite)
    let w := sharing [iRead, iWrite] [(0, both), (1, both)]
    OwnSupertypes sampleUniverse w ∧ ∀ op w', op.2.IsQuery → OwnMocks sampleUniverse w op →
      stepStorages sampleUniverse w op = some w' → w.heap.superTypes <+: w'.heap.superTypes := by
  intro both w
  have hfirst : (storageSystem sampleUniverse ℕ).Reaches (OwnMocks sampleUniverse)
      (sharing [iRead] [(0, below iRead), (1, below iRead)]) := by
    refine .step (.step (.step .start (fun _ _ => trivial)
      (show stepStorages _ _ (0, .addConstraint 0 (below iRead)) = _ from rfl)) (fun _ _ => trivial)
      (show stepStorages _ _ (0, .addConstraint 1 (below iRead)) = _ from rfl)) ?_
      (show stepStorages _ _ (0, .refineStorage) = _ from rfl)
    rintro s ⟨rfl⟩ addresses a rest hnew - x hx
    obtain ⟨rfl, rfl⟩ | ⟨rfl, rfl⟩ := eq_of_pair_eq_append hnew <;> cases hx
  refine mocks_own (.step (.step (.step hfirst (fun _ _ => trivial)
    (show stepStorages _ _ (0, .addConstraint 0 (below iWrite)) = _ from rfl)) (fun _ _ => trivial)
    (show stepStorages _ _ (0, .addConstraint 1 (below iWrite)) = _ from rfl)) ?_
    (show stepStorages _ _ (0, .refineStorage) = _ from rfl))
  rintro s ⟨rfl⟩ addresses a rest hnew - x hx i hi - e he - t ht
  have hpair : e ∈ [((0 : ℕ), (⟨[], some 0⟩ : Candidates SampleType)), (1, ⟨[], some 0⟩)] := by
    obtain ⟨rfl, rfl⟩ | ⟨rfl, rfl⟩ := eq_of_pair_eq_append hnew <;> exact he
  rw [mem_pair] at hpair
  obtain ⟨rfl, rfl⟩ | ⟨rfl, rfl⟩ := eq_of_pair_eq_append hnew <;>
    rcases hpair with rfl | rfl <;> exact ht

/-- One of two addresses gets a second supertype, and the mock of the other one has it too. -/
theorem shared_mock_changed : ¬ ∀ w : Storages ℕ SampleType,
    (storageSystem sampleUniverse ℕ).Reaches (fun _ _ => True) w → OwnSupertypes sampleUniverse w := by
  intro h
  have hreaches : (storageSystem sampleUniverse ℕ).Reaches (fun _ _ => True)
      (sharing [iRead, iWrite] [(0, (below iRead).merge (below iWrite)), (1, below iRead)]) :=
    .step (.step (.step (.step (.step .start trivial
      (show stepStorages _ _ (0, .addConstraint 0 (below iRead)) = _ from rfl)) trivial
      (show stepStorages _ _ (0, .addConstraint 1 (below iRead)) = _ from rfl)) trivial
      (show stepStorages _ _ (0, .refineStorage) = _ from rfl)) trivial
      (show stepStorages _ _ (0, .addConstraint 0 (below iWrite)) = _ from rfl)) trivial
      (show stepStorages _ _ (0, .refineStorage) = _ from rfl)
  obtain ⟨supertypes, hsupertypes, hall⟩ := (h _ hreaches).own _ mem_cons_self
    (1, ⟨[], some 0⟩) (by simp) 0 rfl
  obtain rfl : [iRead, iWrite] = supertypes := Option.some.inj hsupertypes
  exact absurd (hall iWrite (by simp)) (by decide)

end SampleType

end VSharp.Core
