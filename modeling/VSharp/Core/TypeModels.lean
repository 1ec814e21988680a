import VSharp.Core.TypeCandidates

/-!
# Core — Type models

The types that `evalInModel` finds for the addresses a model identifies, when the model keeps apart
the addresses that `checkInequalityViaCandidates` names.  Only pairs of addresses are named, so what
is left to ask is that more than two addresses, each two of which may be equal, have a common type:
`typed_iff_joint`.  In `triangle_without_type` three addresses have none.
-/

namespace VSharp.Core
open PersistentDict List Option

section
variable {A T Asm : Type} [DecidableEq A] [DecidableEq T]
variable {u : TypeUniverse T Asm} {s : TypeStorage A T} {heap : MockHeap T} {m : Mocks T}
variable {r : List (A × A) × Mocks T} {ps : List ((A × Candidates T) × A × Candidates T)}
  {model : A → VectorTime} {same : List A} {e₁ e₂ : A × Candidates T} {x : Candidates T}

/-- Each address has candidates, without a mock, and all of them satisfy its constraints. -/
structure Populated (u : TypeUniverse T Asm) (s : TypeStorage A T) : Prop where
  wf : Wf s.addressesTypes
  mock : ∀ e ∈ s.addressesTypes, e.2.mock = none
  ne_nil : ∀ e ∈ s.addressesTypes, e.2.types ≠ []
  suitable : ∀ e ∈ s.addressesTypes, ∀ t ∈ e.2.types,
    (s.constraints.item e.1).isSuitable u.toTypeHierarchy t = true

/-- A candidate of the first address that satisfies the constraints of all of them. -/
def JointType (u : TypeUniverse T Asm) (s : TypeStorage A T) (same : List A) (t : T) : Prop :=
  (∃ x ∈ same.head?.bind (tryFind s.addressesTypes), t ∈ x.types) ∧
    ∀ a ∈ same, (s.constraints.item a).isSuitable u.toTypeHierarchy t = true

/-- The model keeps the named addresses apart, unless both are null. -/
def Accepted (u : TypeUniverse T Asm) (s : TypeStorage A T) (heap : MockHeap T)
    (model : A → VectorTime) : Prop :=
  ∀ p ∈ (checkInequalityViaCandidates u s heap).1,
    model p.1 = VectorTime.zero ∧ model p.2 = VectorTime.zero ∨ model p.1 ≠ model p.2

/-- `evalInModel` gives each cluster a joint type of its addresses. -/
def Typed (u : TypeUniverse T Asm) (s : TypeStorage A T) (heap : MockHeap T)
    (model : A → VectorTime) : Prop :=
  ∃ types, (evalInModel u model s heap).1 = some types ∧
    List.Forall₂ (fun entry r => r.1 = entry.1 ∧ ∃ t, r.2 = .concreteType t ∧ JointType u s entry.2 t)
      (eqInModel model (keys s.addressesTypes)) types

/-! ### Addresses that are named -/

theorem isEmpty_refineCandidates {getMock : Option ℕ → List T → Mocks T → ℕ × Mocks T}
    {constraints : TypeConstraints T} (hx : x.mock = none) :
    (refineCandidates u getMock constraints x m).1.isEmpty = true ↔
      ∀ t ∈ x.types, constraints.isSuitable u.toTypeHierarchy t = false := by
  have hmock : (refineCandidates u getMock constraints x m).1.mock = none := by
    rw [refineCandidates, hx]
  rw [Candidates.isEmpty, hmock, isNone_none, Bool.true_and, List.isEmpty_iff,
    eq_nil_iff_forall_not_mem]
  simp only [mem_types_refineCandidates, not_and, Bool.not_eq_true]

/-- No candidate of the first entry satisfies the constraints of both. -/
def Clash (u : TypeUniverse T Asm) (s : TypeStorage A T) (e₁ e₂ : A × Candidates T) : Prop :=
  e₁.1 ≠ e₂.1 ∧ ∀ t ∈ e₁.2.types,
    ((s.constraints.item e₁.1).merge (s.constraints.item e₂.1)).isSuitable u.toTypeHierarchy t = false

/-- One pair adds its addresses when they clash and are not there the other way round. -/
theorem mem_checkPair {p : A × A} (hmock : e₁.2.mock = none) :
    p ∈ (checkPair u s e₁ e₂ r).1 ↔
      p ∈ r.1 ∨ Clash u s e₁ e₂ ∧ (e₂.1, e₁.1) ∉ r.1 ∧ p = (e₁.1, e₂.1) := by
  rw [checkPair]
  split
  case isFalse hsame =>
    rw [or_iff_left]
    exact fun h => hsame h.1.1
  case isTrue hne =>
    dsimp only
    split
    case isTrue h =>
      rw [Bool.and_eq_true, isEmpty_refineCandidates hmock, decide_eq_true_eq] at h
      rw [HashSet.mem_add]
      exact or_congr_right ⟨fun hp => ⟨⟨hne, h.1⟩, h.2, hp⟩, fun hp => hp.2.2⟩
    case isFalse h =>
      rw [Bool.and_eq_true, isEmpty_refineCandidates hmock, decide_eq_true_eq] at h
      rw [or_iff_left]
      exact fun hp => h ⟨hp.1.2, hp.2.1⟩

section
variable (hmock : ∀ q ∈ ps, q.1.2.mock = none) {p : A × A}

include hmock

theorem mem_foldl_checkPair (h : p ∈ (ps.foldl (fun r q => checkPair u s q.1 q.2 r) r).1) :
    p ∈ r.1 ∨ ∃ q ∈ ps, Clash u s q.1 q.2 ∧ p = (q.1.1, q.2.1) := by
  induction ps generalizing r with
  | nil => exact .inl h
  | cons q ps ih =>
    rcases ih (fun q hq => hmock q (mem_cons_of_mem _ hq)) h with hr | ⟨q', hq', hclash⟩
    · rcases (mem_checkPair (hmock q mem_cons_self)).mp hr with hr | ⟨hclash, -, rfl⟩
      · exact .inl hr
      · exact .inr ⟨q, mem_cons_self, hclash, rfl⟩
    · exact .inr ⟨q', mem_cons_of_mem _ hq', hclash⟩

theorem foldl_checkPair_mono (h : p ∈ r.1) :
    p ∈ (ps.foldl (fun r q => checkPair u s q.1 q.2 r) r).1 := by
  induction ps generalizing r with
  | nil => exact h
  | cons q ps ih =>
    exact ih (fun q hq => hmock q (mem_cons_of_mem _ hq))
      ((mem_checkPair (hmock q mem_cons_self)).mpr (.inl h))

/-- Two addresses that clash are named, one way or the other. -/
theorem named_of_clash
    {q : (A × Candidates T) × A × Candidates T} (hq : q ∈ ps) (hclash : Clash u s q.1 q.2) :
    ∃ p ∈ (ps.foldl (fun r q => checkPair u s q.1 q.2 r) r).1,
      p = (q.1.1, q.2.1) ∨ p = (q.2.1, q.1.1) := by
  induction ps generalizing r with
  | nil => exact absurd hq not_mem_nil
  | cons q' ps ih =>
    have hrest := fun q hq => hmock q (mem_cons_of_mem q' hq)
    rcases mem_cons.mp hq with rfl | hq
    · by_cases hmem : (q.2.1, q.1.1) ∈ r.1
      · exact ⟨_, foldl_checkPair_mono hmock hmem, .inr rfl⟩
      · have hadd := (mem_checkPair (hmock q mem_cons_self)).mpr (.inr ⟨hclash, hmem, rfl⟩)
        exact ⟨_, foldl_checkPair_mono hrest hadd, .inl rfl⟩
    · exact ih hrest hq

end

/-- The model identifies no two addresses that clash, unless both are null: that is what accepts
it. -/
theorem accepted_iff (h : Populated u s) : Accepted u s heap model ↔
    ∀ e₁ ∈ s.addressesTypes, ∀ e₂ ∈ s.addressesTypes, model e₁.1 = model e₂.1 →
      model e₁.1 ≠ VectorTime.zero → ¬ Clash u s e₁ e₂ := by
  have hmock : ∀ q ∈ s.addressesTypes.product s.addressesTypes, q.1.2.mock = none :=
    fun q hq => h.mock q.1 (pair_mem_product.mp hq).1
  rw [Accepted, checkInequalityViaCandidates_eq]
  constructor
  · intro haccepted e₁ he₁ e₂ he₂ heq hzero hclash
    obtain ⟨p, hp, rfl | rfl⟩ := named_of_clash hmock (q := (e₁, e₂))
      (pair_mem_product.mpr ⟨he₁, he₂⟩) hclash
    · exact (haccepted _ hp).elim (fun h => hzero h.1) (fun h => h heq)
    · exact (haccepted _ hp).elim (fun h => hzero h.2) (fun h => h heq.symm)
  · intro hno p hp
    rcases mem_foldl_checkPair hmock hp with hp | ⟨q, hq, hclash, rfl⟩
    · exact absurd hp not_mem_nil
    · obtain ⟨hq₁, hq₂⟩ := pair_mem_product.mp hq
      by_cases heq : model q.1.1 = model q.2.1
      · refine .inl ?_
        by_contra hzero
        exact hno q.1 hq₁ q.2 hq₂ heq (fun hz => hzero ⟨hz, heq ▸ hz⟩) hclash
      · exact .inr heq

/-! ### Clusters -/

section

omit [DecidableEq A]

/-- The clusters of some addresses: those at one concrete address, in order. -/
theorem tryFind_eqInModel (l : List A) (v : VectorTime) :
    tryFind (eqInModel model l) v =
      if v ≠ VectorTime.zero ∧ ∃ a ∈ l, model a = v then some (l.filter (model · = v)) else none := by
  induction l using List.reverseRecOn with
  | nil => simp [eqInModel, tryFind]
  | append_singleton l a ih =>
    have hstep : eqInModel model (l ++ [a]) = if model a = VectorTime.zero then eqInModel model l
        else Dictionary.set (model a)
          ((tryFind (eqInModel model l) (model a)).getD [] ++ [a]) (eqInModel model l) := by
      rw [eqInModel, foldl_append, foldl_cons, foldl_nil, ← eqInModel]
    rw [hstep]
    split
    case isTrue hzero =>
      rw [ih]
      by_cases hv : v = VectorTime.zero
      · simp [hv]
      · have hne : model a ≠ v := fun h => hv (h ▸ hzero)
        simp [hv, hne, filter_append]
    case isFalse hzero =>
      rw [Dictionary.tryFind_set]
      split
      case isTrue heq =>
        subst heq
        have hfilter : (tryFind (eqInModel model l) (model a)).getD [] =
            l.filter (model · = model a) := by
          rw [ih]
          split
          case isTrue => rfl
          case isFalse hnone =>
            rw [getD_none, eq_comm, filter_eq_nil_iff]
            intro b hb hmodel
            exact hnone ⟨hzero, b, hb, of_decide_eq_true hmodel⟩
        rw [hfilter, if_pos ⟨hzero, a, by simp, rfl⟩, filter_append]
        simp
      case isFalse hne =>
        rw [ih]
        have hne' : model a ≠ v := fun h => hne h.symm
        simp [hne', filter_append]

theorem wf_eqInModel (l : List A) : Wf (eqInModel model l) := by
  rw [eqInModel]
  suffices h : ∀ d : Pdict VectorTime (List A), Wf d → Wf (l.foldl (fun clusters address =>
      if model address = VectorTime.zero then clusters
      else Dictionary.set (model address)
        ((tryFind clusters (model address)).getD [] ++ [address]) clusters) d) from h [] wf_nil
  induction l with
  | nil => exact fun d hd => hd
  | cons a l ih =>
    intro d hd
    refine ih _ ?_
    dsimp only
    split
    case isTrue => exact hd
    case isFalse => exact Dictionary.wf_set hd _ _

theorem mem_eqInModel {l : List A} {v : VectorTime} :
    (v, same) ∈ eqInModel model l ↔
      v ≠ VectorTime.zero ∧ (∃ a ∈ l, model a = v) ∧ same = l.filter (model · = v) := by
  rw [← tryFind_eq_some_iff (wf_eqInModel l), tryFind_eqInModel]
  split
  case isTrue h =>
    rw [some.injEq, eq_comm]
    exact ⟨fun heq => ⟨h.1, h.2, heq⟩, fun h => h.2.2⟩
  case isFalse h =>
    constructor
    · intro h'
      cases h'
    · exact fun h' => absurd ⟨h'.1, h'.2.1⟩ h

end

theorem isSuitable_mergeConstraints {t : T} :
    (mergeConstraints s.constraints same).isSuitable u.toTypeHierarchy t = true ↔
      ∀ a ∈ same, (s.constraints.item a).isSuitable u.toTypeHierarchy t = true := by
  have hfold : ∀ c : TypeConstraints T,
      (same.foldl (fun c a => c.merge (s.constraints.item a)) c).isSuitable u.toTypeHierarchy t = true ↔
        c.isSuitable u.toTypeHierarchy t = true ∧
          ∀ a ∈ same, (s.constraints.item a).isSuitable u.toTypeHierarchy t = true := by
    induction same with
    | nil => simp
    | cons a same ih =>
      intro c
      rw [foldl_cons, ih, TypeConstraints.isSuitable_merge, forall_mem_cons, and_assoc]
  rw [mergeConstraints, hfold]
  simp

omit [DecidableEq A] [DecidableEq T] in
theorem pick_of_mock_none (hx : x.mock = none) : x.pick = x.types.head?.map .concreteType := by
  rw [Candidates.pick, hx]
  cases x.types with
  | nil => rfl
  | cons t types => rfl

/-- A cluster gets a type when it has a joint type, and then a joint one. -/
theorem evalCluster_iff (h : Populated u s) (hsame : same ≠ [])
    (hkeys : ∀ a ∈ same, a ∈ keys s.addressesTypes) :
    (∃ t, JointType u s same t) ↔ ∃ t, (evalCluster u s same m).1 = some (.concreteType t) ∧
      JointType u s same t := by
  refine ⟨fun hjoint => ?_, fun ⟨t, _, ht⟩ => ⟨t, ht⟩⟩
  obtain ⟨a, rest, rfl⟩ := exists_cons_of_ne_nil hsame
  obtain ⟨x, hx⟩ := mem_keys.mp (hkeys a mem_cons_self)
  have hfind := (tryFind_eq_some_iff h.wf).mpr hx
  obtain ⟨t₀, ⟨x', hx', hmem₀⟩, hall₀⟩ := hjoint
  obtain rfl : x = x' := by
    rw [head?_cons, bind_some, hfind] at hx'
    exact some.inj hx'
  have hjointOf : ∀ t ∈ x.types, (∀ b ∈ a :: rest,
      (s.constraints.item b).isSuitable u.toTypeHierarchy t = true) → JointType u s (a :: rest) t :=
    fun t ht hall => ⟨⟨x, hx', ht⟩, hall⟩
  rw [evalCluster, head?_cons, bind_some, hfind]
  dsimp only
  split
  case isTrue hlength =>
    have hmock : (refineCandidates u (getNewMock u) (mergeConstraints s.constraints (a :: rest)) x
        m).1.mock = none := by
      rw [refineCandidates, h.mock _ hx]
    rw [pick_of_mock_none hmock]
    have hmem : t₀ ∈ (refineCandidates u (getNewMock u)
        (mergeConstraints s.constraints (a :: rest)) x m).1.types :=
      mem_types_refineCandidates.mpr ⟨hmem₀, isSuitable_mergeConstraints.mpr hall₀⟩
    obtain ⟨t, ts, hts⟩ := exists_cons_of_ne_nil (ne_nil_of_mem hmem)
    have ht := mem_types_refineCandidates.mp (hts ▸ mem_cons_self)
    exact ⟨t, by rw [hts]; rfl, hjointOf t ht.1 (isSuitable_mergeConstraints.mp ht.2)⟩
  case isFalse hlength =>
    obtain rfl : rest = [] := by
      rw [length_cons] at hlength
      exact length_eq_zero_iff.mp (by omega)
    rw [pick_of_mock_none (h.mock _ hx)]
    obtain ⟨t, ts, hts⟩ := exists_cons_of_ne_nil (h.ne_nil _ hx)
    have ht : t ∈ x.types := hts ▸ mem_cons_self
    refine ⟨t, by rw [hts]; rfl, hjointOf t ht fun b hb => ?_⟩
    rw [mem_singleton.mp hb]
    exact h.suitable _ hx t ht

/-- The loop over the clusters ends well when each of them has a joint type. -/
theorem evalClusters_forall₂ (h : Populated u s) {clusters : List (VectorTime × List A)}
    (hclusters : ∀ e ∈ clusters, e.2 ≠ [] ∧ (∀ a ∈ e.2, a ∈ keys s.addressesTypes) ∧
      ∃ t, JointType u s e.2 t) : ∃ types, (evalClusters u s clusters m).1 = some types ∧
        List.Forall₂ (fun entry r => r.1 = entry.1 ∧ ∃ t, r.2 = .concreteType t ∧
          JointType u s entry.2 t) clusters types := by
  induction clusters generalizing m with
  | nil => exact ⟨[], rfl, .nil⟩
  | cons e clusters ih =>
    obtain ⟨hne, hkeys, hjoint⟩ := hclusters e mem_cons_self
    obtain ⟨t, heval, ht⟩ := (evalCluster_iff h hne hkeys (m := m)).mp hjoint
    obtain ⟨types, htypes, hall⟩ := ih (m := (evalCluster u s e.2 m).2)
      fun e' he' => hclusters e' (mem_cons_of_mem _ he')
    refine ⟨(e.1, .concreteType t) :: types, ?_, .cons ⟨rfl, t, rfl, ht⟩ hall⟩
    rw [evalClusters]
    split
    case h_1 m' hnone =>
      rw [hnone] at heval
      cases heval
    case h_2 r m' hsome =>
      rw [hsome] at heval htypes
      obtain rfl : r = .concreteType t := some.inj heval
      exact congrArg (Option.map _) htypes

/-! ### Joint types -/

/-- Some candidate of the first address satisfies the constraints of the second. -/
def PairType (u : TypeUniverse T Asm) (s : TypeStorage A T) (a b : A) : Prop :=
  ∃ x ∈ tryFind s.addressesTypes a, ∃ t ∈ x.types,
    (s.constraints.item b).isSuitable u.toTypeHierarchy t = true

theorem not_clash_iff (h : Populated u s) (he₁ : e₁ ∈ s.addressesTypes) :
    ¬ Clash u s e₁ e₂ ↔ e₁.1 = e₂.1 ∨ PairType u s e₁.1 e₂.1 := by
  have hpair : PairType u s e₁.1 e₂.1 ↔ ∃ t ∈ e₁.2.types,
      (s.constraints.item e₂.1).isSuitable u.toTypeHierarchy t = true := by
    rw [PairType, (tryFind_eq_some_iff h.wf).mpr he₁]
    simp only [mem_def, some.injEq, exists_eq_left']
  rw [hpair, Clash, not_and_or, not_not]
  refine or_congr_right ?_
  simp only [not_forall, Bool.not_eq_false, TypeConstraints.isSuitable_merge, exists_prop]
  exact exists_congr fun t => and_congr_right fun ht => and_iff_right (h.suitable _ he₁ t ht)

theorem filter_mem_eq_of_sublist {l l' : List A} (h : l.Sublist l') (hl' : l'.Nodup) :
    l'.filter (· ∈ l) = l := by
  have hsub : l.Sublist (l'.filter (· ∈ l)) := by
    have hfilter := h.filter (· ∈ l)
    rwa [filter_eq_self.mpr fun a ha => decide_eq_true ha] at hfilter
  refine (hsub.eq_of_length_le ?_).symm
  refine (subperm_of_subset (hl'.filter _) fun a ha => ?_).length_le
  exact of_decide_eq_true (mem_filter.mp ha).2

/-- Every accepted model has types exactly when more than two addresses have a joint type as soon as
each two of them have one. -/
theorem typed_iff_joint (h : Populated u s) (heap : MockHeap T) :
    (∀ model, Accepted u s heap model → Typed u s heap model) ↔
      ∀ same : List A, same.Sublist (keys s.addressesTypes) → 3 ≤ same.length →
        (∀ a ∈ same, ∀ b ∈ same, a ≠ b → PairType u s a b) → ∃ t, JointType u s same t := by
  constructor
  · intro htyped same hsub hlength hpair
    have hne : same ≠ [] := by
      rintro rfl
      simp at hlength
    -- all the addresses of the cluster are one object, and all others are null
    let model : A → VectorTime := fun a => if a ∈ same then [1] else VectorTime.zero
    have hmodel : ∀ a, model a ≠ VectorTime.zero ↔ a ∈ same := by
      intro a
      by_cases ha : a ∈ same
      · simp [model, ha, VectorTime.zero]
      · simp [model, ha]
    have haccepted : Accepted u s heap model := by
      refine (accepted_iff h).mpr fun e₁ he₁ e₂ he₂ heq hzero => (not_clash_iff h he₁).mpr ?_
      by_cases hsame : e₁.1 = e₂.1
      · exact .inl hsame
      · exact .inr (hpair _ ((hmodel _).mp hzero) _ ((hmodel _).mp (heq ▸ hzero)) hsame)
    obtain ⟨types, -, hall⟩ := htyped model haccepted
    have hcluster : ([1], same) ∈ eqInModel model (keys s.addressesTypes) := by
      obtain ⟨a, ha⟩ := exists_mem_of_ne_nil same hne
      refine mem_eqInModel.mpr ⟨by decide, ⟨a, hsub.subset ha, if_pos ha⟩, ?_⟩
      rw [← filter_mem_eq_of_sublist hsub h.wf]
      refine filter_congr fun b _ => ?_
      by_cases hb : b ∈ same
      · simp [model, hb]
      · simp [model, hb, VectorTime.zero]
    obtain ⟨r, -, -, t, -, hjoint⟩ := Library.forall₂_mem_left hall hcluster
    exact ⟨t, hjoint⟩
  · intro hjoint model haccepted
    refine evalClusters_forall₂ h fun e he => ?_
    obtain ⟨hzero, ⟨a₀, ha₀, hmodel₀⟩, hsame⟩ := mem_eqInModel.mp he
    have hmem : ∀ a, a ∈ e.2 ↔ a ∈ keys s.addressesTypes ∧ model a = e.1 := by
      intro a
      rw [hsame, mem_filter, decide_eq_true_eq]
    have hne : e.2 ≠ [] := ne_nil_of_mem ((hmem a₀).mpr ⟨ha₀, hmodel₀⟩)
    have hsub : e.2.Sublist (keys s.addressesTypes) := hsame ▸ filter_sublist
    have hpair : ∀ a ∈ e.2, ∀ b ∈ e.2, a ≠ b → PairType u s a b := by
      intro a ha b hb hab
      obtain ⟨x, hx⟩ := mem_keys.mp ((hmem a).mp ha).1
      obtain ⟨y, hy⟩ := mem_keys.mp ((hmem b).mp hb).1
      have heq : model a = model b := ((hmem a).mp ha).2.trans ((hmem b).mp hb).2.symm
      have hclash := (accepted_iff h).mp haccepted (a, x) hx (b, y) hy heq
        (((hmem a).mp ha).2 ▸ hzero)
      exact ((not_clash_iff h hx).mp hclash).resolve_left hab
    refine ⟨hne, fun a ha => ((hmem a).mp ha).1, ?_⟩
    by_cases hlength : 3 ≤ e.2.length
    case pos => exact hjoint e.2 hsub hlength hpair
    obtain ⟨a, rest, hcons⟩ := exists_cons_of_ne_nil hne
    rw [hcons] at hpair hlength hsub ⊢
    have ha := hsub.subset mem_cons_self
    obtain ⟨x, hx⟩ := mem_keys.mp ha
    have hfind := (tryFind_eq_some_iff h.wf).mpr hx
    cases rest with
    | nil =>
      obtain ⟨t, ts, hts⟩ := exists_cons_of_ne_nil (h.ne_nil _ hx)
      have ht : t ∈ x.types := hts ▸ mem_cons_self
      refine ⟨t, ⟨x, hfind, ht⟩, fun b hb => ?_⟩
      rw [mem_singleton.mp hb]
      exact h.suitable _ hx t ht
    | cons b rest =>
      obtain rfl : rest = [] := by
        simp only [length_cons] at hlength
        exact length_eq_zero_iff.mp (by omega)
      have hab : a ≠ b := by
        rintro rfl
        exact absurd (hsub.nodup h.wf) (by simp)
      obtain ⟨x', hx', t, ht, hsuitable⟩ := hpair a (by simp) b (by simp) hab
      obtain rfl : x = x' := some.inj (hfind.symm.trans hx')
      refine ⟨t, ⟨x, hfind, ht⟩, fun c hc => ?_⟩
      rcases mem_cons.mp hc with rfl | hc
      · exact h.suitable _ hx t ht
      · exact mem_singleton.mp hc ▸ hsuitable

end

namespace SampleType

/-- The shapes but one. -/
def allShapesBut (t : SampleType) : TypeConstraints SampleType :=
  .create sampleUniverse.toTypeHierarchy [] [iShape] [] [t] [] []

/-- Addresses that are shapes, each with a shape that it is not. -/
def shapeStorage (es : List (ℕ × SampleType)) : TypeStorage ℕ SampleType where
  constraints := ⟨[], es.map fun e => (e.1, allShapesBut e.2)⟩
  addressesTypes := es.map fun e => (e.1, ⟨[circle, square, triangle].filter (· ≠ e.2), none⟩)
  typeMocks := []

/-- Three such addresses that all may be squares have types in every accepted model. -/
theorem three_shapes_typed :
    let s := shapeStorage [(0, triangle), (1, circle), (2, circle)]
    Populated sampleUniverse s ∧ ∀ model, Accepted sampleUniverse s ⟨[], true⟩ model →
      Typed sampleUniverse s ⟨[], true⟩ model := by
  intro s
  have hpopulated : Populated sampleUniverse s := ⟨by rw [Wf]; decide, by decide, by decide, by decide⟩
  refine ⟨hpopulated, (typed_iff_joint hpopulated _).mpr fun same hsub hlength _ => ?_⟩
  obtain rfl : same = [0, 1, 2] := hsub.eq_of_length_le hlength
  exact ⟨square, ⟨⟨[circle, square], none⟩, rfl, by decide⟩, by decide⟩

/-- Each two of three shapes may be one object, and no type is left for all three. -/
theorem triangle_without_type : ¬ ∀ (s : TypeStorage ℕ SampleType) (heap : MockHeap SampleType)
    (model : ℕ → VectorTime), Populated sampleUniverse s → Accepted sampleUniverse s heap model →
      Typed sampleUniverse s heap model := by
  intro h
  have htyped := h (shapeStorage [(0, triangle), (1, circle), (2, square)]) ⟨[], true⟩ (fun _ => [1])
    ⟨by rw [Wf]; decide, by decide, by decide, by decide⟩ (by rw [Accepted]; decide)
  obtain ⟨types, htypes, -⟩ := htyped
  cases htypes

end SampleType

end VSharp.Core
