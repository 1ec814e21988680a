import VSharp.Utils.PersistentDictionary

/-!
# Utils — Collections

The mutable collections of the source, passed along as values: a `HashSet` is the list of its
elements and a `Dictionary` the list of its entries, both in insertion order.  A dictionary is read
with the operations of `pdict`, whose entries are kept the same way.
-/

namespace VSharp
open List

namespace HashSet
variable {α : Type} [DecidableEq α] {s : List α}

def add (s : List α) (a : α) : List α := if a ∈ s then s else s ++ [a]

@[simp] theorem mem_add {a b : α} : b ∈ add s a ↔ b ∈ s ∨ b = a := by
  unfold add
  split
  case isTrue h =>
    constructor
    · exact Or.inl
    · rintro (hb | rfl)
      · exact hb
      · exact h
  case isFalse => simp

def unionWith (s t : List α) : List α := t.foldl add s

@[simp] theorem mem_unionWith {t : List α} {b : α} : b ∈ unionWith s t ↔ b ∈ s ∨ b ∈ t := by
  unfold unionWith
  induction t generalizing s with
  | nil => simp
  | cons a t ih => rw [foldl_cons, ih, mem_add, mem_cons, or_assoc]

theorem nodup_add (h : s.Nodup) (a : α) : (add s a).Nodup := by
  unfold add
  split
  case isTrue => exact h
  case isFalse ha => exact nodup_append.mpr ⟨h, nodup_singleton a, fun b hb c hc hbc =>
    ha (mem_singleton.mp hc ▸ hbc ▸ hb)⟩

theorem nodup_unionWith (h : s.Nodup) (t : List α) : (unionWith s t).Nodup := by
  unfold unionWith
  induction t generalizing s with
  | nil => exact h
  | cons a t ih => exact ih (nodup_add h a)

end HashSet

namespace Dictionary
open PersistentDict

variable {κ ν : Type} [DecidableEq κ]

/-- `dict[k] <- v`. -/
def set (k : κ) (v : ν) (d : Pdict κ ν) : Pdict κ ν :=
  if k ∈ keys d then d.map fun e => if e.1 = k then (k, v) else e else d ++ [(k, v)]

variable {d : Pdict κ ν} {k k' : κ} {v : ν} {e : κ × ν}
variable {es : List (κ × ν)} {ω : Type}

theorem tryFind_set : tryFind (set k v d) k' = if k' = k then some v else tryFind d k' := by
  unfold set
  split
  case isTrue hk => exact tryFind_replace hk k'
  case isFalse hk =>
    rw [tryFind_append, tryFind_cons]
    split
    case isTrue h =>
      subst h
      simp [tryFind_eq_none_iff.mpr hk]
    case isFalse h =>
      rw [if_neg (Ne.symm h)]
      simp [tryFind]

theorem mem_of_tryFind (h : tryFind d k = some v) : (k, v) ∈ d := by
  obtain ⟨e, he, rfl⟩ := Option.map_eq_some_iff.mp h
  have hk : e.1 = k := by simpa using find?_some he
  exact hk ▸ mem_of_find?_eq_some he

theorem mem_keys_of_tryFind (h : tryFind d k = some v) : k ∈ keys d :=
  mem_keys.mpr ⟨v, mem_of_tryFind h⟩

theorem keys_set_of_mem (v : ν) (hk : k ∈ keys d) : keys (set k v d) = keys d := by
  rw [set, if_pos hk, PersistentDict.keys, PersistentDict.keys, map_map]
  refine map_congr_left fun e _ => ?_
  rw [Function.comp_apply]
  split
  case isTrue he => exact he.symm
  case isFalse => rfl

theorem mem_set : e ∈ set k v d ↔ e = (k, v) ∨ e.1 ≠ k ∧ e ∈ d := by
  unfold set
  split
  case isTrue hk =>
    obtain ⟨w, hw⟩ := mem_keys.mp hk
    simp only [mem_map]
    constructor
    · rintro ⟨e', he', rfl⟩
      by_cases h : e'.1 = k
      · exact .inl (if_pos h)
      · rw [if_neg h]
        exact .inr ⟨h, he'⟩
    · rintro (rfl | ⟨hne, he⟩)
      · exact ⟨(k, w), hw, if_pos rfl⟩
      · exact ⟨e, he, if_neg hne⟩
  case isFalse hk =>
    rw [mem_append, mem_singleton]
    constructor
    · rintro (he | rfl)
      · exact .inr ⟨fun h => hk (mem_keys.mpr ⟨e.2, h ▸ he⟩), he⟩
      · exact .inl rfl
    · rintro (rfl | ⟨-, he⟩)
      · exact .inr rfl
      · exact .inl he

theorem mem_keys_set : k' ∈ keys (set k v d) ↔ k' = k ∨ k' ∈ keys d := by
  simp only [PersistentDict.mem_keys, mem_set, Prod.mk.injEq]
  constructor
  · rintro ⟨w, ⟨rfl, -⟩ | ⟨-, hw⟩⟩
    · exact .inl rfl
    · exact .inr ⟨w, hw⟩
  · rintro (rfl | ⟨w, hw⟩)
    · exact ⟨v, .inl ⟨rfl, rfl⟩⟩
    · by_cases h : k' = k
      · exact ⟨v, .inl ⟨h, rfl⟩⟩
      · exact ⟨w, .inr ⟨h, hw⟩⟩

theorem wf_set (h : Wf d) (k : κ) (v : ν) : Wf (set k v d) := by
  by_cases hk : k ∈ keys d
  case pos =>
    rw [Wf, keys_set_of_mem v hk]
    exact h
  case neg =>
    rw [set, if_neg hk, Wf, PersistentDict.keys, map_append, map_singleton]
    refine nodup_append.mpr ⟨h, nodup_singleton _, fun a ha b hb hab => hk ?_⟩
    have hak : a = k := hab.trans (mem_singleton.mp hb)
    exact hak ▸ ha

theorem tryFind_remove : tryFind (remove k d) k' = if k' = k then none else tryFind d k' := by
  induction d with
  | nil => simp [remove, tryFind]
  | cons e d ih =>
    have hcons : remove k (e :: d) = if e.1 = k then remove k d else e :: remove k d := by
      by_cases h : e.1 = k <;> simp [remove, h]
    rw [hcons]
    split
    case isTrue h =>
      rw [ih, tryFind_cons, h]
      split
      case isTrue => rfl
      case isFalse hne => rw [if_neg (Ne.symm hne)]
    case isFalse h =>
      rw [tryFind_cons, tryFind_cons, ih]
      split
      case isTrue he => rw [if_neg fun hk => h (he.trans hk)]
      case isFalse => rfl

/-- Dictionaries of the same keys, with related values. -/
theorem tryFind_forall₂ {R : ν → ω → Prop} {d' : Pdict κ ω} {w : ω}
    (h : List.Forall₂ (fun e e' => e.1 = e'.1 ∧ R e.2 e'.2) d d') (hfind : tryFind d' k = some w) :
    ∃ v, tryFind d k = some v ∧ R v w := by
  induction h with
  | nil => cases hfind
  | cons heq _ ih =>
    rw [tryFind_cons] at hfind ⊢
    rw [heq.1]
    split at hfind
    case isTrue hkey =>
      cases hfind
      exact ⟨_, if_pos hkey, heq.2⟩
    case isFalse hkey =>
      rw [if_neg hkey]
      exact ih hfind

omit [DecidableEq κ] in
theorem keys_forall₂ {R : ν → ω → Prop} {d' : Pdict κ ω}
    (h : List.Forall₂ (fun e e' => e.1 = e'.1 ∧ R e.2 e'.2) d d') : keys d' = keys d := by
  induction h with
  | nil => rfl
  | cons heq _ ih => exact congrArg₂ List.cons heq.1.symm ih

/-- Entries set one after another, the last one of a key being kept. -/
theorem tryFind_foldl_set (h : tryFind (es.foldl (fun d e => set e.1 e.2 d) d) k = some v) :
    (k, v) ∈ es ∨ k ∉ es.map Prod.fst ∧ tryFind d k = some v := by
  induction es generalizing d with
  | nil => exact .inr ⟨not_mem_nil, h⟩
  | cons e es ih =>
    rcases ih h with hmem | ⟨hkeys, hfind⟩
    · exact .inl (mem_cons_of_mem _ hmem)
    · rw [tryFind_set] at hfind
      split at hfind
      case isTrue hk =>
        cases hfind
        exact .inl (hk ▸ mem_cons_self)
      case isFalse hk =>
        refine .inr ⟨?_, hfind⟩
        rw [map_cons, mem_cons]
        exact not_or.mpr ⟨hk, hkeys⟩

theorem mem_foldl_set (h : e ∈ es.foldl (fun d e => set e.1 e.2 d) d) : e ∈ es ∨ e ∈ d := by
  induction es generalizing d with
  | nil => exact .inr h
  | cons e' es ih =>
    rcases ih h with hmem | hmem
    · exact .inl (mem_cons_of_mem _ hmem)
    · rcases mem_set.mp hmem with rfl | ⟨-, hmem⟩
      · exact .inl mem_cons_self
      · exact .inr hmem

theorem mem_keys_foldl_set :
    k ∈ keys (es.foldl (fun d e => set e.1 e.2 d) d) ↔ k ∈ es.map Prod.fst ∨ k ∈ keys d := by
  induction es generalizing d with
  | nil => simp
  | cons e es ih =>
    rw [foldl_cons, ih, mem_keys_set, map_cons, mem_cons]
    tauto

end Dictionary

end VSharp
