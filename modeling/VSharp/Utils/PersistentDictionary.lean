import Mathlib.Data.List.Nodup

/-!
# Utils — PersistentDictionary

`VSharp.Utils/PersistentDictionary.fs`: the persistent hash map `pdict`.  A dictionary is the
sequence of its entries in enumeration order.  A hash map enumerates its keys by their hash codes,
keys of equal hash in insertion order, so a new key goes in front of the first key of larger rank
(`HashOrder.rank`); nothing is assumed of the ranks, and every result below holds for each choice
of them.  `add` on a present key replaces the value where it stands.
-/

namespace VSharp
open List

/-- The place of a key in the enumeration order of a hash map. -/
class HashOrder (κ : Type) where
  rank : κ → ℕ

/-- `pdict<'key, 'value>`, as the sequence of its entries. -/
abbrev Pdict (κ ν : Type) := List (κ × ν)

namespace PersistentDict
variable {κ ν : Type}

def keys (d : Pdict κ ν) : List κ := d.map Prod.fst

/-- The keys of a dictionary are distinct. -/
def Wf (d : Pdict κ ν) : Prop := (keys d).Nodup

/-- A key that is not there yet, put where the enumeration order wants it. -/
def place [HashOrder κ] (k : κ) (v : ν) : Pdict κ ν → Pdict κ ν
  | [] => [(k, v)]
  | e :: d => if HashOrder.rank k < HashOrder.rank e.1 then (k, v) :: e :: d else e :: place k v d

section
variable [DecidableEq κ] [HashOrder κ]

/-- `PersistentDict.add`: if the dictionary already contains the key, the value is replaced. -/
def add (k : κ) (v : ν) (d : Pdict κ ν) : Pdict κ ν :=
  if k ∈ keys d then d.map fun e => if e.1 = k then (k, v) else e else place k v d

def ofSeq (s : List (κ × ν)) : Pdict κ ν := s.foldl (fun acc e => add e.1 e.2 acc) []

def append (d₁ d₂ : Pdict κ ν) : Pdict κ ν := d₂.foldl (fun acc e => add e.1 e.2 acc) d₁

def remove (k : κ) (d : Pdict κ ν) : Pdict κ ν := d.filter fun e => e.1 ≠ k

def tryFind (d : Pdict κ ν) (k : κ) : Option ν := (d.find? fun e => e.1 = k).map Prod.snd

end

/-! ### Membership and distinct keys -/

variable {d d₁ d₂ : Pdict κ ν} {k : κ} {v : ν} {e : κ × ν}

theorem mem_keys : k ∈ keys d ↔ ∃ v, (k, v) ∈ d := by
  simp [keys]

/-- Two entries of a dictionary with one key are one entry. -/
theorem Wf.val_unique (h : Wf d) {v' : ν} (h₁ : (k, v) ∈ d) (h₂ : (k, v') ∈ d) : v = v' := by
  have hinj := inj_on_of_nodup_map h h₁ h₂ rfl
  exact congrArg Prod.snd hinj

theorem wf_nil : Wf ([] : Pdict κ ν) := nodup_nil

theorem wf_singleton (e : κ × ν) : Wf [e] := nodup_singleton _

theorem Wf.filter (h : Wf d) (p : κ × ν → Bool) : Wf (d.filter p) :=
  h.sublist (filter_sublist.map Prod.fst)

theorem place_perm [HashOrder κ] (k : κ) (v : ν) (d : Pdict κ ν) :
    (place k v d).Perm ((k, v) :: d) := by
  induction d with
  | nil => exact List.Perm.refl _
  | cons e d ih =>
    unfold place
    split
    · exact List.Perm.refl _
    · exact (ih.cons e).trans (List.Perm.swap _ _ _)

variable [DecidableEq κ]

theorem tryFind_eq_some_iff (h : Wf d) : tryFind d k = some v ↔ (k, v) ∈ d := by
  unfold tryFind
  cases hf : d.find? (fun e => e.1 = k) with
  | none =>
    simp only [Option.map_none, reduceCtorEq, false_iff]
    intro hm
    simpa using find?_eq_none.mp hf _ hm
  | some e =>
    obtain rfl : e.1 = k := by simpa using find?_some hf
    have he : (e.1, e.2) ∈ d := mem_of_find?_eq_some hf
    simp only [Option.map_some, Option.some.injEq]
    exact ⟨fun hv => hv ▸ he, fun hm => h.val_unique he hm⟩

theorem tryFind_eq_none_iff : tryFind d k = none ↔ k ∉ keys d := by
  simp only [tryFind, Option.map_eq_none_iff, find?_eq_none, decide_eq_true_eq, keys,
    mem_map, not_exists, not_and]

theorem mem_remove : e ∈ remove k d ↔ e ∈ d ∧ e.1 ≠ k := by
  simp [remove]

theorem Wf.remove (h : Wf d) (k : κ) : Wf (remove k d) := h.filter _

variable [HashOrder κ] {s : List (κ × ν)}

theorem mem_add : e ∈ add k v d ↔ e = (k, v) ∨ e.1 ≠ k ∧ e ∈ d := by
  unfold add
  split
  · next hk =>
      simp only [mem_map]
      constructor
      · rintro ⟨e', he', rfl⟩
        by_cases h : e'.1 = k
        · simp [h]
        · simp [h, he']
      · rintro (rfl | ⟨hne, he⟩)
        · obtain ⟨v', hv'⟩ := mem_keys.mp hk
          exact ⟨(k, v'), hv', by simp⟩
        · exact ⟨e, he, by simp [hne]⟩
  · next hk =>
      rw [(place_perm k v d).mem_iff, mem_cons]
      refine or_congr_right ⟨fun he => ⟨?_, he⟩, And.right⟩
      rintro rfl
      exact hk (mem_keys.mpr ⟨e.2, he⟩)

theorem Wf.add (h : Wf d) (k : κ) (v : ν) : Wf (add k v d) := by
  unfold PersistentDict.add
  split
  · have : (d.map fun e => if e.1 = k then (k, v) else e).map Prod.fst = d.map Prod.fst := by
      rw [map_map]
      refine map_congr_left fun e _ => ?_
      by_cases he : e.1 = k <;> simp [he]
    simpa only [Wf, keys, this] using h
  · next hk =>
      have hp := (place_perm k v d).map Prod.fst
      exact hp.nodup_iff.mpr (nodup_cons.mpr ⟨hk, h⟩)

theorem Wf.append (h : Wf d₁) (d₂ : Pdict κ ν) : Wf (append d₁ d₂) := by
  unfold PersistentDict.append
  induction d₂ generalizing d₁ with
  | nil => exact h
  | cons e d₂ ih => exact ih (h.add e.1 e.2)

theorem wf_ofSeq (s : List (κ × ν)) : Wf (ofSeq s) := wf_nil.append s

/-- Every entry of an appended dictionary comes from one of the two. -/
theorem mem_of_mem_append : e ∈ append d₁ d₂ → e ∈ d₁ ∨ e ∈ d₂ := by
  unfold PersistentDict.append
  induction d₂ generalizing d₁ with
  | nil => simp
  | cons b d₂ ih =>
    intro h
    rcases ih h with h | h
    · rcases mem_add.mp h with rfl | ⟨-, h⟩
      · exact .inr mem_cons_self
      · exact .inl h
    · exact .inr (mem_cons_of_mem _ h)

/-- An entry survives appending when no other entry has its key. -/
theorem mem_append_of_unique (he : e ∈ d₁ ∨ e ∈ d₂)
    (hu : ∀ b, b ∈ d₂ → b.1 = e.1 → b = e) : e ∈ append d₁ d₂ := by
  unfold PersistentDict.append
  induction d₂ generalizing d₁ with
  | nil => simpa using he
  | cons b d₂ ih =>
    refine ih ?_ fun c hc => hu c (mem_cons_of_mem _ hc)
    rcases he with he | he
    · by_cases hb : b.1 = e.1
      · exact .inl (mem_add.mpr (.inl (hu b mem_cons_self hb).symm))
      · exact .inl (mem_add.mpr (.inr ⟨fun h => hb h.symm, he⟩))
    · rcases mem_cons.mp he with rfl | he
      · exact .inl (mem_add.mpr (.inl rfl))
      · exact .inr he

theorem mem_of_mem_ofSeq (h : e ∈ ofSeq s) : e ∈ s :=
  ((mem_of_mem_append h : e ∈ [] ∨ e ∈ s)).resolve_left not_mem_nil

theorem mem_ofSeq_of_unique (he : e ∈ s) (hu : ∀ b, b ∈ s → b.1 = e.1 → b = e) : e ∈ ofSeq s :=
  mem_append_of_unique (.inr he : e ∈ [] ∨ e ∈ s) hu

theorem mem_keys_add {k' : κ} : k' ∈ keys (add k v d) ↔ k' = k ∨ k' ∈ keys d := by
  simp only [mem_keys, mem_add, Prod.mk.injEq]
  constructor
  · rintro ⟨v', ⟨rfl, -⟩ | ⟨-, h⟩⟩
    · exact .inl rfl
    · exact .inr ⟨v', h⟩
  · by_cases hk : k' = k
    · exact fun _ => ⟨v, .inl ⟨hk, rfl⟩⟩
    · rintro (h | ⟨v', h⟩)
      · exact absurd h hk
      · exact ⟨v', .inr ⟨hk, h⟩⟩

section

omit [HashOrder κ]

theorem mem_keys_remove {k' : κ} : k' ∈ keys (remove k d) ↔ k' ≠ k ∧ k' ∈ keys d := by
  simp only [mem_keys, mem_remove]
  exact ⟨fun ⟨v, h, hne⟩ => ⟨hne, v, h⟩, fun ⟨hne, v, h⟩ => ⟨v, h, hne⟩⟩

/-! ### Lookup -/

theorem tryFind_cons (e : κ × ν) (d : Pdict κ ν) (k : κ) :
    tryFind (e :: d) k = if e.1 = k then some e.2 else tryFind d k := by
  simp only [tryFind, find?_cons]
  by_cases h : e.1 = k <;> simp [h]

theorem tryFind_append (d₁ d₂ : Pdict κ ν) (k : κ) :
    tryFind (d₁ ++ d₂) k = (tryFind d₁ k).or (tryFind d₂ k) := by
  simp only [tryFind, List.find?_append]
  cases d₁.find? fun e => decide (e.1 = k) <;> rfl

theorem tryFind_replace (hk : k ∈ keys d) (k' : κ) :
    tryFind (d.map fun e => if e.1 = k then (k, v) else e) k' =
      if k' = k then some v else tryFind d k' := by
  by_cases hk' : k' = k
  · subst hk'
    induction d with
    | nil => cases hk
    | cons e d ih =>
      rw [map_cons, tryFind_cons]
      by_cases he : e.1 = k'
      · simp [he]
      · have hd : k' ∈ keys d := (mem_cons.mp hk).resolve_left (Ne.symm he)
        simp [he, ih hd]
  · rw [if_neg hk']
    clear hk
    induction d with
    | nil => rfl
    | cons e d ih =>
      rw [map_cons, tryFind_cons, tryFind_cons, ih]
      by_cases he : e.1 = k
      · simp [he, Ne.symm hk']
      · simp [he]

end

theorem tryFind_place (hk : k ∉ keys d) (k' : κ) :
    tryFind (place k v d) k' = if k' = k then some v else tryFind d k' := by
  induction d with
  | nil => simp [place, tryFind_cons, eq_comm]
  | cons e d ih =>
    obtain ⟨hne, hd⟩ := not_or.mp fun h => hk (mem_cons.mpr h)
    unfold place
    split
    · simp [tryFind_cons, eq_comm]
    · rw [tryFind_cons, tryFind_cons, ih hd]
      by_cases hk' : k' = k
      · simp [hk', Ne.symm hne]
      · simp [hk']

theorem tryFind_add (k' : κ) : tryFind (add k v d) k' = if k' = k then some v else tryFind d k' := by
  unfold add
  split
  · next hk => exact tryFind_replace hk k'
  · next hk => exact tryFind_place hk k'

/-- Adding a sequence of entries, the last one wins. -/
theorem tryFind_foldl_add (s : List (κ × ν)) (d : Pdict κ ν) (k : κ) :
    tryFind (s.foldl (fun acc e => add e.1 e.2 acc) d) k =
      (tryFind s.reverse k).or (tryFind d k) := by
  induction s generalizing d with
  | nil => rfl
  | cons e s ih =>
    rw [foldl_cons, ih, reverse_cons, tryFind_append, tryFind_add, tryFind_cons]
    cases tryFind s.reverse k with
    | some v => rfl
    | none => by_cases hk : k = e.1 <;> simp [hk, eq_comm, tryFind]

theorem tryFind_foldl_add_cases (s : List (κ × ν)) (d : Pdict κ ν) (k : κ) :
    (∃ v, (k, v) ∈ s ∧ tryFind (s.foldl (fun acc e => add e.1 e.2 acc) d) k = some v) ∨
      k ∉ keys s ∧ tryFind (s.foldl (fun acc e => add e.1 e.2 acc) d) k = tryFind d k := by
  rw [tryFind_foldl_add]
  cases hk : tryFind s.reverse k with
  | none =>
    rw [tryFind_eq_none_iff, keys, map_reverse, mem_reverse] at hk
    exact .inr ⟨hk, Option.none_or⟩
  | some v =>
    obtain ⟨e, he, rfl⟩ := Option.map_eq_some_iff.mp hk
    have hkey : e.1 = k := by simpa using find?_some he
    exact .inl ⟨e.2, hkey ▸ mem_reverse.mp (mem_of_find?_eq_some he), rfl⟩

theorem mem_keys_foldl_add (s : List (κ × ν)) (d : Pdict κ ν) :
    k ∈ keys (s.foldl (fun acc e => add e.1 e.2 acc) d) ↔ k ∈ keys s ∨ k ∈ keys d := by
  induction s generalizing d with
  | nil => simp [keys]
  | cons e s ih =>
    rw [foldl_cons, ih, mem_keys_add, or_left_comm, ← or_assoc]
    exact or_congr_left mem_cons.symm

/-- The dictionary made of a sequence holds the last value of every key. -/
theorem tryFind_ofSeq (s : List (κ × ν)) (k : κ) : tryFind (ofSeq s) k = tryFind s.reverse k := by
  have := tryFind_foldl_add s [] k
  rwa [show tryFind ([] : Pdict κ ν) k = none from rfl, Option.or_none] at this

omit [HashOrder κ] in
theorem Wf.tryFind_reverse (h : Wf d) (k : κ) : tryFind d.reverse k = tryFind d k := by
  have hr : Wf d.reverse := by
    rw [Wf, keys, map_reverse]
    exact nodup_reverse.mpr h
  cases hd : tryFind d k with
  | some v => exact (tryFind_eq_some_iff hr).mpr (mem_reverse.mpr ((tryFind_eq_some_iff h).mp hd))
  | none =>
    rw [tryFind_eq_none_iff] at hd ⊢
    simpa [keys] using hd

/-- Looking up in a sequence that is read backwards, and in the dictionary made of it. -/
theorem tryFind_ofSeq_reverse (s : List (κ × ν)) (k : κ) :
    tryFind (ofSeq s).reverse k = tryFind s.reverse k := by
  rw [(wf_ofSeq s).tryFind_reverse, tryFind_ofSeq]

omit [HashOrder κ] in
theorem tryFind_map {ν' : Type} (f : ν → ν') (d : Pdict κ ν) (k : κ) :
    tryFind (d.map fun e => (e.1, f e.2)) k = (tryFind d k).map f := by
  induction d with
  | nil => rfl
  | cons e d ih =>
    rw [map_cons, tryFind_cons, tryFind_cons, ih]
    split <;> rfl

end PersistentDict

/-! ### Sets -/

/-- `pset<'a>`: a dictionary whose values say nothing. -/
abbrev Pset (κ : Type) := Pdict κ Int

namespace PersistentSet
variable {κ : Type} [DecidableEq κ]

def contains (key : κ) (d : Pset κ) : Bool := decide (key ∈ PersistentDict.keys d)

def remove (d : Pset κ) (key : κ) : Pset κ := PersistentDict.remove key d

def subtract (s₁ s₂ : Pset κ) : Pset κ := (PersistentDict.keys s₂).foldl remove s₁

theorem contains_iff {key : κ} {d : Pset κ} :
    contains key d = true ↔ key ∈ PersistentDict.keys d :=
  decide_eq_true_iff

theorem contains_subtract (x : κ) (s₁ s₂ : Pset κ) :
    contains x (subtract s₁ s₂) = (contains x s₁ && !contains x s₂) := by
  unfold subtract
  rw [contains.eq_1 x s₂]
  induction PersistentDict.keys s₂ generalizing s₁ with
  | nil => simp
  | cons k l ih =>
    rw [foldl_cons, ih]
    by_cases hk : x = k <;> simp [contains, remove, PersistentDict.mem_keys_remove, hk]

variable [HashOrder κ]

def add (d : Pset κ) (key : κ) : Pset κ := PersistentDict.add key 0 d

def ofSeq (s : List κ) : Pset κ := PersistentDict.ofSeq (s.map fun x => (x, 0))

def union (s₁ s₂ : Pset κ) : Pset κ := (PersistentDict.keys s₂).foldl add s₁

def intersect (s₁ s₂ : Pset κ) : Pset κ :=
  (PersistentDict.keys s₂).foldl (fun acc x => if contains x s₁ then add acc x else acc) []

theorem contains_add (x k : κ) (d : Pset κ) :
    contains x (add d k) = (decide (x = k) || contains x d) := by
  simp [contains, add, PersistentDict.mem_keys_add]

theorem contains_union (x : κ) (s₁ s₂ : Pset κ) :
    contains x (union s₁ s₂) = (contains x s₁ || contains x s₂) := by
  unfold union
  rw [contains.eq_1 x s₂]
  induction PersistentDict.keys s₂ generalizing s₁ with
  | nil => simp
  | cons k l ih =>
    rw [foldl_cons, ih, contains_add]
    by_cases hk : x = k <;> simp [hk]

theorem contains_intersect (x : κ) (s₁ s₂ : Pset κ) :
    contains x (intersect s₁ s₂) = (contains x s₁ && contains x s₂) := by
  have h (l : List κ) (acc : Pset κ) :
      contains x (l.foldl (fun acc x => if contains x s₁ then add acc x else acc) acc) =
        (contains x acc || (contains x s₁ && decide (x ∈ l))) := by
    induction l generalizing acc with
    | nil => simp
    | cons k l ih =>
      rw [foldl_cons, ih]
      by_cases hk : x = k
      · subst hk
        cases hx : contains x s₁ <;> simp [contains_add]
      · split <;> simp [contains_add, hk]
  rw [intersect, h, contains.eq_1 x [], contains.eq_1 x s₂]
  rfl

end PersistentSet

end VSharp
