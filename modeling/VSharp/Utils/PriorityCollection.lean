import Mathlib.Data.List.AList

/-!
# Utils — Priority collections

`BidictionaryPriorityQueue` of `VSharp.Utils/PriorityCollection.fs`: the priority of each value, and
the values of each priority.  The sorted dictionary is the list of its pairs, the least key first.
An operation that throws has no result; `assert` is left out.

`Consistent` says that the two dictionaries hold the same pairs.
-/

namespace VSharp.Utils
open List Option

structure BidictionaryPriorityQueue (α : Type) where
  valuesToPriority : AList fun _ : α => ℕ
  priorityToList : List (ℕ × List α)

namespace BidictionaryPriorityQueue
variable {α : Type} [DecidableEq α]

def empty : BidictionaryPriorityQueue α := ⟨∅, []⟩

/-- `Dict.getValueOrUpdate` with an empty list, and then `AddFirst`. -/
def addFirst (item : α) (priority : ℕ) : List (ℕ × List α) → List (ℕ × List α)
  | [] => [(priority, [item])]
  | (p, items) :: rest =>
    if priority < p then (priority, [item]) :: (p, items) :: rest
    else if priority = p then (p, item :: items) :: rest
    else (p, items) :: addFirst item priority rest

/-- The value leaves the list of its priority, which goes when it is empty. -/
def removeFrom (item : α) (priority : ℕ) : List (ℕ × List α) → List (ℕ × List α)
  | [] => []
  | (p, items) :: rest =>
    if priority = p then
      if (items.erase item).isEmpty then rest else (p, items.erase item) :: rest
    else (p, items) :: removeFrom item priority rest

variable (q : BidictionaryPriorityQueue α)

def insert (item : α) (priority : ℕ) : Option (BidictionaryPriorityQueue α) :=
  if item ∈ q.valuesToPriority then none
  else some {
    valuesToPriority := q.valuesToPriority.insert item priority
    priorityToList := addFirst item priority q.priorityToList }

def remove (item : α) : Option (BidictionaryPriorityQueue α) := do
  let priority ← q.valuesToPriority.lookup item
  if priority ∈ q.priorityToList.map Prod.fst then
    some {
      valuesToPriority := q.valuesToPriority.erase item
      priorityToList := removeFrom item priority q.priorityToList }
  else none

def update (item : α) (priority : ℕ) : Option (BidictionaryPriorityQueue α) :=
  (q.remove item).bind fun q => q.insert item priority

omit [DecidableEq α] in
/-- `Choose`; the first value of an empty list throws. -/
def choose : Option (Option α) :=
  match q.priorityToList with
  | [] => some none
  | (_, items) :: _ => items.head?.map some

omit [DecidableEq α] in
/-- `Choose` with a selector. -/
def chooseWithSelector (selector : α → Bool) : Option α :=
  q.priorityToList.findSome? fun entry => entry.2.find? selector

def contains (item : α) : Bool := item ∈ q.valuesToPriority

def tryGetPriority (item : α) : Option ℕ := q.valuesToPriority.lookup item

omit [DecidableEq α] in
def toSeq : List α := q.valuesToPriority.keys

/-! ### The two dictionaries -/

/-- The value is in the list of the priority. -/
def Listed (entries : List (ℕ × List α)) (item : α) (priority : ℕ) : Prop :=
  ∃ items, (priority, items) ∈ entries ∧ item ∈ items

/-- The lists of the priorities: none is empty, none holds a value twice, and the keys ascend. -/
structure Sorted (entries : List (ℕ × List α)) : Prop where
  keys : entries.Pairwise fun e e' => e.1 < e'.1
  nodup : ∀ e ∈ entries, e.2.Nodup
  ne_nil : ∀ e ∈ entries, e.2 ≠ []

structure Consistent : Prop where
  sorted : Sorted q.priorityToList
  listed_iff : ∀ item priority,
    Listed q.priorityToList item priority ↔ q.valuesToPriority.lookup item = some priority

variable {q} {item x : α} {priority p : ℕ} {entries : List (ℕ × List α)}
variable {e : ℕ × List α} {q' : BidictionaryPriorityQueue α}

section

omit [DecidableEq α]

theorem listed_cons {items : List α} {p' : ℕ} :
    Listed ((p', items) :: entries) x p ↔ p = p' ∧ x ∈ items ∨ Listed entries x p := by
  simp only [Listed, mem_cons, Prod.mk.injEq]
  constructor
  · rintro ⟨items', ⟨rfl, rfl⟩ | hmem, hx⟩
    · exact .inl ⟨rfl, hx⟩
    · exact .inr ⟨items', hmem, hx⟩
  · rintro (⟨rfl, hx⟩ | ⟨items', hmem, hx⟩)
    · exact ⟨items, .inl ⟨rfl, rfl⟩, hx⟩
    · exact ⟨items', .inr hmem, hx⟩

theorem not_listed_nil : ¬ Listed ([] : List (ℕ × List α)) x p := fun ⟨_, hmem, _⟩ => by cases hmem

theorem Sorted.tail (h : Sorted (e :: entries)) : Sorted entries where
  keys := h.keys.of_cons
  nodup e' he' := h.nodup e' (.tail _ he')
  ne_nil e' he' := h.ne_nil e' (.tail _ he')

theorem listed_addFirst : Listed (addFirst item priority entries) x p ↔
    x = item ∧ p = priority ∨ Listed entries x p := by
  induction entries with
  | nil =>
    rw [addFirst, listed_cons, mem_singleton, and_comm]
  | cons e entries ih =>
    obtain ⟨p', items⟩ := e
    rw [addFirst]
    split
    case isTrue =>
      rw [listed_cons, mem_singleton, and_comm]
    case isFalse =>
      split
      case isTrue heq =>
        subst heq
        simp only [listed_cons, mem_cons]
        tauto
      case isFalse =>
        simp only [listed_cons, ih]
        tauto

theorem mem_keys_addFirst (h : e ∈ addFirst item priority entries) :
    e.1 = priority ∨ e.1 ∈ entries.map Prod.fst := by
  induction entries with
  | nil =>
    rw [addFirst, mem_singleton] at h
    exact .inl (congrArg Prod.fst h)
  | cons e' entries ih =>
    obtain ⟨p', items⟩ := e'
    rw [addFirst] at h
    split at h
    case isTrue =>
      rcases mem_cons.mp h with rfl | h
      · exact .inl rfl
      · exact .inr (mem_map_of_mem h)
    case isFalse =>
      split at h
      case isTrue =>
        rcases mem_cons.mp h with rfl | h
        · exact .inr (by simp)
        · exact .inr (mem_map_of_mem (mem_cons_of_mem _ h))
      case isFalse =>
        rcases mem_cons.mp h with rfl | h
        · exact .inr (by simp)
        · exact (ih h).imp_right (mem_cons_of_mem _)

theorem Sorted.addFirst (h : Sorted entries) (hfresh : ¬ Listed entries item priority) :
    Sorted (addFirst item priority entries) := by
  induction entries with
  | nil => exact ⟨by simp [BidictionaryPriorityQueue.addFirst],
      by simp [BidictionaryPriorityQueue.addFirst], by simp [BidictionaryPriorityQueue.addFirst]⟩
  | cons e entries ih =>
    obtain ⟨p', items⟩ := e
    have hcons := pairwise_cons.mp h.keys
    rw [listed_cons] at hfresh
    rw [BidictionaryPriorityQueue.addFirst]
    split
    case isTrue hlt =>
      refine ⟨pairwise_cons.mpr ⟨fun e he => ?_, h.keys⟩, ?_, ?_⟩
      · rcases mem_cons.mp he with rfl | he
        · exact hlt
        · exact Nat.lt_trans hlt (hcons.1 e he)
      · exact forall_mem_cons.mpr ⟨nodup_singleton item, h.nodup⟩
      · exact forall_mem_cons.mpr ⟨cons_ne_nil _ _, h.ne_nil⟩
    case isFalse hge =>
      split
      case isTrue heq =>
        subst heq
        have hitem : item ∉ items := fun hmem => hfresh (.inl ⟨rfl, hmem⟩)
        have hitems : items.Nodup := h.nodup _ mem_cons_self
        refine ⟨pairwise_cons.mpr hcons, ?_, ?_⟩
        · exact forall_mem_cons.mpr ⟨hitems.cons hitem, h.tail.nodup⟩
        · exact forall_mem_cons.mpr ⟨cons_ne_nil _ _, h.tail.ne_nil⟩
      case isFalse hne =>
        have hrest := ih h.tail fun hmem => hfresh (.inr hmem)
        refine ⟨pairwise_cons.mpr ⟨fun e he => ?_, hrest.keys⟩, ?_, ?_⟩
        · rcases mem_keys_addFirst he with heq | hmem
          · rw [heq]
            omega
          · obtain ⟨e', he', heq⟩ := mem_map.mp hmem
            rw [← heq]
            exact hcons.1 e' he'
        · exact forall_mem_cons.mpr ⟨h.nodup _ mem_cons_self, hrest.nodup⟩
        · exact forall_mem_cons.mpr ⟨h.ne_nil _ mem_cons_self, hrest.ne_nil⟩

end

theorem listed_removeFrom (h : Sorted entries) : Listed (removeFrom item priority entries) x p ↔
    Listed entries x p ∧ ¬ (x = item ∧ p = priority) := by
  induction entries with
  | nil => simp [removeFrom, not_listed_nil]
  | cons e entries ih =>
    obtain ⟨p', items⟩ := e
    have hcons := pairwise_cons.mp h.keys
    rw [removeFrom]
    split
    case isTrue heq =>
      subst heq
      -- the keys ascend, so the value is not listed under this priority again
      have hrest : Listed entries x p → p ≠ priority := by
        rintro ⟨items', hmem, -⟩
        exact Nat.ne_of_gt (hcons.1 _ hmem)
      have herase : x ∈ items.erase item ↔ x ≠ item ∧ x ∈ items :=
        (h.nodup _ mem_cons_self).mem_erase_iff
      have hlisted : Listed ((priority, items) :: entries) x p ∧ ¬ (x = item ∧ p = priority) ↔
          p = priority ∧ x ∈ items.erase item ∨ Listed entries x p := by
        rw [listed_cons, herase]
        tauto
      rw [hlisted]
      split
      case isTrue hempty =>
        rw [List.isEmpty_iff.mp hempty]
        simp
      case isFalse => rw [listed_cons]
    case isFalse hne =>
      rw [listed_cons, listed_cons, ih h.tail]
      have hp : p = p' → p ≠ priority := by
        rintro rfl heq
        exact hne heq.symm
      tauto

theorem mem_keys_removeFrom (h : e ∈ removeFrom item priority entries) :
    e.1 ∈ entries.map Prod.fst := by
  induction entries with
  | nil => cases h
  | cons e' entries ih =>
    obtain ⟨p', items⟩ := e'
    rw [map_cons, mem_cons]
    rw [removeFrom] at h
    split at h
    case isTrue =>
      split at h
      case isTrue => exact .inr (mem_map_of_mem h)
      case isFalse =>
        rcases mem_cons.mp h with rfl | h
        · exact .inl rfl
        · exact .inr (mem_map_of_mem h)
    case isFalse =>
      rcases mem_cons.mp h with rfl | h
      · exact .inl rfl
      · exact .inr (ih h)

theorem Sorted.removeFrom (h : Sorted entries) : Sorted (removeFrom item priority entries) := by
  induction entries with
  | nil => exact h
  | cons e entries ih =>
    obtain ⟨p', items⟩ := e
    have hcons := pairwise_cons.mp h.keys
    rw [BidictionaryPriorityQueue.removeFrom]
    split
    case isTrue =>
      split
      case isTrue => exact h.tail
      case isFalse hne =>
        have hitems : items.Nodup := h.nodup _ mem_cons_self
        refine ⟨pairwise_cons.mpr hcons, ?_, ?_⟩
        · exact forall_mem_cons.mpr ⟨hitems.erase item, h.tail.nodup⟩
        · refine forall_mem_cons.mpr ⟨fun hnil => hne ?_, h.tail.ne_nil⟩
          exact List.isEmpty_iff.mpr hnil
    case isFalse =>
      have hrest := ih h.tail
      refine ⟨pairwise_cons.mpr ⟨fun e he => ?_, hrest.keys⟩, ?_, ?_⟩
      · obtain ⟨e', he', heq⟩ := mem_map.mp (mem_keys_removeFrom he)
        rw [← heq]
        exact hcons.1 e' he'
      · exact forall_mem_cons.mpr ⟨h.nodup _ mem_cons_self, hrest.nodup⟩
      · exact forall_mem_cons.mpr ⟨h.ne_nil _ mem_cons_self, hrest.ne_nil⟩

/-! ### The operations -/

theorem consistent_empty : (empty : BidictionaryPriorityQueue α).Consistent where
  sorted := ⟨.nil, by simp [empty], by simp [empty]⟩
  listed_iff item priority := by simp [empty, not_listed_nil]

omit [DecidableEq α] in
theorem mem_toSeq : x ∈ q.toSeq ↔ x ∈ q.valuesToPriority := Iff.rfl

theorem contains_iff : q.contains x = true ↔ x ∈ q.toSeq := decide_eq_true_iff

theorem Consistent.mem_iff (h : q.Consistent) : x ∈ q.toSeq ↔ ∃ p, Listed q.priorityToList x p := by
  simp only [h.listed_iff]
  rw [mem_toSeq, ← AList.lookup_isSome, isSome_iff_exists]

/-- A fresh value is inserted. -/
theorem Consistent.insert (h : q.Consistent) (hfresh : item ∉ q.toSeq) (priority : ℕ) :
    ∃ q', q.insert item priority = some q' ∧ q'.Consistent ∧
      ∀ x, x ∈ q'.toSeq ↔ x = item ∨ x ∈ q.toSeq := by
  have habsent : item ∉ q.valuesToPriority := hfresh
  rw [BidictionaryPriorityQueue.insert, if_neg habsent]
  refine ⟨_, rfl, ⟨?_, fun x p => ?_⟩, fun x => ?_⟩
  · exact h.sorted.addFirst fun hlisted => hfresh (h.mem_iff.mpr ⟨_, hlisted⟩)
  · rw [listed_addFirst, h.listed_iff]
    rcases eq_or_ne x item with rfl | hne
    · have hnone : q.valuesToPriority.lookup x = none := AList.lookup_eq_none.mpr hfresh
      rw [AList.lookup_insert, hnone]
      simp [eq_comm]
    · rw [AList.lookup_insert_ne hne]
      simp [hne]
  · exact AList.mem_insert _

/-- A value that is held is removed. -/
theorem Consistent.remove (h : q.Consistent) (hmem : item ∈ q.toSeq) :
    ∃ q', q.remove item = some q' ∧ q'.Consistent ∧ ∀ x, x ∈ q'.toSeq ↔ x ∈ q.toSeq ∧ x ≠ item := by
  obtain ⟨priority, hlisted⟩ := h.mem_iff.mp hmem
  have hlookup := (h.listed_iff item priority).mp hlisted
  obtain ⟨items, hentry, -⟩ := hlisted
  have hkey : priority ∈ q.priorityToList.map Prod.fst := mem_map.mpr ⟨_, hentry, rfl⟩
  rw [BidictionaryPriorityQueue.remove, hlookup, bind_eq_bind, bind_some, if_pos hkey]
  refine ⟨_, rfl, ⟨h.sorted.removeFrom, fun x p => ?_⟩, fun x => ?_⟩
  · rw [listed_removeFrom h.sorted, h.listed_iff]
    rcases eq_or_ne x item with rfl | hne
    · rw [hlookup, AList.lookup_erase]
      simp [eq_comm]
    · rw [AList.lookup_erase_ne hne]
      simp [hne]
  · exact AList.mem_erase.trans and_comm

theorem Consistent.update (h : q.Consistent) (hmem : item ∈ q.toSeq) (priority : ℕ) :
    ∃ q', q.update item priority = some q' ∧ q'.Consistent ∧ ∀ x, x ∈ q'.toSeq ↔ x ∈ q.toSeq := by
  obtain ⟨q₁, hremove, hq₁, hmem₁⟩ := h.remove hmem
  have hfresh : item ∉ q₁.toSeq := fun hitem => ((hmem₁ item).mp hitem).2 rfl
  obtain ⟨q₂, hinsert, hq₂, hmem₂⟩ := hq₁.insert hfresh priority
  refine ⟨q₂, ?_, hq₂, fun x => ?_⟩
  · rw [BidictionaryPriorityQueue.update, hremove, bind_some, hinsert]
  · rw [hmem₂, hmem₁]
    constructor
    · rintro (rfl | ⟨hx, -⟩)
      · exact hmem
      · exact hx
    · intro hx
      rcases eq_or_ne x item with rfl | hne
      · exact .inl rfl
      · exact .inr ⟨hx, hne⟩

@[simp] theorem tryGetPriority_empty : (empty : BidictionaryPriorityQueue α).tryGetPriority x = none :=
  AList.lookup_empty x

theorem isSome_tryGetPriority : (q.tryGetPriority x).isSome = true ↔ x ∈ q.toSeq :=
  AList.lookup_isSome

theorem tryGetPriority_insert (h : q.insert item priority = some q') :
    q'.tryGetPriority x = if x = item then some priority else q.tryGetPriority x := by
  rw [BidictionaryPriorityQueue.insert] at h
  split at h
  case isTrue => cases h
  case isFalse =>
    obtain rfl := some.inj h
    rw [tryGetPriority]
    split
    case isTrue hx => rw [hx, AList.lookup_insert]
    case isFalse hx => exact AList.lookup_insert_ne hx

theorem tryGetPriority_remove (h : q.remove item = some q') :
    q'.tryGetPriority x = if x = item then none else q.tryGetPriority x := by
  obtain ⟨priority, -, h⟩ := bind_eq_some_iff.mp h
  split at h
  case isTrue =>
    obtain rfl := some.inj h
    rw [tryGetPriority]
    split
    case isTrue hx => rw [hx, AList.lookup_erase]
    case isFalse hx => exact AList.lookup_erase_ne hx
  case isFalse => cases h

theorem tryGetPriority_update (h : q.update item priority = some q') :
    q'.tryGetPriority x = if x = item then some priority else q.tryGetPriority x := by
  obtain ⟨q₁, hremove, hinsert⟩ := bind_eq_some_iff.mp h
  rw [tryGetPriority_insert hinsert, tryGetPriority_remove hremove]
  split <;> rfl

/-- The value that is chosen is held, and there is one unless the queue is empty. -/
theorem Consistent.choose (h : q.Consistent) :
    ∃ r, q.choose = some r ∧ (∀ x, r = some x → x ∈ q.toSeq) ∧ (r = none → ∀ x, x ∉ q.toSeq) := by
  rw [BidictionaryPriorityQueue.choose]
  split
  case h_1 hnil =>
    refine ⟨none, rfl, fun x hx => by simp at hx, fun _ x hx => ?_⟩
    obtain ⟨p, hlisted⟩ := h.mem_iff.mp hx
    rw [hnil] at hlisted
    exact not_listed_nil hlisted
  case h_2 p items rest hcons =>
    have hfirst : (p, items) ∈ q.priorityToList := hcons ▸ mem_cons_self
    obtain ⟨y, items, rfl⟩ := exists_cons_of_ne_nil (h.sorted.ne_nil _ hfirst)
    refine ⟨some y, rfl, fun x hx => ?_, fun hx => by simp at hx⟩
    obtain rfl := some.inj hx
    exact h.mem_iff.mpr ⟨p, _, hfirst, mem_cons_self⟩

theorem Consistent.chooseWithSelector (h : q.Consistent) (selector : α → Bool) :
    (∀ x, q.chooseWithSelector selector = some x → x ∈ q.toSeq ∧ selector x = true) ∧
      (q.chooseWithSelector selector = none → ∀ x ∈ q.toSeq, selector x = false) := by
  rw [BidictionaryPriorityQueue.chooseWithSelector]
  constructor
  · intro x hx
    obtain ⟨e, he, hfind⟩ := exists_of_findSome?_eq_some hx
    exact ⟨h.mem_iff.mpr ⟨e.1, e.2, he, mem_of_find?_eq_some hfind⟩, find?_some hfind⟩
  · intro hnone x hx
    obtain ⟨p, items, hentry, hitem⟩ := h.mem_iff.mp hx
    have hfind := findSome?_eq_none_iff.mp hnone _ hentry
    exact Bool.eq_false_iff.mpr (find?_eq_none.mp hfind x hitem)

end BidictionaryPriorityQueue

end VSharp.Utils
