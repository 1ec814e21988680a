import VSharp.Core.ConcreteHeap

/-!
# Core — HeapWrites

What a write to a concrete memory can do to the heap it shares with others.  The objects of a memory
(`Owns`) are those its maps know and those reachable from them.  A write whose objects are those of
the memory, or new (`Valid`), changes objects of the memory only and no string, and leaves the memory
with the objects it had, new ones and the empty string (`step_effect`).
-/

namespace VSharp
open Dictionary Function
open PersistentDict (tryFind keys)

variable {A O F T P : Type}

mutual

/-- `o` occurs in the value. -/
def Value.Mentions (o : O) : Value O F P → Prop
  | .prim _ | .null => False
  | .ref phys => phys = o
  | .struct fields => fields.Mentions o

def ValueFields.Mentions (o : O) : ValueFields O F P → Prop
  | .nil => False
  | .cons _ value rest => value.Mentions o ∨ rest.Mentions o

end

mutual

/-- The value with other objects in place of its own. -/
def Value.rename (ρ : O → O) : Value O F P → Value O F P
  | .prim value => .prim value
  | .null => .null
  | .ref phys => .ref (ρ phys)
  | .struct fields => .struct (fields.rename ρ)

def ValueFields.rename (ρ : O → O) : ValueFields O F P → ValueFields O F P
  | .nil => .nil
  | .cons fieldId value rest => .cons fieldId (value.rename ρ) (rest.rename ρ)

end

mutual

theorem Value.mentions_rename {ρ : O → O} {o : O} :
    ∀ v : Value O F P, (v.rename ρ).Mentions o → ∃ x, v.Mentions x ∧ o = ρ x
  | .prim _, h | .null, h => by
      rw [Value.rename, Value.Mentions] at h
      cases h
  | .ref phys, h => by
      rw [Value.rename, Value.Mentions] at h
      exact ⟨phys, by rw [Value.Mentions], h.symm⟩
  | .struct fields, h => by
      rw [Value.rename, Value.Mentions] at h
      obtain ⟨x, hx, hox⟩ := ValueFields.mentions_rename fields h
      exact ⟨x, by rw [Value.Mentions]; exact hx, hox⟩

theorem ValueFields.mentions_rename {ρ : O → O} {o : O} :
    ∀ fields : ValueFields O F P, (fields.rename ρ).Mentions o → ∃ x, fields.Mentions x ∧ o = ρ x
  | .nil, h => by
      rw [ValueFields.rename, ValueFields.Mentions] at h
      cases h
  | .cons fieldId value rest, h => by
      rw [ValueFields.rename, ValueFields.Mentions] at h
      rcases h with h | h
      · obtain ⟨x, hx, hox⟩ := Value.mentions_rename value h
        exact ⟨x, by rw [ValueFields.Mentions]; exact .inl hx, hox⟩
      · obtain ⟨x, hx, hox⟩ := ValueFields.mentions_rename rest h
        exact ⟨x, by rw [ValueFields.Mentions]; exact .inr hx, hox⟩

end

namespace Contents

/-- `o` occurs in the contents. -/
def Mentions (o : O) : Contents O F T P → Prop
  | .object fields => ∃ f, (fields f).Mentions o
  | .array _ _ _ elements => ∃ i, (elements i).Mentions o
  | .string _ => False
  | .boxed fields => fields.Mentions o

/-- The contents with other objects in place of their own. -/
def rename (ρ : O → O) : Contents O F T P → Contents O F T P
  | .object fields => .object fun f => (fields f).rename ρ
  | .array elemType lengths lowerBounds elements =>
    .array elemType lengths lowerBounds fun i => (elements i).rename ρ
  | .string chars => .string chars
  | .boxed fields => .boxed (fields.rename ρ)

theorem mentions_rename {ρ : O → O} {o : O} {c : Contents O F T P} (h : (c.rename ρ).Mentions o) :
    ∃ x, c.Mentions x ∧ o = ρ x := by
  cases c with
  | object fields =>
    obtain ⟨f, hf⟩ := h
    obtain ⟨x, hx, hox⟩ := (fields f).mentions_rename hf
    exact ⟨x, ⟨f, hx⟩, hox⟩
  | array elemType lengths lowerBounds elements =>
    obtain ⟨i, hi⟩ := h
    obtain ⟨x, hx, hox⟩ := (elements i).mentions_rename hi
    exact ⟨x, ⟨i, hx⟩, hox⟩
  | string chars => cases h
  | boxed fields => exact fields.mentions_rename h

end Contents

namespace ConcreteHeap
variable [DecidableEq A] [DecidableEq O]

/-- The objects a memory knows and those they lead to. -/
inductive Owns (m : ConcreteHeap A O F T P) : O → Prop where
  | address {a : A} {o : O} (h : tryFind m.cm.virtToPhys a = some o) : Owns m o
  | known {o : O} (h : o ∈ keys m.cm.physToVirt) : Owns m o
  | reference {o o' : O} {c : Contents O F T P} (ho : Owns m o) (hc : m.heap o = some c)
      (h : c.Mentions o') : Owns m o'

/-- The objects of the memory exist, and the empty string is empty. -/
structure WellFormed [StringPool O] (m : ConcreteHeap A O F T P) : Prop where
  empty : m.heap StringPool.empty = some (.string [])
  exist : ∀ o, Owns m o → m.heap o ≠ none

/-- What an operation does: it changes only objects of the memory and no string, and the objects of
the memory are those from before, new ones and the empty string. -/
structure Effect [StringPool O] (m m' : ConcreteHeap A O F T P) : Prop where
  exist : ∀ o, m.heap o ≠ none → m'.heap o ≠ none
  frame : ∀ o, m.heap o ≠ none → ¬ Owns m o → m'.heap o = m.heap o
  string : ∀ o chars, m.heap o = some (.string chars) → m'.heap o = some (.string chars)
  owns : ∀ o, Owns m' o → Owns m o ∨ (m.heap o = none ∧ m'.heap o ≠ none) ∨ o = StringPool.empty

variable [StringPool O] {m m' : ConcreteHeap A O F T P} {c' : Contents O F T P}

omit [DecidableEq O] in
theorem Effect.wellFormed (h : Effect m m') (hm : WellFormed m) : WellFormed m' where
  empty := h.string _ _ hm.empty
  exist o ho := by
    rcases h.owns o ho with ho | ⟨-, ho⟩ | rfl
    · exact h.exist o (hm.exist o ho)
    · exact ho
    · rw [h.string _ _ hm.empty]
      simp

/-- An object of the memory that is no string gets new contents made of objects of the memory. -/
theorem effect_put {phys : O} {c : Contents O F T P} (howns : Owns m phys)
    (hc : m.heap phys = some c) (hstring : ∀ chars, c ≠ .string chars)
    (hmentions : ∀ o, c'.Mentions o → Owns m o)
    (hheap : m'.heap = update m.heap phys (some c'))
    (hvirt : m'.cm.virtToPhys = m.cm.virtToPhys) (hphys : m'.cm.physToVirt = m.cm.physToVirt) :
    Effect m m' where
  exist o ho := by
    rw [hheap]
    by_cases h : o = phys
    · simp [h]
    · rwa [update_of_ne h]
  frame o ho hn := by
    have h : o ≠ phys := fun h => hn (h ▸ howns)
    rw [hheap, update_of_ne h]
  string o chars ho := by
    have h : o ≠ phys := by
      rintro rfl
      rw [hc] at ho
      exact hstring chars (Option.some.inj ho)
    rw [hheap, update_of_ne h]
    exact ho
  owns o ho := by
    left
    induction ho with
    | address h => exact .address (hvirt ▸ h)
    | known h => exact .known (hphys ▸ h)
    | @reference x y d _ hd hy ih =>
      rw [hheap] at hd
      by_cases h : x = phys
      · subst h
        rw [update_self] at hd
        cases hd
        exact hmentions y hy
      · rw [update_of_ne h] at hd
        exact .reference ih hd hy

omit [DecidableEq O] in
/-- The heap only gains objects made of objects of the memory, and the maps lead to known objects,
new ones and the empty string. -/
theorem effect_new (hm : WellFormed m) (hheap : ∀ o, m.heap o ≠ none → m'.heap o = m.heap o)
    (hnew : ∀ o c, m.heap o = none → m'.heap o = some c → ∀ o', c.Mentions o' → Owns m o')
    (hvirt : ∀ a o, tryFind m'.cm.virtToPhys a = some o →
      Owns m o ∨ (m.heap o = none ∧ m'.heap o ≠ none) ∨ o = StringPool.empty)
    (hphys : ∀ o ∈ keys m'.cm.physToVirt,
      Owns m o ∨ (m.heap o = none ∧ m'.heap o ≠ none) ∨ o = StringPool.empty) :
    Effect m m' where
  exist o ho := by rwa [hheap o ho]
  frame o ho _ := hheap o ho
  string o chars ho := by
    rw [hheap o (by simp [ho])]
    exact ho
  owns o ho := by
    induction ho with
    | address h => exact hvirt _ _ h
    | known h => exact hphys _ h
    | @reference x y d _ hd hy ih =>
      by_cases hx : m.heap x = none
      · exact .inl (hnew x d hx hd y hy)
      · rw [hheap x hx] at hd
        rcases ih with ih | ⟨hnone, -⟩ | rfl
        · exact .inl (.reference ih hd hy)
        · exact absurd hnone hx
        · rw [hm.empty] at hd
          cases hd
          cases hy

/-! ### Changed objects -/

variable {address : A} {phys obj new : O} {c : Contents O F T P} {value : Value O F P} {length : ℤ}

section

omit [DecidableEq O] [StringPool O]

theorem readObject_some (h : m.readObject address = some (phys, c)) :
    tryFind m.cm.virtToPhys address = some phys ∧ m.heap phys = some c := by
  unfold readObject at h
  split at h
  · cases h
  · next o ho =>
      obtain ⟨c', hc', heq⟩ := Option.map_eq_some_iff.mp h
      cases heq
      exact ⟨ho, hc'⟩

/-- What is copied out of an object occurs in it. -/
theorem mentions_copySource {srcIndex : ℤ} {source : ℤ → Value O F P}
    (h : copySource c srcIndex length = some source) {i : ℤ} {o : O} (ho : (source i).Mentions o) :
    c.Mentions o := by
  unfold copySource at h
  split at h
  · split at h
    · cases h
      exact ⟨_, ho⟩
    · cases h
  · split at h
    · cases h
      cases hchar : (‹List P›[(srcIndex + i).toNat]?) with
      | none =>
        simp only [hchar, Option.elim_none] at ho
        rw [Value.Mentions] at ho
        exact ho
      | some c =>
        simp only [hchar, Option.elim_some] at ho
        rw [Value.Mentions] at ho
        exact ho
    · cases h
  · cases h

end

omit [DecidableEq A] in
/-- The object of a made string, and the heap with it. -/
theorem newString_cases (m : ConcreteHeap A O F T P) (chars : List P) (new : O) :
    (chars = [] ∧ m.newString chars new = (StringPool.empty, m)) ∨
      (chars ≠ [] ∧ m.newString chars new = (new, m.put new (.string chars))) := by
  unfold newString
  cases chars with
  | nil => exact .inl ⟨rfl, rfl⟩
  | cons c chars => exact .inr ⟨List.cons_ne_nil _ _, rfl⟩

omit [DecidableEq A] in
theorem maps_newString (m : ConcreteHeap A O F T P) (chars : List P) (new : O) :
    (m.newString chars new).2.cm = m.cm := by
  rcases m.newString_cases chars new with ⟨-, h⟩ | ⟨-, h⟩
  · rw [h]
  · rw [h]
    rfl

omit [DecidableEq O] [StringPool O] in
theorem virtToPhys_writeObject {a : A} {o : O} (hcm : m'.cm = m.cm)
    (h : tryFind (m'.writeObject address obj).cm.virtToPhys a = some o) :
    tryFind m.cm.virtToPhys a = some o ∨ o = obj := by
  rw [writeObject, hcm, tryFind_set] at h
  split at h
  · exact .inr (Option.some.inj h).symm
  · exact .inl h

/-- A string is made and gets the address. -/
theorem effect_newString (hm : WellFormed m) {chars : List P} (hnew : m.heap new = none)
    (hheap : m'.heap = (m.newString chars new).2.heap)
    (hvirt : ∀ a o, tryFind m'.cm.virtToPhys a = some o →
      tryFind m.cm.virtToPhys a = some o ∨ o = (m.newString chars new).1)
    (hphys : ∀ o ∈ keys m'.cm.physToVirt,
      o ∈ keys m.cm.physToVirt ∨ o = (m.newString chars new).1) :
    Effect m m' := by
  rcases m.newString_cases chars new with ⟨-, h⟩ | ⟨-, h⟩
  · rw [h] at hheap hvirt hphys
    refine effect_new hm (fun o _ => by rw [hheap]) (fun o c hnone hsome => ?_) ?_ ?_
    · rw [hheap, hnone] at hsome
      cases hsome
    · exact fun a o ho => (hvirt a o ho).imp (fun ho => .address ho) .inr
    · exact fun o ho => (hphys o ho).imp (fun ho => .known ho) .inr
  · rw [h] at hheap hvirt hphys
    have hput : m'.heap new = some (.string chars) := by
      rw [hheap]
      exact update_self _ _ _
    have hother : ∀ o, o ≠ new → m'.heap o = m.heap o := by
      intro o ho
      rw [hheap]
      exact update_of_ne ho _ _
    refine effect_new hm (fun o ho => hother o fun h => ho (h ▸ hnew)) (fun o c hnone hsome => ?_)
      ?_ ?_
    · by_cases ho : o = new
      · subst ho
        rw [hput] at hsome
        cases hsome
        intro o' ho'
        cases ho'
      · rw [hother o ho, hnone] at hsome
        cases hsome
    · rintro a o ho
      rcases hvirt a o ho with ho | rfl
      · exact .inl (.address ho)
      · exact .inr (.inl ⟨hnew, by rw [hput]; simp⟩)
    · rintro o ho
      rcases hphys o ho with ho | rfl
      · exact .inl (.known ho)
      · exact .inr (.inl ⟨hnew, by rw [hput]; simp⟩)

theorem effect_writeString (hm : WellFormed m) (address : A) (chars : List P)
    (hnew : m.heap new = none) :
    Effect m ((m.newString chars new).2.writeObject address (m.newString chars new).1) := by
  have hcm := m.maps_newString chars new
  exact effect_newString hm hnew rfl (fun a o ho => virtToPhys_writeObject hcm ho)
    fun o ho => .inl (hcm ▸ ho)

theorem effect_replaceString (hm : WellFormed m) (address : A) (chars : List P)
    (hnew : m.heap new = none) : Effect m (m.replaceString address chars new) := by
  have hcm := m.maps_newString chars new
  refine effect_newString hm hnew rfl (fun a o ho => virtToPhys_writeObject hcm ho) fun o ho => ?_
  rw [← hcm]
  exact (mem_keys_set.mp ho).symm

omit [DecidableEq O] [StringPool O] in
theorem owns_of_readObject (h : m.readObject address = some (phys, c)) :
    Owns m phys ∧ m.heap phys = some c ∧ ∀ o, c.Mentions o → Owns m o := by
  obtain ⟨hphys, hc⟩ := readObject_some h
  exact ⟨.address hphys, hc, fun o ho => .reference (.address hphys) hc ho⟩

/-- An object is changed in place, and its children are tracked. -/
theorem effect_of_put (hread : m.readObject address = some (phys, c))
    (hstring : ∀ chars, c ≠ .string chars) (hmentions : ∀ o, c'.Mentions o → Owns m o)
    (h : m'.cm.maps = (m.put phys c').cm.maps ∧ m'.heap = (m.put phys c').heap) : Effect m m' := by
  obtain ⟨hphys, hc, -⟩ := owns_of_readObject hread
  exact effect_put hphys hc hstring hmentions h.2 (congrArg Prod.snd h.1) (congrArg Prod.fst h.1)

/-- An element of an array that is overwritten in a loop is an old one or one that is put there. -/
theorem foldl_update_cases {ι κ ν : Type} [DecidableEq κ] (index : ι → κ) (value : ι → ν)
    (l : List ι) (elements : κ → ν) (k : κ) :
    l.foldl (fun elements i => update elements (index i) (value i)) elements k =
        elements k ∨
      ∃ i, l.foldl (fun elements i => update elements (index i) (value i)) elements k =
        value i := by
  induction l generalizing elements with
  | nil => exact .inl rfl
  | cons i l ih =>
    rw [List.foldl_cons]
    rcases ih (update elements (index i) (value i)) with h | h
    · by_cases hk : k = index i
      · rw [h, hk, update_self]
        exact .inr ⟨i, rfl⟩
      · rw [h, update_of_ne hk]
        exact .inl rfl
    · exact .inr h

theorem effect_fillArray {index : ℤ} (hvalue : ∀ o, value.Mentions o → Owns m o)
    (h : m.fillArray address index length value = some m') : Effect m m' := by
  unfold fillArray at h
  split at h
  case h_1 phys elemType len lb elements hread =>
    split at h
    · cases h
      refine effect_of_put hread (by simp) ?_ ⟨rfl, rfl⟩
      rintro o ⟨k, hk⟩
      rcases foldl_update_cases (fun i : ℕ => [index + (i : ℤ)]) (fun _ => value)
        (List.range length.toNat) elements k with helem | ⟨-, helem⟩
      · rw [helem] at hk
        exact (owns_of_readObject hread).2.2 o ⟨k, hk⟩
      · rw [helem] at hk
        exact hvalue o hk
    · cases h
  case h_2 => cases h

omit [StringPool O] in
/-- What an allocation that succeeds has done. -/
theorem allocate_some (h : m.allocate address obj = some m') :
    m'.heap = m.heap ∧ tryFind m.cm.virtToPhys address = none ∧
      m'.cm.virtToPhys = Dictionary.set address obj m.cm.virtToPhys ∧
      m'.cm.physToVirt = Dictionary.set obj address m.cm.physToVirt := by
  unfold allocate at h
  split at h
  case h_1 c cm hc hcm =>
    cases h
    unfold ConcreteMemory.allocate at hcm
    split at hcm
    · cases hcm
    · next hfree =>
        cases hcm
        exact ⟨rfl, PersistentDict.tryFind_eq_none_iff.mpr hfree, rfl, rfl⟩
  case h_2 => cases h

theorem effect_allocate (hm : WellFormed m) (hobj : Owns m obj ∨ obj = StringPool.empty)
    (h : m.allocate address obj = some m') :
    Effect m m' := by
  obtain ⟨hheap, -, hvirt, hphys⟩ := allocate_some h
  refine effect_new hm (fun o _ => by rw [hheap]) (fun o c hnone hsome => ?_) ?_ ?_
  · rw [hheap, hnone] at hsome
    cases hsome
  · intro a o ho
    rw [hvirt, tryFind_set] at ho
    split at ho
    · cases ho
      exact hobj.imp_right .inr
    · exact .inl (.address ho)
  · intro o ho
    rw [hphys, mem_keys_set] at ho
    rcases ho with rfl | ho
    · exact hobj.imp_right .inr
    · exact .inl (.known ho)

theorem effect_allocateNew (hm : WellFormed m) (hobj : m.heap obj = none)
    (hc : ∀ o, c.Mentions o → Owns m o) (h : m.allocateNew address obj c = some m') :
    Effect m m' := by
  obtain ⟨hheap, -, hvirt, hphys⟩ := allocate_some h
  have hput : m'.heap obj = some c := by
    rw [hheap]
    exact update_self _ _ _
  have hother : ∀ o, o ≠ obj → m'.heap o = m.heap o := by
    intro o ho
    rw [hheap]
    exact update_of_ne ho _ _
  refine effect_new hm (fun o ho => hother o fun h => ho (h ▸ hobj)) (fun o d hnone hsome => ?_)
    ?_ ?_
  · by_cases ho : o = obj
    · subst ho
      rw [hput] at hsome
      cases hsome
      exact hc
    · rw [hother o ho, hnone] at hsome
      cases hsome
  · intro a o ho
    rw [hvirt, tryFind_set] at ho
    split at ho
    · cases ho
      exact .inr (.inl ⟨hobj, by rw [hput]; simp⟩)
    · exact .inl (.address ho)
  · intro o ho
    rw [hphys, mem_keys_set] at ho
    rcases ho with rfl | ho
    · exact .inr (.inl ⟨hobj, by rw [hput]; simp⟩)
    · exact .inl (.known ho)

/-- What a copy of characters into a string that succeeds has done. -/
theorem copyCharArray_some {arrayAddress stringAddress : A} (slice : List P → List P)
    (h : (match (m.readObject arrayAddress).bind fun e => charArray e.2,
        m.readObject stringAddress with
      | some chars, some _ => some (m.replaceString stringAddress (slice chars) new)
      | _, _ => none) = some m') :
    ∃ chars, ((m.readObject arrayAddress).bind fun e => charArray e.2) = some chars ∧
      m' = m.replaceString stringAddress (slice chars) new := by
  split at h
  case h_1 chars _ hchars _ =>
    cases h
    exact ⟨chars, hchars, rfl⟩
  case h_2 => cases h

/-! ### Runs of writes -/

/-- The operations that write to a concrete memory; `new` is the object of a string they make. -/
inductive Write (A O F T P : Type) where
  | allocate (address : A) (obj : O)
  | allocateNew (address : A) (obj : O) (contents : Contents O F T P)
  | writeClassField (address : A) (field : F) (value : Value O F P)
  | writeArrayIndex (address : A) (indices : List ℤ) (value : Value O F P) (new : O)
  | writeBoxedLocation (address : A) (fields : ValueFields O F P)
  | fillArray (address : A) (index length : ℤ) (value : Value O F P)
  | copyArray (srcAddress dstAddress : A) (srcIndex dstIndex length : ℤ) (new : O)
  | copyCharArrayToString (arrayAddress stringAddress : A) (startIndex : ℕ) (new : O)
  | copyCharArrayToStringLen (arrayAddress stringAddress : A) (startIndex length : ℕ) (new : O)
  | remove (address : A)

section
variable [DecidableEq F] [DecidableEq T] [Reflection F T]
  [ConcreteMemory.CellOrder O (ChildLocation F T)]

/-- One write. -/
def step (m : ConcreteHeap A O F T P) : Write A O F T P → Option (ConcreteHeap A O F T P)
  | .allocate address obj => m.allocate address obj
  | .allocateNew address obj contents => m.allocateNew address obj contents
  | .writeClassField address field value => m.writeClassField address field value
  | .writeArrayIndex address indices value new => m.writeArrayIndex address indices value new
  | .writeBoxedLocation address fields => m.writeBoxedLocation address fields
  | .fillArray address index length value => m.fillArray address index length value
  | .copyArray srcAddress dstAddress srcIndex dstIndex length new =>
    m.copyArray srcAddress dstAddress srcIndex dstIndex length new
  | .copyCharArrayToString arrayAddress stringAddress startIndex new =>
    m.copyCharArrayToString arrayAddress stringAddress startIndex new
  | .copyCharArrayToStringLen arrayAddress stringAddress startIndex length new =>
    m.copyCharArrayToStringLen arrayAddress stringAddress startIndex length new
  | .remove address => m.remove address

/-- The objects in a write are those of the memory that is written, and new objects are new. -/
def Valid (m : ConcreteHeap A O F T P) : Write A O F T P → Prop
  | .allocate _ obj => Owns m obj ∨ obj = StringPool.empty
  | .allocateNew _ obj contents => m.heap obj = none ∧ ∀ o, contents.Mentions o → Owns m o
  | .writeClassField _ _ value | .fillArray _ _ _ value => ∀ o, value.Mentions o → Owns m o
  | .writeArrayIndex _ _ value new => m.heap new = none ∧ ∀ o, value.Mentions o → Owns m o
  | .writeBoxedLocation _ fields => ∀ o, fields.Mentions o → Owns m o
  | .copyArray _ _ _ _ _ new | .copyCharArrayToString _ _ _ new
  | .copyCharArrayToStringLen _ _ _ _ new => m.heap new = none
  | .remove _ => True

section

omit [DecidableEq A] [StringPool O]

theorem maps_setChild {childKind : ChildKind F T} {typ : T} :
    (m.setChild phys value childKind typ).cm.maps = m.cm.maps ∧
      (m.setChild phys value childKind typ).heap = m.heap := by
  unfold setChild
  split
  · exact ⟨ConcreteMemory.maps_addChild _ _ _, rfl⟩
  · exact ⟨rfl, rfl⟩

theorem maps_setBoxedChildren {phys : O} :
    ∀ (m : ConcreteHeap A O F T P) (fields : ValueFields O F P),
      (m.setBoxedChildren phys fields).cm.maps = m.cm.maps ∧
        (m.setBoxedChildren phys fields).heap = m.heap
  | m, .nil => by
      rw [setBoxedChildren]
      exact ⟨rfl, rfl⟩
  | m, .cons fieldId value rest => by
      rw [setBoxedChildren]
      obtain ⟨hmaps, hheap⟩ := maps_setBoxedChildren
        { m with cm := m.cm.setChild phys (value.toChild T) (.field fieldId) } rest
      exact ⟨hmaps.trans (ConcreteMemory.maps_addChild _ _ _), hheap⟩

theorem maps_trackCopy {elemType : T} {lengths lowerBounds : List ℤ}
    {elements : List ℤ → Value O F P} {dstIndex : ℤ} {length : ℕ} :
    (m.trackCopy phys elemType lengths lowerBounds elements dstIndex length).cm.maps = m.cm.maps ∧
      (m.trackCopy phys elemType lengths lowerBounds elements dstIndex length).heap = m.heap := by
  unfold trackCopy
  generalize List.range length = l
  induction l generalizing m with
  | nil => exact ⟨rfl, rfl⟩
  | cons i l ih =>
    rw [List.foldl_cons]
    exact ⟨ih.1.trans maps_setChild.1, ih.2.trans maps_setChild.2⟩

end

theorem effect_writeClassField {field : F} (hvalue : ∀ o, value.Mentions o → Owns m o)
    (h : m.writeClassField address field value = some m') : Effect m m' := by
  unfold writeClassField at h
  split at h
  case h_1 phys fields hread =>
    cases h
    refine effect_of_put hread (by simp) ?_ maps_setChild
    rintro o ⟨f, hf⟩
    by_cases hfield : f = field
    · rw [hfield, update_self] at hf
      exact hvalue o hf
    · rw [update_of_ne hfield] at hf
      exact (owns_of_readObject hread).2.2 o ⟨f, hf⟩
  case h_2 => cases h

theorem effect_writeBoxedLocation {fields : ValueFields O F P}
    (hfields : ∀ o, fields.Mentions o → Owns m o)
    (h : m.writeBoxedLocation address fields = some m') : Effect m m' := by
  unfold writeBoxedLocation at h
  split at h
  case h_1 phys old hread =>
    cases h
    have hmentions : ∀ o, (Contents.boxed fields : Contents O F T P).Mentions o → Owns m o :=
      hfields
    exact effect_of_put hread (by simp) hmentions (maps_setBoxedChildren _ fields)
  case h_2 => cases h

theorem effect_writeArrayIndex (hm : WellFormed m) {indices : List ℤ} (hnew : m.heap new = none)
    (hvalue : ∀ o, value.Mentions o → Owns m o)
    (h : m.writeArrayIndex address indices value new = some m') : Effect m m' := by
  unfold writeArrayIndex at h
  split at h
  case h_1 phys elemType lengths lowerBounds elements hread =>
    split at h
    · cases h
      refine effect_of_put hread (by simp) ?_ maps_setChild
      rintro o ⟨k, hk⟩
      by_cases hindex : k = indices
      · rw [hindex, update_self] at hk
        exact hvalue o hk
      · rw [update_of_ne hindex] at hk
        exact (owns_of_readObject hread).2.2 o ⟨k, hk⟩
    · cases h
  case h_2 phys chars hread =>
    split at h
    · split at h
      · cases h
        exact effect_writeString hm address _ hnew
      · cases h
    · cases h
  case h_3 => cases h

theorem effect_copyArray (hm : WellFormed m) {srcAddress dstAddress : A} {srcIndex dstIndex : ℤ}
    (hnew : m.heap new = none)
    (h : m.copyArray srcAddress dstAddress srcIndex dstIndex length new = some m') :
    Effect m m' := by
  unfold copyArray at h
  split at h
  case h_1 srcPhys src phys elemType lengths lowerBounds elements hsrc hdst =>
    split at h
    case h_1 => cases h
    case h_2 source hsource =>
      split at h
      case isFalse => cases h
      case isTrue =>
        have hmentions : ∀ o, (Contents.array elemType lengths lowerBounds
            (copyElements source lengths lowerBounds dstIndex length.toNat
              elements)).Mentions o → Owns m o := by
          rintro o ⟨k, hk⟩
          rcases foldl_update_cases (fun i : ℕ => delinearizeArrayIndex
              (dstIndex - lowerBounds.headD 0 + i) lengths lowerBounds)
              (fun i : ℕ => source i) (List.range length.toNat) elements k with
            helem | ⟨i, helem⟩
          · rw [copyElements, helem] at hk
            exact (owns_of_readObject hdst).2.2 o ⟨k, hk⟩
          · rw [copyElements, helem] at hk
            exact (owns_of_readObject hsrc).2.2 o (mentions_copySource hsource hk)
        split at h
        · cases h
          exact effect_of_put hdst (by simp) hmentions maps_trackCopy
        · cases h
          exact effect_of_put hdst (by simp) hmentions ⟨rfl, rfl⟩
  case h_2 srcPhys src phys chars hsrc hdst =>
    split at h
    case h_1 => cases h
    case h_2 source hsource =>
      split at h
      case isFalse => cases h
      case isTrue =>
        split at h
        · cases h
        · cases h
          exact effect_writeString hm dstAddress _ hnew
  case h_3 => cases h

omit [StringPool O] [Reflection F T] [ConcreteMemory.CellOrder O (ChildLocation F T)] in
/-- What a removal that succeeds has done. -/
theorem remove_some (h : m.remove address = some m') :
    m'.heap = m.heap ∧ m'.cm.virtToPhys = PersistentDict.remove address m.cm.virtToPhys ∧
      m'.cm.physToVirt = m.cm.physToVirt := by
  obtain ⟨cm, hcm, rfl⟩ := Option.map_eq_some_iff.mp h
  unfold ConcreteMemory.remove at hcm
  split at hcm
  · cases hcm
  · cases hcm
    exact ⟨rfl, rfl, rfl⟩

omit [Reflection F T] [ConcreteMemory.CellOrder O (ChildLocation F T)] in
theorem effect_remove (hm : WellFormed m) (h : m.remove address = some m') :
    Effect m m' := by
  obtain ⟨hheap, hvirt, hphys⟩ := remove_some h
  refine effect_new hm (fun o _ => by rw [hheap]) (fun o c hnone hsome => ?_) ?_ ?_
  · rw [hheap, hnone] at hsome
    cases hsome
  · intro a o ho
    rw [hvirt, tryFind_remove] at ho
    split at ho
    · cases ho
    · exact .inl (.address ho)
  · intro o ho
    rw [hphys] at ho
    exact .inl (.known ho)

/-- A write that succeeds has an effect on the memory it is valid for, and on no other. -/
theorem step_effect (hm : WellFormed m) {op : Write A O F T P} (hvalid : Valid m op)
    (h : m.step op = some m') : Effect m m' := by
  cases op with
  | allocate address obj => exact effect_allocate hm hvalid h
  | allocateNew address obj contents => exact effect_allocateNew hm hvalid.1 hvalid.2 h
  | writeClassField address field value => exact effect_writeClassField hvalid h
  | writeArrayIndex address indices value new =>
    exact effect_writeArrayIndex hm hvalid.1 hvalid.2 h
  | writeBoxedLocation address fields => exact effect_writeBoxedLocation hvalid h
  | fillArray address index length value => exact effect_fillArray hvalid h
  | copyArray srcAddress dstAddress srcIndex dstIndex length new =>
    exact effect_copyArray hm hvalid h
  | copyCharArrayToString arrayAddress stringAddress startIndex new =>
    obtain ⟨chars, -, rfl⟩ := copyCharArray_some (fun chars => chars.drop startIndex) h
    exact effect_replaceString hm stringAddress _ hvalid
  | copyCharArrayToStringLen arrayAddress stringAddress startIndex length new =>
    obtain ⟨chars, -, rfl⟩ :=
      copyCharArray_some (fun chars => (chars.take length).drop startIndex) h
    exact effect_replaceString hm stringAddress _ hvalid
  | remove address => exact effect_remove hm h

end

end ConcreteHeap

end VSharp
