import VSharp.Core.HeapWrites

/-!
# Core — MemoryCopy

`ConcreteMemory.Copy`, which a fork of the state calls.  It goes over `physToVirt` and keeps an
address when `virtToPhys` agrees, so that it keeps all addresses only if `physToVirt` leads from each
object at an address back to the address (`AddressesAgree`).  Writes to the elements of a string break
this, and so does an object at two addresses.

`Copier.DeepCopy` is taken as a renaming of objects (`DeepCopied`): it gives each object of the
memory a fresh one with the same contents.

* `copy_of_reached`: along runs that keep the maps in agreement (`KeepsAddresses`), the copy has the
  same addresses with the renamed objects, and later writes to one memory leave the objects of the
  other as they are.
* `copy_loses_string`: a string with a written element has no address in the copy.
-/

namespace VSharp
open Dictionary List
open PersistentDict (tryFind keys)

variable {A O F T P : Type}

namespace ConcreteMemory
variable [DecidableEq A] [DecidableEq O] {L : Type}

/-- The references between copied objects, for `parents`. -/
def copiedReferences (copying : O → Bool) (cm : ConcreteMemory A O L) : List (O × O × L) :=
  cm.children.flatMap fun e =>
    if copying e.1 then
      e.2.filterMap fun entry =>
        match entry.2 with
        | .concrete child => if copying child then some (e.1, child, entry.1) else none
        | .symbolic => none
    else []

/-- The cells of a copied object. -/
def copyCells (deepCopy : O → O) (copying : O → Bool) (childDict : Pdict L (Cell O)) :
    Pdict L (Cell O) :=
  childDict.filterMap fun entry =>
    match entry.2 with
    | .concrete child => if copying child then some (entry.1, .concrete (deepCopy child)) else none
    | .symbolic => some (entry.1, .symbolic)

/-- `Copy`, with the copies that `Copier` makes and the objects it has copied. -/
def copy (deepCopy : O → O) (copying : O → Bool) (cm : ConcreteMemory A O L) :
    ConcreteMemory A O L :=
  let tables : ConcreteMemory A O L :=
    { physToVirt := cm.physToVirt.foldl
        (fun physToVirt e => Dictionary.set (deepCopy e.1) e.2 physToVirt) []
      virtToPhys := cm.physToVirt.foldl
        (fun virtToPhys e =>
          if tryFind cm.virtToPhys e.2 = some e.1 then
            Dictionary.set e.2 (deepCopy e.1) virtToPhys
          else virtToPhys) []
      children := cm.children.foldl
        (fun children e =>
          if copying e.1 then
            Dictionary.set (deepCopy e.1) (copyCells deepCopy copying e.2) children
          else children) []
      parents := []
      fullyConcretes := (cm.fullyConcretes.filter copying).map deepCopy }
  (cm.copiedReferences copying).foldl
    (fun tables e => tables.addToParents (deepCopy e.1) (deepCopy e.2.1) e.2.2) tables

/-- Each object at an address leads back to the address. -/
def AddressesAgree (cm : ConcreteMemory A O L) : Prop :=
  ∀ a o, tryFind cm.virtToPhys a = some o → tryFind cm.physToVirt o = some a

variable {deepCopy : O → O} {copying : O → Bool} {cm : ConcreteMemory A O L} {a : A} {o : O}

omit [DecidableEq A] in
theorem addToParents_loop (l : List (O × O × L)) (cm : ConcreteMemory A O L) :
    (l.foldl (fun tables e => tables.addToParents (deepCopy e.1) (deepCopy e.2.1) e.2.2)
        cm).virtToPhys = cm.virtToPhys ∧
      (l.foldl (fun tables e => tables.addToParents (deepCopy e.1) (deepCopy e.2.1) e.2.2)
        cm).physToVirt = cm.physToVirt := by
  induction l generalizing cm with
  | nil => exact ⟨rfl, rfl⟩
  | cons e l ih => exact ih _

/-- The addresses that the copy keeps, with the copies of their objects. -/
theorem tryFind_copy_virtToPhys :
    tryFind (cm.copy deepCopy copying).virtToPhys a =
      match tryFind cm.virtToPhys a with
      | some o => if (o, a) ∈ cm.physToVirt then some (deepCopy o) else none
      | none => none := by
  have hloop (entries : Pdict O A) (acc : Pdict A O) :
      tryFind (entries.foldl (fun virtToPhys e =>
        if tryFind cm.virtToPhys e.2 = some e.1 then
          Dictionary.set e.2 (deepCopy e.1) virtToPhys
        else virtToPhys) acc) a =
      match tryFind cm.virtToPhys a with
      | some o => if (o, a) ∈ entries then some (deepCopy o) else tryFind acc a
      | none => tryFind acc a := by
    induction entries generalizing acc with
    | nil => cases tryFind cm.virtToPhys a <;> simp
    | cons e entries ih =>
      rw [foldl_cons, ih]
      cases ha : tryFind cm.virtToPhys a with
      | none =>
        dsimp only
        split
        case isTrue he =>
          have hne : a ≠ e.2 := fun h => by rw [h, he] at ha; cases ha
          rw [tryFind_set, if_neg hne]
        case isFalse => rfl
      | some o =>
        by_cases hmem : (o, a) ∈ entries
        · simp [hmem]
        · by_cases he : (o, a) = e
          · subst he
            simp [hmem, ha, tryFind_set]
          · simp only [hmem, mem_cons, he, or_self, if_false]
            split
            case isTrue hcond =>
              have hne : a ≠ e.2 := by
                intro h
                rw [← h, ha] at hcond
                exact he (Prod.ext (Option.some.inj hcond) h)
              rw [tryFind_set, if_neg hne]
            case isFalse => rfl
  rw [copy, (addToParents_loop _ _).1, hloop]
  cases tryFind cm.virtToPhys a <;> rfl

/-- When the maps agree, the copy has the same addresses with the copied objects. -/
theorem AddressesAgree.copy (h : AddressesAgree cm) :
    tryFind (cm.copy deepCopy copying).virtToPhys a = (tryFind cm.virtToPhys a).map deepCopy := by
  rw [tryFind_copy_virtToPhys]
  cases ha : tryFind cm.virtToPhys a with
  | none => rfl
  | some o =>
    have hmem := mem_of_tryFind (h a o ha)
    simp [hmem]

omit [DecidableEq O] in
theorem contains_iff : cm.contains a = true ↔ ∃ o, tryFind cm.virtToPhys a = some o := by
  rw [contains, decide_eq_true_iff, ← not_iff_not, ← PersistentDict.tryFind_eq_none_iff]
  cases tryFind cm.virtToPhys a <;> simp

end ConcreteMemory

namespace ConcreteHeap
variable [DecidableEq A] [DecidableEq O] [StringPool O] {m m' : ConcreteHeap A O F T P} {L : Type}
  {cm cm' : ConcreteMemory A O L}

/-! ### Writes that keep the maps in agreement -/

/-- The object at the address is a string. -/
def IsString (m : ConcreteHeap A O F T P) (address : A) : Prop :=
  ∃ phys chars, m.readObject address = some (phys, .string chars)

/-- The empty string has no address other than `address`. -/
def EmptyOnlyAt (m : ConcreteHeap A O F T P) (address : A) : Prop :=
  ∀ a, a ≠ address → tryFind m.cm.virtToPhys a ≠ some StringPool.empty

/-- No element of a string is written, an object that has an address does not get another one, and
neither does the empty string when it is made. -/
def KeepsAddresses (m : ConcreteHeap A O F T P) : Write A O F T P → Prop
  | .allocate _ obj => ∀ a, tryFind m.cm.virtToPhys a ≠ some obj
  | .writeArrayIndex address _ _ _ => ¬ m.IsString address
  | .copyArray _ dstAddress _ _ _ _ => ¬ m.IsString dstAddress
  | .copyCharArrayToString arrayAddress stringAddress startIndex _ =>
    ∀ chars, ((m.readObject arrayAddress).bind fun e => charArray e.2) = some chars →
      chars.drop startIndex = [] → m.EmptyOnlyAt stringAddress
  | .copyCharArrayToStringLen arrayAddress stringAddress startIndex length _ =>
    ∀ chars, ((m.readObject arrayAddress).bind fun e => charArray e.2) = some chars →
      (chars.take length).drop startIndex = [] → m.EmptyOnlyAt stringAddress
  | .allocateNew _ _ _ | .writeClassField _ _ _ | .writeBoxedLocation _ _
  | .fillArray _ _ _ _ | .remove _ => True

omit [StringPool O] in
theorem agree_of_maps (h : cm.AddressesAgree) (hmaps : cm'.maps = cm.maps) :
    cm'.AddressesAgree := by
  have hphys : cm'.physToVirt = cm.physToVirt := congrArg Prod.fst hmaps
  have hvirt : cm'.virtToPhys = cm.virtToPhys := congrArg Prod.snd hmaps
  intro a o ho
  rw [hvirt] at ho
  rw [hphys]
  exact h a o ho

omit [StringPool O] in
/-- An object that is at no other address gets an address. -/
theorem agree_of_set (h : cm.AddressesAgree) {address : A} {obj : O}
    (hvirt : cm'.virtToPhys = Dictionary.set address obj cm.virtToPhys)
    (hphys : cm'.physToVirt = Dictionary.set obj address cm.physToVirt)
    (hobj : ∀ a, a ≠ address → tryFind cm.virtToPhys a ≠ some obj) : cm'.AddressesAgree := by
  intro a o ho
  rw [hvirt, tryFind_set] at ho
  rw [hphys, tryFind_set]
  split at ho
  case isTrue ha =>
    cases ho
    rw [if_pos rfl, ha]
  case isFalse ha =>
    have hne : o ≠ obj := by
      rintro rfl
      exact hobj a ha ho
    rw [if_neg hne]
    exact h a o ho

section
variable [DecidableEq F] [DecidableEq T] [Reflection F T]
  [ConcreteMemory.CellOrder O (ChildLocation F T)] {address : A} {new : O}

omit [DecidableEq F] [DecidableEq T] [Reflection F T]
  [ConcreteMemory.CellOrder O (ChildLocation F T)] in
theorem agree_replaceString (hm : WellFormed m) (h : m.cm.AddressesAgree) {chars : List P}
    (hnew : m.heap new = none) (hempty : chars = [] → m.EmptyOnlyAt address) :
    (m.replaceString address chars new).cm.AddressesAgree := by
  have hcm := m.maps_newString chars new
  have hvirt : (m.replaceString address chars new).cm.virtToPhys =
      Dictionary.set address (m.newString chars new).1 m.cm.virtToPhys := by
    rw [← hcm]
    rfl
  have hphys : (m.replaceString address chars new).cm.physToVirt =
      Dictionary.set (m.newString chars new).1 address m.cm.physToVirt := by
    rw [← hcm]
    rfl
  refine agree_of_set h hvirt hphys fun a ha ho => ?_
  rcases m.newString_cases chars new with ⟨hnil, heq⟩ | ⟨-, heq⟩
  · rw [heq] at ho
    exact hempty hnil a ha ho
  · rw [heq] at ho
    exact hm.exist new (.address ho) hnew

theorem maps_writeArrayIndex {indices : List ℤ} {value : Value O F P}
    (hstring : ¬ m.IsString address) (h : m.writeArrayIndex address indices value new = some m') :
    m'.cm.maps = m.cm.maps := by
  unfold writeArrayIndex at h
  split at h
  case h_1 =>
    split at h
    · cases h
      exact maps_setChild.1
    · cases h
  case h_2 phys chars hread => exact absurd ⟨phys, chars, hread⟩ hstring
  case h_3 => cases h

theorem maps_copyArray {srcAddress dstAddress : A} {srcIndex dstIndex length : ℤ}
    (hstring : ¬ m.IsString dstAddress)
    (h : m.copyArray srcAddress dstAddress srcIndex dstIndex length new = some m') :
    m'.cm.maps = m.cm.maps := by
  unfold copyArray at h
  split at h
  case h_1 =>
    split at h
    case h_1 => cases h
    case h_2 =>
      split at h
      case isFalse => cases h
      case isTrue =>
        split at h
        · cases h
          exact maps_trackCopy.1
        · cases h
          rfl
  case h_2 _ _ phys chars _ hread => exact absurd ⟨phys, chars, hread⟩ hstring
  case h_3 => cases h

theorem step_agree (hm : WellFormed m) (h : m.cm.AddressesAgree) {op : Write A O F T P}
    (hvalid : Valid m op) (hkeeps : KeepsAddresses m op) (hstep : m.step op = some m') :
    m'.cm.AddressesAgree := by
  cases op with
  | allocate address obj =>
    obtain ⟨-, -, hvirt, hphys⟩ := allocate_some hstep
    exact agree_of_set h hvirt hphys fun a _ => hkeeps a
  | allocateNew address obj contents =>
    obtain ⟨-, -, hvirt, hphys⟩ := allocate_some hstep
    exact agree_of_set h hvirt hphys fun a _ ho => hm.exist obj (.address ho) hvalid.1
  | writeClassField address field value =>
    simp only [step, writeClassField] at hstep
    split at hstep
    · cases hstep
      exact agree_of_maps h maps_setChild.1
    · cases hstep
  | writeArrayIndex address indices value new =>
    exact agree_of_maps h (maps_writeArrayIndex hkeeps hstep)
  | writeBoxedLocation address fields =>
    simp only [step, writeBoxedLocation] at hstep
    split at hstep
    · cases hstep
      exact agree_of_maps h (maps_setBoxedChildren _ fields).1
    · cases hstep
  | fillArray address index length value =>
    simp only [step, fillArray] at hstep
    split at hstep
    · split at hstep
      · cases hstep
        exact h
      · cases hstep
    · cases hstep
  | copyArray srcAddress dstAddress srcIndex dstIndex length new =>
    exact agree_of_maps h (maps_copyArray hkeeps hstep)
  | copyCharArrayToString arrayAddress stringAddress startIndex new =>
    obtain ⟨chars, hchars, rfl⟩ := copyCharArray_some (fun chars => chars.drop startIndex) hstep
    exact agree_replaceString hm h hvalid (hkeeps chars hchars)
  | copyCharArrayToStringLen arrayAddress stringAddress startIndex length new =>
    obtain ⟨chars, hchars, rfl⟩ :=
      copyCharArray_some (fun chars => (chars.take length).drop startIndex) hstep
    exact agree_replaceString hm h hvalid (hkeeps chars hchars)
  | remove address =>
    obtain ⟨-, hvirt, hphys⟩ := remove_some hstep
    intro a o ho
    rw [hvirt, tryFind_remove] at ho
    split at ho
    · cases ho
    · rw [hphys]
      exact h a o ho

/-- The memories that valid writes lead to that keep the maps in agreement. -/
inductive Reached (heap : O → Option (Contents O F T P)) : ConcreteHeap A O F T P → Prop where
  | empty : Reached heap ⟨heap, .empty⟩
  | step {m m' : ConcreteHeap A O F T P} {op : Write A O F T P} (h : Reached heap m)
      (hvalid : Valid m op) (hkeeps : KeepsAddresses m op) (hstep : m.step op = some m') :
      Reached heap m'

theorem Reached.agree {heap : O → Option (Contents O F T P)}
    (hempty : heap StringPool.empty = some (.string [])) (h : Reached heap m) :
    WellFormed m ∧ m.cm.AddressesAgree := by
  induction h with
  | empty =>
    refine ⟨⟨hempty, fun o ho => ?_⟩, nofun⟩
    exfalso
    induction ho with
    | address h => cases h
    | known h => cases h
    | reference _ _ _ ih => exact ih
  | step _ hvalid hkeeps hstep ih =>
    exact ⟨(step_effect ih.1 hvalid hstep).wellFormed ih.1,
      step_agree ih.1 ih.2 hvalid hkeeps hstep⟩

/-! ### The fork -/

/-- `Copier.DeepCopy`: each object of the memory has a fresh copy of equal contents in `heap`. -/
structure DeepCopied (m : ConcreteHeap A O F T P) (deepCopy : O → O)
    (heap : O → Option (Contents O F T P)) : Prop where
  injective : ∀ o₁ o₂, Owns m o₁ → Owns m o₂ → deepCopy o₁ = deepCopy o₂ → o₁ = o₂
  fresh : ∀ o, Owns m o → m.heap (deepCopy o) = none
  contents : ∀ o c, Owns m o → m.heap o = some c → heap (deepCopy o) = some (c.rename deepCopy)
  frame : ∀ o, m.heap o ≠ none → heap o = m.heap o

/-- Any number of valid writes. -/
def Writes : ConcreteHeap A O F T P → ConcreteHeap A O F T P → Prop :=
  Relation.ReflTransGen fun m m' => ∃ op, Valid m op ∧ m.step op = some m'

/-- Objects that are not of the memory, or strings, keep their contents under writes to it. -/
theorem Writes.frame (h : Writes m m') (hm : WellFormed m) {o : O} {c : Contents O F T P}
    (hc : m.heap o = some c) (hforeign : ¬ Owns m o ∨ ∃ chars, c = .string chars) :
    m'.heap o = some c := by
  induction h using Relation.ReflTransGen.head_induction_on with
  | refl => exact hc
  | @head m₁ m₂ hstep _ ih =>
    obtain ⟨op, hvalid, hop⟩ := hstep
    have heffect := step_effect hm hvalid hop
    have hexists : m₁.heap o ≠ none := by simp [hc]
    have hsame : m₂.heap o = some c := by
      rcases hforeign with hforeign | ⟨chars, rfl⟩
      · rw [heffect.frame o hexists hforeign, hc]
      · exact heffect.string o chars hc
    refine ih (heffect.wellFormed hm) hsame ?_
    by_cases howns : Owns m₂ o
    · rcases heffect.owns o howns with ho | ⟨hnone, -⟩ | rfl
      · exact hforeign.imp_left fun hn => absurd ho hn
      · exact absurd hnone hexists
      · rw [hm.empty] at hc
        cases hc
        exact .inr ⟨[], rfl⟩
    · exact .inl howns

section
variable {deepCopy : O → O} {copying : O → Bool} {heap : O → Option (Contents O F T P)}

section

omit [Reflection F T] [ConcreteMemory.CellOrder O (ChildLocation F T)]

variable {o : O}

omit [DecidableEq O] [DecidableEq F] [DecidableEq T] in
/-- The heap with the copies does not give the memory other objects. -/
theorem DeepCopied.owns (hcopy : DeepCopied m deepCopy heap) (hm : WellFormed m)
    (h : Owns ⟨heap, m.cm⟩ o) : Owns m o := by
  induction h with
  | address h => exact .address h
  | known h => exact .known h
  | @reference x y c _ hc hy ih =>
    have hc : heap x = some c := hc
    rw [hcopy.frame x (hm.exist x ih)] at hc
    exact .reference ih hc hy

omit [StringPool O] [DecidableEq F] [DecidableEq T] in
theorem mem_keys_copy [DecidableEq L] {cm : ConcreteMemory A O L}
    (h : o ∈ keys (cm.copy deepCopy copying).physToVirt) :
    ∃ x ∈ keys cm.physToVirt, o = deepCopy x := by
  have hloop (entries acc : Pdict O A)
      (h : o ∈ keys (entries.foldl
        (fun physToVirt e => Dictionary.set (deepCopy e.1) e.2 physToVirt) acc)) :
      o ∈ keys acc ∨ ∃ x ∈ keys entries, o = deepCopy x := by
    induction entries generalizing acc with
    | nil => exact .inl h
    | cons e entries ih =>
      rcases ih _ h with h | ⟨x, hx, hox⟩
      · rcases mem_keys_set.mp h with rfl | h
        · exact .inr ⟨e.1, mem_cons_self, rfl⟩
        · exact .inl h
      · exact .inr ⟨x, mem_cons_of_mem _ hx, hox⟩
  rw [ConcreteMemory.copy, (ConcreteMemory.addToParents_loop _ _).2] at h
  exact (hloop _ _ h).resolve_left not_mem_nil

section
variable (hcopy : DeepCopied m deepCopy heap) (hm : WellFormed m)

include hcopy hm

/-- The objects of the copy are the copies of objects of the memory. -/
theorem DeepCopied.owns_copy (h : Owns ⟨heap, m.cm.copy deepCopy copying⟩ o) :
    ∃ x, Owns m x ∧ o = deepCopy x := by
  induction h with
  | @address a o h =>
    have h : tryFind (m.cm.copy deepCopy copying).virtToPhys a = some o := h
    rw [ConcreteMemory.tryFind_copy_virtToPhys] at h
    split at h
    · next x hx =>
        split at h
        · cases h
          exact ⟨x, .address hx, rfl⟩
        · cases h
    · cases h
  | known h =>
    obtain ⟨x, hx, hox⟩ := mem_keys_copy h
    exact ⟨x, .known hx, hox⟩
  | @reference o y c _ hc hy ih =>
    obtain ⟨x, hx, rfl⟩ := ih
    obtain ⟨d, hd⟩ := Option.ne_none_iff_exists'.mp (hm.exist x hx)
    have hc : heap (deepCopy x) = some c := hc
    rw [hcopy.contents x d hx hd] at hc
    cases hc
    obtain ⟨z, hz, rfl⟩ := Contents.mentions_rename hy
    exact ⟨z, .reference hx hd hz, rfl⟩

omit [DecidableEq O] [DecidableEq F] [DecidableEq T] in
theorem DeepCopied.wellFormed : WellFormed (⟨heap, m.cm⟩ : ConcreteHeap A O F T P) where
  empty := (hcopy.frame _ (by simp [hm.empty])).trans hm.empty
  exist o ho := by
    have hexists := hm.exist o (hcopy.owns hm ho)
    exact fun hnone => hexists ((hcopy.frame o hexists).symm.trans hnone)

theorem DeepCopied.wellFormed_copy :
    WellFormed (⟨heap, m.cm.copy deepCopy copying⟩ : ConcreteHeap A O F T P) where
  empty := (hcopy.wellFormed hm).empty
  exist o ho := by
    obtain ⟨x, hx, rfl⟩ := hcopy.owns_copy hm ho
    obtain ⟨d, hd⟩ := Option.ne_none_iff_exists'.mp (hm.exist x hx)
    have hc := hcopy.contents x d hx hd
    exact fun hnone => Option.some_ne_none _ (hc.symm.trans hnone)

end

end

/-- After writes that keep the maps in agreement, a fork loses no address, gives each address the
copy of its object, and neither memory sees the later writes to the other. -/
theorem copy_of_reached {start : O → Option (Contents O F T P)}
    (hempty : start StringPool.empty = some (.string [])) (h : Reached start m)
    (hcopy : DeepCopied m deepCopy heap) (copying : O → Bool) :
    let copied : ConcreteHeap A O F T P := ⟨heap, m.cm.copy deepCopy copying⟩
    (∀ a, copied.cm.contains a = m.cm.contains a) ∧
    (∀ a o c, m.readObject a = some (o, c) →
      copied.readObject a = some (deepCopy o, c.rename deepCopy)) ∧
    (∀ o₁ o₂, Owns m o₁ → Owns m o₂ → deepCopy o₁ = deepCopy o₂ → o₁ = o₂) ∧
    (∀ m', Writes ⟨heap, m.cm⟩ m' → ∀ o, Owns copied o → m'.heap o = heap o) ∧
    ∀ m', Writes copied m' → ∀ o, Owns m o → m'.heap o = heap o := by
  obtain ⟨hm, hagree⟩ := h.agree hempty
  have hvirt (a : A) : tryFind (m.cm.copy deepCopy copying).virtToPhys a =
      (tryFind m.cm.virtToPhys a).map deepCopy := hagree.copy
  refine ⟨fun a => ?_, fun a o c hread => ?_, hcopy.injective, fun m' hwrites o ho => ?_,
    fun m' hwrites o ho => ?_⟩
  · rw [Bool.eq_iff_iff, ConcreteMemory.contains_iff, ConcreteMemory.contains_iff, hvirt]
    cases tryFind m.cm.virtToPhys a <;> simp
  · obtain ⟨hphys, hc⟩ := readObject_some hread
    have hcontents := hcopy.contents o c (.address hphys) hc
    simp [readObject, hvirt, hphys, hcontents]
  · obtain ⟨x, hx, rfl⟩ := hcopy.owns_copy hm ho
    obtain ⟨d, hd⟩ := Option.ne_none_iff_exists'.mp (hm.exist x hx)
    have hc := hcopy.contents x d hx hd
    rw [hc]
    refine hwrites.frame (hcopy.wellFormed hm) hc (.inl fun howns => ?_)
    exact hm.exist _ (hcopy.owns hm howns) (hcopy.fresh x hx)
  · obtain ⟨d, hd⟩ := Option.ne_none_iff_exists'.mp (hm.exist o ho)
    have hc : heap o = some d := by rw [hcopy.frame o (hm.exist o ho), hd]
    rw [hc]
    refine hwrites.frame (hcopy.wellFormed_copy hm) hc (.inl fun howns => ?_)
    obtain ⟨x, hx, rfl⟩ := hcopy.owns_copy hm howns
    exact hm.exist _ ho (hcopy.fresh x hx)

end

end

/-! ### An object and a string

The objects are numbers; `0` is the empty string. -/

section

local instance : StringPool ℕ := ⟨0⟩

local instance : Reflection Unit Unit := ⟨fun _ => (), fun _ => true⟩

local instance : ConcreteMemory.CellOrder ℕ (ChildLocation Unit Unit) :=
  ConcreteMemory.insertionOrder

/-- A heap with the empty string only. -/
def emptyHeap : ℕ → Option (Contents ℕ Unit Unit ℕ) :=
  fun o => if o = 0 then some (.string []) else none

/-- Object `1` at address `0`, with `null` in its field. -/
def oneObject : ConcreteHeap ℕ ℕ Unit Unit ℕ :=
  ⟨Function.update emptyHeap 1 (some (.object fun _ => .null)), ⟨[(1, 0)], [(0, 1)], [], [], []⟩⟩

/-- The same heap with the copy `2` of the object. -/
def withCopy : ℕ → Option (Contents ℕ Unit Unit ℕ) :=
  Function.update oneObject.heap 2 (some (.object fun _ => .null))

theorem oneObject_owns {o : ℕ} (h : Owns oneObject o) : o = 1 := by
  induction h with
  | @address a o h =>
    have hmem := mem_of_tryFind h
    exact (Prod.ext_iff.mp (mem_singleton.mp hmem)).2
  | known h => exact mem_singleton.mp h
  | reference _ hc h ih =>
    subst ih
    cases hc
    obtain ⟨f, hf⟩ := h
    rw [Value.Mentions] at hf
    cases hf

theorem copy_of_reached_oneObject :
    ∃ m : ConcreteHeap ℕ ℕ Unit Unit ℕ, Reached emptyHeap m ∧ m.cm.contains 0 = true ∧
      let copied : ConcreteHeap ℕ ℕ Unit Unit ℕ := ⟨withCopy, m.cm.copy (· + 1) fun _ => true⟩
      (∀ a, copied.cm.contains a = m.cm.contains a) ∧
      ∀ m', Writes ⟨withCopy, m.cm⟩ m' → ∀ o, Owns copied o → m'.heap o = withCopy o := by
  have hvalid : Valid (⟨emptyHeap, .empty⟩ : ConcreteHeap ℕ ℕ Unit Unit ℕ)
      (.allocateNew 0 1 (.object fun _ => .null)) := by
    refine ⟨rfl, ?_⟩
    rintro o ⟨f, hf⟩
    rw [Value.Mentions] at hf
    cases hf
  have hkeeps : KeepsAddresses (⟨emptyHeap, .empty⟩ : ConcreteHeap ℕ ℕ Unit Unit ℕ)
      (.allocateNew 0 1 (.object fun _ => .null)) := trivial
  have hstep : step (⟨emptyHeap, .empty⟩ : ConcreteHeap ℕ ℕ Unit Unit ℕ)
      (.allocateNew 0 1 (.object fun _ => .null)) = some oneObject := rfl
  have hcopied : DeepCopied oneObject (· + 1) withCopy := by
    refine ⟨fun o₁ o₂ _ _ h => Nat.succ.inj h, fun o ho => ?_, fun o c ho hc => ?_, fun o ho => ?_⟩
    · rw [oneObject_owns ho]
      rfl
    · rw [oneObject_owns ho] at hc ⊢
      cases hc
      simp [withCopy, Contents.rename, Value.rename]
    · have hne : o ≠ 2 := fun h => ho (h ▸ rfl)
      exact Function.update_of_ne hne _ _
  have hreached := Reached.empty.step hvalid hkeeps hstep
  have hresult := copy_of_reached rfl hreached hcopied fun _ => true
  exact ⟨oneObject, hreached, by decide, hresult.1, hresult.2.2.2.1⟩

/-- A string of one character at address `0`, the character then overwritten: the new string has
the address, and no copy has it. -/
theorem copy_loses_string :
    ∃ m₁ m₂ : ConcreteHeap ℕ ℕ Unit Unit ℕ,
      step (⟨emptyHeap, .empty⟩ : ConcreteHeap ℕ ℕ Unit Unit ℕ)
        (.allocateNew 0 1 (.string [7])) = some m₁ ∧
      step m₁ (.writeArrayIndex 0 [0] (.prim 8) 2) = some m₂ ∧
      m₂.cm.contains 0 = true ∧
      ∀ deepCopy copying, (m₂.cm.copy deepCopy copying).contains 0 = false := by
  refine ⟨_, _, rfl, rfl, by decide, fun deepCopy copying => rfl⟩

end

end ConcreteHeap

end VSharp
