import VSharp.Library.Results
import VSharp.TestGenerator.Objects
import Mathlib.Data.Finset.Card
import Mathlib.Data.Finset.Lattice.Fold

/-!
# Test generator — Identity

When a generated test has one entry for each object.  An object has one entry for its address, and
one for itself if it is also an element of an array in concrete memory, or can be reached from such
an element.  An object that was unmarshalled is encoded as it was before.  `identity_iff` says that
this is all that goes wrong: the encoding ends and tells objects apart as the memory does, if and
only if what is reached through the elements of arrays in concrete memory is reached in no other way,
has entries at all, and is told apart by the objects as it is by the state.

- `TermReached`, `ObjectReached`: what is encoded by its address, and what is encoded as an object.
- `Position`: the references of a test, from the arguments on, with what they are encoded as.
- `Held`: a reference of the state, with what the object that is encoded has in its place.
- `Extends`: what an encoding does to the graph.
-/

namespace VSharp.TestGenerator
open Library PersistentDict List Option

variable {A Y : Type}

/-! ### References -/

mutual

/-- The addresses that a term refers to. -/
def refs : Term A Y → List A
  | .struct _ fields => refsAll fields
  | .heapRef address => [address]
  | _ => []

def refsAll : List (Term A Y) → List A
  | [] => []
  | term :: terms => refs term ++ refsAll terms

end

mutual

/-- A term of an object, with the objects themselves for the references. -/
def image : Term A Y → Repr A Y
  | .nullRef => .null
  | .concrete typ value => .concrete typ value
  | .enum typ value => .enumRepr typ value
  | .struct typ fields => .structureRepr typ (images fields)
  | .heapRef address => .object address

def images : List (Term A Y) → List (Repr A Y)
  | [] => []
  | term :: terms => image term :: images terms

end

section
variable [DecidableEq Y]

/-- The fields of a structure or of a class; what is of another type has none. -/
def Repr.fieldsOf (typ : Y) : Repr A Y → List (Repr A Y)
  | .structureRepr typ' fields => if typ' = typ then fields else []
  | _ => []

/-- The values of an array, after the default value where it has one. -/
def Repr.valuesOf (typ : Y) : Repr A Y → List (Repr A Y)
  | .arrayRepr typ' defaultValue indices values _ _ =>
    if typ' = typ then (if indices.isSome then defaultValue :: values else values) else []
  | _ => []

def Repr.isCompact : Repr A Y → Bool
  | .arrayRepr _ _ indices _ _ _ => indices.isSome
  | _ => false

mutual

/-- The references in a term, with what stands for them; nothing stands for what is missing. -/
def slots : Term A Y → Repr A Y → List (A × Repr A Y)
  | .heapRef address, repr => [(address, repr)]
  | .struct typ fields, repr => slotsAll fields (repr.fieldsOf typ)
  | _, _ => []

def slotsAll : List (Term A Y) → List (Repr A Y) → List (A × Repr A Y)
  | [], _ => []
  | term :: terms, reprs => slots term (reprs.headD .null) ++ slotsAll terms reprs.tail

end

mutual

/-- No structure is where an object has a reference. -/
def Fits : Term A Y → Repr A Y → Prop
  | .struct typ fields, repr => (∀ obj, repr ≠ .object obj) ∧ FitsAll fields (repr.fieldsOf typ)
  | _, _ => True

def FitsAll : List (Term A Y) → List (Repr A Y) → Prop
  | [], _ => True
  | term :: terms, reprs => Fits term (reprs.headD .null) ∧ FitsAll terms reprs.tail

end

/-- The indices of an array, in the order of its elements. -/
def places : List ℤ → List ℤ → List (List ℤ)
  | length :: lengths, lowerBound :: lowerBounds => (List.range length.toNat).flatMap fun i =>
      (places lengths lowerBounds).map fun place => (lowerBound + i) :: place
  | _, _ => [[]]

/-- The elements of an array in symbolic memory. -/
def elements (lengths : List ℤ) (lowerBounds : Option (List ℤ)) (defaultValue : Term A Y)
    (indices : List (List ℤ)) (values : List (Term A Y)) : List (Term A Y) :=
  (places lengths (lowerBounds.getD (lengths.map fun _ => 0))).map fun place =>
    ((indices.zip values).lookup place).getD defaultValue

/-- The terms in an object that an entry has representations of, and these. -/
def Content.members : Content A Y → Repr A Y → List (Term A Y) × List (Repr A Y)
  | .classObject typ fields, repr => (fields, repr.fieldsOf typ)
  | .array typ _ _ elements, repr => (elements, repr.valuesOf typ)
  | .region typ lengths lowerBounds defaultValue indices values, repr =>
    (if repr.isCompact then defaultValue :: values
      else elements lengths lowerBounds defaultValue indices values, repr.valuesOf typ)
  | .string _, _ => ([], [])
  | .boxed value, repr => ([value], [repr])

/-- The references in an object, with what stands for them in an entry. -/
def Content.slots (content : Content A Y) (repr : Repr A Y) : List (A × Repr A Y) :=
  slotsAll (content.members repr).1 (content.members repr).2

def Content.Fits (content : Content A Y) (repr : Repr A Y) : Prop :=
  FitsAll (content.members repr).1 (content.members repr).2

/-- The entry of an address, with the objects themselves for the references. -/
def Content.addedImage (content : Content A Y) : Repr A Y := content.added (images content.terms)

/-- The entry of an object, likewise. -/
def Content.initialisedImage (content : Content A Y) : Repr A Y :=
  content.initialised (images content.terms)

variable [DecidableEq A] (m : Memory A Y) (args : List (Term A Y))

/-- Reached from the arguments, but through no element of an array in concrete memory. -/
inductive TermReached : A → Prop
  | argument {a : A} : a ∈ refsAll args → TermReached a
  | member {a b : A} {content : Content A Y} : TermReached a → m.read a = some content →
      m.isConcreteArray a content = false → b ∈ refsAll content.terms → TermReached b

/-- An object that is an element of an array in concrete memory, or that such an object refers to;
what stands for itself is not looked into. -/
inductive ObjectReached : A → Prop
  | element {a obj : A} {content : Content A Y} : TermReached m args a → m.read a = some content →
      m.isConcreteArray a content = true → obj ∈ refsAll content.terms → ObjectReached obj
  | member {obj obj' : A} {content : Content A Y} : ObjectReached obj → m.object obj = some content →
      m.isInlined content = false → obj' ∈ refsAll content.terms → ObjectReached obj'
  | boxed {obj obj' : A} {value : Term A Y} : ObjectReached obj →
      m.object obj = some (.boxed value) → obj' ∈ refs value → ObjectReached obj'

/-- A reference of the state that is reached through an element of an array in concrete memory, with
what is in its place in the object that is encoded. -/
inductive Held : A → Repr A Y → Prop
  | element {a b : A} {content : Content A Y} : TermReached m args a → m.read a = some content →
      m.isConcreteArray a content = true → b ∈ refsAll content.terms → Held b (.object b)
  | member {a b obj : A} {content source : Content A Y} {repr : Repr A Y} :
      Held a (.object obj) → m.read a = some content → m.object obj = some source →
      m.isInlined source = false → (b, repr) ∈ content.slots source.initialisedImage → Held b repr

/-- At most `n` boxes one in another. -/
inductive EndsIn : ℕ → A → Prop
  | single {n : ℕ} {obj : A} {content : Content A Y} : m.object obj = some content →
      (∀ value, content ≠ .boxed value) → EndsIn n obj
  | boxed {n : ℕ} {obj : A} {value : Term A Y} : m.object obj = some (.boxed value) →
      (∀ obj' ∈ refs value, EndsIn n obj') → EndsIn (n + 1) obj

/-- The references of a test: those in the arguments, and those in the entries that are named. -/
inductive Position (reprs : List (Repr A Y)) (s : State A Y) : A → Repr A Y → Prop
  | argument {a : A} {repr : Repr A Y} : (a, repr) ∈ slotsAll args reprs → Position reprs s a repr
  | entry {index : ℕ} {owner a : A} {content : Content A Y} {entryRepr repr : Repr A Y} :
      Position reprs s owner (.referenceRepr index) → m.read owner = some content →
      s.objReprs[index]? = some entryRepr → (a, repr) ∈ content.slots entryRepr →
      Position reprs s a repr

/-- The encoding ends, and two references name one entry if and only if they hold one address. -/
def PreservesIdentity : Prop :=
  ∃ fuel reprs s, encodeArguments m fuel args = some (reprs, s) ∧
    ∀ a repr b repr', Position m args reprs s a repr → Position m args reprs s b repr' →
      ((∃ index, repr = .referenceRepr index ∧ repr' = .referenceRepr index) ↔ a = b)

/-- A finished state: references are to what is allocated, objects of the runtime refer to objects of
the runtime and are no arrays in symbolic memory, boxes are of value types, and structures are
nowhere where references are. -/
structure Memory.Closed : Prop where
  args : ∀ a ∈ refsAll args, ∃ content, m.read a = some content
  refs : ∀ a content, m.read a = some content → ∀ b ∈ refsAll content.terms,
    ∃ content', m.read b = some content'
  elements : ∀ a content, m.read a = some content → m.isConcreteArray a content = true →
    ∀ obj ∈ refsAll content.terms, ∃ content', m.object obj = some content'
  objects : ∀ obj content, m.object obj = some content → ∀ obj' ∈ refsAll content.terms,
    ∃ content', m.object obj' = some content'
  whole : ∀ obj t lengths lowerBounds d indices values,
    m.object obj ≠ some (.region t lengths lowerBounds d indices values)
  boxed : ∀ obj obj', m.object obj ≠ some (.boxed (.heapRef obj'))
  typed : ∀ a content obj source, m.read a = some content → m.object obj = some source →
    content.Fits source.initialisedImage

/-- What is reached through the elements of arrays in concrete memory has entries, is reached in no
other way, and is one object exactly if it has one address; and no boxes are in one another for
ever. -/
structure Memory.Apart : Prop where
  listed : ∀ a repr, Held m args a repr → ∃ obj content, repr = .object obj ∧
    m.object obj = some content ∧ m.isInlined content = false
  apart : ∀ a repr, Held m args a repr → ¬ TermReached m args a
  same : ∀ a b obj obj', Held m args a (.object obj) → Held m args b (.object obj') →
    (obj = obj' ↔ a = b)
  ends : ∀ obj, ObjectReached m args obj → ∃ n, EndsIn m n obj

end

/-! ### Representations -/

section

mutual

/-- A representation is as an image, with each reference as `R` says; an image names no entries. -/
def Represents (R : A → Repr A Y → Prop) : Repr A Y → Repr A Y → Prop
  | .object obj, repr => R obj repr
  | .structureRepr typ fields, repr =>
    ∃ fieldReprs, repr = .structureRepr typ fieldReprs ∧ RepresentsAll R fields fieldReprs
  | .arrayRepr typ defaultValue indices values lengths lowerBounds, repr =>
    ∃ defaultRepr reprs, repr = .arrayRepr typ defaultRepr indices reprs lengths lowerBounds ∧
      Represents R defaultValue defaultRepr ∧ RepresentsAll R values reprs
  | .referenceRepr _, _ => False
  | repr, repr' => repr' = repr

def RepresentsAll (R : A → Repr A Y → Prop) : List (Repr A Y) → List (Repr A Y) → Prop
  | [], [] => True
  | repr :: reprs, repr' :: reprs' => Represents R repr repr' ∧ RepresentsAll R reprs reprs'
  | _, _ => False

end

variable {R R' : A → Repr A Y → Prop} {content : Content A Y} {xs reprs : List (Repr A Y)}

mutual

theorem Represents.mono (hR : ∀ a repr, R a repr → R' a repr) :
    ∀ x repr : Repr A Y, Represents R x repr → Represents R' x repr
  | .null, _, h => h
  | .concrete .., _, h => h
  | .enumRepr .., _, h => h
  | .referenceRepr _, _, h => h
  | .stringRepr _, _, h => h
  | .object obj, repr, h => hR obj repr h
  | .structureRepr _ fields, _, ⟨fieldReprs, heq, h⟩ =>
    ⟨fieldReprs, heq, RepresentsAll.mono hR fields fieldReprs h⟩
  | .arrayRepr _ defaultValue _ values _ _, _, ⟨defaultRepr, reprs, heq, h, h'⟩ =>
    ⟨defaultRepr, reprs, heq, Represents.mono hR defaultValue defaultRepr h,
      RepresentsAll.mono hR values reprs h'⟩

theorem RepresentsAll.mono (hR : ∀ a repr, R a repr → R' a repr) :
    ∀ xs reprs : List (Repr A Y), RepresentsAll R xs reprs → RepresentsAll R' xs reprs
  | [], [], _ => trivial
  | x :: xs, repr :: reprs, ⟨h, h'⟩ =>
    ⟨Represents.mono hR x repr h, RepresentsAll.mono hR xs reprs h'⟩

end

theorem RepresentsAll.headD : ∀ {xs reprs : List (Repr A Y)}, RepresentsAll R xs reprs →
    Represents R (xs.headD .null) (reprs.headD .null)
  | [], [], _ => rfl
  | _ :: _, _ :: _, h => h.1

theorem RepresentsAll.tail : ∀ {xs reprs : List (Repr A Y)}, RepresentsAll R xs reprs →
    RepresentsAll R xs.tail reprs.tail
  | [], [], _ => trivial
  | _ :: _, _ :: _, h => h.2

theorem represents_added (h : RepresentsAll R xs reprs) :
    Represents R (content.added xs) (content.added reprs) := by
  match content, xs, reprs, h with
  | .classObject .., _, reprs, h => exact ⟨reprs, rfl, h⟩
  | .array .., _, reprs, h => exact ⟨.null, reprs, rfl, rfl, h⟩
  | .region .., [], [], _ => rfl
  | .region .., _ :: _, repr :: reprs, h => exact ⟨repr, reprs, rfl, h⟩
  | .string _, _, _, _ => rfl
  | .boxed _, [], [], _ => rfl
  | .boxed _, _ :: _, _ :: _, h => exact h.1

theorem represents_initialised (h : RepresentsAll R xs reprs) :
    Represents R (content.initialised xs) (content.initialised reprs) := by
  match content with
  | .classObject .. => exact ⟨reprs, rfl, h⟩
  | .array .. => exact ⟨.null, reprs, rfl, rfl, h⟩
  | .region .. => rfl
  | .string _ => rfl
  | .boxed _ => rfl

variable [DecidableEq Y] {x repr : Repr A Y} {terms : List (Term A Y)}

/-- The parts of what has no reference in its place. -/
theorem Represents.parts {typ : Y} (h : Represents R x repr) (hx : ∀ obj, x ≠ .object obj) :
    RepresentsAll R (x.fieldsOf typ) (repr.fieldsOf typ) ∧ repr.isCompact = x.isCompact ∧
      RepresentsAll R (x.valuesOf typ) (repr.valuesOf typ) := by
  match x, repr, h with
  | .null, _, rfl => exact ⟨trivial, rfl, trivial⟩
  | .concrete .., _, rfl => exact ⟨trivial, rfl, trivial⟩
  | .enumRepr .., _, rfl => exact ⟨trivial, rfl, trivial⟩
  | .referenceRepr _, _, h => exact h.elim
  | .stringRepr _, _, rfl => exact ⟨trivial, rfl, trivial⟩
  | .object obj, _, _ => exact absurd rfl (hx obj)
  | .structureRepr typ' fields, _, ⟨fieldReprs, rfl, h⟩ =>
    refine ⟨?_, rfl, trivial⟩
    simp only [Repr.fieldsOf]
    split
    · exact h
    · trivial
  | .arrayRepr typ' defaultValue indices values _ _, _, ⟨_, _, rfl, h, h'⟩ =>
    refine ⟨trivial, rfl, ?_⟩
    simp only [Repr.valuesOf]
    by_cases htyp : typ' = typ
    · rw [if_pos htyp, if_pos htyp]
      split
      · exact ⟨h, h'⟩
      · exact h'
    · rw [if_neg htyp, if_neg htyp]
      trivial

mutual

/-- The references in a term have in a representation what they have in the image, represented. -/
theorem slots_represents : ∀ (term : Term A Y) (x repr : Repr A Y), Fits term x →
    Represents R x repr →
      List.Forall₂ (fun p q => p.1 = q.1 ∧ Represents R p.2 q.2) (slots term x) (slots term repr)
  | .nullRef, _, _, _, _ => .nil
  | .concrete .., _, _, _, _ => .nil
  | .enum .., _, _, _, _ => .nil
  | .heapRef _, _, _, _, h => .cons ⟨rfl, h⟩ .nil
  | .struct typ fields, x, repr, hfits, h =>
    slotsAll_represents fields (x.fieldsOf typ) (repr.fieldsOf typ) hfits.2 (h.parts hfits.1).1

theorem slotsAll_represents : ∀ (terms : List (Term A Y)) (xs reprs : List (Repr A Y)),
    FitsAll terms xs → RepresentsAll R xs reprs →
      List.Forall₂ (fun p q => p.1 = q.1 ∧ Represents R p.2 q.2) (slotsAll terms xs)
        (slotsAll terms reprs)
  | [], _, _, _, _ => .nil
  | term :: terms, _, _, hfits, h =>
    rel_append (slots_represents term _ _ hfits.1 h.headD)
      (slotsAll_represents terms _ _ hfits.2 h.tail)

end

theorem Content.slots_represents (hfits : content.Fits x) (h : Represents R x repr)
    (hx : (∃ value, content = .boxed value) ∨ ∀ obj, x ≠ .object obj) :
    List.Forall₂ (fun p q => p.1 = q.1 ∧ Represents R p.2 q.2) (content.slots x)
      (content.slots repr) := by
  have hmembers : (content.members repr).1 = (content.members x).1 ∧
      RepresentsAll R (content.members x).2 (content.members repr).2 := by
    rcases hx with ⟨value, rfl⟩ | hx
    · exact ⟨rfl, h, trivial⟩
    · match content with
      | .classObject .. => exact ⟨rfl, (h.parts hx).1⟩
      | .array .. => exact ⟨rfl, (h.parts hx).2.2⟩
      | .region typ .. =>
        have hvalues : _ ∧ _ ∧ RepresentsAll R (x.valuesOf typ) _ := h.parts hx
        exact ⟨by simp only [Content.members, hvalues.2.1], hvalues.2.2⟩
      | .string _ => exact ⟨rfl, trivial⟩
      | .boxed _ => exact ⟨rfl, h, trivial⟩
  have hall := slotsAll_represents _ _ _ hfits hmembers.2
  unfold Content.slots
  rwa [hmembers.1]

mutual

/-- In its own image each reference has itself. -/
theorem slots_image : ∀ term : Term A Y,
    slots term (image term) = (refs term).map fun a => (a, .object a)
  | .nullRef => rfl
  | .concrete .. => rfl
  | .enum .. => rfl
  | .heapRef _ => rfl
  | .struct typ fields => by
      rw [slots, image, Repr.fieldsOf, if_pos rfl, slotsAll_images, refs]

theorem slotsAll_images : ∀ terms : List (Term A Y),
    slotsAll terms (images terms) = (refsAll terms).map fun a => (a, .object a)
  | [] => rfl
  | term :: terms => by
      rw [slotsAll, images, headD_cons, tail_cons, slots_image term,
        slotsAll_images terms, refsAll, map_append]

end

mutual

theorem fits_image : ∀ term : Term A Y, Fits term (image term)
  | .nullRef => trivial
  | .concrete .. => trivial
  | .enum .. => trivial
  | .heapRef _ => trivial
  | .struct typ fields => by
      refine ⟨nofun, ?_⟩
      rw [image, Repr.fieldsOf, if_pos rfl]
      exact fitsAll_images fields

theorem fitsAll_images : ∀ terms : List (Term A Y), FitsAll terms (images terms)
  | [] => trivial
  | term :: terms => ⟨fits_image term, fitsAll_images terms⟩

end

/-- Each reference of the terms is beside what represents it. -/
theorem RepresentsAll.slots (h : RepresentsAll R (images terms) reprs) :
    List.Forall₂ (fun a q => a = q.1 ∧ R a q.2) (refsAll terms) (slotsAll terms reprs) := by
  have hslots := slotsAll_represents terms (images terms) reprs (fitsAll_images terms) h
  rwa [slotsAll_images, forall₂_map_left_iff] at hslots

theorem RepresentsAll.exists_of_mem_refs (h : RepresentsAll R (images terms) reprs) {a : A}
    (ha : a ∈ refsAll terms) : ∃ repr, R a repr := by
  obtain ⟨⟨_, repr⟩, -, rfl, hrepr⟩ := forall₂_mem_left h.slots ha
  exact ⟨repr, hrepr⟩

/-- The members of an object are beside their images in its own entry. -/
theorem members_addedImage :
    (content.members content.addedImage) = (content.terms, images content.terms) := by
  match content with
  | .classObject .. =>
    simp [Content.members, Content.addedImage, Content.added, Content.terms, Repr.fieldsOf]
  | .array .. =>
    simp [Content.members, Content.addedImage, Content.added, Content.terms, Repr.valuesOf]
  | .region .. =>
    simp [Content.members, Content.addedImage, Content.added, Content.terms, Repr.valuesOf,
      Repr.isCompact, images]
  | .string _ => rfl
  | .boxed _ => rfl

theorem slots_addedImage :
    content.slots content.addedImage = (refsAll content.terms).map fun a => (a, .object a) := by
  rw [Content.slots, members_addedImage, slotsAll_images]

theorem fits_addedImage : content.Fits content.addedImage := by
  rw [Content.Fits, members_addedImage]
  exact fitsAll_images _


end

/-! ### What an encoding does -/

section
variable [DecidableEq A] (m : Memory A Y) (args : List (Term A Y))

/-- The reference names the entry of the address. -/
def TermRef (s : State A Y) (a : A) (repr : Repr A Y) : Prop :=
  ∃ index, repr = .referenceRepr index ∧ tryFind s.indices a = some index

/-- The object has an entry, or needs none, and the objects in it have theirs. -/
inductive Done (s : State A Y) : A → Prop
  | listed {obj : A} {index : ℕ} : s.sourceObjects[index]? = some (some obj) → Done s obj
  | inlined {obj : A} {content : Content A Y} : m.object obj = some content →
      m.isInlined content = true →
      (∀ value, content = .boxed value → ∀ obj' ∈ refs value, Done s obj') → Done s obj

/-- The reference names the entry of the object, unless the object needs none. -/
def ObjectRef (s : State A Y) (obj : A) (repr : Repr A Y) : Prop :=
  Done m s obj ∧
    ((∃ index, repr = .referenceRepr index ∧ s.sourceObjects[index]? = some (some obj)) ∨
      (∃ content, m.object obj = some content ∧ m.isInlined content = true) ∧
        ∀ index, repr ≠ .referenceRepr index)

/-- The entry represents the address. -/
def AddressEntry (s : State A Y) (a : A) (repr : Repr A Y) : Prop :=
  ∃ content, m.read a = some content ∧
    Represents (if m.isConcreteArray a content then ObjectRef m s else TermRef s)
      content.addedImage repr

/-- The entry represents the object. -/
def ObjectEntry (s : State A Y) (obj : A) (repr : Repr A Y) : Prop :=
  ∃ content, m.object obj = some content ∧ Represents (ObjectRef m s) content.initialisedImage repr

/-- An entry represents what it is the entry of. -/
def Filled (s : State A Y) (index : ℕ) : Prop :=
  ∃ a repr, s.objReprs[index]? = some repr ∧
    (tryFind s.indices a = some index ∧ AddressEntry m s a repr ∨
      s.sourceObjects[index]? = some (some a) ∧ ObjectEntry m s a repr)

/-- What is in the tables stays, and entries that exist are not written to. -/
structure Grows (s s' : State A Y) : Prop where
  indices : ∀ a index, tryFind s.indices a = some index → tryFind s'.indices a = some index
  length : s.sourceObjects.length ≤ s'.sourceObjects.length
  sources : ∀ index, index < s.sourceObjects.length →
    s'.sourceObjects[index]? = s.sourceObjects[index]?
  reprs : ∀ index, index < s.sourceObjects.length → s'.objReprs[index]? = s.objReprs[index]?

/-- The tables: each address and each object that is reached has an entry of its own. -/
structure Good (s : State A Y) : Prop where
  length : s.objReprs.length = s.sourceObjects.length
  reserved : ∀ a index, tryFind s.indices a = some index → s.sourceObjects[index]? = some none
  injective : ∀ a b index, tryFind s.indices a = some index → tryFind s.indices b = some index →
    a = b
  termReached : ∀ a index, tryFind s.indices a = some index → TermReached m args a
  distinct : ∀ a (i j : ℕ), s.sourceObjects[i]? = some (some a) →
    s.sourceObjects[j]? = some (some a) → i = j
  listed : ∀ a (index : ℕ), s.sourceObjects[index]? = some (some a) →
    ∃ content, m.object a = some content ∧ m.isInlined content = false

/-- The tables grow, and the new entries are filled. -/
structure Extends (s s' : State A Y) : Prop where
  good : Good m args s'
  grows : Grows s s'
  filled : ∀ index, s.sourceObjects.length ≤ index → index < s'.sourceObjects.length →
    Filled m s' index

variable {m args} {s s' s'' : State A Y} {a : A} {repr : Repr A Y}

theorem Grows.refl (s : State A Y) : Grows s s :=
  ⟨fun _ _ h => h, Nat.le_refl _, fun _ _ => rfl, fun _ _ => rfl⟩

theorem Grows.trans (h : Grows s s') (h' : Grows s' s'') : Grows s s'' where
  indices a index hindex := h'.indices a index (h.indices a index hindex)
  length := Nat.le_trans h.length h'.length
  sources index hlt :=
    (h'.sources index (Nat.lt_of_lt_of_le hlt h.length)).trans (h.sources index hlt)
  reprs index hlt := (h'.reprs index (Nat.lt_of_lt_of_le hlt h.length)).trans (h.reprs index hlt)

theorem Grows.termRef (h : Grows s s') (hr : TermRef s a repr) : TermRef s' a repr := by
  obtain ⟨index, hrepr, hindex⟩ := hr
  exact ⟨index, hrepr, h.indices a index hindex⟩

section
variable {b : A} {i j : ℕ} (hgood : Good m args s)

include hgood

theorem Good.index_iff (hi : tryFind s.indices a = some i) (hj : tryFind s.indices b = some j) :
    i = j ↔ a = b := by
  constructor
  · rintro rfl
    exact hgood.injective a b i hi hj
  · rintro rfl
    exact some.inj (hi.symm.trans hj)

theorem Good.source_iff (hi : s.sourceObjects[i]? = some (some a))
    (hj : s.sourceObjects[j]? = some (some b)) : i = j ↔ a = b := by
  constructor
  · rintro rfl
    exact some.inj (some.inj (hi.symm.trans hj))
  · rintro rfl
    exact hgood.distinct a i j hi hj

theorem Good.index_ne_source (hi : tryFind s.indices a = some i)
    (hj : s.sourceObjects[j]? = some (some b)) : i ≠ j := by
  rintro rfl
  cases (hgood.reserved a i hi).symm.trans hj

end

theorem Grows.source (h : Grows s s') {index : ℕ} (hs : s.sourceObjects[index]? = some (some a)) :
    s'.sourceObjects[index]? = some (some a) := by
  rw [h.sources index (List.getElem?_eq_some_iff.mp hs).1, hs]

section
variable (hsources : ∀ a (i : ℕ), s.sourceObjects[i]? = some (some a) →
  s'.sourceObjects[i]? = some (some a))

include hsources

theorem Done.mono (h : Done m s a) : Done m s' a := by
  induction h with
  | listed hsource => exact .listed (hsources _ _ hsource)
  | inlined hcontent hinlined _ ih => exact .inlined hcontent hinlined ih

theorem ObjectRef.mono (h : ObjectRef m s a repr) : ObjectRef m s' a repr := by
  obtain ⟨hdone, hrepr⟩ := h
  refine ⟨hdone.mono hsources, ?_⟩
  rcases hrepr with ⟨index, heq, hsource⟩ | hinlined
  · exact .inl ⟨index, heq, hsources a index hsource⟩
  · exact .inr hinlined

/-- A filled entry stays filled. -/
theorem Filled.mono {index : ℕ} (h : Filled m s index) (hrepr : s'.objReprs[index]? =
    s.objReprs[index]?) (hindices : ∀ a i, tryFind s.indices a = some i →
      tryFind s'.indices a = some i) : Filled m s' index := by
  have hterm : ∀ a repr, TermRef s a repr → TermRef s' a repr := by
    rintro a repr ⟨i, hrepr, hi⟩
    exact ⟨i, hrepr, hindices a i hi⟩
  obtain ⟨a, repr, hget, howns⟩ := h
  refine ⟨a, repr, hrepr.trans hget, ?_⟩
  rcases howns with ⟨hindex, content, hread, hentry⟩ | ⟨hsource, content, hread, hentry⟩
  · refine .inl ⟨hindices a index hindex, content, hread, hentry.mono (fun b r => ?_) _ _⟩
    cases m.isConcreteArray a content with
    | true => exact fun h => h.mono hsources
    | false => exact hterm b r
  · exact .inr ⟨hsources a index hsource, content, hread,
      hentry.mono (fun b r h => h.mono hsources) _ _⟩

end

/-- An object that needs an entry is referred to by its entry. -/
theorem ObjectRef.source (h : ObjectRef m s a repr) {content : Content A Y}
    (hobject : m.object a = some content) (hlisted : m.isInlined content = false) :
    ∃ index, repr = .referenceRepr index ∧ s.sourceObjects[index]? = some (some a) := by
  obtain ⟨-, hsource | ⟨⟨content', hobject', hinlined⟩, -⟩⟩ := h
  · exact hsource
  · rw [some.inj (hobject'.symm.trans hobject), hlisted] at hinlined
    cases hinlined

theorem Extends.refl (h : Good m args s) : Extends m args s s :=
  ⟨h, .refl s, fun _ hle hlt => absurd hlt (Nat.not_lt.mpr hle)⟩

theorem Extends.trans (h : Extends m args s s') (h' : Extends m args s' s'') :
    Extends m args s s'' where
  good := h'.good
  grows := h.grows.trans h'.grows
  filled index hle hlt := by
    rcases Nat.lt_or_ge index s'.sourceObjects.length with hlt' | hge
    · exact (h.filled index hle hlt').mono (fun a i => h'.grows.source) (h'.grows.reprs index hlt')
        h'.grows.indices
    · exact h'.filled index hge hlt

end

/-! ### Terms -/

section
variable [DecidableEq A] {m : Memory A Y} {args : List (Term A Y)}
variable {reference : A → State A Y → Option (Repr A Y × State A Y)}
variable {R : State A Y → A → Repr A Y → Prop} {D D' : A → Prop}

/-- References to what is in `D` are encoded as `R` says, and stay so. -/
structure Encodes (m : Memory A Y) (args : List (Term A Y)) (D : A → Prop)
    (R : State A Y → A → Repr A Y → Prop)
    (reference : A → State A Y → Option (Repr A Y × State A Y)) : Prop where
  spec : ∀ a s repr s', D a → Good m args s → reference a s = some (repr, s') →
    Extends m args s s' ∧ R s' a repr
  mono : ∀ s s' a repr, Grows s s' → R s a repr → R s' a repr

/-- References are encoded while `bound` is less than `fuel`; and it only falls. -/
structure Bounded (m : Memory A Y) (args : List (Term A Y)) (D : A → Prop)
    (bound : State A Y → ℕ) (fuel : ℕ)
    (reference : A → State A Y → Option (Repr A Y × State A Y)) : Prop where
  isSome : ∀ a s, D a → Good m args s → bound s < fuel → ∃ res, reference a s = some res
  mono : ∀ s s', Grows s s' → bound s' ≤ bound s

mutual

/-- A term is encoded as its references are. -/
theorem term2obj_spec (h : Encodes m args D R reference) :
    ∀ term s repr s', (∀ a ∈ refs term, D a) → Good m args s →
      term2obj reference term s = some (repr, s') →
        Extends m args s s' ∧ Represents (R s') (image term) repr
  | .nullRef, s, repr, s', _, hgood, hrun => by
      obtain ⟨rfl, rfl⟩ := Prod.mk.inj (some.inj hrun)
      exact ⟨.refl hgood, rfl⟩
  | .concrete .., s, repr, s', _, hgood, hrun => by
      obtain ⟨rfl, rfl⟩ := Prod.mk.inj (some.inj hrun)
      exact ⟨.refl hgood, rfl⟩
  | .enum .., s, repr, s', _, hgood, hrun => by
      obtain ⟨rfl, rfl⟩ := Prod.mk.inj (some.inj hrun)
      exact ⟨.refl hgood, rfl⟩
  | .struct typ fields, s, repr, s', hD, hgood, hrun => by
      rw [term2obj] at hrun
      obtain ⟨⟨fieldReprs, s₁⟩, hfields, hrest⟩ := bind_eq_some_iff.mp hrun
      obtain ⟨rfl, rfl⟩ := Prod.mk.inj (some.inj hrest)
      obtain ⟨hext, hencoded⟩ := terms2objs_spec h fields s fieldReprs s₁ hD hgood hfields
      exact ⟨hext, fieldReprs, rfl, hencoded⟩
  | .heapRef address, s, repr, s', hD, hgood, hrun =>
    h.spec address s repr s' (hD address mem_cons_self) hgood hrun

theorem terms2objs_spec (h : Encodes m args D R reference) :
    ∀ terms s reprs s', (∀ a ∈ refsAll terms, D a) → Good m args s →
      terms2objs reference terms s = some (reprs, s') →
        Extends m args s s' ∧ RepresentsAll (R s') (images terms) reprs
  | [], s, reprs, s', _, hgood, hrun => by
      obtain ⟨rfl, rfl⟩ := Prod.mk.inj (some.inj hrun)
      exact ⟨.refl hgood, trivial⟩
  | term :: terms, s, reprs, s', hD, hgood, hrun => by
      rw [terms2objs] at hrun
      obtain ⟨⟨repr, s₁⟩, hterm, hrest⟩ := bind_eq_some_iff.mp hrun
      obtain ⟨⟨rest, s₂⟩, hterms, hrest⟩ := bind_eq_some_iff.mp hrest
      obtain ⟨rfl, rfl⟩ := Prod.mk.inj (some.inj hrest)
      obtain ⟨hext, hrepr⟩ := term2obj_spec h term s repr s₁
        (fun a ha => hD a (mem_append_left _ ha)) hgood hterm
      obtain ⟨hext', hreprs⟩ := terms2objs_spec h terms s₁ rest s₂
        (fun a ha => hD a (mem_append_right _ ha)) hext.good hterms
      exact ⟨hext.trans hext', hrepr.mono (fun a r => h.mono s₁ s₂ a r hext'.grows) _ _, hreprs⟩

end

mutual

/-- A term is encoded, if its references are; `bound` only falls. -/
theorem term2obj_isSome {bound : State A Y → ℕ} {fuel : ℕ} (h : Encodes m args D' R reference)
    (hsub : ∀ a, D a → D' a) (htotal : Bounded m args D bound fuel reference) :
    ∀ term s, (∀ a ∈ refs term, D a) → Good m args s → bound s < fuel →
      ∃ res, term2obj reference term s = some res
  | .nullRef, s, _, _, _ => ⟨_, rfl⟩
  | .concrete .., s, _, _, _ => ⟨_, rfl⟩
  | .enum .., s, _, _, _ => ⟨_, rfl⟩
  | .struct typ fields, s, hD, hgood, hfuel => by
      obtain ⟨res, hfields⟩ := terms2objs_isSome h hsub htotal fields s hD hgood hfuel
      exact ⟨_, by rw [term2obj, hfields]; rfl⟩
  | .heapRef address, s, hD, hgood, hfuel =>
    htotal.isSome address s (hD address mem_cons_self) hgood hfuel

theorem terms2objs_isSome {bound : State A Y → ℕ} {fuel : ℕ} (h : Encodes m args D' R reference)
    (hsub : ∀ a, D a → D' a) (htotal : Bounded m args D bound fuel reference) :
    ∀ terms s, (∀ a ∈ refsAll terms, D a) → Good m args s → bound s < fuel →
      ∃ res, terms2objs reference terms s = some res
  | [], s, _, _, _ => ⟨_, rfl⟩
  | term :: terms, s, hD, hgood, hfuel => by
      have hhead : ∀ a ∈ refs term, D a := fun a ha => hD a (mem_append_left _ ha)
      have htail : ∀ a ∈ refsAll terms, D a := fun a ha => hD a (mem_append_right _ ha)
      obtain ⟨⟨repr, s₁⟩, hterm⟩ := term2obj_isSome h hsub htotal term s hhead hgood hfuel
      obtain ⟨hext, -⟩ :=
        term2obj_spec h term s repr s₁ (fun a ha => hsub a (hhead a ha)) hgood hterm
      obtain ⟨⟨rest, s₂⟩, hterms⟩ := terms2objs_isSome h hsub htotal terms s₁ htail
        hext.good (Nat.lt_of_le_of_lt (htotal.mono s s₁ hext.grows) hfuel)
      refine ⟨(repr :: rest, s₂), ?_⟩
      rw [terms2objs, hterm]
      simp only [bind_eq_bind, bind_some, hterms]

end

end

/-! ### Entries -/

section
variable [DecidableEq A] {m : Memory A Y} {args : List (Term A Y)}
variable {s s₁ s₂ : State A Y} {a : A} {content : Content A Y}

theorem getElem?_concat_eq_some {α : Type} {l : List α} {x y : α} {i : ℕ} :
    (l ++ [x])[i]? = some y ↔ l[i]? = some y ∨ i = l.length ∧ x = y := by
  rcases Nat.lt_trichotomy i l.length with hlt | rfl | hgt
  · rw [getElem?_append_left hlt]
    exact (or_iff_left fun h => absurd h.1 (Nat.ne_of_lt hlt)).symm
  · simp
  · rw [getElem?_eq_none (by rw [length_append]; exact hgt), getElem?_eq_none (Nat.le_of_lt hgt)]
    simp [Nat.ne_of_gt hgt]

theorem tryFind_reserve (b : A) : tryFind (s.reserve a).indices b =
    if a = b then some s.sourceObjects.length else tryFind s.indices b :=
  tryFind_cons _ _ b

section
variable (hgood : Good m args s)

include hgood

theorem Grows.bind (obj : Option A) (repr : Repr A Y) :
    Grows s (s.bind obj repr) where
  indices _ _ h := h
  length := by
    rw [State.bind, length_append]
    exact Nat.le_add_right _ _
  sources _ hlt := getElem?_append_left hlt
  reprs _ hlt := getElem?_append_left (hgood.length.symm ▸ hlt)

theorem Grows.reserve (hnew : tryFind s.indices a = none) :
    Grows s (s.reserve a) where
  indices b index h := by
    rw [tryFind_reserve, if_neg, h]
    rintro rfl
    rw [hnew] at h
    cases h
  length := (Grows.bind hgood none .null).length
  sources := (Grows.bind hgood none .null).sources
  reprs := (Grows.bind hgood none .null).reprs

theorem Good.bind (repr : Repr A Y)
    (hnew : ∀ i : ℕ, s.sourceObjects[i]? ≠ some (some a))
    (hread : m.object a = some content) (hlisted : m.isInlined content = false) :
    Good m args (s.bind (some a) repr) where
  length := by
    rw [State.bind, length_append, length_append, hgood.length]
    rfl
  reserved b index h := (Grows.bind hgood (some a) repr).sources index
    (List.getElem?_eq_some_iff.mp (hgood.reserved b index h)).1 |>.trans (hgood.reserved b index h)
  injective := hgood.injective
  termReached := hgood.termReached
  distinct b i j hi hj := by
    rcases getElem?_concat_eq_some.mp hi with hi | ⟨rfl, hb⟩ <;>
      rcases getElem?_concat_eq_some.mp hj with hj | ⟨rfl, hb'⟩
    · exact hgood.distinct b i j hi hj
    · exact absurd (some.inj hb' ▸ hi) (hnew i)
    · exact absurd (some.inj hb ▸ hj) (hnew j)
    · rfl
  listed b index h := by
    rcases getElem?_concat_eq_some.mp h with h | ⟨-, hb⟩
    · exact hgood.listed b index h
    · exact some.inj hb ▸ ⟨content, hread, hlisted⟩

theorem Good.reserve (hreached : TermReached m args a) :
    Good m args (s.reserve a) where
  length := by
    rw [State.reserve, State.bind, length_append, length_append, hgood.length]
    rfl
  reserved b index h := by
    rw [tryFind_reserve] at h
    split at h
    case isTrue => exact getElem?_concat_eq_some.mpr (.inr ⟨(some.inj h).symm, rfl⟩)
    case isFalse => exact getElem?_concat_eq_some.mpr (.inl (hgood.reserved b index h))
  injective b c index hb hc := by
    have hfresh : ∀ d, tryFind s.indices d ≠ some s.sourceObjects.length := fun d hd =>
      absurd (List.getElem?_eq_some_iff.mp (hgood.reserved d _ hd)).1 (Nat.lt_irrefl _)
    rw [tryFind_reserve] at hb hc
    split at hb <;> split at hc
    case isTrue.isTrue hab hac => exact hab.symm.trans hac
    case isTrue.isFalse => exact absurd (some.inj hb ▸ hc) (hfresh c)
    case isFalse.isTrue => exact absurd (some.inj hc ▸ hb) (hfresh b)
    case isFalse.isFalse => exact hgood.injective b c index hb hc
  termReached b index h := by
    rw [tryFind_reserve] at h
    split at h
    case isTrue hab => exact hab ▸ hreached
    case isFalse => exact hgood.termReached b index h
  distinct b i j hi hj := by
    rcases getElem?_concat_eq_some.mp hi with hi | ⟨-, hb⟩
    · rcases getElem?_concat_eq_some.mp hj with hj | ⟨-, hb⟩
      · exact hgood.distinct b i j hi hj
      · cases hb
    · cases hb
  listed b index h := by
    rcases getElem?_concat_eq_some.mp h with h | ⟨-, hb⟩
    · exact hgood.listed b index h
    · cases hb

theorem setRepr_self {index : ℕ} (repr : Repr A Y)
    (hlt : index < s.sourceObjects.length) :
    (s.setRepr index repr).objReprs[index]? = some repr :=
  getElem?_set_self (hgood.length.symm ▸ hlt)

end

omit [DecidableEq A] in
theorem sources_setRepr (index : ℕ) (repr : Repr A Y) (a : A) (i : ℕ)
    (h : s.sourceObjects[i]? = some (some a)) :
    (s.setRepr index repr).sourceObjects[i]? = some (some a) := h

/-- An entry is made, its terms are encoded, and then it is written. -/
theorem Extends.setRepr (hgrows : Grows s s₁)
    (hlength : s₁.sourceObjects.length = s.sourceObjects.length + 1)
    (hext : Extends m args s₁ s₂) {repr : Repr A Y}
    (hfilled : Filled m (s₂.setRepr s.sourceObjects.length repr) s.sourceObjects.length) :
    Extends m args s (s₂.setRepr s.sourceObjects.length repr) where
  good :=
    { hext.good with
      length := length_set.trans hext.good.length }
  grows :=
    { hgrows.trans hext.grows with
      reprs := fun index hlt => (getElem?_set_ne (Nat.ne_of_gt hlt)).trans
        ((hgrows.trans hext.grows).reprs index hlt) }
  filled index hle hlt := by
    rcases Nat.eq_or_lt_of_le hle with rfl | hgt
    · exact hfilled
    · exact (hext.filled index (hlength ▸ hgt) hlt).mono (sources_setRepr _ _)
        (getElem?_set_ne (Nat.ne_of_lt hgt)) (fun _ _ h => h)

end

/-! ### Objects and addresses -/

section
variable [DecidableEq A] [DecidableEq Y] {m : Memory A Y} {args : List (Term A Y)} {obj : A}

theorem TermReached.exists_read (h : m.Closed args) {a : A} (ha : TermReached m args a) :
    ∃ content, m.read a = some content := by
  cases ha with
  | argument hmem => exact h.args a hmem
  | member _ hread _ hmem => exact h.refs _ _ hread a hmem

theorem ObjectReached.exists_object (h : m.Closed args) (ha : ObjectReached m args obj) :
    ∃ content, m.object obj = some content := by
  cases ha with
  | element _ hread harray hmem => exact h.elements _ _ hread harray obj hmem
  | member _ hread _ hmem => exact h.objects _ _ hread obj hmem
  | boxed _ hread hmem => exact h.objects _ _ hread obj (mem_append_left _ hmem)

omit [DecidableEq Y] in
theorem findIdx?_isNone {s : State A Y} (h : s.sourceObjects.findIdx? (· = some obj) = none) :
    some obj ∉ s.sourceObjects := by
  intro hmem
  have hne := findIdx?_eq_none_iff.mp h _ hmem
  simp at hne

/-- What `Encode` does to an object that is reached. -/
theorem encode_encodes (h : m.Closed args) (fuel : ℕ) :
    Encodes m args (ObjectReached m args) (ObjectRef m) (encode m fuel) := by
  have hmono : ∀ (s s' : State A Y) a repr, Grows s s' → ObjectRef m s a repr →
      ObjectRef m s' a repr := fun s s' a repr hgrows href => href.mono fun _ _ => hgrows.source
  induction fuel with
  | zero => exact ⟨nofun, hmono⟩
  | succ fuel ih =>
    refine ⟨fun a s repr s' hreached hgood hrun => ?_, hmono⟩
    rw [encode] at hrun
    obtain ⟨content, hread, hrun⟩ := bind_eq_some_iff.mp hrun
    split at hrun
    case h_1 value =>
      -- A box has no entry: the value in it stands for it.
      obtain ⟨hext, hrepr⟩ := term2obj_spec ih value s repr s'
        (fun b hb => .boxed hreached hread hb) hgood hrun
      refine ⟨hext, .inlined hread rfl ?_, .inr ⟨⟨_, hread, rfl⟩, ?_⟩⟩
      · rintro value' heq b hb
        obtain rfl := Content.boxed.inj heq
        have hvalue : RepresentsAll (ObjectRef m s') (images [value]) [repr] := ⟨hrepr, trivial⟩
        exact (hvalue.exists_of_mem_refs (mem_append_left _ hb)).elim fun _ href => href.1
      · rintro index rfl
        cases value with
        | nullRef => cases hrepr
        | concrete typ value => cases hrepr
        | enum typ value => cases hrepr
        | struct typ fields => exact nomatch hrepr.choose_spec.1
        | heapRef b => exact h.boxed a b hread
    case h_2 => exact absurd hread (h.whole _ _ _ _ _ _ _)
    case h_3 hbox hregion =>
      split at hrun
      case isTrue hinlined =>
        obtain ⟨rfl, rfl⟩ := Prod.mk.inj (some.inj hrun)
        exact ⟨.refl hgood, .inlined hread hinlined fun value heq => absurd heq (hbox value),
          .inr ⟨⟨content, hread, hinlined⟩, nofun⟩⟩
      case isFalse hlisted =>
        rw [Bool.not_eq_true] at hlisted
        split at hrun
        case h_1 index hfind =>
          obtain ⟨rfl, rfl⟩ := Prod.mk.inj (some.inj hrun)
          obtain ⟨hlt, hget, -⟩ := findIdx?_eq_some_iff_getElem.mp hfind
          have hsource : s.sourceObjects[index]? = some (some a) := by
            rw [getElem?_eq_getElem hlt, of_decide_eq_true hget]
          exact ⟨.refl hgood, .listed hsource, .inl ⟨index, rfl, hsource⟩⟩
        case h_2 hfind =>
          have hnew : ∀ i : ℕ, s.sourceObjects[i]? ≠ some (some a) := fun i hi =>
            findIdx?_isNone hfind (mem_of_getElem? hi)
          obtain ⟨⟨reprs, s₂⟩, hterms, hrest⟩ := bind_eq_some_iff.mp hrun
          obtain ⟨rfl, rfl⟩ := Prod.mk.inj (some.inj hrest)
          have hgood₁ := hgood.bind (content.initialised []) hnew hread hlisted
          obtain ⟨hext, hreprs⟩ := terms2objs_spec ih _ _ _ _
            (fun b hb => .member hreached hread hlisted hb) hgood₁ hterms
          have hsource : s₂.sourceObjects[s.sourceObjects.length]? = some (some a) :=
            hext.grows.source getElem?_concat_length
          have hset := setRepr_self hext.good (content.initialised reprs)
            (List.getElem?_eq_some_iff.mp hsource).1
          exact ⟨.setRepr (.bind hgood _ _) length_append hext ⟨a, _, hset, .inr ⟨hsource,
            content, hread, (represents_initialised hreprs).mono
              (fun b r href => href.mono (sources_setRepr _ _)) _ _⟩⟩,
            .listed hsource, .inl ⟨_, rfl, hsource⟩⟩

/-- What `term2obj` does to an address that is reached. -/
theorem address2obj_encodes (h : m.Closed args) (fuel : ℕ) :
    Encodes m args (TermReached m args) TermRef (address2obj m fuel) := by
  induction fuel with
  | zero => exact ⟨nofun, fun s s' a repr hgrows => hgrows.termRef⟩
  | succ fuel ih =>
    refine ⟨fun a s repr s' hreached hgood hrun => ?_, fun s s' a repr hgrows => hgrows.termRef⟩
    rw [address2obj] at hrun
    split at hrun
    case h_1 hread =>
      obtain ⟨content, hcontent⟩ := hreached.exists_read h
      cases hread.symm.trans hcontent
    case h_2 content hread =>
      split at hrun
      case h_1 index hfind =>
        obtain ⟨rfl, rfl⟩ := Prod.mk.inj (some.inj hrun)
        exact ⟨.refl hgood, index, rfl, hfind⟩
      case h_2 hnew =>
        obtain ⟨⟨reprs, s₂⟩, hterms, hrest⟩ := bind_eq_some_iff.mp hrun
        obtain ⟨rfl, rfl⟩ := Prod.mk.inj (some.inj hrest)
        have hgood₁ := hgood.reserve hreached
        have hself : tryFind (s.reserve a).indices a = some s.sourceObjects.length :=
          (tryFind_reserve a).trans (if_pos rfl)
        -- The members are encoded as objects or by their addresses, as the array is.
        have hmembers : Extends m args (s.reserve a) s₂ ∧
            RepresentsAll (if m.isConcreteArray a content then ObjectRef m s₂ else TermRef s₂)
              (images content.terms) reprs := by
          cases harray : m.isConcreteArray a content with
          | true =>
            rw [harray] at hterms
            exact terms2objs_spec (encode_encodes h fuel) _ _ _ _
              (fun b hb => .element hreached hread harray hb) hgood₁ hterms
          | false =>
            rw [harray] at hterms
            exact terms2objs_spec ih _ _ _ _
              (fun b hb => .member hreached hread harray hb) hgood₁ hterms
        obtain ⟨hext, hreprs⟩ := hmembers
        have hindex := hext.grows.indices a _ hself
        have hset := setRepr_self hext.good (content.added reprs)
          (List.getElem?_eq_some_iff.mp (hext.good.reserved a _ hindex)).1
        refine ⟨.setRepr (.reserve hgood hnew) length_append hext
          ⟨a, _, hset, .inl ⟨hindex, content, hread, ?_⟩⟩, _, rfl, hindex⟩
        refine (represents_added hreprs).mono (fun b r => ?_) _ _
        cases m.isConcreteArray a content with
        | true => exact fun href => href.mono (sources_setRepr _ _)
        | false => exact id

end

/-! ### Fuel -/

section
variable [DecidableEq A] {m : Memory A Y} {args : List (Term A Y)} {s s' : State A Y} {a : A}
  {content : Content A Y}

/-- The addresses that have no entry, and the objects that have none. -/
def bound (m : Memory A Y) (s : State A Y) : ℕ :=
  {a ∈ (keys m.allocated).toFinset | tryFind s.indices a = none}.card +
    {a ∈ (keys m.objects).toFinset | some a ∉ s.sourceObjects}.card

theorem Grows.filter_indices (h : Grows s s') :
    {a ∈ (keys m.allocated).toFinset | tryFind s'.indices a = none} ⊆
      {a ∈ (keys m.allocated).toFinset | tryFind s.indices a = none} := by
  refine Finset.monotone_filter_right _ fun a _ hnone => ?_
  cases hfind : tryFind s.indices a with
  | none => rfl
  | some index => cases hnone.symm.trans (h.indices a index hfind)

theorem Grows.filter_sources (h : Grows s s') :
    {a ∈ (keys m.objects).toFinset | some a ∉ s'.sourceObjects} ⊆
      {a ∈ (keys m.objects).toFinset | some a ∉ s.sourceObjects} := by
  refine Finset.monotone_filter_right _ fun a _ hnew hold => hnew ?_
  obtain ⟨index, hindex⟩ := mem_iff_getElem?.mp hold
  exact mem_of_getElem? (h.source hindex)

theorem Grows.bound_le (h : Grows s s') : bound m s' ≤ bound m s :=
  Nat.add_le_add (Finset.card_le_card h.filter_indices) (Finset.card_le_card h.filter_sources)

theorem mem_keys_of_tryFind {d : Pdict A (Content A Y)} (h : tryFind d a = some content) :
    a ∈ (keys d).toFinset := by
  rw [List.mem_toFinset]
  by_contra hnot
  rw [tryFind_eq_none_iff.mpr hnot] at h
  cases h

theorem Grows.bound_lt (h : Grows s s')
    (hnew : m.read a = some content ∧ tryFind s.indices a = none ∧ tryFind s'.indices a ≠ none ∨
      m.object a = some content ∧ some a ∉ s.sourceObjects ∧ some a ∈ s'.sourceObjects) :
    bound m s' < bound m s := by
  rcases hnew with ⟨hread, hold, hfind⟩ | ⟨hread, hold, hfind⟩
  · refine Nat.add_lt_add_of_lt_of_le (Finset.card_lt_card
      ((Finset.ssubset_iff_of_subset h.filter_indices).mpr ⟨a, ?_, fun hmem => ?_⟩))
      (Finset.card_le_card h.filter_sources)
    · exact Finset.mem_filter.mpr ⟨mem_keys_of_tryFind hread, hold⟩
    · exact hfind (Finset.mem_filter.mp hmem).2
  · refine Nat.add_lt_add_of_le_of_lt (Finset.card_le_card h.filter_indices)
      (Finset.card_lt_card
        ((Finset.ssubset_iff_of_subset h.filter_sources).mpr ⟨a, ?_, fun hmem => ?_⟩))
    · exact Finset.mem_filter.mpr ⟨mem_keys_of_tryFind hread, hold⟩
    · exact (Finset.mem_filter.mp hmem).2 hfind

theorem EndsIn.mono {n k : ℕ} (h : EndsIn m n a) (hle : n ≤ k) : EndsIn m k a := by
  induction h generalizing k with
  | single hcontent hbox => exact .single hcontent hbox
  | boxed hcontent _ ih =>
    cases k with
    | zero => exact absurd hle (Nat.not_succ_le_zero _)
    | succ k => exact .boxed hcontent fun b hb => ih b hb (Nat.le_of_succ_le_succ hle)

/-- One bound is enough for a list of objects. -/
theorem exists_endsIn (p : A → Prop) (objs : List A) (h : ∀ a ∈ objs, p a → ∃ n, EndsIn m n a) :
    ∃ n, ∀ a ∈ objs, p a → EndsIn m n a := by
  induction objs with
  | nil => exact ⟨0, nofun⟩
  | cons b objs ih =>
    obtain ⟨n, hn⟩ := ih fun a ha => h a (mem_cons_of_mem b ha)
    by_cases hb : p b
    · obtain ⟨k, hk⟩ := h b mem_cons_self hb
      refine ⟨max n k, fun a ha hp => ?_⟩
      rcases mem_cons.mp ha with rfl | ha
      · exact hk.mono (Nat.le_max_right n k)
      · exact (hn a ha hp).mono (Nat.le_max_left n k)
    · refine ⟨n, fun a ha hp => ?_⟩
      rcases mem_cons.mp ha with rfl | ha
      · exact absurd hp hb
      · exact hn a ha hp

section
variable [DecidableEq Y] {depth : ℕ} (h : m.Closed args)
variable (hends : ∀ obj, ObjectReached m args obj → EndsIn m depth obj)

include h hends

/-- Objects are encoded with enough fuel: all the boxes, for each entry that is to be made. -/
theorem encode_bounded (fuel : ℕ) : ∀ n,
    Bounded m args (fun obj => ObjectReached m args obj ∧ EndsIn m n obj)
      (fun s => bound m s * (depth + 1) + n) fuel (encode m fuel) := by
  have hmono : ∀ n (s s' : State A Y), Grows s s' →
      bound m s' * (depth + 1) + n ≤ bound m s * (depth + 1) + n := fun n s s' hgrows =>
    Nat.add_le_add_right (Nat.mul_le_mul_right _ hgrows.bound_le) n
  induction fuel with
  | zero => exact fun n => ⟨fun a s _ _ hlt => absurd hlt (Nat.not_lt_zero _), hmono n⟩
  | succ fuel ih =>
    refine fun n => ⟨fun a s hreached hgood hfuel => ?_, hmono n⟩
    obtain ⟨hreached, hend⟩ := hreached
    obtain ⟨content, hread⟩ := hreached.exists_object h
    rw [encode, hread, bind_eq_bind, bind_some]
    split
    case h_1 value =>
      cases hend with
      | single hcontent hbox => exact absurd (some.inj (hcontent.symm.trans hread)) (hbox _)
      | @boxed k _ value' hcontent hvalue =>
        obtain rfl := Content.boxed.inj (some.inj (hcontent.symm.trans hread))
        exact term2obj_isSome (encode_encodes h fuel) (fun a ha => ha.1) (ih k) _ s
          (fun b hb => ⟨.boxed hreached hread hb, hvalue b hb⟩) hgood (by omega)
    case h_2 => exact absurd hread (h.whole _ _ _ _ _ _ _)
    case h_3 =>
      split
      case isTrue => exact ⟨_, rfl⟩
      case isFalse hlisted =>
        rw [Bool.not_eq_true] at hlisted
        split
        case h_1 => exact ⟨_, rfl⟩
        case h_2 hfind =>
          have hnew := findIdx?_isNone hfind
          have hgood₁ := hgood.bind (content.initialised [])
            (fun i hi => hnew (mem_of_getElem? hi)) hread hlisted
          have hlt := (Grows.bind hgood (some a) (content.initialised [])).bound_lt
            (.inr ⟨hread, hnew, mem_append_right _ mem_cons_self⟩)
          have hmul := Nat.mul_le_mul_right (depth + 1) (Nat.succ_le_of_lt hlt)
          rw [Nat.succ_mul] at hmul
          have hmembers : ∀ b ∈ refsAll content.terms,
              ObjectReached m args b ∧ EndsIn m depth b := fun b hb =>
            have hb' := ObjectReached.member hreached hread hlisted hb
            ⟨hb', hends b hb'⟩
          obtain ⟨⟨reprs, s₂⟩, hterms⟩ := terms2objs_isSome (encode_encodes h fuel)
            (fun a ha => ha.1) (ih depth) content.terms _ hmembers hgood₁ (by omega)
          refine ⟨(.referenceRepr s.sourceObjects.length,
            s₂.setRepr s.sourceObjects.length (content.initialised reprs)), ?_⟩
          simp only [hterms, bind_eq_bind, bind_some]

theorem address2obj_bounded (fuel : ℕ) :
    Bounded m args (TermReached m args) (fun s => bound m s * (depth + 1) + depth) fuel
      (address2obj m fuel) := by
  have hmono : ∀ s s' : State A Y, Grows s s' →
      bound m s' * (depth + 1) + depth ≤ bound m s * (depth + 1) + depth := fun s s' hgrows =>
    Nat.add_le_add_right (Nat.mul_le_mul_right _ hgrows.bound_le) depth
  induction fuel with
  | zero => exact ⟨fun a s _ _ hlt => absurd hlt (Nat.not_lt_zero _), hmono⟩
  | succ fuel ih =>
    refine ⟨fun a s hreached hgood hfuel => ?_, hmono⟩
    obtain ⟨content, hread⟩ := hreached.exists_read h
    rw [address2obj, hread]
    dsimp only
    split
    case h_1 => exact ⟨_, rfl⟩
    case h_2 hnew =>
      have hself : tryFind (s.reserve a).indices a ≠ none := by
        rw [tryFind_reserve, if_pos rfl]
        exact nofun
      have hlt := (Grows.reserve hgood hnew).bound_lt (.inl ⟨hread, hnew, hself⟩)
      have hmul := Nat.mul_le_mul_right (depth + 1) (Nat.succ_le_of_lt hlt)
      rw [Nat.succ_mul] at hmul
      have hmembers : ∃ res, terms2objs (if m.isConcreteArray a content then encode m fuel
          else address2obj m fuel) content.terms (s.reserve a) = some res := by
        cases harray : m.isConcreteArray a content with
        | true =>
          exact terms2objs_isSome (encode_encodes h fuel) (fun a ha => ha.1)
            (encode_bounded h hends fuel depth) content.terms _ (fun b hb =>
              have hb' := ObjectReached.element hreached hread harray hb
              ⟨hb', hends b hb'⟩) (hgood.reserve hreached) (by omega)
        | false =>
          exact terms2objs_isSome (address2obj_encodes h fuel) (fun a ha => ha) ih content.terms _
            (fun b hb => .member hreached hread harray hb) (hgood.reserve hreached) (by omega)
      obtain ⟨⟨reprs, s₂⟩, hterms⟩ := hmembers
      refine ⟨(.referenceRepr s.sourceObjects.length,
        s₂.setRepr s.sourceObjects.length (content.added reprs)), ?_⟩
      simp only [hterms, bind_eq_bind, bind_some]

end

end

/-! ### Positions -/

section
variable [DecidableEq A] [DecidableEq Y] {m : Memory A Y} {args : List (Term A Y)}

omit [DecidableEq Y] in
theorem good_empty : Good m args ⟨[], [], []⟩ where
  length := rfl
  reserved _ _ h := by cases h
  injective _ _ _ h := by cases h
  termReached _ _ h := by cases h
  distinct _ _ _ h := by cases h
  listed _ _ h := by cases h

/-- What the arguments of a test are encoded to. -/
theorem encodeArguments_spec (h : m.Closed args) {fuel : ℕ} {reprs : List (Repr A Y)}
    {s : State A Y} (hrun : encodeArguments m fuel args = some (reprs, s)) :
    Good m args s ∧ (∀ index, index < s.sourceObjects.length → Filled m s index) ∧
      RepresentsAll (TermRef s) (images args) reprs := by
  obtain ⟨hext, hreprs⟩ := terms2objs_spec (address2obj_encodes h fuel) args _ reprs s
    (fun a ha => .argument ha) good_empty hrun
  exact ⟨hext.good, fun index hlt => hext.filled index (Nat.zero_le index) hlt, hreprs⟩

variable {reprs : List (Repr A Y)} {s : State A Y} {a : A} {repr : Repr A Y} {content : Content A Y}

section
omit [DecidableEq A] [DecidableEq Y]

theorem addedImage_ne_object :
    (∃ value, content = .boxed value) ∨ ∀ obj, content.addedImage ≠ .object obj := by
  match content with
  | .classObject .. => exact .inr nofun
  | .array .. => exact .inr nofun
  | .region .. => exact .inr nofun
  | .string _ => exact .inr nofun
  | .boxed value => exact .inl ⟨value, rfl⟩

theorem initialisedImage_ne_object (obj : A) : content.initialisedImage ≠ .object obj := by
  match content with
  | .classObject .. => exact nofun
  | .array .. => exact nofun
  | .region .. => exact nofun
  | .string _ => exact nofun
  | .boxed _ => exact nofun

end

variable (hgood : Good m args s)
variable (hfilled : ∀ index, index < s.sourceObjects.length → Filled m s index) {index : ℕ}
  {obj : A}

include hgood hfilled

omit [DecidableEq Y] in
/-- The entry of an address. -/
theorem entry_of_address (hindex : tryFind s.indices a = some index) :
    ∃ repr, s.objReprs[index]? = some repr ∧ AddressEntry m s a repr := by
  have hlt := (List.getElem?_eq_some_iff.mp (hgood.reserved a index hindex)).1
  obtain ⟨b, repr, hget, ⟨hindex', hentry⟩ | ⟨hsource, -⟩⟩ := hfilled index hlt
  · exact ⟨repr, hget, hgood.injective a b index hindex hindex' ▸ hentry⟩
  · cases (hgood.reserved a index hindex).symm.trans hsource

omit [DecidableEq Y] in
/-- The entry of an object. -/
theorem entry_of_object (hsource : s.sourceObjects[index]? = some (some a)) :
    ∃ repr, s.objReprs[index]? = some repr ∧ ObjectEntry m s a repr := by
  have hlt := (List.getElem?_eq_some_iff.mp hsource).1
  obtain ⟨b, repr, hget, ⟨hindex, -⟩ | ⟨hsource', hentry⟩⟩ := hfilled index hlt
  · cases (hgood.reserved b index hindex).symm.trans hsource
  · exact ⟨repr, hget, some.inj (some.inj (hsource.symm.trans hsource')) ▸ hentry⟩

/-- The references in an address, and those in its entry. -/
theorem slots_of_address (hindex : tryFind s.indices a = some index)
    (hread : m.read a = some content) :
    ∃ entryRepr, s.objReprs[index]? = some entryRepr ∧
      List.Forall₂ (fun b q => b = q.1 ∧
        (if m.isConcreteArray a content then ObjectRef m s else TermRef s) b q.2)
        (refsAll content.terms) (content.slots entryRepr) := by
  obtain ⟨entryRepr, hget, content', hread', hentry⟩ := entry_of_address hgood hfilled hindex
  obtain rfl := some.inj (hread.symm.trans hread')
  have hslots := Content.slots_represents fits_addedImage hentry addedImage_ne_object
  rw [slots_addedImage, forall₂_map_left_iff] at hslots
  exact ⟨entryRepr, hget, hslots⟩

/-- The references in what the state has, and those in the entry of an object. -/
theorem slots_of_object (h : m.Closed args) {source : Content A Y}
    (hsource : s.sourceObjects[index]? = some (some obj)) (hread : m.read a = some content)
    (hobject : m.object obj = some source) :
    ∃ entryRepr, s.objReprs[index]? = some entryRepr ∧
      List.Forall₂ (fun p q => p.1 = q.1 ∧ Represents (ObjectRef m s) p.2 q.2)
        (content.slots source.initialisedImage) (content.slots entryRepr) := by
  obtain ⟨entryRepr, hget, source', hobject', hentry⟩ := entry_of_object hgood hfilled hsource
  obtain rfl := some.inj (hobject.symm.trans hobject')
  exact ⟨entryRepr, hget, Content.slots_represents (h.typed a content obj source hread hobject)
    hentry (.inr initialisedImage_ne_object)⟩

variable (hencoded : RepresentsAll (TermRef s) (images args) reprs)

include hencoded

/-- What is reached by its address is at a position, and named there. -/
theorem TermReached.exists_position (h : TermReached m args a) :
    ∃ index, tryFind s.indices a = some index ∧
      Position m args reprs s a (.referenceRepr index) := by
  induction h with
  | argument hmem =>
    obtain ⟨⟨_, _⟩, hslot, rfl, index, rfl, hindex⟩ :=
      forall₂_mem_left hencoded.slots hmem
    exact ⟨index, hindex, .argument hslot⟩
  | member _ hread harray hmem ih =>
    obtain ⟨owner, howner, hposition⟩ := ih
    obtain ⟨entryRepr, hget, hslots⟩ := slots_of_address hgood hfilled howner hread
    rw [harray] at hslots
    obtain ⟨⟨_, _⟩, hslot, rfl, index, rfl, hindex⟩ := forall₂_mem_left hslots hmem
    exact ⟨index, hindex, .entry hposition hread hget hslot⟩

/-- What is held is at a position, and represented there. -/
theorem Held.exists_position (hclosed : m.Closed args) {x : Repr A Y} (h : Held m args a x) :
    ∃ repr, Position m args reprs s a repr ∧ Represents (ObjectRef m s) x repr := by
  induction h with
  | element hreached hread harray hmem =>
    obtain ⟨owner, howner, hposition⟩ := hreached.exists_position hgood hfilled hencoded
    obtain ⟨entryRepr, hget, hslots⟩ := slots_of_address hgood hfilled howner hread
    rw [harray] at hslots
    obtain ⟨⟨_, repr⟩, hslot, rfl, href⟩ := forall₂_mem_left hslots hmem
    exact ⟨repr, .entry hposition hread hget hslot, href⟩
  | member _ hread hobject hlisted hmem ih =>
    obtain ⟨ownerRepr, hposition, howner⟩ := ih
    obtain ⟨index, rfl, hsource⟩ := ObjectRef.source howner hobject hlisted
    obtain ⟨entryRepr, hget, hslots⟩ := slots_of_object hgood hfilled hclosed hsource hread hobject
    obtain ⟨⟨_, repr⟩, hslot, rfl, href⟩ := forall₂_mem_left hslots hmem
    exact ⟨repr, .entry hposition hread hget hslot, href⟩

/-- What is at a position is encoded by its address, or held. -/
theorem Position.cases (hclosed : m.Closed args)
    (hlisted : ∀ a x, Held m args a x → ∃ obj content, x = .object obj ∧
      m.object obj = some content ∧ m.isInlined content = false)
    (h : Position m args reprs s a repr) : TermReached m args a ∧ TermRef s a repr ∨
      ∃ index obj, Held m args a (.object obj) ∧ repr = .referenceRepr index ∧
        s.sourceObjects[index]? = some (some obj) := by
  have hheld : ∀ {b x r}, Held m args b x → Represents (ObjectRef m s) x r →
      ∃ index obj, Held m args b (.object obj) ∧ r = .referenceRepr index ∧
        s.sourceObjects[index]? = some (some obj) := by
    rintro b x r hb hr
    obtain ⟨obj, content, rfl, hobject, hfalse⟩ := hlisted b x hb
    obtain ⟨index, rfl, hsource⟩ := ObjectRef.source hr hobject hfalse
    exact ⟨index, obj, hb, rfl, hsource⟩
  induction h with
  | argument hmem =>
    obtain ⟨b, hb, rfl, href⟩ := forall₂_mem_right hencoded.slots hmem
    exact .inl ⟨.argument hb, href⟩
  | entry _ hread hget hmem ih =>
    rcases ih with ⟨hreached, index, heq, hindex⟩ | ⟨index, obj, howner, heq, hsource⟩
    · obtain rfl := Repr.referenceRepr.inj heq
      obtain ⟨entryRepr, hget', hslots⟩ := slots_of_address hgood hfilled hindex hread
      obtain rfl := some.inj (hget.symm.trans hget')
      obtain ⟨b, hb, rfl, href⟩ := forall₂_mem_right hslots hmem
      split at href
      case isTrue harray => exact .inr (hheld (.element hreached hread harray hb) href)
      case isFalse harray =>
        exact .inl ⟨.member hreached hread (Bool.not_eq_true _ ▸ harray) hb, href⟩
    · obtain rfl := Repr.referenceRepr.inj heq
      obtain ⟨_, source, hobj, hobject, hfalse⟩ := hlisted _ _ howner
      obtain rfl := Repr.object.inj hobj
      obtain ⟨entryRepr, hget', hslots⟩ :=
        slots_of_object hgood hfilled hclosed hsource hread hobject
      obtain rfl := some.inj (hget.symm.trans hget')
      obtain ⟨⟨_, x⟩, hx, rfl, href⟩ := forall₂_mem_right hslots hmem
      exact .inr (hheld (.member howner hread hobject hfalse hx) href)

/-- What is reached as an object is done. -/
theorem ObjectReached.done (hclosed : m.Closed args) (h : ObjectReached m args obj) :
    Done m s obj := by
  induction h with
  | element hreached hread harray hmem =>
    obtain ⟨owner, howner, -⟩ := hreached.exists_position hgood hfilled hencoded
    obtain ⟨entryRepr, -, hslots⟩ := slots_of_address hgood hfilled howner hread
    rw [harray] at hslots
    obtain ⟨⟨_, repr⟩, -, rfl, href⟩ := forall₂_mem_left hslots hmem
    exact href.1
  | @member _ obj' content _ hobject hlisted hmem ih =>
    cases ih with
    | listed hsource =>
      obtain ⟨entryRepr, -, source, hobject', hentry⟩ := entry_of_object hgood hfilled hsource
      obtain rfl := some.inj (hobject.symm.trans hobject')
      match content, hlisted with
      | .classObject .., _ =>
        obtain ⟨reprs, -, hreprs⟩ := hentry
        exact (hreprs.exists_of_mem_refs hmem).elim fun _ href => href.1
      | .array .., _ =>
        obtain ⟨_, reprs, -, -, hreprs⟩ := hentry
        exact (hreprs.exists_of_mem_refs hmem).elim fun _ href => href.1
      | .region .., _ => exact absurd hobject (hclosed.whole _ _ _ _ _ _ _)
    | inlined hobject' hinlined _ =>
      rw [some.inj (hobject'.symm.trans hobject), hlisted] at hinlined
      cases hinlined
  | boxed _ hobject hmem ih =>
    cases ih with
    | listed hsource =>
      obtain ⟨content, hobject', hfalse⟩ := hgood.listed _ _ hsource
      rw [← some.inj (hobject.symm.trans hobject')] at hfalse
      cases hfalse
    | inlined hobject' _ hvalue =>
      exact hvalue _ (some.inj (hobject'.symm.trans hobject)) _ hmem

omit hfilled hencoded [DecidableEq Y] in
/-- The boxes in what is done end. -/
theorem Done.endsIn (h : Done m s obj) : ∃ n, EndsIn m n obj := by
  induction h with
  | listed hsource =>
    obtain ⟨content, hobject, hlisted⟩ := hgood.listed _ _ hsource
    exact ⟨0, .single hobject fun value hbox => by rw [hbox] at hlisted; cases hlisted⟩
  | @inlined obj content hobject hinlined _ ih =>
    by_cases hbox : ∃ value, content = .boxed value
    · obtain ⟨value, rfl⟩ := hbox
      obtain ⟨n, hn⟩ := exists_endsIn (fun _ => True) (refs value) fun b hb _ => ih value rfl b hb
      exact ⟨n + 1, .boxed hobject fun b hb => hn b hb trivial⟩
    · exact ⟨0, .single hobject fun value heq => hbox ⟨value, heq⟩⟩

end

theorem same_entry_iff {i j : ℕ} : (∃ index, (.referenceRepr i : Repr A Y) =
    .referenceRepr index ∧ (.referenceRepr j : Repr A Y) = .referenceRepr index) ↔ i = j := by
  constructor
  · rintro ⟨k, hk, hk'⟩
    exact (Repr.referenceRepr.inj hk).trans (Repr.referenceRepr.inj hk').symm
  · rintro rfl
    exact ⟨i, rfl, rfl⟩

/-- **Identity.** Two references of a test name one entry if and only if they hold one address, when
what is reached through the elements of arrays in concrete memory has entries, is reached in no other
way, and is told apart by the objects as by the addresses. -/
theorem identity_iff [DecidableEq A] [DecidableEq Y] (m : Memory A Y) (args : List (Term A Y))
    (h : m.Closed args) : PreservesIdentity m args ↔ m.Apart args := by
  constructor
  · rintro ⟨fuel, reprs, s, hrun, hidentity⟩
    obtain ⟨hgood, hfilled, hencoded⟩ := encodeArguments_spec h hrun
    -- What is held is named, so it is an object with an entry.
    have hnamed : ∀ {a x}, Held m args a x → ∃ (index : ℕ) (obj : A), x = .object obj ∧
        Position m args reprs s a (.referenceRepr index) ∧
          s.sourceObjects[index]? = some (some obj) := by
      intro a x hheld
      obtain ⟨repr, hposition, hrepr⟩ := hheld.exists_position hgood hfilled hencoded h
      obtain ⟨index, rfl, -⟩ := (hidentity a repr a repr hposition hposition).mpr rfl
      cases x with
      | object obj =>
        obtain ⟨-, ⟨index', heq, hsource⟩ | ⟨-, hne⟩⟩ := hrepr
        · obtain rfl := Repr.referenceRepr.inj heq
          exact ⟨index, obj, rfl, hposition, hsource⟩
        · exact absurd rfl (hne index)
      | referenceRepr index' => exact hrepr.elim
      | null => cases hrepr
      | concrete typ value => cases hrepr
      | enumRepr typ value => cases hrepr
      | stringRepr content => cases hrepr
      | structureRepr typ fields => exact nomatch hrepr.choose_spec.1
      | arrayRepr typ d indices values lengths lowerBounds =>
        exact nomatch hrepr.choose_spec.choose_spec.1
    refine ⟨fun a x hheld => ?_, fun a x hheld hterm => ?_, fun a b obj obj' ha hb => ?_,
      fun obj hobj => (hobj.done hgood hfilled hencoded h).endsIn hgood⟩
    · obtain ⟨index, obj, rfl, -, hsource⟩ := hnamed hheld
      obtain ⟨content, hobject⟩ := hgood.listed obj index hsource
      exact ⟨obj, content, rfl, hobject⟩
    · obtain ⟨index, obj, rfl, hposition, hsource⟩ := hnamed hheld
      obtain ⟨index', hindex, hposition'⟩ := hterm.exists_position hgood hfilled hencoded
      have hsame := same_entry_iff.mp ((hidentity a _ a _ hposition hposition').mpr rfl)
      exact hgood.index_ne_source hindex hsource hsame.symm
    · obtain ⟨i, _, hobj, hposition, hi⟩ := hnamed ha
      obtain rfl := Repr.object.inj hobj
      obtain ⟨j, _, hobj, hposition', hj⟩ := hnamed hb
      obtain rfl := Repr.object.inj hobj
      rw [← hidentity a _ b _ hposition hposition', same_entry_iff]
      exact (hgood.source_iff hi hj).symm
  · intro hapart
    obtain ⟨depth, hdepth⟩ := exists_endsIn (ObjectReached m args) (keys m.objects)
      fun obj _ => hapart.ends obj
    have hends : ∀ obj, ObjectReached m args obj → EndsIn m depth obj := fun obj hobj => by
      obtain ⟨content, hcontent⟩ := hobj.exists_object h
      exact hdepth obj (mem_toFinset.mp (mem_keys_of_tryFind hcontent)) hobj
    obtain ⟨⟨reprs, s⟩, hrun⟩ := terms2objs_isSome (address2obj_encodes h _) (fun a ha => ha)
      (address2obj_bounded h hends _) args _ (fun a ha => .argument ha) good_empty
      (Nat.lt_succ_self (bound m ⟨[], [], []⟩ * (depth + 1) + depth))
    obtain ⟨hgood, hfilled, hencoded⟩ := encodeArguments_spec h hrun
    refine ⟨_, reprs, s, hrun, fun a repr b repr' ha hb => ?_⟩
    rcases ha.cases hgood hfilled hencoded h hapart.listed with
      ⟨hreached, i, rfl, hi⟩ | ⟨i, obj, hheld, rfl, hi⟩ <;>
      rcases hb.cases hgood hfilled hencoded h hapart.listed with
        ⟨hreached', j, rfl, hj⟩ | ⟨j, obj', hheld', rfl, hj⟩
    · exact same_entry_iff.trans (hgood.index_iff hi hj)
    · exact same_entry_iff.trans (iff_of_false (hgood.index_ne_source hi hj)
        fun hab => hapart.apart b _ hheld' (hab ▸ hreached))
    · exact same_entry_iff.trans (iff_of_false (hgood.index_ne_source hj hi).symm
        fun hab => hapart.apart a _ hheld (hab ▸ hreached'))
    · exact same_entry_iff.trans
        ((hgood.source_iff hi hj).trans (hapart.same a b obj obj' hheld hheld'))

/-! ### Two arrays in concrete memory -/

/-- The class `0` refers to itself; the elements of the array `1` are the class `2`, twice.  The class
`2` was unmarshalled, and has another number since then; it refers to the class `3`. -/
def sharedElements : Memory ℕ ℕ where
  allocated := [(0, .classObject 0 [.heapRef 0]), (1, .array 1 [2] none [.heapRef 2, .heapRef 2]),
    (2, .classObject 2 [.heapRef 3, .concrete 3 7]), (3, .classObject 0 [.nullRef])]
  objects := [(1, .array 1 [2] none [.heapRef 2, .heapRef 2]),
    (2, .classObject 2 [.heapRef 3, .concrete 3 5]), (3, .classObject 0 [.nullRef])]
  contains a := a == 1 || a == 3
  isSerializable _ := false

theorem sharedElements_preserved : PreservesIdentity sharedElements [.heapRef 0, .heapRef 1] := by
  have hread : ∀ {a content}, sharedElements.read a = some content →
      a = 0 ∧ content = .classObject 0 [.heapRef 0] ∨
      a = 1 ∧ content = .array 1 [2] none [.heapRef 2, .heapRef 2] ∨
      a = 2 ∧ content = .classObject 2 [.heapRef 3, .concrete 3 7] ∨
      a = 3 ∧ content = .classObject 0 [.nullRef] := by
    intro a content hread
    match a, hread with
    | 0, h => exact .inl ⟨rfl, (some.inj h).symm⟩
    | 1, h => exact .inr (.inl ⟨rfl, (some.inj h).symm⟩)
    | 2, h => exact .inr (.inr (.inl ⟨rfl, (some.inj h).symm⟩))
    | 3, h => exact .inr (.inr (.inr ⟨rfl, (some.inj h).symm⟩))
  have hobject : ∀ {a content}, sharedElements.object a = some content →
      a = 1 ∧ content = .array 1 [2] none [.heapRef 2, .heapRef 2] ∨
      a = 2 ∧ content = .classObject 2 [.heapRef 3, .concrete 3 5] ∨
      a = 3 ∧ content = .classObject 0 [.nullRef] := by
    intro a content hread
    match a, hread with
    | 1, h => exact .inl ⟨rfl, (some.inj h).symm⟩
    | 2, h => exact .inr (.inl ⟨rfl, (some.inj h).symm⟩)
    | 3, h => exact .inr (.inr ⟨rfl, (some.inj h).symm⟩)
  have hterm : ∀ {a}, TermReached sharedElements [.heapRef 0, .heapRef 1] a → a = 0 ∨ a = 1 := by
    intro a ha
    induction ha with
    | argument hmem => simpa [refsAll, refs] using hmem
    | member _ hcontent harray hmem ih =>
      rcases hread hcontent with ⟨rfl, rfl⟩ | ⟨rfl, rfl⟩ | ⟨rfl, rfl⟩ | ⟨rfl, rfl⟩
      · exact .inl (by simpa [Content.terms, refsAll, refs] using hmem)
      · cases harray
      · omega
      · omega
  have hheld : ∀ {a x}, Held sharedElements [.heapRef 0, .heapRef 1] a x →
      (a = 2 ∨ a = 3) ∧ x = .object a := by
    intro a x ha
    induction ha with
    | element hreached hcontent harray hmem =>
      rcases hread hcontent with ⟨rfl, rfl⟩ | ⟨rfl, rfl⟩ | ⟨rfl, rfl⟩ | ⟨rfl, rfl⟩
      · cases harray
      · exact ⟨.inl (by simpa [Content.terms, refsAll, refs] using hmem), rfl⟩
      · cases harray
      · cases harray
    | member _ hcontent hsource _ hmem ih =>
      obtain ⟨rfl | rfl, heq⟩ := ih
      · cases heq
        cases hcontent
        cases hsource
        obtain ⟨rfl, rfl⟩ := Prod.mk.inj (mem_singleton.mp hmem)
        exact ⟨.inr rfl, rfl⟩
      · cases heq
        cases hcontent
        cases hsource
        cases hmem
  have hclosed : sharedElements.Closed [.heapRef 0, .heapRef 1] := by
    refine ⟨?_, ?_, ?_, ?_, ?_, ?_, ?_⟩
    · intro a ha
      obtain rfl | rfl : a = 0 ∨ a = 1 := by simpa [refsAll, refs] using ha
      · exact ⟨_, rfl⟩
      · exact ⟨_, rfl⟩
    · intro a content hcontent b hb
      rcases hread hcontent with ⟨rfl, rfl⟩ | ⟨rfl, rfl⟩ | ⟨rfl, rfl⟩ | ⟨rfl, rfl⟩
      · obtain rfl : b = 0 := by simpa [Content.terms, refsAll, refs] using hb
        exact ⟨_, rfl⟩
      · obtain rfl : b = 2 := by simpa [Content.terms, refsAll, refs] using hb
        exact ⟨_, rfl⟩
      · obtain rfl : b = 3 := by simpa [Content.terms, refsAll, refs] using hb
        exact ⟨_, rfl⟩
      · simp [Content.terms, refsAll, refs] at hb
    · intro a content hcontent harray b hb
      rcases hread hcontent with ⟨rfl, rfl⟩ | ⟨rfl, rfl⟩ | ⟨rfl, rfl⟩ | ⟨rfl, rfl⟩
      · cases harray
      · obtain rfl : b = 2 := by simpa [Content.terms, refsAll, refs] using hb
        exact ⟨_, rfl⟩
      · cases harray
      · cases harray
    · intro a content hcontent b hb
      rcases hobject hcontent with ⟨rfl, rfl⟩ | ⟨rfl, rfl⟩ | ⟨rfl, rfl⟩
      · obtain rfl : b = 2 := by simpa [Content.terms, refsAll, refs] using hb
        exact ⟨_, rfl⟩
      · obtain rfl : b = 3 := by simpa [Content.terms, refsAll, refs] using hb
        exact ⟨_, rfl⟩
      · simp [Content.terms, refsAll, refs] at hb
    · intro a t lengths lowerBounds d indices values hcontent
      rcases hobject hcontent with ⟨-, h⟩ | ⟨-, h⟩ | ⟨-, h⟩ <;> cases h
    · intro a b hcontent
      rcases hobject hcontent with ⟨-, h⟩ | ⟨-, h⟩ | ⟨-, h⟩ <;> cases h
    · intro a content b source hcontent hsource
      rcases hread hcontent with ⟨-, rfl⟩ | ⟨-, rfl⟩ | ⟨-, rfl⟩ | ⟨-, rfl⟩ <;>
        exact ⟨trivial, by trivial⟩
  refine (identity_iff sharedElements _ hclosed).mpr ⟨?_, ?_, ?_, ?_⟩
  · intro a x ha
    obtain ⟨rfl | rfl, rfl⟩ := hheld ha
    · exact ⟨_, _, rfl, rfl, rfl⟩
    · exact ⟨_, _, rfl, rfl, rfl⟩
  · intro a x ha hreached
    obtain ⟨h, -⟩ := hheld ha
    have := hterm hreached
    omega
  · intro a b obj obj' ha hb
    rw [Repr.object.inj (hheld ha).2, Repr.object.inj (hheld hb).2]
  · intro obj hobj
    obtain ⟨content, hcontent⟩ := hobj.exists_object hclosed
    refine ⟨0, .single hcontent ?_⟩
    rintro value rfl
    rcases hobject hcontent with ⟨-, h⟩ | ⟨-, h⟩ | ⟨-, h⟩ <;> cases h

/-- The class `0` is an argument, and the element of the array `1` as well. -/
def elementAndArgument : Memory ℕ ℕ where
  allocated := [(0, .classObject 0 []), (1, .array 1 [1] none [.heapRef 0])]
  objects := [(0, .classObject 0 []), (1, .array 1 [1] none [.heapRef 0])]
  contains _ := true
  isSerializable _ := false

theorem elementAndArgument_split : elementAndArgument.Closed [.heapRef 0, .heapRef 1] ∧
    ¬ PreservesIdentity elementAndArgument [.heapRef 0, .heapRef 1] := by
  have hread : ∀ {a content}, elementAndArgument.read a = some content →
      content = .classObject 0 [] ∨ content = .array 1 [1] none [.heapRef 0] := by
    intro a content hread
    match a, hread with
    | 0, h => exact .inl (some.inj h).symm
    | 1, h => exact .inr (some.inj h).symm
  have hrefs : ∀ {a content}, elementAndArgument.read a = some content →
      ∀ b ∈ refsAll content.terms, ∃ content', elementAndArgument.read b = some content' := by
    intro a content hcontent b hb
    rcases hread hcontent with rfl | rfl
    · cases hb
    · obtain rfl : b = 0 := by simpa [Content.terms, refsAll, refs] using hb
      exact ⟨_, rfl⟩
  refine ⟨⟨?_, fun _ _ => hrefs, fun _ _ h _ => hrefs h, fun _ _ => hrefs, ?_, ?_, ?_⟩, ?_⟩
  · intro a ha
    obtain rfl | rfl : a = 0 ∨ a = 1 := by simpa [refsAll, refs] using ha
    · exact ⟨_, rfl⟩
    · exact ⟨_, rfl⟩
  · intro a t lengths lowerBounds d indices values hcontent
    rcases hread hcontent with h | h <;> cases h
  · intro a b hcontent
    rcases hread hcontent with h | h <;> cases h
  · intro a content b source hcontent _
    rcases hread hcontent with rfl | rfl
    · trivial
    · exact ⟨trivial, trivial⟩
  rintro ⟨fuel, reprs, s, hrun, hidentity⟩
  match fuel, hrun with
  | 1, hrun => cases hrun
  | n + 2, hrun =>
    have hgraph : encodeArguments elementAndArgument (n + 2) [.heapRef 0, .heapRef 1] =
        some ([.referenceRepr 0, .referenceRepr 1], ⟨[(1, 1), (0, 0)], [none, none, some 0],
          [.structureRepr 0 [], .arrayRepr 1 .null none [.referenceRepr 2] [1] none,
            .structureRepr 0 []]⟩) := rfl
    rw [hgraph] at hrun
    obtain ⟨rfl, rfl⟩ := Prod.mk.inj (some.inj hrun)
    have hsplit := (hidentity 0 (.referenceRepr 0) 0 (.referenceRepr 2)
      (.argument mem_cons_self)
      (.entry (.argument (mem_cons_of_mem _ mem_cons_self)) rfl rfl mem_cons_self)).mpr rfl
    obtain ⟨index, h, h'⟩ := hsplit
    cases h
    cases h'

end VSharp.TestGenerator
