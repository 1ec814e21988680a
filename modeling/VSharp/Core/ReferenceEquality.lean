import VSharp.Core.AddressComparisons
import VSharp.Core.IntegralTerms

/-!
# Core — ReferenceEquality

The comparison of references of `VSharp.SILI.Core/Pointers.fs`, against the locations that the
references denote.

- `Location`: the place of a reference under a valuation, with the addresses and the indices that
  its terms have there;
- `Confused`: two elements of an array at different indices, or two boxes at one address which
  different terms stand for;
- `simplifyReferenceEquality_iff`: the comparison tells whether the places are the same, except for
  references that are confused.
-/

namespace VSharp
open Term Propositional Library List

/-! ### The code -/

namespace Term

/-- The pattern `DetachedPtr`. -/
def detachedPtr? : Term → Option Term
  | .ptr (.heapLocation address _) _ offset => if address = zeroAddress then some offset else none
  | _ => none

end Term

def isNative (t : Ty) : Bool := t = .intPtr || t = .uintPtr

/-- `convert` to `int`. -/
def convertToInt (number : Obj) (t : Ty) : Except Failure ℤ :=
  match number, t.integral? with
  | .bool b, _ => .ok b.toNat
  | .int n, some s => .ok (castNumber s .int32 n)
  | _, _ => .error .invalidCast

namespace Pointers

section
variable [HashOrder FieldId] (n : ℕ)

def compareAddress : Address Term → Address Term → Run Term
  | .primitiveStackLocation k₁, .primitiveStackLocation k₂ => pure (makeBool (k₁ = k₂))
  | .classField addr₁ f₁, .classField addr₂ f₂ =>
    if f₁ = f₂ then simplifyEqual n addr₁ addr₂ else pure falseTerm
  | .structField addr₁ f₁, .structField addr₂ f₂ =>
    if f₁ = f₂ then compareAddress addr₁ addr₂ else pure falseTerm
  | .arrayIndex addr₁ idcs₁ t₁, .arrayIndex addr₂ idcs₂ t₂ =>
    if t₁ = t₂ ∧ idcs₁.length = idcs₂.length then simplifyEqual n addr₁ addr₂
    else pure falseTerm
  | .stackBufferIndex k₁ i₁, .stackBufferIndex k₂ i₂ => do
      .lift (simplifyAnd (makeBool (k₁ = k₂)) (← simplifyEqual n i₁ i₂))
  | .boxedLocation addr₁ _, .boxedLocation addr₂ _ => pure (makeBool (addr₁ = addr₂))
  | .arrayLength .., .arrayLength .. | .arrayLowerBound .., .arrayLowerBound ..
  | .staticField .., .staticField .. => .fail (.internal "unreachable")
  | _, _ => pure falseTerm

def comparePointerBase : PointerBase Term → PointerBase Term → Run Term
  | .stackLocation loc₁, .stackLocation loc₂ => pure (makeBool (loc₁ = loc₂))
  | .heapLocation loc₁ _, .heapLocation loc₂ _ => simplifyEqual n loc₁ loc₂
  | .staticLocation _, .staticLocation _ => .fail (.internal "unreachable")
  | _, _ => pure falseTerm

/-- The comparison of a reference with a number. -/
def equalsNumber (number : Obj) (t : Ty) (other : Term) : Run Term := do
  let i ← .lift (convertToInt number t)
  match other with
  | .ptr (.heapLocation address _) _ shift =>
    if address = zeroAddress then simplifyEqual n shift (literal i .int32)
    else
      let addressEq ← simplifyEqual n address zeroAddress
      .lift (simplifyAnd addressEq (← simplifyEqual n shift (literal i .int32)))
  | .heapRef address _ =>
    if i = 0 then simplifyEqual n address zeroAddress else pure falseTerm
  | _ => pure falseTerm

/-- The comparison of a pointer with the reference to an object. -/
def equalsObject (addr shift term : Term) : Run Term := do
  let addressEq ← simplifyEqual n addr term
  .lift (simplifyAnd addressEq (← simplifyEqual n shift (literal 0 .int32)))

/-- The last cases of `simplifyReferenceEqualityExt`. -/
def equalsDetached (x y : Term) : Run Term := do
  match detachedPtr? y with
  | some shift =>
    if isNative (← .lift (typeOf x)) then simplifyEqual n x shift else pure falseTerm
  | none =>
    match detachedPtr? x with
    | some shift =>
      if isNative (← .lift (typeOf y)) then simplifyEqual n shift y else pure falseTerm
    | none => pure falseTerm

def simplifyReferenceEqualityExt (x y : Term) : Run Term :=
  if x = y then pure trueTerm
  else match x, y with
  | .ref address₁, .ref address₂ => compareAddress n address₁ address₂
  | .ptr address₁ _ shift₁, .ptr address₂ _ shift₂ => do
      let addressEq ← comparePointerBase n address₁ address₂
      .lift (simplifyAnd addressEq (← simplifyEqual n shift₁ shift₂))
  | .concrete number t, other | other, .concrete number t => equalsNumber n number t other
  | .ref _, .ptr .. | .ptr .., .ref _ =>
    .fail (.internal "comparison between ref and ptr is not implemented")
  | .heapRef address₁ _, .heapRef address₂ _ => simplifyEqual n address₁ address₂
  | .ptr (.heapLocation addr _) _ shift, .heapRef term _
  | .heapRef term _, .ptr (.heapLocation addr _) _ shift => equalsObject n addr shift term
  | .ref (.arrayIndex addr₂ _ _), .heapRef addr₁ _
  | .heapRef addr₁ _, .ref (.arrayIndex addr₂ _ _) =>
    pure (makeBool (addr₁ = zeroAddress ∧ addr₂ = zeroAddress))
  | x, y => equalsDetached n x y

/-- `simplifyReferenceEqualityk`, with the depth of nested calls as fuel. -/
def simplifyReferenceEquality : ℕ → Term → Term → Run Term
  | 0 => fun _ _ => .fail (.internal "out of fuel")
  | n + 1 =>
    simplifyGenericBinary (fun _ _ _ _ => .fail (.internal "unreachable"))
      (simplifyReferenceEqualityExt n) (simplifyReferenceEquality n)

end

/-! ### Locations -/

/-- What pointers count their offsets from. -/
inductive Block where
  | stack (key : StackKey)
  | heap (address : VectorTime)
  | static (typ : Ty)
deriving DecidableEq, Repr

/-- The place of a reference. -/
inductive Location where
  | slot (key : StackKey)
  | field (of : Location) (field : FieldId)
  | cell (key : StackKey) (index : BitVec 32)
  | box (address : VectorTime)
  | classField (address : VectorTime) (field : FieldId)
  | element (address : VectorTime) (indices : List (BitVec 32)) (typ : ArrayType)
  | lowerBound (address : VectorTime) (dim : BitVec 32) (typ : ArrayType)
  | length (address : VectorTime) (dim : BitVec 32) (typ : ArrayType)
  | staticField (typ : Ty) (field : FieldId)
  | object (address : VectorTime)
  | byte (block : Block) (offset : BitVec 32)
deriving DecidableEq, Repr

section
variable (ρ : AddressValuation)

/-- The index that a term has under the valuation. -/
abbrev index (x : Term) : BitVec 32 := x.value ρ.toValuation 32

/-- The place of an address. -/
def place : Address Term → Location
  | .primitiveStackLocation key => .slot key
  | .structField addr field => .field (place addr) field
  | .stackBufferIndex key i => .cell key (index ρ i)
  | .boxedLocation addr _ => .box (ρ.address addr)
  | .classField addr field => .classField (ρ.address addr) field
  | .arrayIndex addr is typ => .element (ρ.address addr) (is.map (index ρ)) typ
  | .arrayLowerBound addr dim typ => .lowerBound (ρ.address addr) (index ρ dim) typ
  | .arrayLength addr dim typ => .length (ρ.address addr) (index ρ dim) typ
  | .staticField typ field => .staticField typ field

/-- The block of a pointer. -/
def block : PointerBase Term → Block
  | .stackLocation key => .stack key
  | .heapLocation addr _ => .heap (ρ.address addr)
  | .staticLocation typ => .static typ

/-- The place of a reference that is no union. -/
def location : Term → Option Location
  | .heapRef addr _ => some (.object (ρ.address addr))
  | .ref addr => some (place ρ addr)
  | .ptr base _ offset => some (.byte (block ρ base) (index ρ offset))
  | _ => none

/-- The addresses are, in the same nested fields, elements of one array at different indices, or
boxes at one address which different terms stand for. -/
def ConfusedAddresses : Address Term → Address Term → Prop
  | .structField addr₁ f₁, .structField addr₂ f₂ => f₁ = f₂ ∧ ConfusedAddresses addr₁ addr₂
  | .arrayIndex addr₁ is₁ t₁, .arrayIndex addr₂ is₂ t₂ =>
    t₁ = t₂ ∧ is₁.length = is₂.length ∧ ρ.address addr₁ = ρ.address addr₂ ∧
      is₁.map (index ρ) ≠ is₂.map (index ρ)
  | .boxedLocation addr₁ _, .boxedLocation addr₂ _ =>
    addr₁ ≠ addr₂ ∧ ρ.address addr₁ = ρ.address addr₂
  | _, _ => False

def Confused : Term → Term → Prop
  | .ref addr₁, .ref addr₂ => ConfusedAddresses ρ addr₁ addr₂
  | _, _ => False

end

/-! ### The domain -/

/-- The addresses of references, except static fields and the lengths of arrays. -/
inductive IsAddress (valid : Valuation → Prop) : Address Term → Prop where
  | primitiveStackLocation (key : StackKey) : IsAddress valid (.primitiveStackLocation key)
  | structField {addr : Address Term} (h : IsAddress valid addr) (field : FieldId) :
      IsAddress valid (.structField addr field)
  | stackBufferIndex (key : StackKey) {i : Term} (hi : IntegralUnion valid .int32 i) :
      IsAddress valid (.stackBufferIndex key i)
  | boxedLocation {addr : Term} (h : AddressTerm addr) (typ : Ty) :
      IsAddress valid (.boxedLocation addr typ)
  | classField {addr : Term} (h : AddressTerm addr) (field : FieldId) :
      IsAddress valid (.classField addr field)
  | arrayIndex {addr : Term} {is : List Term} (h : AddressTerm addr)
      (his : ∀ i ∈ is, IntegralUnion valid .int32 i) (typ : ArrayType) :
      IsAddress valid (.arrayIndex addr is typ)

/-- The bases of pointers to the stack and to the heap. -/
inductive IsBase : PointerBase Term → Prop where
  | stackLocation (key : StackKey) : IsBase (.stackLocation key)
  | heapLocation {addr : Term} (h : AddressTerm addr) (typ : Ty) : IsBase (.heapLocation addr typ)

/-- The forms of references. -/
inductive Form where
  | heapRef | ref | ptr
deriving DecidableEq, Repr

/-- The references of a form that are no unions. -/
inductive Reference (valid : Valuation → Prop) : Form → Term → Prop where
  | heapRef {addr : Term} (h : AddressTerm addr) (t : Ty) :
      Reference valid .heapRef (.heapRef addr t)
  | ref {addr : Address Term} (h : IsAddress valid addr) : Reference valid .ref (.ref addr)
  | ptr {base : PointerBase Term} {offset : Term} (h : IsBase base)
      (hoffset : IntegralUnion valid .int32 offset) (t : Ty) :
      Reference valid .ptr (.ptr base t offset)

variable {valid : Valuation → Prop} {form : Form} {x : Term}

theorem Reference.not_concrete (h : Reference valid form x) : isConcrete x = false := by
  cases h <;> rfl

theorem Reference.union (h : Reference valid form x) : UnionOf Simple (Reference valid form) x := by
  refine .leaf ?_ h
  cases h <;> exact nofun

/-- The run returns a condition that tells whether `φ`. -/
def Says (valid : Valuation → Prop) (run : ℕ → Run Term) (φ : AddressValuation → Prop) : Prop :=
  Returns run fun c => Simple c ∧
    ∀ ρ : AddressValuation, valid ρ.toValuation → (c.holds ρ.machine = true ↔ φ ρ)

namespace Says
variable {valid : Valuation → Prop} {run run' : ℕ → Run Term} {φ ψ : AddressValuation → Prop}

theorem congr (h : Says valid run φ) (hφ : ∀ ρ, valid ρ.toValuation → (φ ρ ↔ ψ ρ)) :
    Says valid run ψ :=
  h.mono fun _ hc => ⟨hc.1, fun ρ hρ => (hc.2 ρ hρ).trans (hφ ρ hρ)⟩

theorem of_eq (h : Says valid run φ) (hrun : ∀ n, run n = run' n) : Says valid run' φ := by
  rwa [funext hrun] at h

theorem truth (b : Bool) : Says valid (fun _ => pure (makeBool b)) fun _ => b = true :=
  .of_forall fun _ => .pure ⟨.makeBool b, fun ρ _ => by rw [holds_makeBool]⟩

theorem never (hφ : ∀ ρ, valid ρ.toValuation → ¬ φ ρ) :
    Says valid (fun _ => pure falseTerm) φ :=
  (truth false).congr fun ρ hρ => iff_of_false Bool.false_ne_true (hφ ρ hρ)

theorem always (hφ : ∀ ρ, valid ρ.toValuation → φ ρ) : Says valid (fun _ => pure trueTerm) φ :=
  (truth true).congr fun ρ hρ => iff_of_true rfl (hφ ρ hρ)

theorem and (h : Says valid run φ) (h' : Says valid run' ψ) :
    Says valid (fun n => do
      let a ← run n
      .lift (simplifyAnd a (← run' n))) fun ρ => φ ρ ∧ ψ ρ := by
  filter_upwards [h, h'] with n hn hn'
  refine hn.bind fun a _ ha => hn'.bind fun b _ hb => ?_
  obtain ⟨r, hr, hsimple, hholds⟩ := connected_simple.and ha.1 hb.1
  refine .lift hr ⟨hsimple, fun ρ hρ => ?_⟩
  rw [hholds, Bool.and_eq_true, ha.2 ρ hρ, hb.2 ρ hρ]

end Says

section
variable [HashOrder FieldId] {valid : Valuation → Prop}
variable {x y a b : Term} {f g : FieldId}

theorem says_address (hx : AddressTerm x) (hy : AddressTerm y) :
    Says valid (simplifyEqual · x y) fun ρ => ρ.address x = ρ.address y := by
  have h := simplifyComparison_address .equal hx hy
  rw [show AddressComparison.equal.resultIfSame = true by decide] at h
  refine h.mono fun c hc => ⟨hc.1, fun ρ _ => ?_⟩
  rw [hc.2 ρ]
  exact decide_eq_true_iff

theorem says_index (hx : IntegralUnion valid .int32 x) (hy : IntegralUnion valid .int32 y) :
    Says valid (simplifyEqual · x y) fun ρ => index ρ x = index ρ y := by
  refine (comparison_spec (t := .int32) (c := .equal) (by decide) (by decide) hx hy (.inl rfl)).mono
    fun c hc => ⟨hc.1, fun ρ hρ => ?_⟩
  rw [hc.2 ρ.toValuation hρ]
  exact decide_eq_true_iff

section

omit [HashOrder FieldId]

/-- Addresses of different kinds. -/
theorem says_kinds {a b : Address Term} (hplace : ∀ ρ, place ρ a ≠ place ρ b)
    (hconfused : ∀ ρ, ¬ ConfusedAddresses ρ a b) :
    Says valid (fun _ => pure falseTerm) fun ρ =>
      place ρ a = place ρ b ↔ ¬ ConfusedAddresses ρ a b :=
  .never fun ρ _ h => hplace ρ (h.mpr (hconfused ρ))

/-- Where nothing is confused the places are left to be compared. -/
theorem same_iff {φ same confused : Prop} (h : ¬ confused) (hφ : φ ↔ same) :
    φ ↔ (same ↔ ¬ confused) :=
  hφ.trans (iff_true_right h).symm

theorem place_field (ρ : AddressValuation) {a b : Address Term} :
    place ρ (.structField a f) = place ρ (.structField b g) ↔ place ρ a = place ρ b ∧ f = g :=
  (Location.field.injEq _ _ _ _).to_iff

theorem place_classField (ρ : AddressValuation) :
    place ρ (.classField a f) = place ρ (.classField b g) ↔ ρ.address a = ρ.address b ∧ f = g :=
  (Location.classField.injEq _ _ _ _).to_iff

theorem place_element (ρ : AddressValuation) {is js : List Term} {t u : ArrayType} :
    place ρ (.arrayIndex a is t) = place ρ (.arrayIndex b js u) ↔
      ρ.address a = ρ.address b ∧ is.map (index ρ) = js.map (index ρ) ∧ t = u :=
  (Location.element.injEq _ _ _ _ _ _).to_iff

end

theorem says_field {a b : Address Term} (h : Says valid (compareAddress · a b) fun ρ =>
      place ρ a = place ρ b ↔ ¬ ConfusedAddresses ρ a b) :
    Says valid (compareAddress · (.structField a f) (.structField b g)) fun ρ =>
      place ρ (.structField a f) = place ρ (.structField b g) ↔
        ¬ ConfusedAddresses ρ (.structField a f) (.structField b g) := by
  by_cases hf : f = g
  · refine (h.of_eq fun n => (if_pos hf).symm).congr fun ρ _ => ?_
    rw [place_field, and_iff_left hf, ConfusedAddresses, and_iff_right hf]
  · refine (says_kinds (fun ρ => ?_) fun ρ => ?_).of_eq fun n => (if_neg hf).symm
    · exact fun heq => hf ((place_field ρ).mp heq).2
    · exact fun hconfused => hf hconfused.1

theorem says_classField (ha : AddressTerm a) (hb : AddressTerm b) :
    Says valid (compareAddress · (.classField a f) (.classField b g)) fun ρ =>
      place ρ (.classField a f) = place ρ (.classField b g) ↔
        ¬ ConfusedAddresses ρ (.classField a f) (.classField b g) := by
  by_cases hf : f = g
  · refine ((says_address ha hb).of_eq fun n => (if_pos hf).symm).congr fun ρ _ => ?_
    exact same_iff not_false ((place_classField ρ).trans (and_iff_left hf)).symm
  · refine (says_kinds (fun ρ => ?_) fun ρ => ?_).of_eq fun n => (if_neg hf).symm
    · exact fun heq => hf ((place_classField ρ).mp heq).2
    · exact not_false

/-- Elements of arrays of one type and rank are only compared by the addresses of the arrays. -/
theorem says_element {is js : List Term} {t u : ArrayType} (ha : AddressTerm a)
    (hb : AddressTerm b) :
    Says valid (compareAddress · (.arrayIndex a is t) (.arrayIndex b js u)) fun ρ =>
      place ρ (.arrayIndex a is t) = place ρ (.arrayIndex b js u) ↔
        ¬ ConfusedAddresses ρ (.arrayIndex a is t) (.arrayIndex b js u) := by
  by_cases htype : t = u ∧ is.length = js.length
  · refine ((says_address ha hb).of_eq fun n => (if_pos htype).symm).congr fun ρ _ => ?_
    rw [place_element, ConfusedAddresses]
    by_cases haddr : ρ.address a = ρ.address b <;> simp [haddr, htype]
  · refine (says_kinds (fun ρ heq => ?_) fun ρ h => ?_).of_eq fun n => (if_neg htype).symm
    · obtain ⟨-, hindices, ht⟩ := (place_element ρ).mp heq
      have hlength := congrArg List.length hindices
      rw [length_map, length_map] at hlength
      exact htype ⟨ht, hlength⟩
    · exact htype ⟨h.1, h.2.1⟩

/-- Boxes are compared by the terms of their addresses. -/
theorem says_box {t u : Ty} :
    Says valid (compareAddress · (.boxedLocation a t) (.boxedLocation b u)) fun ρ =>
      place ρ (.boxedLocation a t) = place ρ (.boxedLocation b u) ↔
        ¬ ConfusedAddresses ρ (.boxedLocation a t) (.boxedLocation b u) := by
  refine (Says.truth (decide (a = b))).congr fun ρ _ => ?_
  rw [decide_eq_true_iff, place, place, Location.box.injEq, ConfusedAddresses]
  by_cases hterm : a = b
  · simp [hterm]
  · simp [hterm]

/-- The comparison of addresses tells whether the places are the same, unless they are confused. -/
theorem compareAddress_tells {a b : Address Term} (ha : IsAddress valid a)
    (hb : IsAddress valid b) :
    Says valid (compareAddress · a b) fun ρ =>
      place ρ a = place ρ b ↔ ¬ ConfusedAddresses ρ a b := by
  induction ha generalizing b with
  | primitiveStackLocation k₁ =>
    cases hb with
    | primitiveStackLocation k₂ =>
      refine (Says.truth (decide (k₁ = k₂))).congr fun ρ _ => same_iff not_false ?_
      rw [decide_eq_true_iff]
      exact (Location.slot.injEq k₁ k₂).symm.to_iff
    | _ => exact says_kinds (fun ρ => nofun) fun ρ => not_false
  | structField ha f₁ ih =>
    cases hb with
    | structField hb f₂ => exact says_field (ih hb)
    | _ => exact says_kinds (fun ρ => nofun) fun ρ => not_false
  | stackBufferIndex k₁ hi₁ =>
    cases hb with
    | stackBufferIndex k₂ hi₂ =>
      have h := (Says.truth (decide (k₁ = k₂))).and (says_index hi₁ hi₂)
      refine (h.of_eq fun n => pure_bind _ _).congr fun ρ _ => same_iff not_false ?_
      rw [decide_eq_true_iff]
      exact (Location.cell.injEq _ _ _ _).symm.to_iff
    | _ => exact says_kinds (fun ρ => nofun) fun ρ => not_false
  | boxedLocation h₁ t₁ =>
    cases hb with
    | boxedLocation h₂ t₂ => exact says_box
    | _ => exact says_kinds (fun ρ => nofun) fun ρ => not_false
  | classField h₁ f₁ =>
    cases hb with
    | classField h₂ f₂ => exact says_classField h₁ h₂
    | _ => exact says_kinds (fun ρ => nofun) fun ρ => not_false
  | arrayIndex h₁ his₁ t₁ =>
    cases hb with
    | arrayIndex h₂ his₂ t₂ => exact says_element h₁ h₂
    | _ => exact says_kinds (fun ρ => nofun) fun ρ => not_false

/-- The comparison of bases tells whether the blocks are the same. -/
theorem comparePointerBase_tells {b c : PointerBase Term} (hb : IsBase b) (hc : IsBase c) :
    Says valid (comparePointerBase · b c) fun ρ => block ρ b = block ρ c := by
  cases hb with
  | stackLocation k₁ =>
    cases hc with
    | stackLocation k₂ =>
      refine (Says.truth (decide (k₁ = k₂))).congr fun ρ _ => ?_
      rw [decide_eq_true_iff]
      exact (Block.stack.injEq k₁ k₂).symm.to_iff
    | heapLocation => exact .never fun ρ _ => nofun
  | heapLocation hb t =>
    cases hc with
    | stackLocation => exact .never fun ρ _ => nofun
    | heapLocation hc u =>
      refine (says_address hb hc).congr fun ρ _ => ?_
      exact (Block.heap.injEq _ _).symm.to_iff

omit [HashOrder FieldId] in
theorem not_confusedAddresses_self (ρ : AddressValuation) (a : Address Term) :
    ¬ ConfusedAddresses ρ a a := by
  induction a with
  | structField a f ih => exact fun h => ih h.2
  | arrayIndex a is t => exact fun h => h.2.2.2 rfl
  | boxedLocation a t => exact fun h => h.1 rfl
  | _ => exact not_false

omit [HashOrder FieldId] in
theorem not_confused_self (ρ : AddressValuation) (x : Term) : ¬ Confused ρ x x := by
  cases x with
  | ref a => exact not_confusedAddresses_self ρ a
  | _ => exact not_false

/-- The comparison of references of one form that are no unions. -/
theorem simplifyReferenceEqualityExt_tells {form : Form} (hx : Reference valid form x)
    (hy : Reference valid form y) :
    Says valid (simplifyReferenceEqualityExt · x y) fun ρ =>
      location ρ x = location ρ y ↔ ¬ Confused ρ x y := by
  by_cases hsame : x = y
  · subst hsame
    refine (Says.always fun ρ _ => ?_).of_eq fun n => (if_pos rfl).symm
    exact iff_of_true rfl (not_confused_self ρ x)
  cases hx with
  | heapRef ha t =>
    cases hy with
    | heapRef hb u =>
      refine ((says_address ha hb).of_eq fun n => (if_neg hsame).symm).congr fun ρ _ =>
        same_iff not_false ?_
      rw [location, location, Option.some_inj, Location.object.injEq]
  | ref ha =>
    cases hy with
    | ref hb =>
      refine ((compareAddress_tells ha hb).of_eq fun n => (if_neg hsame).symm).congr fun ρ _ => ?_
      rw [location, location, Option.some_inj, Confused]
  | ptr ha hi t =>
    cases hy with
    | ptr hb hj u =>
      have h := (comparePointerBase_tells ha hb).and (says_index hi hj)
      refine (h.of_eq fun n => (if_neg hsame).symm).congr fun ρ _ => same_iff not_false ?_
      rw [location, location, Option.some_inj, Location.byte.injEq]

/-- The comparison tells, under every valuation, whether the references that the guards choose are
at the same place, exactly for references that are not confused. -/
theorem simplifyReferenceEquality_iff {form : Form} {x y : Term}
    (hx : UnionOf Simple (Reference valid form) x)
    (hy : UnionOf Simple (Reference valid form) y) :
    Returns (simplifyReferenceEquality · x y) fun r => Simple r ∧
      ∀ ρ : AddressValuation, valid ρ.toValuation → ∃ vx vy, Selects ρ.machine x vx ∧
        Selects ρ.machine y vy ∧
        ((r.holds ρ.machine = true ↔ location ρ vx = location ρ vy) ↔ ¬ Confused ρ vx vy) := by
  refine (simplifyGenericBinary_spec merges_simple (fun n => rfl)
    (R := fun vx vy r => ∀ ρ : AddressValuation, valid ρ.toValuation →
      (r.holds ρ.machine = true ↔ (location ρ vx = location ρ vy ↔ ¬ Confused ρ vx vy)))
    (fun vx vy hvx hvy hLx hLy => ?_) hx hy).mono fun r hr => ⟨hr.1, fun ρ hρ => ?_⟩
  · refine eventually_of_succ ?_
    filter_upwards [simplifyReferenceEqualityExt_tells hLx hLy] with n hn
    have hstep : simplifyReferenceEquality (n + 1) vx vy = simplifyReferenceEqualityExt n vx vy :=
      simplifyGenericBinary_leaf hvx hvy (.inl hLx.not_concrete)
    rwa [hstep]
  · obtain ⟨vx, vy, r', hselx, hsely, hr', heval⟩ := hr.2 ρ.machine
    refine ⟨vx, vy, hselx, hsely, ?_⟩
    have hholds : r.holds ρ.machine = r'.holds ρ.machine := by rw [holds, heval, ← holds]
    rw [hholds, hr' ρ hρ]
    tauto

end

/-! ### References of both kinds -/

/-- A union of an object at a symbolic address and one at a concrete address. -/
def objects : Term :=
  .ite [(boolConstant 0, .heapRef (.constant ⟨0, []⟩ .address) (.named 0))]
    (.heapRef (concreteHeapAddress [1]) (.named 0))

/-- The union against an object at a symbolic address. -/
theorem simplifyReferenceEquality_objects : let _ : HashOrder FieldId := ⟨fun _ => 0⟩
    let y : Term := .heapRef (.constant ⟨1, []⟩ .address) (.named 0)
    Returns (simplifyReferenceEquality · objects y) fun r => Simple r ∧
      ∀ ρ : AddressValuation, True → ∃ vx vy, Selects ρ.machine objects vx ∧
        Selects ρ.machine y vy ∧
        ((r.holds ρ.machine = true ↔ location ρ vx = location ρ vy) ↔ ¬ Confused ρ vx vy) := by
  let _ : HashOrder FieldId := ⟨fun _ => 0⟩
  have hconstant (c : Source) : Reference (fun _ => True) .heapRef (.heapRef (.constant c .address)
      (.named 0)) :=
    .heapRef (.leaf (AddressLeaf.constant c).notIte (.constant c)) _
  have hconcrete : Reference (fun _ => True) .heapRef (.heapRef (concreteHeapAddress [1])
      (.named 0)) :=
    .heapRef (.leaf (AddressLeaf.concrete [1]).notIte (.concrete [1])) _
  refine @simplifyReferenceEquality_iff _ (fun _ => True) .heapRef objects _ ?_ (hconstant _).union
  exact .ite (cons_ne_nil _ _) (forall_mem_singleton.mpr (Reduced.atom rfl).simple)
    (forall_mem_singleton.mpr (hconstant _).union) hconcrete.union

/-- An element of a vector at a concrete address. -/
def elementAt (i : ℤ) : Term :=
  .ref (.arrayIndex (concreteHeapAddress [1]) [literal i .int32] ⟨.int32, 1, true⟩)

/-- The first two elements of a vector compare equal. -/
theorem simplifyReferenceEquality_elements : let _ : HashOrder FieldId := ⟨fun _ => 0⟩
    ¬ ∀ (valid : Valuation → Prop) (form : Form) (x y : Term),
      UnionOf Simple (Reference valid form) x → UnionOf Simple (Reference valid form) y →
      Returns (simplifyReferenceEquality · x y) fun r =>
        ∀ ρ : AddressValuation, valid ρ.toValuation → ∃ vx vy, Selects ρ.machine x vx ∧
          Selects ρ.machine y vy ∧
          (r.holds ρ.machine = true ↔ location ρ vx = location ρ vy) := by
  intro _ h
  have hdomain (i : ℤ) (hi : MachineInteger.InRange Ty.int32.isUnsigned Ty.int32.width i) :
      UnionOf Simple (Reference (fun _ => True) .ref) (elementAt i) :=
    (Reference.ref (.arrayIndex (.leaf (AddressLeaf.concrete [1]).notIte (.concrete [1]))
      (forall_mem_singleton.mpr (.term (.literal (by decide) hi))) _)).union
  obtain ⟨n, hn, hge⟩ := ((h (fun _ => True) .ref (elementAt 0) (elementAt 1)
    (hdomain 0 (by decide)) (hdomain 1 (by decide))).and (Filter.eventually_ge_atTop 3)).exists
  obtain ⟨k, rfl⟩ : ∃ k, n = k + 3 := ⟨n - 3, by omega⟩
  obtain ⟨r, d, hrun, hr⟩ := hn
  have htrue : simplifyReferenceEquality (k + 3) (elementAt 0) (elementAt 1) =
      .ok (trueTerm, []) := rfl
  obtain ⟨rfl, -⟩ := Prod.mk.inj (Except.ok.inj (htrue.symm.trans hrun))
  let ρ := AddressValuation.ofTimes fun _ => []
  obtain ⟨vx, vy, hx, hy, hiff⟩ := hr ρ trivial
  cases hx
  cases hy
  have hplace := Option.some_inj.mp (hiff.mp (holds_makeBool ρ.machine true))
  obtain ⟨-, hindices, -⟩ := (place_element ρ).mp hplace
  have hindex (i : ℤ) : index ρ (literal i .int32) = BitVec.ofInt 32 i :=
    value_literal i .int32 ρ.toValuation
  rw [map_singleton, map_singleton, hindex, hindex] at hindices
  exact absurd hindices (by decide)

end Pointers

end VSharp
