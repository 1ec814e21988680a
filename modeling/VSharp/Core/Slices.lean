import Mathlib.Algebra.Group.Int.Defs
import Mathlib.Algebra.Group.Nat.Defs
import Mathlib.Data.List.Pairwise
import VSharp.Library.Bytes
import VSharp.Utils.TypeUtils

/-!
# Core — Slices

Pieces of concrete primitive values and their combination into a value of another type.

- `PrimitiveObj` is a boxed primitive value, kept as the bytes `BitConverter` gives for it;
- `addTerm` makes its term, which is one that is alive if that `Equals` it;
- `createSlice` narrows a value by a list of cuts, `combine` puts slices together;
- `combine_eq` reads `combine` as a sequence of copies into an array of zeros.
-/

namespace VSharp
variable {terms : List SliceTerm}

open Library

abbrev Byte := BitVec 8

/-- The result of an `int` operation, which wraps around. -/
def int32 (x : Int) : Int := x.bmod (2 ^ 32)

theorem int32_eq {x : Int} (h : -2 ^ 31 ≤ x ∧ x < 2 ^ 31) : int32 x = x :=
  Int.bmod_eq_of_le (by omega) (by omega)

/-- `BitConverter.ToBoolean` followed by `GetBytes`. -/
def booleanByte (b : Byte) : Byte := if b = 0 then 0 else 1

/-- The bytes of the value that `BitConverter` reads from `bytes`.  A `bool` keeps only whether its
byte is zero, every other type keeps its bytes. -/
def reread : PrimitiveType → List Byte → List Byte
  | .bool, bytes => bytes.map booleanByte
  | _, bytes => bytes

@[simp] theorem length_reread (t : PrimitiveType) (bytes : List Byte) :
    (reread t bytes).length = bytes.length := by
  cases t <;> simp [reread]

@[simp] theorem reread_reread (t : PrimitiveType) (bytes : List Byte) :
    reread t (reread t bytes) = reread t bytes := by
  cases t with
  | bool =>
    simp only [reread, List.map_map]
    congr 1
    funext b
    by_cases hb : b = 0 <;> simp [booleanByte, hb]
  | _ => rfl

/-- A boxed value of a primitive type. -/
@[ext] structure PrimitiveObj where
  typ : PrimitiveType
  bytes : List Byte
  length_bytes : bytes.length = typ.internalSizeOf
  reread_bytes : reread typ bytes = bytes
deriving DecidableEq

theorem PrimitiveObj.bytes_ne_nil (o : PrimitiveObj) : o.bytes ≠ [] := by
  intro h
  have hlen := o.length_bytes
  rw [h, List.length_nil] at hlen
  exact Nat.ne_of_lt o.typ.internalSizeOf_pos hlen

/-- `bytesToObj`; it is only given arrays of the size of the type. -/
def bytesToObj (bytes : List Byte) (t : PrimitiveType) : Option PrimitiveObj :=
  if h : bytes.length = t.internalSizeOf then
    some ⟨t, reread t bytes, by rw [length_reread, h], reread_reread t bytes⟩
  else none

def makeDefaultValue (t : PrimitiveType) : PrimitiveObj where
  typ := t
  bytes := List.replicate t.internalSizeOf 0
  length_bytes := List.length_replicate
  reread_bytes := by cases t <;> rfl

/-! ### Terms of boxed values -/

/-- The bits of the infinity of a floating-point type. -/
def PrimitiveType.infinityBits? : PrimitiveType → Option Nat
  | .single => some 0x7F800000
  | .double => some 0x7FF0000000000000
  | _ => none

namespace PrimitiveObj

/-- The bits of a floating-point value but its sign, the highest one. -/
def magnitude (o : PrimitiveObj) : Nat :=
  o.bytes.foldr (fun b n => b.toNat + 2 ^ 8 * n) 0 % 2 ^ (8 * o.bytes.length - 1)

def isZero (o : PrimitiveObj) : Bool := o.typ.infinityBits?.any fun _ => o.magnitude = 0

def isNaN (o : PrimitiveObj) : Bool := o.typ.infinityBits?.any fun infinity => infinity < o.magnitude

/-- `Object.Equals`: the two zeros of a floating-point type are equal, and so are all its NaNs. -/
def Equals (o o' : PrimitiveObj) : Bool :=
  o = o' || o.typ = o'.typ && (o.isZero && o'.isZero || o.isNaN && o'.isNaN)

end PrimitiveObj

/-- `HashMap.addTerm` of a `Concrete` node: the term of an equal value among those that are alive, if
there is one. -/
def addTerm (live : List PrimitiveObj) (o : PrimitiveObj) : PrimitiveObj :=
  (live.find? fun o' => o'.Equals o).getD o

section
variable {live : List PrimitiveObj} {o : PrimitiveObj}

theorem equals_addTerm : (addTerm live o).Equals o := by
  unfold addTerm
  cases hfind : live.find? fun o' => o'.Equals o with
  | none => simp [PrimitiveObj.Equals]
  | some o' =>
    have hequals := List.find?_some hfind
    exact hequals

theorem addTerm_typ : (addTerm live o).typ = o.typ := by
  have hequals : (addTerm live o).Equals o := equals_addTerm
  simp only [PrimitiveObj.Equals, Bool.or_eq_true, Bool.and_eq_true, decide_eq_true_eq] at hequals
  rcases hequals with heq | ⟨htyp, -⟩
  · rw [heq]
  · exact htyp

/-- Only a zero and a NaN can become another value. -/
theorem addTerm_eq (hzero : o.isZero = false) (hnan : o.isNaN = false) : addTerm live o = o := by
  simpa [PrimitiveObj.Equals, hzero, hnan] using (equals_addTerm : (addTerm live o).Equals o)

end

/-! ### Slices -/

/-- The bounds of a slice and where it goes. -/
structure Cut where
  startByte : Int
  endByte : Int
  position : Int
  isWrite : Bool
deriving DecidableEq, Repr

/-- A term made of concrete data: a value, or cuts of one.  A slice without cuts is empty. -/
inductive SliceTerm where
  | concrete (o : PrimitiveObj)
  | slice (o : PrimitiveObj) (cuts : List Cut)
deriving DecidableEq

/-- The variables of `createSlice`. -/
structure Narrowing where
  left : Int
  right : Int
  position : Int
  resultIsWrite : Bool
  isValid : Bool
deriving DecidableEq, Repr

namespace Narrowing

def narrowed (termSize : Int) (s : Narrowing) : Prop :=
  s.left > 0 ∨ s.right < termSize ∨ s.position ≠ 0

instance {n : Int} {s : Narrowing} : Decidable (s.narrowed n) :=
  inferInstanceAs (Decidable (_ ∨ _ ∨ _))

def narrow (c : Cut) (s : Narrowing) : Narrowing :=
  if s.isValid then
    let sliceLeft := max (int32 (c.startByte - s.position)) 0
    let left := int32 (sliceLeft + s.left)
    let sliceRight := min (int32 (c.endByte - s.position)) s.right
    let sliceSize := int32 (sliceRight - sliceLeft)
    let right := min (int32 (left + sliceSize)) s.right
    let position :=
      if c.isWrite then max c.position s.position else max (int32 (s.position + c.position)) 0
    ⟨left, right, position, c.isWrite, int32 (right - left) > 0⟩
  else s

/-- The cuts are applied from the last one on. -/
def ofCuts (termSize : Int) (cuts : List Cut) : Narrowing :=
  cuts.foldr narrow ⟨0, termSize, 0, false, true⟩

end Narrowing

/-- `createSlice` of a concrete term by concrete cuts. -/
def createSlice (term : PrimitiveObj) (cuts : List Cut) : SliceTerm :=
  let termSize : Int := term.typ.internalSizeOf
  let s := Narrowing.ofCuts termSize cuts
  if s.isValid = false then .slice term []
  else if s.narrowed termSize then
    .slice term [⟨s.left, s.right, s.position, s.resultIsWrite⟩]
  else .concrete term

/-! ### Combination -/

/-- The variables of `reinterpretConcretes`; `solidPart` is the last whole value. -/
structure Reinterpretation where
  bytes : List Byte
  solidPart : List Byte
deriving DecidableEq

namespace Reinterpretation

/-- The conditions asserted of a cut, and those of `Array.blit`. -/
def CutFits (sliceLength combineLength : Nat) (c : Cut) : Prop :=
  0 ≤ c.startByte ∧ c.startByte < sliceLength ∧ 0 < c.endByte ∧ c.endByte ≤ sliceLength ∧
    0 ≤ c.position ∧ c.position < combineLength ∧ 0 < c.endByte - c.startByte ∧
    c.position + (c.endByte - c.startByte) ≤ combineLength

instance {n m : Nat} {c : Cut} : Decidable (CutFits n m c) :=
  inferInstanceAs (Decidable (_ ∧ _ ∧ _ ∧ _ ∧ _ ∧ _ ∧ _ ∧ _))

/-- One turn of the loop; `none` where an assertion or a copy fails. -/
def step (s : Reinterpretation) : SliceTerm → Option Reinterpretation
  | .slice o [c] =>
    if CutFits o.bytes.length s.bytes.length c then
      let count := c.endByte - c.startByte
      some { s with
        bytes := blit o.bytes c.startByte.toNat s.bytes c.position.toNat count.toNat }
    else none
  | .slice _ _ => none
  | .concrete o =>
    if s.solidPart = o.bytes then some s
    else
      let intersection := min o.bytes.length s.solidPart.length
      if (s.solidPart = [] ∨ o.bytes.take intersection = s.solidPart.take intersection) ∧
          o.bytes.length ≤ s.bytes.length then
        some ⟨blit o.bytes 0 s.bytes 0 o.bytes.length, o.bytes⟩
      else none

end Reinterpretation

def reinterpretConcretes (sliceTerms : List SliceTerm) (t : PrimitiveType) : Option PrimitiveObj :=
  (sliceTerms.foldlM Reinterpretation.step ⟨List.replicate t.internalSizeOf 0, []⟩).bind
    fun s => bytesToObj s.bytes t

def allSlicesAreConcrete (slices : List SliceTerm) : Bool :=
  slices.all fun
    | .slice _ [_] => true
    | .slice _ _ => false
    | .concrete _ => true

def isEmptySlice : SliceTerm → Bool
  | .slice _ cuts => cuts.isEmpty
  | .concrete _ => false

/-- `combine`; `none` stands for a failure, and for an expression that is not computed. -/
def combine (terms : List SliceTerm) (t : PrimitiveType) : Option PrimitiveObj :=
  let terms := (terms.filter fun s => !isEmptySlice s).eraseDups
  if terms = [] then some (makeDefaultValue t)
  else if allSlicesAreConcrete terms then reinterpretConcretes terms t
  else none

/-! ### Combination as a sequence of copies -/

namespace SliceTerm

/-- The copy a slice stands for. -/
def lay (bytes : List Byte) : SliceTerm → List Byte
  | .slice o [c] =>
    blit o.bytes c.startByte.toNat bytes c.position.toNat (c.endByte - c.startByte).toNat
  | .slice _ _ => bytes
  | .concrete o => blit o.bytes 0 bytes 0 o.bytes.length

/-- The byte that the copy puts at `i`. -/
def byteAt? (i : Nat) : SliceTerm → Option Byte
  | .slice o [c] =>
    if c.position ≤ i ∧ i < c.position + (c.endByte - c.startByte) then
      o.bytes[(c.startByte + (i - c.position)).toNat]?
    else none
  | .slice _ _ => none
  | .concrete o => o.bytes[i]?

/-- A slice that can be copied into `n` bytes. -/
inductive Fits (n : Nat) : SliceTerm → Prop where
  | empty (o : PrimitiveObj) : Fits n (.slice o [])
  | part {o : PrimitiveObj} {c : Cut} (h : Reinterpretation.CutFits o.bytes.length n c) :
      Fits n (.slice o [c])
  | whole {o : PrimitiveObj} (h : o.bytes.length ≤ n) : Fits n (.concrete o)

/-- No place is copied to by both. -/
def Disjoint (s s' : SliceTerm) : Prop := ∀ i, s.byteAt? i = none ∨ s'.byteAt? i = none

/-- A place that is copied to by both gets the same byte. -/
def Agrees (s s' : SliceTerm) : Prop :=
  ∀ i b b', s.byteAt? i = some b → s'.byteAt? i = some b' → b = b'

def AllAgree (terms : List SliceTerm) : Prop := ∀ s ∈ terms, ∀ s' ∈ terms, s.Agrees s'

theorem allAgree_of_disjoint (h : terms.Pairwise Disjoint) : AllAgree terms := by
  have hsymm : Std.Symm Agrees := ⟨fun s s' h i b b' hb hb' => (h i b' b hb' hb).symm⟩
  have hself : ∀ s ∈ terms, s.Agrees s := fun s _ i b b' hb hb' =>
    Option.some.inj (hb.symm.trans hb')
  have hpairwise : terms.Pairwise Agrees := h.imp fun {s s'} hd i b b' hb hb' => by
    rcases hd i with hnone | hnone
    · rw [hb] at hnone
      cases hnone
    · rw [hb'] at hnone
      cases hnone
  exact fun s hs s' hs' => List.Pairwise.forall_of_forall hself hpairwise hs hs'

variable {s : SliceTerm} {n i : Nat} {bytes : List Byte}

@[simp] theorem length_lay : (s.lay bytes).length = bytes.length := by
  cases s with
  | concrete o => simp [lay]
  | slice o cuts =>
    match cuts with
    | [] => rfl
    | [c] => simp [lay]
    | _ :: _ :: _ => rfl

theorem lay_of_isEmptySlice (h : isEmptySlice s = true) : s.lay bytes = bytes := by
  cases s with
  | concrete o => simp [isEmptySlice] at h
  | slice o cuts =>
    rw [List.isEmpty_iff.mp h]
    rfl

theorem getElem?_lay (hs : s.Fits n) (hi : i < bytes.length) :
    (s.lay bytes)[i]? = (s.byteAt? i).or bytes[i]? := by
  cases hs with
  | empty o => simp [lay, byteAt?]
  | @part o c h =>
    unfold Reinterpretation.CutFits at h
    simp only [lay, byteAt?]
    split
    case isTrue hc =>
      have hindex : c.startByte.toNat + (i - c.position.toNat) =
          (c.startByte + (i - c.position)).toNat := by omega
      have hsrc : (c.startByte + (i - c.position)).toNat < o.bytes.length := by omega
      rw [getElem?_blit_of_mem hi (by omega) (by omega), hindex, List.getElem?_eq_getElem hsrc]
      rfl
    case isFalse hc => rw [getElem?_blit_of_notMem (by omega), Option.none_or]
  | @whole o h =>
    simp only [lay, byteAt?]
    rcases Nat.lt_or_ge i o.bytes.length with hlt | hge
    · rw [getElem?_blit_of_mem hi (by omega) (by omega), Option.or_of_isSome (by simpa)]
      congr 1
      omega
    · rw [getElem?_blit_of_notMem (by omega), List.getElem?_eq_none hge, Option.none_or]

end SliceTerm

open SliceTerm

/-- All copies, one after another. -/
def layAll (terms : List SliceTerm) (bytes : List Byte) : List Byte :=
  terms.foldl (fun b s => s.lay b) bytes

section
variable {terms : List SliceTerm} {bytes : List Byte} {n i : Nat} {s : SliceTerm}

@[simp] theorem layAll_cons : layAll (s :: terms) bytes = layAll terms (s.lay bytes) := rfl

theorem layAll_filter :
    layAll (terms.filter fun s => !isEmptySlice s) bytes = layAll terms bytes := by
  induction terms generalizing bytes with
  | nil => rfl
  | cons s terms ih =>
    by_cases hs : isEmptySlice s
    · rw [List.filter_cons_of_neg (by simp [hs]), ih, layAll_cons, lay_of_isEmptySlice hs]
    · rw [List.filter_cons_of_pos (by simp [hs]), layAll_cons, layAll_cons, ih]

@[simp] theorem length_layAll : (layAll terms bytes).length = bytes.length := by
  induction terms generalizing bytes with
  | nil => rfl
  | cons s terms ih => rw [layAll_cons, ih, length_lay]

/-- The byte of a place is that of any slice copied there. -/
theorem findSome?_eq_some (hagree : AllAgree terms) (hs : s ∈ terms) {b : Byte}
    (hb : s.byteAt? i = some b) : terms.findSome? (byteAt? i) = some b := by
  cases hfind : terms.findSome? (byteAt? i) with
  | none =>
    rw [List.findSome?_eq_none_iff.mp hfind s hs] at hb
    cases hb
  | some b' =>
    obtain ⟨s', hs', hb'⟩ := List.exists_of_findSome?_eq_some hfind
    rw [hagree s hs s' hs' i b b' hb hb']

theorem findSome?_congr_mem {terms' : List SliceTerm} (hagree : AllAgree terms)
    (hmem : ∀ s, s ∈ terms' ↔ s ∈ terms) :
    terms'.findSome? (byteAt? i) = terms.findSome? (byteAt? i) := by
  cases hfind : terms'.findSome? (byteAt? i) with
  | none =>
    rw [List.findSome?_eq_none_iff] at hfind
    exact (List.findSome?_eq_none_iff.mpr fun s hs => hfind s ((hmem s).mpr hs)).symm
  | some b =>
    obtain ⟨s, hs, hb⟩ := List.exists_of_findSome?_eq_some hfind
    exact (findSome?_eq_some hagree ((hmem s).mp hs) hb).symm

/-- Copies that agree: a place holds the byte of the slices that are copied there. -/
theorem getElem?_layAll (hfits : ∀ s ∈ terms, s.Fits n) (hagree : AllAgree terms)
    (hi : i < bytes.length) :
    (layAll terms bytes)[i]? = (terms.findSome? (byteAt? i)).or bytes[i]? := by
  induction terms generalizing bytes with
  | nil => rfl
  | cons s terms ih =>
    rw [List.forall_mem_cons] at hfits
    have hrest : AllAgree terms := fun x hx y hy =>
      hagree x (List.mem_cons_of_mem _ hx) y (List.mem_cons_of_mem _ hy)
    rw [layAll_cons, ih hfits.2 hrest (by simpa), getElem?_lay hfits.1 hi, List.findSome?_cons]
    cases hs : s.byteAt? i with
    | none => rw [Option.none_or]
    | some b =>
      cases hfind : terms.findSome? (byteAt? i) with
      | none => rfl
      | some b' =>
        obtain ⟨s', hs', hb'⟩ := List.exists_of_findSome?_eq_some hfind
        rw [hagree s List.mem_cons_self s' (List.mem_cons_of_mem _ hs') i b b' hs hb']
        rfl

end

namespace Reinterpretation
variable {r : Reinterpretation} {o : PrimitiveObj} {c : Cut} {s : SliceTerm}

theorem step_slice (h : CutFits o.bytes.length r.bytes.length c) :
    r.step (.slice o [c]) = some { r with bytes := (SliceTerm.slice o [c]).lay r.bytes } := by
  rw [step, if_pos h]
  rfl

/-- The last whole value is still there. -/
def Solid (terms : List SliceTerm) (r : Reinterpretation) : Prop :=
  r.solidPart = [] ∨ ∃ o, SliceTerm.concrete o ∈ terms ∧ r.solidPart = o.bytes ∧
    ∀ i, i < o.bytes.length → r.bytes[i]? = o.bytes[i]?

section
variable (h : r.Solid terms) (hagree : AllAgree terms) (hs : s ∈ terms)
  (hfits : s.Fits r.bytes.length)

include h hagree hs hfits

/-- Copies that agree leave the last whole value where it is. -/
theorem Solid.lay : Solid terms { r with bytes := s.lay r.bytes } := by
  refine h.imp id fun ⟨o, ho, hsolid, hbytes⟩ => ⟨o, ho, hsolid, fun i hi => ?_⟩
  have hin : i < r.bytes.length := by
    by_contra hout
    have hbyte := hbytes i hi
    rw [List.getElem?_eq_none (by omega), List.getElem?_eq_getElem hi] at hbyte
    cases hbyte
  change (s.lay r.bytes)[i]? = _
  rw [getElem?_lay hfits hin, hbytes i hi]
  cases hb : s.byteAt? i with
  | none => rfl
  | some b =>
    have hbyte : (SliceTerm.concrete o).byteAt? i = some o.bytes[i] := List.getElem?_eq_getElem hi
    rw [hagree s hs _ ho i b _ hb hbyte, List.getElem?_eq_getElem hi]
    rfl

/-- A turn of the loop copies its slice; a whole value equal to the last one is there already. -/
theorem step_eq_lay (hne : isEmptySlice s = false) :
    ∃ r', r.step s = some r' ∧ r'.bytes = s.lay r.bytes ∧ r'.Solid terms := by
  have hlay := h.lay hagree hs hfits
  cases hfits with
  | empty o => simp [isEmptySlice] at hne
  | part hfit => exact ⟨_, step_slice hfit, rfl, hlay⟩
  | @whole o hle =>
    have hbyte : ∀ i, i < o.bytes.length →
        ((SliceTerm.concrete o).lay r.bytes)[i]? = o.bytes[i]? := fun i hi => by
      rw [getElem?_lay (.whole hle) (by omega), byteAt?, List.getElem?_eq_getElem hi]
      rfl
    by_cases hsame : r.solidPart = o.bytes
    · refine ⟨r, by rw [step, if_pos hsame], ?_, h⟩
      obtain hnil | ⟨o', -, hsolid, hbytes⟩ := h
      · exact absurd (hsame.symm.trans hnil) o.bytes_ne_nil
      · apply List.ext_getElem?
        intro i
        rw [hsolid] at hsame
        by_cases hi : i < o.bytes.length
        · rw [hbyte i hi, hbytes i (hsame ▸ hi), hsame]
        · exact (getElem?_blit_of_notMem (by omega)).symm
    · have htake : r.solidPart = [] ∨ o.bytes.take (min o.bytes.length r.solidPart.length) =
          r.solidPart.take (min o.bytes.length r.solidPart.length) := by
        refine h.imp id fun ⟨o', ho', hsolid, _⟩ => List.ext_getElem? fun i => ?_
        rw [hsolid]
        by_cases hi : i < min o.bytes.length o'.bytes.length
        · rw [List.getElem?_take_of_lt hi, List.getElem?_take_of_lt hi]
          have hi₁ : i < o.bytes.length := by omega
          have hi₂ : i < o'.bytes.length := by omega
          rw [List.getElem?_eq_getElem hi₁, List.getElem?_eq_getElem hi₂,
            hagree _ hs _ ho' i _ _ (List.getElem?_eq_getElem hi₁) (List.getElem?_eq_getElem hi₂)]
        · simp only [List.getElem?_take, if_neg hi]
      exact ⟨⟨(SliceTerm.concrete o).lay r.bytes, o.bytes⟩,
        by rw [step, if_neg hsame, if_pos ⟨htake, hle⟩]; rfl, rfl, .inr ⟨o, hs, rfl, hbyte⟩⟩

end

end Reinterpretation

/-- The loop of `reinterpretConcretes` copies every slice in turn, if the slices agree. -/
theorem foldlM_step {l : List SliceTerm} {r : Reinterpretation} (hagree : AllAgree terms)
    (hl : ∀ s ∈ l, s ∈ terms) (hfits : ∀ s ∈ l, s.Fits r.bytes.length)
    (hne : ∀ s ∈ l, isEmptySlice s = false) (h : r.Solid terms) :
    ∃ r', l.foldlM Reinterpretation.step r = some r' ∧ r'.bytes = layAll l r.bytes := by
  induction l generalizing r with
  | nil => exact ⟨r, rfl, rfl⟩
  | cons s l ih =>
    rw [List.forall_mem_cons] at hl hfits hne
    obtain ⟨r₁, hstep, hbytes, hsolid⟩ := Reinterpretation.step_eq_lay h hagree hl.1 hfits.1 hne.1
    obtain ⟨r₂, hrun, hlay⟩ := ih hl.2 (by simpa [hbytes] using hfits.2) hne.2 hsolid
    refine ⟨r₂, ?_, by rw [hlay, layAll_cons, hbytes]⟩
    rw [List.foldlM_cons, hstep]
    exact hrun

theorem allSlicesAreConcrete_of_fits {n : Nat} (hfits : ∀ s ∈ terms, s.Fits n)
    (hne : ∀ s ∈ terms, isEmptySlice s = false) :
    allSlicesAreConcrete terms = true := by
  rw [allSlicesAreConcrete, List.all_eq_true]
  intro s hs
  cases hfits s hs with
  | empty o => simpa [isEmptySlice] using hne _ hs
  | part => rfl
  | whole => rfl

/-- `combine` copies its slices one after another into an array of zeros, if they agree. -/
theorem combine_eq {t : PrimitiveType} (hfits : ∀ s ∈ terms, s.Fits t.internalSizeOf)
    (hagree : AllAgree terms) :
    combine terms t = bytesToObj (layAll terms (List.replicate t.internalSizeOf 0)) t := by
  have hmem : ∀ s, s ∈ (terms.filter fun s => !isEmptySlice s).eraseDups ↔
      s ∈ terms.filter fun s => !isEmptySlice s := fun s => List.mem_eraseDups
  have hsub : ∀ s ∈ (terms.filter fun s => !isEmptySlice s).eraseDups,
      s ∈ terms ∧ isEmptySlice s = false := fun s hs => by
    have hs := (hmem s).mp hs
    simpa using hs
  have hagree' : AllAgree (terms.filter fun s => !isEmptySlice s) := fun s hs s' hs' =>
    hagree s (List.mem_filter.mp hs).1 s' (List.mem_filter.mp hs').1
  unfold combine
  generalize hdistinct : (terms.filter fun s => !isEmptySlice s).eraseDups = distinct at hmem hsub
  have hlay : layAll terms (List.replicate t.internalSizeOf 0) =
      layAll distinct (List.replicate t.internalSizeOf 0) := by
    rw [← layAll_filter]
    apply List.ext_getElem?
    intro i
    rcases Nat.lt_or_ge i t.internalSizeOf with hi | hi
    · rw [getElem?_layAll (fun s hs => hfits s (List.mem_filter.mp hs).1) hagree' (by simpa),
        getElem?_layAll (fun s hs => hfits s (hsub s hs).1)
          (fun s hs s' hs' => hagree s (hsub s hs).1 s' (hsub s' hs').1) (by simpa),
        findSome?_congr_mem hagree' hmem]
    · rw [List.getElem?_eq_none (by simpa using hi), List.getElem?_eq_none (by simpa using hi)]
  rw [hlay]
  dsimp only
  split
  case isTrue hnil =>
    rw [hnil, layAll, List.foldl_nil, bytesToObj, dif_pos List.length_replicate]
    exact congrArg some (PrimitiveObj.ext rfl (makeDefaultValue t).reread_bytes.symm)
  case isFalse =>
    rw [if_pos (allSlicesAreConcrete_of_fits (fun s hs => hfits s (hsub s hs).1)
      fun s hs => (hsub s hs).2)]
    obtain ⟨r, hr, hbytes⟩ := foldlM_step (r := ⟨List.replicate t.internalSizeOf 0, []⟩) hagree
      (fun s hs => (hsub s hs).1) (by simpa using fun s hs => hfits s (hsub s hs).1)
      (fun s hs => (hsub s hs).2) (.inl rfl)
    rw [reinterpretConcretes, hr, Option.bind_some, hbytes]

/-! ### Bounds -/

/-- The bounds that `createSlice` computes, in integers without limit. -/
structure Bounds where
  left : Int
  right : Int
  position : Int

/-- An integer of a signed type whose values are `-lim .. lim - 1`. -/
def Within (lim z : Int) : Prop := -lim ≤ z ∧ z < lim

instance {lim z : Int} : Decidable (Within lim z) := inferInstanceAs (Decidable (_ ∧ _))

namespace Bounds

def narrow (c : Cut) (b : Bounds) : Bounds :=
  let sliceLeft := max (c.startByte - b.position) 0
  let sliceRight := min (c.endByte - b.position) b.right
  { left := b.left + sliceLeft
    right := min (b.left + sliceLeft + (sliceRight - sliceLeft)) b.right
    position := if c.isWrite then max c.position b.position else max (b.position + c.position) 0 }

def ofCuts (n : Int) (cuts : List Cut) : Bounds := cuts.foldr narrow ⟨0, n, 0⟩

/-- Where a cut puts what it leaves; the result is at least zero and, for a write, at least the
position before. -/
def moved (b : Bounds) (c : Cut) : Int := if c.isWrite then c.position else b.position + c.position

/-- What `createSlice` compares at a cut fits `int`, and the position does if anything is left. -/
def StepFits (b : Bounds) (c : Cut) : Prop :=
  Within (2 ^ 31) (c.startByte - b.position) ∧ Within (2 ^ 31) (c.endByte - b.position) ∧
    Within (2 ^ 31) ((b.narrow c).right - (b.narrow c).left) ∧
    ((b.narrow c).left < (b.narrow c).right → Within (2 ^ 31) (b.moved c))

instance {b : Bounds} {c : Cut} : Decidable (StepFits b c) :=
  inferInstanceAs (Decidable (_ ∧ _ ∧ _ ∧ _))

/-- The operations on the cuts fit `int`, as far as `createSlice` goes: it stops where nothing is
left. -/
def CutsFit (n : Int) : List Cut → Prop
  | [] => True
  | c :: cuts =>
    CutsFit n cuts ∧ ((ofCuts n cuts).left < (ofCuts n cuts).right → StepFits (ofCuts n cuts) c)

instance CutsFit.decidable {n : Int} : (cuts : List Cut) → Decidable (CutsFit n cuts)
  | [] => inferInstanceAs (Decidable True)
  | c :: cuts =>
    have := @CutsFit.decidable n cuts
    inferInstanceAs (Decidable (_ ∧ (_ → StepFits (ofCuts n cuts) c)))

/-- The bounds lie in the value. -/
structure Inside (n : Int) (b : Bounds) : Prop where
  left : 0 ≤ b.left
  right : b.right ≤ n
  position : 0 ≤ b.position

variable {n : Int} {b : Bounds} {c : Cut} {cuts : List Cut} {s : Narrowing}

theorem Inside.narrow (h : b.Inside n) : (b.narrow c).Inside n := by
  obtain ⟨hleft, hright, hposition⟩ := h
  refine ⟨?_, ?_, ?_⟩
  · simp only [Bounds.narrow]
    omega
  · simp only [Bounds.narrow]
    omega
  · simp only [Bounds.narrow]
    split <;> omega

theorem inside_ofCuts : (ofCuts n cuts).Inside n := by
  induction cuts with
  | nil => exact ⟨Int.le_refl 0, Int.le_refl n, Int.le_refl 0⟩
  | cons c cuts ih => exact ih.narrow

/-- A further cut of nothing is nothing. -/
theorem narrow_of_empty (h : b.right ≤ b.left) : (b.narrow c).right ≤ (b.narrow c).left := by
  simp only [narrow]
  omega

/-- The variables of `createSlice` hold the bounds, until they are found to be empty. -/
def Holds (b : Bounds) (s : Narrowing) : Prop :=
  if b.left < b.right then
    s.isValid = true ∧ s.left = b.left ∧ s.right = b.right ∧ s.position = b.position
  else s.isValid = false

/-- A step of `createSlice` computes the next bounds; what overflows in between is not compared. -/
theorem narrow_holds (hn : n < 2 ^ 30) (hb : b.Inside n) (hne : b.left < b.right)
    (hvalid : s.isValid = true) (hl : s.left = b.left) (hr : s.right = b.right)
    (hp : s.position = b.position) (hfit : b.StepFits c) : (b.narrow c).Holds (s.narrow c) := by
  obtain ⟨hstart, hend, hrest, hposition⟩ := hfit
  obtain ⟨hleft, hright, -⟩ := hb
  have hstop : int32 (int32 (max (c.startByte - b.position) 0 + b.left) +
      int32 (min (c.endByte - b.position) b.right - max (c.startByte - b.position) 0)) =
        b.left + min (c.endByte - b.position) b.right := by
    simp only [int32, Int.bmod_add_bmod, Int.add_bmod_bmod]
    refine (congrArg int32 (by omega)).trans (int32_eq ?_)
    unfold Within at hend
    omega
  have hsize : int32 (min (b.left + min (c.endByte - b.position) b.right) b.right -
      int32 (max (c.startByte - b.position) 0 + b.left)) =
        (b.narrow c).right - (b.narrow c).left := by
    simp only [int32, Int.sub_bmod_bmod]
    refine (congrArg int32 ?_).trans (int32_eq hrest)
    simp only [Bounds.narrow]
    omega
  simp only [Narrowing.narrow, hvalid, if_true, hl, hr, hp, int32_eq hstart, int32_eq hend, hstop,
    hsize, Holds]
  split
  case isTrue hlt =>
    have hmoved := hposition hlt
    refine ⟨by simpa using hlt, ?_, ?_, ?_⟩
    · rw [int32_eq]
      · simp only [Bounds.narrow]
        omega
      · simp only [Bounds.narrow] at hlt
        omega
    · simp only [Bounds.narrow]
      omega
    · unfold moved at hmoved
      simp only [Bounds.narrow]
      split
      case isTrue => rfl
      case isFalse hread =>
        rw [if_neg hread] at hmoved
        rw [int32_eq hmoved]
  case isFalse hge => simpa using hge

theorem Holds.narrow (hn : n < 2 ^ 30) (hb : b.Inside n) (h : b.Holds s)
    (hfit : b.left < b.right → b.StepFits c) : (b.narrow c).Holds (s.narrow c) := by
  by_cases hne : b.left < b.right
  · rw [Holds, if_pos hne] at h
    obtain ⟨hvalid, hl, hr, hp⟩ := h
    exact narrow_holds hn hb hne hvalid hl hr hp (hfit hne)
  · rw [Holds, if_neg hne] at h
    have hempty := narrow_of_empty (c := c) (Int.not_lt.mp hne)
    rw [Holds, if_neg (Int.not_lt.mpr hempty), Narrowing.narrow, h]
    exact h

theorem holds_ofCuts (hn : 0 < n ∧ n < 2 ^ 30) (hfit : CutsFit n cuts) :
    (ofCuts n cuts).Holds (Narrowing.ofCuts n cuts) := by
  induction cuts with
  | nil => exact (if_pos hn.1).mpr ⟨rfl, rfl, rfl, rfl⟩
  | cons c cuts ih => exact Holds.narrow hn.2 inside_ofCuts (ih hfit.1) hfit.2

end Bounds

section
variable {o : PrimitiveObj} {cuts : List Cut} {m i : Nat}

/-- The bounds of a value's cuts. -/
def PrimitiveObj.bounds (o : PrimitiveObj) (cuts : List Cut) : Bounds :=
  Bounds.ofCuts o.typ.internalSizeOf cuts

/-- The operations on the cuts of a value do not overflow. -/
def PrimitiveObj.CutsFit (o : PrimitiveObj) (cuts : List Cut) : Prop :=
  Bounds.CutsFit o.typ.internalSizeOf cuts

theorem PrimitiveObj.inside_bounds : (o.bounds cuts).Inside o.typ.internalSizeOf :=
  Bounds.inside_ofCuts

/-- What `createSlice` makes of cuts: nothing, a part or the whole value. -/
theorem createSlice_cases (hfit : o.CutsFit cuts) :
    ((o.bounds cuts).right ≤ (o.bounds cuts).left ∧ createSlice o cuts = .slice o []) ∨
    ((o.bounds cuts).left < (o.bounds cuts).right ∧ ∃ w, createSlice o cuts =
      .slice o [⟨(o.bounds cuts).left, (o.bounds cuts).right, (o.bounds cuts).position, w⟩]) ∨
    (o.bounds cuts = ⟨0, o.typ.internalSizeOf, 0⟩ ∧ createSlice o cuts = .concrete o) := by
  have hpos := o.typ.internalSizeOf_pos
  have hle := o.typ.internalSizeOf_le
  have hinside : (o.bounds cuts).Inside o.typ.internalSizeOf := o.inside_bounds
  obtain ⟨hleft, hright, hposition⟩ := hinside
  have hholds : (o.bounds cuts).Holds (Narrowing.ofCuts o.typ.internalSizeOf cuts) :=
    Bounds.holds_ofCuts ⟨by omega, by omega⟩ hfit
  unfold Bounds.Holds at hholds
  unfold createSlice
  split at hholds
  case isFalse hge => exact Or.inl ⟨Int.not_lt.mp hge, if_pos hholds⟩
  case isTrue hlt =>
    obtain ⟨hvalid, hl, hr, hp⟩ := hholds
    dsimp only
    rw [if_neg (by rw [hvalid]; decide)]
    split
    case isTrue => exact Or.inr (Or.inl ⟨hlt, _, by rw [hl, hr, hp]⟩)
    case isFalse hwhole =>
      simp only [Narrowing.narrowed, hl, hr, hp] at hwhole
      refine Or.inr (Or.inr ⟨?_, rfl⟩)
      rw [Bounds.mk.injEq]
      omega

theorem fits_createSlice (hfit : o.CutsFit cuts)
    (h : (o.bounds cuts).left < (o.bounds cuts).right →
      (o.bounds cuts).position + ((o.bounds cuts).right - (o.bounds cuts).left) ≤ m) :
    (createSlice o cuts).Fits m := by
  have hlen := o.length_bytes
  have hpos := o.typ.internalSizeOf_pos
  have hinside : (o.bounds cuts).Inside o.typ.internalSizeOf := o.inside_bounds
  obtain ⟨hleft, hright, hposition⟩ := hinside
  obtain ⟨-, heq⟩ | ⟨hlt, w, heq⟩ | ⟨hwhole, heq⟩ := createSlice_cases hfit
  · rw [heq]
    exact .empty o
  · rw [heq]
    refine .part ?_
    unfold Reinterpretation.CutFits
    dsimp only
    omega
  · rw [heq]
    rw [hwhole] at h
    dsimp only at h
    exact .whole (by omega)

/-- The byte of a slice that lands at `i`, by its bounds. -/
theorem byteAt?_createSlice (hfit : o.CutsFit cuts) :
    (createSlice o cuts).byteAt? i =
      if (o.bounds cuts).position ≤ i ∧
          i < (o.bounds cuts).position + ((o.bounds cuts).right - (o.bounds cuts).left) then
        o.bytes[((o.bounds cuts).left + (i - (o.bounds cuts).position)).toNat]?
      else none := by
  have hlen := o.length_bytes
  obtain ⟨hempty, heq⟩ | ⟨-, w, heq⟩ | ⟨hwhole, heq⟩ := createSlice_cases hfit
  · rw [heq, if_neg (by omega)]
    rfl
  · rw [heq]
    rfl
  · rw [heq, hwhole]
    dsimp only [byteAt?]
    split
    case isTrue =>
      congr 1
      omega
    case isFalse => exact List.getElem?_eq_none (by omega)

end

end VSharp
