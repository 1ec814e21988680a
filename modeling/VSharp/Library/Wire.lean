import VSharp.Library.Bytes

/-!
# Library — Wire

Words written as bytes, the low one first, and readers of arrays of bytes.  A reader is given the
array and a place in it; it returns a value and the place after it, or fails.  `Reads r bytes a` says
that the reader returns `a`, and stops after `bytes`, wherever these stand in an array.
-/

namespace VSharp.Library
open List
variable {α β : Type}

/-! ### Words -/

/-- The bytes of a word, the low one first. -/
def leBytes {k : Nat} (x : BitVec (k * 8)) : List (BitVec 8) := (List.range k).map (byteOf x)

/-- The word with the given low bytes. -/
def ofLeBytes : (k : Nat) → List (BitVec 8) → BitVec (k * 8)
  | 0, _ => 0
  | k + 1, bytes => (ofLeBytes k bytes.tail ++ bytes.headD 0).cast (by omega)

@[simp] theorem length_leBytes {k : Nat} (x : BitVec (k * 8)) : (leBytes x).length = k := by
  simp [leBytes]

theorem byteOf_ofLeBytes {k i : Nat} {bytes : List (BitVec 8)} (hi : i < k) :
    byteOf (ofLeBytes k bytes) i = bytes.getD i 0 := by
  induction k generalizing i bytes with
  | zero => omega
  | succ k ih =>
    rw [ofLeBytes, byteOf_cast]
    cases i with
    | zero => rw [byteOf_append_zero]; cases bytes <;> rfl
    | succ i =>
      rw [byteOf_append_succ, ih (by omega)]
      cases bytes <;> rfl

theorem ofLeBytes_leBytes {k : Nat} (x : BitVec (k * 8)) (rest : List (BitVec 8)) :
    ofLeBytes k (leBytes x ++ rest) = x := by
  apply eq_of_byteOf_eq
  intro i hi
  rw [byteOf_ofLeBytes hi, getD_eq_getElem?_getD, getElem?_append_left (by rwa [length_leBytes])]
  simp [leBytes, hi]

/-! ### Readers -/

/-- A reader of an array of bytes. -/
abbrev Reader (α : Type) := ReaderT (List (BitVec 8)) (StateT Nat Option) α

namespace Reader

/-- The word at the current place. -/
def word (k : Nat) : Reader (BitVec (k * 8)) := fun data offset =>
  if offset + k ≤ data.length then some (ofLeBytes k (data.drop offset), offset + k) else none

/-- `n` bytes from the current place on, which stays where it is. -/
def peek (n : Nat) : Reader (List (BitVec 8)) := fun data offset =>
  if offset + n ≤ data.length then some ((data.drop offset).take n, offset) else none

/-- Moves the current place. -/
def advance (n : Int) : Reader Unit := fun _ offset => some ((), (offset + n).toNat)

/-- The same reader, `n` times. -/
def times (r : Reader α) : Nat → Reader (List α)
  | 0 => pure []
  | n + 1 => do
      let a ← r
      let rest ← r.times n
      pure (a :: rest)

section
variable {r : Reader α} {f : α → Reader β} {data : List (BitVec 8)} {offset offset' : Nat}

theorem bind_of_eq_some {a : α} {place : Nat} (h : r data offset = some (a, place)) :
    (r >>= f) data offset = f a data place := by
  change (r data offset).bind (fun p => f p.1 data p.2) = _
  rw [h]
  rfl

theorem bind_of_eq_none (h : r data offset = none) : (r >>= f) data offset = none := by
  change (r data offset).bind (fun p => f p.1 data p.2) = _
  rw [h]
  rfl

end

/-! ### What a reader returns -/

section
variable {limit : Nat}

/-- In an array of at most `limit` bytes, the reader returns `a` where `bytes` stand. -/
def Reads (limit : Nat) (r : Reader α) (bytes : List (BitVec 8)) (a : α) : Prop :=
  ∀ before after : List (BitVec 8), (before ++ bytes ++ after).length ≤ limit →
    r (before ++ bytes ++ after) before.length = some (a, before.length + bytes.length)

variable {r : Reader α} {f : α → Reader β} {xs ys : List (BitVec 8)} {a : α} {b : β}

theorem reads_pure : Reads limit (pure a) [] a := by
  intro before after _
  rfl

/-- The bytes may be taken to be short enough. -/
theorem Reads.of_length_le (h : xs.length ≤ limit → Reads limit r xs a) : Reads limit r xs a := by
  intro before after hlimit
  have hlength : xs.length ≤ limit := by
    simp only [length_append] at hlimit
    omega
  exact h hlength before after hlimit

theorem Reads.bind (h : Reads limit r xs a) (h' : Reads limit (f a) ys b) :
    Reads limit (r >>= f) (xs ++ ys) b := by
  intro before after hlimit
  have hfirst := h before (ys ++ after) (by simpa using hlimit)
  have hsecond := h' (before ++ xs) after (by simpa using hlimit)
  rw [← append_assoc] at hfirst
  rw [← append_assoc before, bind_of_eq_some hfirst, ← length_append, hsecond]
  simp only [length_append, Nat.add_assoc]

theorem Reads.map (h : Reads limit r xs a) (f : α → β) :
    Reads limit (r >>= fun a => pure (f a)) xs (f a) := by
  have hbind : Reads limit (r >>= fun a => pure (f a)) (xs ++ []) (f a) :=
    Reads.bind (f := fun a => pure (f a)) h reads_pure
  rwa [append_nil] at hbind

theorem reads_word {k : Nat} (x : BitVec (k * 8)) : Reads limit (word k) (leBytes x) x := by
  intro before after _
  have hlength : before.length + k ≤ (before ++ leBytes x ++ after).length := by
    simp only [length_append, length_leBytes]
    omega
  rw [word, if_pos hlength, append_assoc, drop_left, ofLeBytes_leBytes, length_leBytes]

theorem Reads.times {chunks : List (List (BitVec 8))} {as : List α}
    (h : List.Forall₂ (Reads limit r) chunks as) :
    Reads limit (r.times as.length) chunks.flatten as := by
  induction h with
  | nil => exact reads_pure
  | cons hr _ ih => exact hr.bind (ih.map _)

end

end Reader

end VSharp.Library
