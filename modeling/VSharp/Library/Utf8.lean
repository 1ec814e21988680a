import Mathlib.Data.Nat.Notation

/-!
# Library — UTF-8

Unicode scalar values as bytes.  `decode` gives the replacement character for each part of the bytes
that is no beginning of a character, as long as it may be; it reads what `encode` writes.
-/

namespace VSharp.Library.Utf8
open List

/-- A Unicode scalar value: no surrogate. -/
def IsScalar (n : ℕ) : Prop := n < 0xD800 ∨ 0xE000 ≤ n ∧ n < 0x110000

/-- U+FFFD. -/
def replacement : ℕ := 0xFFFD

/-- A byte behind the first one, with six bits. -/
def continuation (n : ℕ) : BitVec 8 := BitVec.ofNat 8 (0x80 + n % 64)

def encodeScalar (n : ℕ) : List (BitVec 8) :=
  if n < 0x80 then [BitVec.ofNat 8 n]
  else if n < 0x800 then [BitVec.ofNat 8 (0xC0 + n / 64), continuation n]
  else if n < 0x10000 then
    [BitVec.ofNat 8 (0xE0 + n / 4096), continuation (n / 64), continuation n]
  else
    [BitVec.ofNat 8 (0xF0 + n / 262144), continuation (n / 4096), continuation (n / 64),
      continuation n]

def encode (scalars : List ℕ) : List (BitVec 8) := scalars.flatMap encodeScalar

/-- How many bytes follow the first one, and its bits; some bytes are no first ones. -/
def first (b : ℕ) : Option (ℕ × ℕ) :=
  if b < 0x80 then some (0, b)
  else if 0xC2 ≤ b ∧ b ≤ 0xDF then some (1, b - 0xC0)
  else if 0xE0 ≤ b ∧ b ≤ 0xEF then some (2, b - 0xE0)
  else if 0xF0 ≤ b ∧ b ≤ 0xF4 then some (3, b - 0xF0)
  else none

/-- The least and the greatest second byte: it keeps out long forms, surrogates and too large
values. -/
def secondRange (b : ℕ) : ℕ × ℕ :=
  if b = 0xE0 then (0xA0, 0xBF)
  else if b = 0xED then (0x80, 0x9F)
  else if b = 0xF0 then (0x90, 0xBF)
  else if b = 0xF4 then (0x80, 0x8F)
  else (0x80, 0xBF)

/-- Reads the bytes that follow, of which the next one is in the range. -/
def more : ℕ → ℕ × ℕ → ℕ → List (BitVec 8) → Option ℕ × List (BitVec 8)
  | 0, _, acc, bytes => (some acc, bytes)
  | _ + 1, _, _, [] => (none, [])
  | k + 1, range, acc, b :: bytes =>
    if range.1 ≤ b.toNat ∧ b.toNat ≤ range.2 then
      more k (0x80, 0xBF) (acc * 64 + b.toNat % 64) bytes
    else (none, b :: bytes)

theorem length_more_le (k : ℕ) (range : ℕ × ℕ) (acc : ℕ) (bytes : List (BitVec 8)) :
    (more k range acc bytes).2.length ≤ bytes.length := by
  induction k generalizing range acc bytes with
  | zero => exact Nat.le_refl _
  | succ k ih =>
    cases bytes with
    | nil => exact Nat.le_refl _
    | cons b bytes =>
      rw [more]
      split
      · exact Nat.le_succ_of_le (ih _ _ bytes)
      · exact Nat.le_refl _

/-- The first character of some bytes, if they begin with one, and the bytes behind it. -/
def next (b : BitVec 8) (bytes : List (BitVec 8)) : Option ℕ × List (BitVec 8) :=
  match first b.toNat with
  | none => (none, bytes)
  | some (k, bits) => more k (secondRange b.toNat) bits bytes

theorem length_next_le (b : BitVec 8) (bytes : List (BitVec 8)) :
    (next b bytes).2.length ≤ bytes.length := by
  rw [next]
  split
  · exact Nat.le_refl _
  · exact length_more_le _ _ _ bytes

def decode : List (BitVec 8) → List ℕ
  | [] => []
  | b :: bytes => ((next b bytes).1.getD replacement) :: decode (next b bytes).2
termination_by bytes => bytes.length
decreasing_by exact Nat.lt_succ_of_le (length_next_le b bytes)

/-! ### Round trip -/

theorem toNat_ofNat {n : ℕ} (h : n < 256) : (BitVec.ofNat 8 n).toNat = n := by
  rw [BitVec.toNat_ofNat, Nat.mod_eq_of_lt h]

theorem toNat_continuation (n : ℕ) : (continuation n).toNat = 0x80 + n % 64 :=
  toNat_ofNat (by omega)

theorem more_continuation (k : ℕ) {range : ℕ × ℕ} (acc n : ℕ) (bytes : List (BitVec 8))
    (h : range.1 ≤ 0x80 + n % 64 ∧ 0x80 + n % 64 ≤ range.2) :
    more (k + 1) range acc (continuation n :: bytes) =
      more k (0x80, 0xBF) (acc * 64 + n % 64) bytes := by
  rw [more, toNat_continuation, if_pos h]
  congr 2
  omega

theorem next_eq {b : BitVec 8} {n k bits : ℕ} (hb : b.toNat = n) (h : first n = some (k, bits))
    (bytes : List (BitVec 8)) : next b bytes = more k (secondRange n) bits bytes := by
  rw [next, hb, h]

/-- The second byte of an encoded character is in the range of the first one. -/
theorem secondRange_two (n : ℕ) (hn : n < 0x800) :
    (secondRange (0xC0 + n / 64)).1 ≤ 0x80 + n % 64 ∧
      0x80 + n % 64 ≤ (secondRange (0xC0 + n / 64)).2 := by
  rw [secondRange, if_neg (by omega), if_neg (by omega), if_neg (by omega), if_neg (by omega)]
  dsimp only
  omega

theorem secondRange_three {n : ℕ} (h : IsScalar n) (hn : 0x800 ≤ n) (hn' : n < 0x10000) :
    (secondRange (0xE0 + n / 4096)).1 ≤ 0x80 + n / 64 % 64 ∧
      0x80 + n / 64 % 64 ≤ (secondRange (0xE0 + n / 4096)).2 := by
  unfold IsScalar at h
  unfold secondRange
  split
  · dsimp only
    omega
  · split
    · dsimp only
      omega
    · rw [if_neg (by omega), if_neg (by omega)]
      dsimp only
      omega

theorem secondRange_four {n : ℕ} (hn : 0x10000 ≤ n) (hn' : n < 0x110000) :
    (secondRange (0xF0 + n / 262144)).1 ≤ 0x80 + n / 4096 % 64 ∧
      0x80 + n / 4096 % 64 ≤ (secondRange (0xF0 + n / 262144)).2 := by
  unfold secondRange
  rw [if_neg (by omega), if_neg (by omega)]
  split
  · dsimp only
    omega
  · split
    · dsimp only
      omega
    · dsimp only
      omega

/-- An encoded character is read as it is. -/
theorem decode_encodeScalar {n : ℕ} (h : IsScalar n) (bytes : List (BitVec 8)) :
    decode (encodeScalar n ++ bytes) = n :: decode bytes := by
  have hlt : n < 0x110000 := by
    unfold IsScalar at h
    omega
  unfold encodeScalar
  split
  case isTrue h₁ =>
    have hfirst : first n = some (0, n) := if_pos h₁
    rw [singleton_append, decode, next_eq (toNat_ofNat (by omega)) hfirst]
    rfl
  case isFalse h₁ =>
  split
  case isTrue h₂ =>
    have hfirst : first (0xC0 + n / 64) = some (1, n / 64) := by
      rw [first, if_neg (by omega), if_pos (by omega), Nat.add_sub_cancel_left]
    have hvalue : n / 64 * 64 + n % 64 = n := by omega
    rw [cons_append, singleton_append, decode, next_eq (toNat_ofNat (by omega)) hfirst,
      more_continuation 0 _ n _ (secondRange_two n h₂), hvalue]
    rfl
  case isFalse h₂ =>
  split
  case isTrue h₃ =>
    have hfirst : first (0xE0 + n / 4096) = some (2, n / 4096) := by
      rw [first, if_neg (by omega), if_neg (by omega), if_pos (by omega), Nat.add_sub_cancel_left]
    have hvalue : (n / 4096 * 64 + n / 64 % 64) * 64 + n % 64 = n := by omega
    rw [cons_append, cons_append, singleton_append, decode, next_eq (toNat_ofNat (by omega)) hfirst,
      more_continuation 1 _ (n / 64) _ (secondRange_three h (by omega) h₃),
      more_continuation 0 _ n _ ⟨by dsimp only; omega, by dsimp only; omega⟩, hvalue]
    rfl
  case isFalse h₃ =>
    have hfirst : first (0xF0 + n / 262144) = some (3, n / 262144) := by
      rw [first, if_neg (by omega), if_neg (by omega), if_neg (by omega), if_pos (by omega),
        Nat.add_sub_cancel_left]
    have hvalue : ((n / 262144 * 64 + n / 4096 % 64) * 64 + n / 64 % 64) * 64 + n % 64 = n := by
      omega
    rw [cons_append, cons_append, cons_append, singleton_append, decode,
      next_eq (toNat_ofNat (by omega)) hfirst,
      more_continuation 2 _ (n / 4096) _ (secondRange_four (by omega) hlt),
      more_continuation 1 _ (n / 64) _ ⟨by dsimp only; omega, by dsimp only; omega⟩,
      more_continuation 0 _ n _ ⟨by dsimp only; omega, by dsimp only; omega⟩, hvalue]
    rfl

theorem decode_encode {scalars : List ℕ} (h : ∀ n ∈ scalars, IsScalar n) :
    decode (encode scalars) = scalars := by
  induction scalars with
  | nil => rw [encode, flatMap_nil, decode]
  | cons n scalars ih =>
    obtain ⟨hn, hrest⟩ := forall_mem_cons.mp h
    rw [encode, flatMap_cons, decode_encodeScalar hn]
    exact congrArg (n :: ·) (ih hrest)

end VSharp.Library.Utf8
