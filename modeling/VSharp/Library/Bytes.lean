import Mathlib.Data.List.Basic

/-!
# Library — Bytes

- `blit` copies a range of one array into another; it is read one place at a time;
- `byteOf` is a byte of a bit vector, counted from the low end: the operations that move whole bytes
  are described by where they take each byte from;
- `concatBytes` joins bytes into a bit vector, the first one at the high end.
-/

namespace VSharp.Library
open BitVec List
variable {α : Type}

/-- `count` places of `src` from `start` on, copied into `dst` from `pos` on. -/
def blit (src : List α) (start : Nat) (dst : List α) (pos count : Nat) : List α :=
  dst.mapIdx fun i b => if pos ≤ i ∧ i < pos + count then src.getD (start + (i - pos)) b else b

variable {src dst : List α} {start pos count i : Nat}

@[simp] theorem length_blit : (blit src start dst pos count).length = dst.length := by
  simp [blit]

theorem getElem?_blit_of_mem (hi : i < dst.length) (hsrc : start + count ≤ src.length)
    (h : pos ≤ i ∧ i < pos + count) :
    (blit src start dst pos count)[i]? = src[start + (i - pos)]? := by
  have hs : start + (i - pos) < src.length := by omega
  simp [blit, hi, h, hs]

theorem getElem?_blit_of_notMem (h : ¬(pos ≤ i ∧ i < pos + count)) :
    (blit src start dst pos count)[i]? = dst[i]? := by
  simp only [blit, getElem?_mapIdx, if_neg h, Option.map_id']

/-! ### Bytes of a bit vector -/

/-- Byte `i` of a bit vector; past its end the bits are zero. -/
def byteOf {n : Nat} (x : BitVec n) (i : Nat) : BitVec 8 := x.extractLsb' (i * 8) 8

section
variable {n m k i j : Nat}
variable {x : BitVec n}

theorem getLsbD_byteOf :
    (byteOf x i).getLsbD j = (decide (j < 8) && x.getLsbD (i * 8 + j)) :=
  getLsbD_extractLsb' ..

theorem byteOf_eq {y : BitVec m} {i' : Nat}
    (h : ∀ b, b < 8 → x.getLsbD (i * 8 + b) = y.getLsbD (i' * 8 + b)) :
    byteOf x i = byteOf y i' := by
  apply eq_of_getLsbD_eq
  intro b hb
  rw [getLsbD_byteOf, getLsbD_byteOf, h b hb]

theorem byteOf_eq_zero (h : ∀ b, b < 8 → x.getLsbD (i * 8 + b) = false) :
    byteOf x i = 0 := by
  apply eq_of_getLsbD_eq
  intro b hb
  rw [getLsbD_byteOf, h b hb, Bool.and_false]
  exact (getLsbD_zero).symm

theorem eq_of_byteOf_eq {x y : BitVec (k * 8)} (h : ∀ i, i < k → byteOf x i = byteOf y i) :
    x = y := by
  apply eq_of_getLsbD_eq
  intro b hb
  have hbyte := congrArg (·.getLsbD (b % 8)) (h (b / 8) (by omega))
  have hlt : b % 8 < 8 := by omega
  have hsplit : b / 8 * 8 + b % 8 = b := by omega
  simpa only [getLsbD_byteOf, hlt, decide_true, Bool.true_and, hsplit] using hbyte

@[simp] theorem byteOf_zero : byteOf (0 : BitVec n) i = 0 :=
  byteOf_eq_zero fun _ _ => getLsbD_zero

@[simp] theorem byteOf_or {y : BitVec n} : byteOf (x ||| y) i = byteOf x i ||| byteOf y i :=
  extractLsb'_or

@[simp] theorem byteOf_cast {h : n = m} : byteOf (x.cast h) i = byteOf x i :=
  byteOf_eq fun _ _ => getLsbD_cast h x

theorem byteOf_of_ge {x : BitVec (k * 8)} (h : k ≤ i) : byteOf x i = 0 :=
  byteOf_eq_zero fun _ _ => getLsbD_of_ge _ _ (by omega)

theorem byteOf_shiftLeft {x : BitVec (k * 8)} (hi : i < k) :
    byteOf (x <<< (m * 8)) i = if m ≤ i then byteOf x (i - m) else 0 := by
  split
  case isTrue h =>
    refine byteOf_eq fun b hb => ?_
    have hlow : ¬ i * 8 + b < m * 8 := by omega
    have hhigh : i * 8 + b < k * 8 := by omega
    have hindex : i * 8 + b - m * 8 = (i - m) * 8 + b := by omega
    simp only [getLsbD_shiftLeft, hlow, hhigh, hindex, decide_true, decide_false,
      Bool.not_false, Bool.true_and]
  case isFalse h =>
    refine byteOf_eq_zero fun b hb => ?_
    have hlow : i * 8 + b < m * 8 := by omega
    simp only [getLsbD_shiftLeft, hlow, decide_true, Bool.not_true, Bool.and_false, Bool.false_and]

theorem byteOf_ushiftRight : byteOf (x >>> (m * 8)) i = byteOf x (i + m) := by
  refine byteOf_eq fun b hb => ?_
  rw [getLsbD_ushiftRight]
  congr 1
  omega

theorem byteOf_setWidth (hi : i < k) :
    byteOf (x.setWidth (k * 8)) i = byteOf x i := by
  refine byteOf_eq fun b hb => ?_
  have hhigh : i * 8 + b < k * 8 := by omega
  simp only [getLsbD_setWidth, hhigh, decide_true, Bool.true_and]

/-! ### Joining bytes -/

theorem byteOf_append_zero {b : BitVec 8} : byteOf (x ++ b) 0 = b := by
  apply eq_of_getLsbD_eq
  intro j hj
  rw [getLsbD_byteOf, getLsbD_append]
  simp [hj]

theorem byteOf_append_succ {b : BitVec 8} :
    byteOf (x ++ b) (i + 1) = byteOf x i := by
  refine byteOf_eq fun j hj => ?_
  rw [getLsbD_append, if_neg (by omega)]
  congr 1
  omega

/-- The bytes after `x`, each below the one before. -/
def concatBytes {n : Nat} (x : BitVec n) : (bytes : List (BitVec 8)) → BitVec (n + bytes.length * 8)
  | [] => x.cast (by simp)
  | b :: bytes => (concatBytes (x ++ b) bytes).cast (by rw [length_cons]; omega)

theorem byteOf_concatBytes_add {bytes : List (BitVec 8)} :
    byteOf (concatBytes x bytes) (bytes.length + i) = byteOf x i := by
  induction bytes generalizing n i with
  | nil => simp [concatBytes]
  | cons b bytes ih =>
    have hindex : (b :: bytes).length + i = bytes.length + (i + 1) := by
      rw [length_cons]
      omega
    rw [concatBytes, byteOf_cast, hindex, ih, byteOf_append_succ]

theorem byteOf_concatBytes {bytes : List (BitVec 8)} (hi : i < bytes.length) :
    bytes[bytes.length - 1 - i]? = some (byteOf (concatBytes x bytes) i) := by
  induction bytes generalizing n with
  | nil => simp at hi
  | cons b bytes ih =>
    rw [concatBytes, byteOf_cast, length_cons, Nat.add_sub_cancel]
    rcases Nat.lt_or_ge i bytes.length with hlt | hge
    · have hindex : bytes.length - i = bytes.length - 1 - i + 1 := by omega
      rw [hindex, getElem?_cons_succ, ih hlt]
    · have hlast : i = bytes.length + 0 := by
        rw [length_cons] at hi
        omega
      rw [hlast, byteOf_concatBytes_add, byteOf_append_zero, Nat.add_zero, Nat.sub_self]
      rfl

end

end VSharp.Library
