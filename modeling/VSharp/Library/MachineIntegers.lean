import Mathlib.Tactic.NormNum.Basic

/-!
# Library — MachineIntegers

Bit vectors read as integers, with or without a sign.

- `read` is the integer a bit vector stands for, `InRange` says which integers have a bit vector of
  a width;
- within the range `read` and `BitVec.ofInt` are inverse to each other;
- the two readings differ on the values with the top bit set.
-/

namespace MachineInteger
open BitVec

/-- The integer that `b` stands for. -/
def read (unsigned : Bool) {w : ℕ} (b : BitVec w) : ℤ :=
  if unsigned then b.toNat else b.toInt

/-- The integers that `w` bits stand for. -/
def InRange (unsigned : Bool) (w : ℕ) (n : ℤ) : Prop :=
  if unsigned then 0 ≤ n ∧ n < 2 ^ w else -2 ^ (w - 1) ≤ n ∧ n < 2 ^ (w - 1)

instance (unsigned : Bool) (w : ℕ) (n : ℤ) : Decidable (InRange unsigned w n) := by
  unfold InRange
  exact inferInstance

variable {u : Bool} {w : ℕ} {n : ℤ} {b c : BitVec w}

@[simp] theorem read_true : read true b = b.toNat := rfl

@[simp] theorem read_false : read false b = b.toInt := rfl

theorem inRange_true : InRange true w n ↔ 0 ≤ n ∧ n < 2 ^ w := Iff.rfl

theorem inRange_false : InRange false w n ↔ -2 ^ (w - 1) ≤ n ∧ n < 2 ^ (w - 1) := Iff.rfl

theorem InRange.toNat_lt (h : InRange u w n) : n.toNat < 2 ^ w := by
  have hlt : n < ((2 ^ w : ℕ) : ℤ) := by
    cases u with
    | true => exact_mod_cast (inRange_true.mp h).2
    | false =>
      have hle : 2 ^ (w - 1) ≤ 2 ^ w := Nat.pow_le_pow_right (by decide) (Nat.sub_le w 1)
      exact Int.lt_of_lt_of_le (inRange_false.mp h).2 (by exact_mod_cast hle)
  have := Nat.two_pow_pos w
  omega

theorem inRange_read : InRange u w (read u b) := by
  cases u with
  | true =>
    refine ⟨Int.natCast_nonneg _, ?_⟩
    have := b.isLt
    simp only [read_true]
    exact_mod_cast this
  | false => exact ⟨b.le_toInt, b.toInt_lt⟩

theorem ofInt_read : BitVec.ofInt w (read u b) = b := by
  cases u with
  | true => rw [read_true, ofInt_natCast, ofNat_toNat, setWidth_eq]
  | false => exact ofInt_toInt

theorem read_ofInt (hw : 0 < w) (h : InRange u w n) : read u (BitVec.ofInt w n) = n := by
  cases u with
  | true =>
    have hn := inRange_true.mp h
    rw [read_true, toNat_ofInt, Int.emod_eq_of_lt hn.1 (by exact_mod_cast hn.2)]
    exact Int.toNat_of_nonneg hn.1
  | false => exact toInt_ofInt_eq_self hw h.1 h.2

theorem read_nonneg (h : u = true ∨ b.msb = false) : read u b = b.toNat := by
  cases u with
  | true => rfl
  | false =>
    rw [read_false, toInt_eq_msb_cond, if_neg]
    simpa using h

/-- The low bits of a vector read in two ways, where one reading is in the range of the other. -/
theorem read_setWidth {m k : ℕ} {u' : Bool} {b : BitVec m} (hk : w = k) (hpos : 0 < k)
    (h : InRange u' k (read u (b.setWidth w))) :
    read u' (b.setWidth k) = read u (b.setWidth w) := by
  subst hk
  rw [← read_ofInt hpos h, ofInt_read]

/-- The readings differ on the values with the top bit set. -/
theorem toInt_eq_toNat_iff : b.toInt = b.toNat ↔ b.msb = false := by
  have := Nat.two_pow_pos w
  rw [toInt_eq_msb_cond]
  cases b.msb <;> simp

theorem msb_eq_false_of_read_nonneg (h : 0 ≤ read false b) : b.msb = false := by
  rw [msb_eq_toInt]
  simpa using h

end MachineInteger
