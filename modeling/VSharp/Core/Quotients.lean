import Mathlib.Tactic.Ring
import VSharp.Core.Numerals

/-!
# Core — Quotients

Truncating quotients and remainders of bits, signed or not, and which operands make the rules of the
simplifiers right that hold of the integers and not of machine integers.
-/

namespace VSharp
open Library MachineInteger

/-! ### Quotients of numbers -/

theorem tdiv_tdiv (a b c : ℤ) : (a.tdiv b).tdiv c = a.tdiv (b * c) := by
  obtain ⟨m, rfl | rfl⟩ := a.eq_nat_or_neg <;> obtain ⟨n, rfl | rfl⟩ := b.eq_nat_or_neg <;>
    obtain ⟨k, rfl | rfl⟩ := c.eq_nat_or_neg <;>
      simp only [Int.neg_tdiv, Int.tdiv_neg, neg_mul, mul_neg, neg_neg, ← Int.natCast_mul,
        ← Int.ofNat_tdiv, Nat.div_div_eq_div_mul]

/-- A factor goes into a quotient where it keeps the remainder small. -/
theorem mul_tdiv_of_small {a b c : ℤ} (h : (a.tmod b * c).natAbs < b.natAbs) :
    (a * c).tdiv b = a.tdiv b * c := by
  rw [Int.natAbs_mul, Int.natAbs_tmod] at h
  have hnat : a.natAbs * c.natAbs / b.natAbs = a.natAbs / b.natAbs * c.natAbs := by
    conv_lhs => rw [← Nat.div_add_mod a.natAbs b.natAbs, Nat.add_mul, Nat.mul_assoc]
    rw [Nat.mul_add_div (by omega), Nat.div_eq_of_lt h, Nat.add_zero]
  obtain ⟨m, rfl | rfl⟩ := a.eq_nat_or_neg <;> obtain ⟨n, rfl | rfl⟩ := b.eq_nat_or_neg <;>
    obtain ⟨k, rfl | rfl⟩ := c.eq_nat_or_neg <;>
      simp only [Int.neg_tdiv, Int.tdiv_neg, neg_mul, mul_neg, neg_neg, Int.natAbs_neg,
        Int.natAbs_natCast, ← Int.natCast_mul, ← Int.ofNat_tdiv] at hnat ⊢ <;> rw [hnat]

/-! ### Quotients of bits -/

section
variable {w : ℕ} (u v : BitVec w)

/-- The quotient of bits is that of the numbers they stand for. -/
theorem divided_eq (isSigned : Bool) : divided isSigned u v =
    BitVec.ofInt w ((read (!isSigned) u).tdiv (read (!isSigned) v)) := by
  cases isSigned with
  | true =>
    refine BitVec.eq_of_toInt_eq ?_
    rw [BitVec.toInt_ofInt]
    exact BitVec.toInt_sdiv u v
  | false =>
    show u / v = BitVec.ofInt w ((u.toNat : ℤ).tdiv v.toNat)
    rw [← Int.ofNat_tdiv, BitVec.ofInt_natCast]
    refine BitVec.eq_of_toNat_eq ?_
    rw [BitVec.toNat_udiv, BitVec.toNat_ofNat,
      Nat.mod_eq_of_lt ((Nat.div_le_self _ _).trans_lt u.isLt)]

theorem read_reduced (isSigned : Bool) : read (!isSigned) (reduced isSigned u v) =
    (read (!isSigned) u).tmod (read (!isSigned) v) := by
  cases isSigned with
  | true => exact BitVec.toInt_srem u v
  | false => exact (congrArg Nat.cast BitVec.toNat_umod).trans (Int.ofNat_tmod _ _)

theorem reduced_eq (isSigned : Bool) : reduced isSigned u v =
    BitVec.ofInt w ((read (!isSigned) u).tmod (read (!isSigned) v)) := by
  rw [← read_reduced, ofInt_read]

theorem zero_divided (isSigned : Bool) : divided isSigned 0 u = 0 := by
  cases isSigned with
  | true => exact BitVec.zero_sdiv
  | false => exact BitVec.zero_udiv

theorem divided_one (isSigned : Bool) : divided isSigned u 1 = u := by
  cases isSigned with
  | true => exact BitVec.sdiv_one
  | false => exact BitVec.udiv_one

theorem divided_neg_one (hw : 0 < w) : divided true u (-1) = -u := by
  have hmsb : (-1 : BitVec w).msb = true := by
    show (-1#w).msb = true
    rw [BitVec.neg_one_eq_allOnes, BitVec.msb_allOnes hw]
  have hone (v : BitVec w) : v.udiv (-(-1)) = v := by
    rw [neg_neg]
    exact BitVec.udiv_one
  show u.sdiv (-1) = -u
  unfold BitVec.sdiv
  rw [hmsb]
  cases u.msb with
  | false => exact congrArg (- ·) (hone u)
  | true => exact hone (-u)

theorem divided_twoPow {m : ℕ} (hm : m < w) :
    divided false u (BitVec.twoPow w m) = shifted .shiftRight_Un u m :=
  BitVec.udiv_twoPow_eq_of_lt hm

theorem zero_reduced (isSigned : Bool) : reduced isSigned 0 u = 0 := by
  cases isSigned with
  | true => exact BitVec.zero_srem
  | false => exact BitVec.zero_umod

theorem reduced_one (isSigned : Bool) : reduced isSigned u 1 = 0 := by
  cases isSigned with
  | true => exact BitVec.srem_one
  | false => exact BitVec.umod_one

theorem reduced_self (isSigned : Bool) : reduced isSigned u u = 0 := by
  cases isSigned with
  | true => exact BitVec.srem_self
  | false => exact BitVec.umod_self

/-- A signed remainder does not depend on the sign of the divisor. -/
theorem reduced_neg : reduced true u (-v) = reduced true u v := by
  by_cases hv : v = BitVec.intMin w
  · rw [hv, BitVec.neg_intMin]
  · refine BitVec.eq_of_toInt_eq ?_
    show (u.srem (-v)).toInt = (u.srem v).toInt
    rw [BitVec.toInt_srem, BitVec.toInt_srem, BitVec.toInt_neg_of_ne_intMin hv, Int.tmod_neg]

theorem reduced_neg_one : reduced true u (-1) = 0 := by
  rw [reduced_neg, reduced_one]

/-- Quotient, divisor and remainder. -/
theorem divided_mul_add (isSigned : Bool) :
    divided isSigned u v * v + reduced isSigned u v = u := by
  let n (b : BitVec w) : ℤ := read (!isSigned) b
  have hn (b : BitVec w) : BitVec.ofInt w (n b) = b := ofInt_read
  calc divided isSigned u v * v + reduced isSigned u v
      = BitVec.ofInt w ((n u).tdiv (n v)) * BitVec.ofInt w (n v) +
          BitVec.ofInt w ((n u).tmod (n v)) := by rw [divided_eq, reduced_eq, hn]
    _ = BitVec.ofInt w (n v * (n u).tdiv (n v) + (n u).tmod (n v)) := by
        rw [BitVec.ofInt_add, BitVec.ofInt_mul, mul_comm]
    _ = u := by rw [Int.mul_tdiv_add_tmod, hn]

variable {u v} {isSigned : Bool} {y : BitVec w}

theorem read_mul (hw : 0 < w)
    (h : InRange (!isSigned) w (read (!isSigned) u * read (!isSigned) y)) :
    read (!isSigned) (u * y) = read (!isSigned) u * read (!isSigned) y := by
  rw [← read_ofInt hw h, BitVec.ofInt_mul, ofInt_read, ofInt_read]

theorem neg_one_ne_zero (hw : 0 < w) : (-1 : BitVec w) ≠ 0 := fun h => by
  have hmsb := congrArg BitVec.msb h
  rw [show (-1 : BitVec w) = BitVec.allOnes w from BitVec.neg_one_eq_allOnes,
    BitVec.msb_allOnes hw] at hmsb
  exact absurd hmsb (by simp)

theorem divided_self (h : u ≠ 0) : divided isSigned u u = 1 := by
  have hne : ¬(u == 0#w) = true := fun heq => h (eq_of_beq heq)
  cases isSigned with
  | true => exact BitVec.sdiv_self.trans (if_neg hne)
  | false => exact BitVec.udiv_self.trans (if_neg hne)

/-! #### Rules that need not hold -/

theorem divided_mul_cancel (h : reduced isSigned u v * y = 0) :
    divided isSigned u v * y * v = u * y := by
  conv_rhs => rw [← divided_mul_add u v isSigned, add_mul, h, add_zero]
  ring

theorem divided_mul_of_small (hw : 0 < w)
    (hrange : InRange (!isSigned) w (read (!isSigned) u * read (!isSigned) y))
    (hsmall : ((read (!isSigned) u).tmod (read (!isSigned) v) * read (!isSigned) y).natAbs <
      (read (!isSigned) v).natAbs) :
    divided isSigned (u * y) v = divided isSigned u v * y := by
  rw [divided_eq, divided_eq, read_mul hw hrange, mul_tdiv_of_small hsmall, BitVec.ofInt_mul,
    ofInt_read]

theorem divided_of_factor (hw : 0 < w)
    (hrange : InRange (!isSigned) w (read (!isSigned) v * read (!isSigned) y))
    (hexact : ((read (!isSigned) u).tdiv (read (!isSigned) v)).tmod (read (!isSigned) y) = 0) :
    divided isSigned u (v * y) * y = divided isSigned u v := by
  let q := (read (!isSigned) u).tdiv (read (!isSigned) v)
  have hy : BitVec.ofInt w (read (!isSigned) y) = y := ofInt_read
  calc divided isSigned u (v * y) * y
      = BitVec.ofInt w (q.tdiv (read (!isSigned) y)) * BitVec.ofInt w (read (!isSigned) y) := by
        rw [divided_eq, read_mul hw hrange, ← tdiv_tdiv, hy]
    _ = BitVec.ofInt w q := by
        rw [← BitVec.ofInt_mul, Int.tdiv_mul_cancel_of_tmod_eq_zero hexact]
    _ = divided isSigned u v := (divided_eq u v isSigned).symm

/-- Read as unsigned, −1 is the greatest number. -/
theorem divided_neg_one_of (hw : 0 < w) (h : u = 0 ∨ u = -1) : divided false u (-1) = -u := by
  rcases h with rfl | rfl
  · rw [neg_zero]
    exact BitVec.zero_udiv
  · rw [divided_self (neg_one_ne_zero hw), neg_neg]

theorem reduced_neg_one_of (h : u = 0 ∨ u = -1) : reduced false u (-1) = 0 := by
  rcases h with rfl | rfl
  · exact BitVec.zero_umod
  · exact reduced_self _ false

theorem divided_opposite (h : if isSigned then u ≠ 0 ∧ u ≠ BitVec.intMin w else u = -1) :
    divided isSigned u (-u) = -1 := by
  cases isSigned with
  | true =>
    have hself : divided true u u = 1 := divided_self h.1
    exact (BitVec.sdiv_neg h.2).trans (congrArg (- ·) hself)
  | false =>
    obtain rfl : u = -1 := h
    rw [neg_neg, divided_one]

theorem reduced_opposite (h : u = 0 ∨ ∃ k < w, u = -BitVec.twoPow w k) :
    reduced false u (-u) = 0 := by
  rcases h with rfl | ⟨k, hk, rfl⟩
  · exact BitVec.zero_umod
  · refine BitVec.eq_of_toNat_eq ?_
    have hdvd : 2 ^ k ∣ 2 ^ w := Nat.pow_dvd_pow 2 hk.le
    show ((-BitVec.twoPow w k).umod (- -BitVec.twoPow w k)).toNat = 0
    rw [neg_neg, BitVec.umod_eq, BitVec.toNat_umod, BitVec.toNat_neg, BitVec.toNat_twoPow_of_lt hk,
      Nat.mod_mod_of_dvd _ hdvd]
    exact Nat.mod_eq_zero_of_dvd (Nat.dvd_sub hdvd dvd_rfl)

/-- A product that does not wrap around, or a divisor that divides what is lost. -/
theorem reduced_mul (hw : 0 < w) {z : BitVec w} (hz : reduced isSigned u z = 0)
    (h : InRange (!isSigned) w (read (!isSigned) u * read (!isSigned) y) ∨
      read (!isSigned) z ∣ 2 ^ w) : reduced isSigned (u * y) z = 0 := by
  let n (b : BitVec w) : ℤ := read (!isSigned) b
  have hdvd : n z ∣ n u * n y := by
    refine (Int.dvd_of_tmod_eq_zero ?_).mul_right _
    rw [← read_reduced, hz]
    cases isSigned <;> simp
  have hdvd' : n z ∣ n (u * y) := by
    rcases h with hrange | hpow
    · show n z ∣ read (!isSigned) (u * y)
      rw [read_mul hw hrange]
      exact hdvd
    · -- What the product loses is a multiple of the power of two.
      have heq : BitVec.ofInt w (n (u * y)) = BitVec.ofInt w (n u * n y) := by
        rw [BitVec.ofInt_mul, ofInt_read, ofInt_read, ofInt_read]
      have hmod : n (u * y) % 2 ^ w = n u * n y % 2 ^ w := by
        have htoNat := congrArg BitVec.toNat heq
        rw [BitVec.toNat_ofInt, BitVec.toNat_ofInt] at htoNat
        have hpos : (2 ^ w : ℤ) ≠ 0 := pow_ne_zero w (by decide)
        have h₁ := Int.emod_nonneg (n (u * y)) hpos
        have h₂ := Int.emod_nonneg (n u * n y) hpos
        push_cast at htoNat
        omega
      refine Int.dvd_of_emod_eq_zero ?_
      rw [← Int.emod_emod_of_dvd _ hpow, hmod, Int.emod_emod_of_dvd _ hpow]
      exact Int.emod_eq_zero_of_dvd hdvd
  rw [reduced_eq, Int.tmod_eq_zero_of_dvd hdvd']
  exact BitVec.ofInt_natCast w 0

theorem msb_ushiftRight (h : u.msb = false) (n : ℕ) :
    (shifted .shiftRight_Un u n).msb = false := by
  show (u >>> n).msb = false
  rw [BitVec.msb_ushiftRight, h, Bool.and_false]

theorem shifted_of_msb (h : u.msb = false) (n : ℕ) :
    shifted (shiftRightOp isSigned) u n = shifted .shiftRight_Un u n := by
  cases isSigned with
  | true => exact BitVec.sshiftRight_eq_of_msb_false h
  | false => rfl

theorem divided_twoPow_of_msb (h : u.msb = false) {n : ℕ} (hn : n < w) :
    divided isSigned u (BitVec.twoPow w n) = shifted .shiftRight_Un u n := by
  have hudiv : u.udiv (BitVec.twoPow w n) = u >>> n := divided_twoPow u hn
  cases isSigned with
  | false => exact hudiv
  | true =>
    show u.sdiv (BitVec.twoPow w n) = u >>> n
    rw [BitVec.sdiv_eq, h]
    cases hmsb : (BitVec.twoPow w n).msb with
    | false => exact hudiv
    | true =>
      obtain rfl : n = w - 1 := by simpa [BitVec.msb_twoPow, hn] using hmsb
      have hzero : u >>> (w - 1) = 0 := by
        refine BitVec.eq_of_toNat_eq ?_
        rw [BitVec.toNat_ushiftRight, Nat.shiftRight_eq_div_pow]
        refine Nat.div_eq_of_lt ?_
        have hlt := BitVec.msb_eq_false_iff_two_mul_lt.mp h
        have hpow : 2 ^ w = 2 * 2 ^ (w - 1) := by
          rw [← Nat.pow_succ', Nat.succ_eq_add_one, Nat.sub_add_cancel (by omega)]
        omega
      show -u.udiv (-BitVec.intMin w) = u >>> (w - 1)
      rw [BitVec.neg_intMin]
      exact (congrArg (- ·) (hudiv.trans hzero)).trans (neg_zero.trans hzero.symm)

end
end VSharp
