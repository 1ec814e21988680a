import Mathlib.Algebra.Order.BigOperators.GroupWithZero.List
import Mathlib.Algebra.Order.Ring.Int

/-!
# Library — MixedRadix

Numbers written with a digit for each of a list of bases, the last digit counting fastest.

- `number` is the number of a list of digits, `digits` are the digits of a number;
- they are inverse to each other between the digits below their bases and the numbers below the
  product of the bases (`digits_number`, `number_digits`).
-/

namespace MixedRadix
open List

/-- Every digit is below its base. -/
inductive Digits : List ℤ → List ℤ → Prop where
  | nil : Digits [] []
  | cons {b d : ℤ} {bases digits : List ℤ} (hd : 0 ≤ d ∧ d < b) (hds : Digits bases digits) :
      Digits (b :: bases) (d :: digits)

/-- The number with these digits. -/
def number : List ℤ → List ℤ → ℤ
  | _ :: bases, d :: digits => d * bases.prod + number bases digits
  | _, _ => 0

/-- The digits of a number. -/
def digits : List ℤ → ℤ → List ℤ
  | [], _ => []
  | _ :: bases, n => n / bases.prod :: digits bases (n % bases.prod)

variable {b n : ℤ} {bases ds : List ℤ}

theorem prod_pos (h : ∀ b ∈ bases, 1 ≤ b) : 0 < bases.prod :=
  List.prod_pos fun b hb => h b hb

section
variable (h : Digits bases ds)

include h

theorem Digits.one_le : ∀ b ∈ bases, 1 ≤ b := by
  induction h with
  | nil => exact nofun
  | cons hd _ ih => exact forall_mem_cons.mpr ⟨by omega, ih⟩

theorem Digits.length_eq : ds.length = bases.length := by
  induction h with
  | nil => rfl
  | cons _ _ ih => exact congrArg Nat.succ ih

theorem Digits.number_nonneg : 0 ≤ number bases ds := by
  induction h with
  | nil => exact Int.le_refl 0
  | cons hd hds ih =>
    have hpos := prod_pos hds.one_le
    exact Int.add_nonneg (Int.mul_nonneg hd.1 hpos.le) ih

theorem Digits.number_lt : number bases ds < bases.prod := by
  induction h with
  | nil => exact Int.one_pos
  | @cons b d bases ds hd hds ih =>
    have hpos := prod_pos hds.one_le
    have hle : (d + 1) * bases.prod ≤ b * bases.prod :=
      Int.mul_le_mul_of_nonneg_right (by omega) hpos.le
    rw [number, prod_cons]
    rw [Int.add_mul, Int.one_mul] at hle
    omega

theorem digits_number : digits bases (number bases ds) = ds := by
  induction h with
  | nil => rfl
  | @cons b d bases ds hd hds ih =>
    have hpos := prod_pos hds.one_le
    have hlt := hds.number_lt
    have hnonneg := hds.number_nonneg
    have hdiv : (d * bases.prod + number bases ds) / bases.prod = d := by
      rw [Int.add_comm, Int.add_mul_ediv_right _ _ hpos.ne', Int.ediv_eq_zero_of_lt hnonneg hlt,
        Int.zero_add]
    have hmod : (d * bases.prod + number bases ds) % bases.prod = number bases ds := by
      rw [Int.add_comm, Int.add_mul_emod_self_right, Int.emod_eq_of_lt hnonneg hlt]
    rw [number, digits, hdiv, hmod, ih]

end

theorem digits_spec (h : ∀ b ∈ bases, 1 ≤ b) (hn : 0 ≤ n) (hlt : n < bases.prod) :
    Digits bases (digits bases n) := by
  induction bases generalizing n with
  | nil => exact .nil
  | cons b bases ih =>
    obtain ⟨-, hbases⟩ := forall_mem_cons.mp h
    have hpos := prod_pos hbases
    rw [prod_cons] at hlt
    refine .cons ⟨Int.ediv_nonneg hn hpos.le, ?_⟩ ?_
    · exact Int.ediv_lt_of_lt_mul hpos hlt
    · exact ih hbases (Int.emod_nonneg n hpos.ne') (Int.emod_lt_of_pos n hpos)

theorem number_digits (h : ∀ b ∈ bases, 1 ≤ b) (hn : 0 ≤ n) (hlt : n < bases.prod) :
    number bases (digits bases n) = n := by
  induction bases generalizing n with
  | nil =>
    have hzero : n = 0 := by
      rw [prod_nil] at hlt
      omega
    exact hzero.symm
  | cons b bases ih =>
    obtain ⟨-, hbases⟩ := forall_mem_cons.mp h
    have hpos := prod_pos hbases
    rw [digits, number, ih hbases (Int.emod_nonneg n hpos.ne') (Int.emod_lt_of_pos n hpos)]
    exact Int.ediv_mul_add_emod n bases.prod

theorem digits_zero (bases : List ℤ) : ∀ d ∈ digits bases 0, d = 0 := by
  induction bases with
  | nil => exact nofun
  | cons b bases ih =>
    rw [digits, Int.zero_ediv, Int.zero_emod]
    exact forall_mem_cons.mpr ⟨rfl, ih⟩

end MixedRadix
