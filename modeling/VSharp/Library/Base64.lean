import Mathlib.Data.Nat.Notation

/-!
# Library — Base64

Bytes as characters that stand for six bits each, four characters for three bytes.  A character is
its code.  `decode` reads what `encode` writes, and takes any bits for those that a padded group does
not use.
-/

namespace VSharp.Library.Base64

/-- The character of six bits: `A` to `Z`, `a` to `z`, `0` to `9`, `+` and `/`. -/
def digit (v : ℕ) : ℕ :=
  if v < 26 then 65 + v
  else if v < 52 then 71 + v
  else if v < 62 then v - 4
  else if v = 62 then 43
  else 47

/-- The six bits of a character. -/
def value (c : ℕ) : Option ℕ :=
  if 65 ≤ c ∧ c ≤ 90 then some (c - 65)
  else if 97 ≤ c ∧ c ≤ 122 then some (c - 71)
  else if 48 ≤ c ∧ c ≤ 57 then some (c + 4)
  else if c = 43 then some 62
  else if c = 47 then some 63
  else none

/-- `=`. -/
def padding : ℕ := 61

def encode : List (BitVec 8) → List ℕ
  | [] => []
  | [a] => [digit (a.toNat / 4), digit (a.toNat % 4 * 16), padding, padding]
  | [a, b] =>
    [digit (a.toNat / 4), digit (a.toNat % 4 * 16 + b.toNat / 16), digit (b.toNat % 16 * 4),
      padding]
  | a :: b :: c :: bytes =>
    digit (a.toNat / 4) :: digit (a.toNat % 4 * 16 + b.toNat / 16) ::
      digit (b.toNat % 16 * 4 + c.toNat / 64) :: digit (c.toNat % 64) :: encode bytes

/-- The first byte of a group. -/
def firstByte (v₀ v₁ : ℕ) : BitVec 8 := BitVec.ofNat 8 (v₀ * 4 + v₁ / 16)

/-- The second byte of a group. -/
def secondByte (v₁ v₂ : ℕ) : BitVec 8 := BitVec.ofNat 8 (v₁ % 16 * 16 + v₂ / 4)

/-- The third byte of a group. -/
def thirdByte (v₂ v₃ : ℕ) : BitVec 8 := BitVec.ofNat 8 (v₂ % 4 * 64 + v₃)

/-- Only the last group may be padded. -/
def decode : List ℕ → Option (List (BitVec 8))
  | [] => some []
  | c₀ :: c₁ :: c₂ :: c₃ :: chars =>
    if chars = [] ∧ c₃ = padding then
      if c₂ = padding then do
        let v₀ ← value c₀
        let v₁ ← value c₁
        some [firstByte v₀ v₁]
      else do
        let v₀ ← value c₀
        let v₁ ← value c₁
        let v₂ ← value c₂
        some [firstByte v₀ v₁, secondByte v₁ v₂]
    else do
      let v₀ ← value c₀
      let v₁ ← value c₁
      let v₂ ← value c₂
      let v₃ ← value c₃
      let bytes ← decode chars
      some (firstByte v₀ v₁ :: secondByte v₁ v₂ :: thirdByte v₂ v₃ :: bytes)
  | _ => none

theorem value_digit {v : ℕ} (h : v < 64) : value (digit v) = some v := by
  have hall : ∀ v : Fin 64, value (digit v) = some (v : ℕ) := by decide
  exact hall ⟨v, h⟩

theorem digit_ne_padding {v : ℕ} (h : v < 64) : digit v ≠ padding := by
  have hall : ∀ v : Fin 64, digit v ≠ padding := by decide
  exact hall ⟨v, h⟩

theorem digit_range {v : ℕ} (h : v < 64) : 43 ≤ digit v ∧ digit v ≤ 122 := by
  have hall : ∀ v : Fin 64, 43 ≤ digit v ∧ digit v ≤ 122 := by decide
  exact hall ⟨v, h⟩

theorem ofNat_eq {b : BitVec 8} {n : ℕ} (h : n = b.toNat) : BitVec.ofNat 8 n = b := by
  rw [h, BitVec.ofNat_toNat, BitVec.setWidth_eq]

theorem decode_encode (bytes : List (BitVec 8)) : decode (encode bytes) = some bytes := by
  induction bytes using encode.induct with
  | case1 => rfl
  | case2 a =>
    have ha := a.isLt
    have hfirst : firstByte (a.toNat / 4) (a.toNat % 4 * 16) = a := ofNat_eq (by omega)
    rw [encode, decode, if_pos ⟨rfl, rfl⟩, if_pos rfl, value_digit (by omega),
      value_digit (by omega)]
    show some [firstByte _ _] = _
    rw [hfirst]
  | case3 a b =>
    have ha := a.isLt
    have hb := b.isLt
    have hfirst : firstByte (a.toNat / 4) (a.toNat % 4 * 16 + b.toNat / 16) = a :=
      ofNat_eq (by omega)
    have hsecond : secondByte (a.toNat % 4 * 16 + b.toNat / 16) (b.toNat % 16 * 4) = b :=
      ofNat_eq (by omega)
    rw [encode, decode, if_pos ⟨rfl, rfl⟩, if_neg (digit_ne_padding (by omega)),
      value_digit (by omega), value_digit (by omega), value_digit (by omega)]
    show some [firstByte _ _, secondByte _ _] = _
    rw [hfirst, hsecond]
  | case4 a b c bytes ih =>
    have ha := a.isLt
    have hb := b.isLt
    have hc := c.isLt
    have hfirst : firstByte (a.toNat / 4) (a.toNat % 4 * 16 + b.toNat / 16) = a :=
      ofNat_eq (by omega)
    have hsecond : secondByte (a.toNat % 4 * 16 + b.toNat / 16)
        (b.toNat % 16 * 4 + c.toNat / 64) = b := ofNat_eq (by omega)
    have hthird : thirdByte (b.toNat % 16 * 4 + c.toNat / 64) (c.toNat % 64) = c :=
      ofNat_eq (by omega)
    rw [encode, decode, if_neg fun h => digit_ne_padding (by omega) h.2, value_digit (by omega),
      value_digit (by omega), value_digit (by omega), value_digit (by omega), ih]
    show some (firstByte _ _ :: secondByte _ _ :: thirdByte _ _ :: _) = _
    rw [hfirst, hsecond, hthird]

/-- No character is a control character or a blank, and all are ASCII. -/
theorem encode_range {bytes : List (BitVec 8)} : ∀ c ∈ encode bytes, 43 ≤ c ∧ c ≤ 122 := by
  have hpadding : 43 ≤ padding ∧ padding ≤ 122 := by decide
  induction bytes using encode.induct with
  | case1 => exact nofun
  | case2 a =>
    have ha := a.isLt
    simp only [encode, List.forall_mem_cons]
    exact ⟨digit_range (by omega), digit_range (by omega), hpadding, hpadding, nofun⟩
  | case3 a b =>
    have ha := a.isLt
    have hb := b.isLt
    simp only [encode, List.forall_mem_cons]
    exact ⟨digit_range (by omega), digit_range (by omega), digit_range (by omega), hpadding, nofun⟩
  | case4 a b c bytes ih =>
    have ha := a.isLt
    have hb := b.isLt
    have hc := c.isLt
    simp only [encode, List.forall_mem_cons]
    exact ⟨digit_range (by omega), digit_range (by omega), digit_range (by omega),
      digit_range (by omega), ih⟩

end VSharp.Library.Base64
