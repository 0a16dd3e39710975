import Mathlib.Algebra.Order.Group.Nat

/-! Words and the numbers they stand for: rounding with a mask, and comparisons of words that
were computed modulo the word size. -/

namespace Mios.Lib.Word

open BitVec

variable {w k : Nat}

theorem toNat_one_of_lt (hk : k < w) : (1 : BitVec w).toNat = 1 := toNat_one (by omega)

theorem toNat_two_pow (hk : k < w) : (BitVec.ofNat w (2 ^ k)).toNat = 2 ^ k := by
  rw [toNat_ofNat, Nat.mod_eq_of_lt (Nat.pow_lt_pow_right (by decide) hk)]

theorem two_pow_sub_one (hk : k < w) : BitVec.ofNat w (2 ^ k) - 1 = BitVec.ofNat w (2 ^ k - 1) := by
  apply eq_of_toNat_eq
  have hlt : 2 ^ k < 2 ^ w := Nat.pow_lt_pow_right (by decide) hk
  have hpos : 0 < 2 ^ k := Nat.two_pow_pos k
  have hle : (1 : BitVec w) ≤ BitVec.ofNat w (2 ^ k) := by
    rw [le_def, toNat_one_of_lt hk, toNat_two_pow hk]
    exact hpos
  rw [toNat_sub_of_le hle, toNat_one_of_lt hk, toNat_two_pow hk, toNat_ofNat,
    Nat.mod_eq_of_lt (by omega)]

/-- Masking the low bits is a shift down and up again. -/
theorem and_not_low (x : BitVec w) (hk : k < w) :
    x &&& ~~~(BitVec.ofNat w (2 ^ k) - 1) = (x >>> k) <<< k := by
  rw [two_pow_sub_one hk]
  apply eq_of_getLsbD_eq
  intro i hi
  rw [getLsbD_and, getLsbD_not, getLsbD_ofNat, Nat.testBit_two_pow_sub_one,
    getLsbD_shiftLeft, getLsbD_ushiftRight]
  by_cases hik : i < k
  · simp [hi, hik]
  · simp [hi, hik, Nat.add_sub_cancel' (Nat.le_of_not_lt hik)]

/-- Masking the low bits rounds down. -/
theorem toNat_and_not_low (x : BitVec w) (hk : k < w) :
    (x &&& ~~~(BitVec.ofNat w (2 ^ k) - 1)).toNat = x.toNat / 2 ^ k * 2 ^ k := by
  have hle : x.toNat / 2 ^ k * 2 ^ k < 2 ^ w := Nat.lt_of_le_of_lt (Nat.div_mul_le_self _ _) x.isLt
  rw [and_not_low x hk, toNat_shiftLeft, toNat_ushiftRight,
    Nat.shiftRight_eq_div_pow, Nat.shiftLeft_eq, Nat.mod_eq_of_lt hle]

/-- Rounding up to a power of two, where the sum does not wrap. -/
theorem toNat_align {x : BitVec w} (hk : k < w) (h : x.toNat + 2 ^ k ≤ 2 ^ w) :
    ((x + BitVec.ofNat w (2 ^ k) - 1) &&& ~~~(BitVec.ofNat w (2 ^ k) - 1)).toNat =
      (x.toNat + 2 ^ k - 1) / 2 ^ k * 2 ^ k := by
  have hpos : 0 < 2 ^ k := Nat.two_pow_pos k
  have hsum : (x + BitVec.ofNat w (2 ^ k) - 1).toNat = x.toNat + 2 ^ k - 1 := by
    rw [toNat_sub, toNat_add, toNat_two_pow hk, toNat_one_of_lt hk]
    rcases Nat.eq_or_lt_of_le h with heq | hlt
    · rw [heq, Nat.mod_self, Nat.add_zero, Nat.mod_eq_of_lt (by omega)]
    · rw [Nat.mod_eq_of_lt hlt, show 2 ^ w - 1 + (x.toNat + 2 ^ k) =
        2 ^ w + (x.toNat + 2 ^ k - 1) by omega, Nat.add_mod_left, Nat.mod_eq_of_lt (by omega)]
  rw [toNat_and_not_low _ hk, hsum]

/-- Clearing one bit rounds down to the next power of two, if the bits below it are clear. -/
theorem toNat_and_not_two_pow {x : BitVec w} (h : 2 ^ k ∣ x.toNat) :
    (x &&& ~~~BitVec.ofNat w (2 ^ k)).toNat = x.toNat / 2 ^ (k + 1) * 2 ^ (k + 1) := by
  obtain ⟨y, hy⟩ := h
  have hlow : ∀ i < k, x.getLsbD i = false := by
    intro i hi
    rw [← testBit_toNat, hy, Nat.testBit_two_pow_mul]
    simp [Nat.not_le.mpr hi]
  apply Nat.eq_of_testBit_eq
  intro i
  rw [testBit_toNat, getLsbD_and, getLsbD_not, getLsbD_ofNat, Nat.testBit_two_pow,
    Nat.testBit_mul_two_pow, Nat.testBit_div_two_pow]
  by_cases hik : k + 1 ≤ i
  · have hne : k ≠ i := by omega
    by_cases hiw : i < w
    · simp [hik, hne, hiw, testBit_toNat]
    · simp [hik, hne, hiw, testBit_toNat, getLsbD_of_ge x i (by omega)]
  · by_cases heq : k = i
    · by_cases hiw : i < w <;> simp [heq, hiw]
    · simp [hik, hlow i (by omega)]

theorem dvd_toNat_and {x y : BitVec w} (h : 2 ^ k ∣ x.toNat) : 2 ^ k ∣ (x &&& y).toNat := by
  apply Nat.dvd_of_mod_eq_zero
  rw [toNat_and, Nat.and_mod_two_pow, Nat.mod_eq_zero_of_dvd h, Nat.zero_and]

/-! ## Signed comparisons -/

/-- A sum is compared as a signed word the way its number is, if neither it nor the word leaves the
lower half, or if the sum starts in the upper half and wraps into the lower one at most. -/
theorem slt_add_iff {x y n : BitVec w} (hw : 0 < w)
    (h : x.toNat + y.toNat < 2 ^ (w - 1) ∧ n.toNat < 2 ^ (w - 1) ∨
      2 ^ (w - 1) ≤ x.toNat ∧ 2 ^ (w - 1) ≤ n.toNat ∧
        x.toNat + y.toNat < 2 ^ w + 2 ^ (w - 1)) :
    n.slt (x + y) = true ↔ n.toNat < x.toNat + y.toNat := by
  have hhalf : 2 ^ w = 2 * 2 ^ (w - 1) := by
    rw [← Nat.pow_succ', Nat.succ_eq_add_one, Nat.sub_add_cancel hw]
  rw [BitVec.slt, decide_eq_true_iff, toInt_eq_toNat_cond, toInt_eq_toNat_cond,
    toNat_add]
  by_cases hwrap : x.toNat + y.toNat < 2 ^ w
  · rw [Nat.mod_eq_of_lt hwrap]
    split <;> split <;> omega
  · have hmod : (x.toNat + y.toNat) % 2 ^ w = x.toNat + y.toNat - 2 ^ w := by
      rw [Nat.mod_eq_sub_mod (by omega), Nat.mod_eq_of_lt (by omega)]
    rw [hmod]
    split <;> split <;> omega

end Mios.Lib.Word
