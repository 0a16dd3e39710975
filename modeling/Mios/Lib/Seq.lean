import Mathlib.Data.Nat.Basic

/-! Sequence numbers of 32 bits. A number is as far behind another as their difference says; a
signed difference tells the order of two numbers that are less than half the space apart. -/

namespace Mios.Lib.Seq

variable {a b c : BitVec 32}

theorem eq_of_sub_eq_zero (h : a - b = 0) : a = b := by
  bv_omega

theorem add_sub_cancel (a b : BitVec 32) : a + (b - a) = b := by
  bv_omega

theorem toNat_sub_eq_zero : (b - a).toNat = 0 ↔ b = a := by
  constructor
  · intro h
    bv_omega
  · rintro rfl
    bv_omega

theorem dist_self (a : BitVec 32) : (a - a).toNat = 0 := by
  rw [BitVec.sub_self]
  rfl

/-- Distances add up while they do not go around. -/
theorem dist_add (h : (b - a).toNat + (c - b).toNat < 4294967296) :
    (c - a).toNat = (b - a).toNat + (c - b).toNat := by
  bv_omega

/-- A number between two others splits their distance. -/
theorem dist_split (h : (b - a).toNat ≤ (c - a).toNat) :
    (c - b).toNat = (c - a).toNat - (b - a).toNat := by
  bv_omega

theorem dist_add_ofNat {n : Nat} (h : (b - a).toNat + n < 4294967296) :
    (b + BitVec.ofNat 32 n - a).toNat = (b - a).toNat + n := by
  bv_omega

theorem dist_succ (h : (b - a).toNat + 1 < 4294967296) : (b + 1 - a).toNat = (b - a).toNat + 1 := by
  bv_omega

/-! ## Signed differences -/

theorem toInt_nonneg {x : BitVec 32} : 0 ≤ x.toInt ↔ x.toNat < 2147483648 := by
  rw [BitVec.toInt_eq_toNat_cond]
  split <;> omega

theorem toInt_pos {x : BitVec 32} : 0 < x.toInt ↔ 0 < x.toNat ∧ x.toNat < 2147483648 := by
  rw [BitVec.toInt_eq_toNat_cond]
  split <;> omega

theorem toInt_eq_zero {x : BitVec 32} : x.toInt = 0 ↔ x = 0 := by
  constructor
  · intro h
    exact BitVec.toInt_inj.mp (h.trans rfl)
  · rintro rfl
    rfl

/-- What is neither before `a` nor behind `c` is between them. -/
theorem between (h1 : 0 ≤ (b - a).toInt) (h2 : 0 ≤ (c - b).toInt) :
    (b - a).toNat + (c - b).toNat = (c - a).toNat := by
  rw [toInt_nonneg] at h1 h2
  exact (dist_add (by omega)).symm

end Mios.Lib.Seq
