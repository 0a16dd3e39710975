import Mathlib.Algebra.Order.Group.Nat
import Mios.Crc32

/-! Numbers as bytes: the most significant one first, and the least significant one first in as many
bytes as they need. -/

namespace Mios.Lib

def number (bs : List Byte) : Nat := bs.foldl (fun v b => 256 * v + b.toNat) 0

/-- The low `k` bytes of a number. -/
def littleEndian : Nat → Nat → List Byte
  | 0, _ => []
  | k + 1, n => BitVec.ofNat 8 n :: littleEndian k (n / 256)

/-- How many bytes a number has, looking at no more than `fuel` of them. -/
def byteCount : Nat → Nat → Nat
  | 0, _ => 0
  | fuel + 1, n => if n = 0 then 0 else byteCount fuel (n / 256) + 1

/-- The bytes of a number of up to eight bytes. -/
def varBytes (n : Nat) : List Byte := littleEndian (byteCount 8 n) n

@[simp] theorem length_littleEndian (k n : Nat) : (littleEndian k n).length = k := by
  induction k generalizing n with
  | zero => rfl
  | succ k ih => rw [littleEndian, List.length_cons, ih]

theorem number_concat (bs : List Byte) (b : Byte) :
    number (bs ++ [b]) = 256 * number bs + b.toNat := by
  rw [number, List.foldl_append]
  rfl

theorem number_littleEndian (k n : Nat) : number (littleEndian k n).reverse = n % 256 ^ k := by
  induction k generalizing n with
  | zero => rw [Nat.pow_zero, Nat.mod_one]; rfl
  | succ k ih =>
    have hpow : 256 ^ (k + 1) = 256 * 256 ^ k := Nat.pow_succ'
    rw [littleEndian, List.reverse_cons, number_concat, ih, BitVec.toNat_ofNat, hpow, Nat.mod_mul]
    exact Nat.add_comm _ _

theorem byteCount_le {k n : Nat} (fuel : Nat) (h : n < 256 ^ k) : byteCount fuel n ≤ k := by
  induction k generalizing fuel n with
  | zero => cases fuel <;> simp_all [byteCount]
  | succ k ih =>
    cases fuel with
    | zero => exact Nat.zero_le _
    | succ fuel =>
      rw [byteCount]
      split
      · exact Nat.zero_le _
      · refine Nat.succ_le_succ (ih fuel (Nat.div_lt_of_lt_mul ?_))
        rwa [← Nat.pow_succ']

theorem lt_pow_byteCount {fuel n : Nat} (h : n < 256 ^ fuel) : n < 256 ^ byteCount fuel n := by
  induction fuel generalizing n with
  | zero => exact h
  | succ fuel ih =>
    rw [byteCount]
    split
    · next h0 => rw [h0]; exact Nat.one_pos
    · have hrest := ih (Nat.div_lt_of_lt_mul (by rwa [← Nat.pow_succ']))
      rw [Nat.pow_succ']
      omega

theorem length_varBytes_le {k n : Nat} (h : n < 256 ^ k) : (varBytes n).length ≤ k := by
  rw [varBytes, length_littleEndian]
  exact byteCount_le 8 h

theorem number_varBytes {n : Nat} (h : n < 256 ^ 8) : number (varBytes n).reverse = n := by
  rw [varBytes, number_littleEndian, Nat.mod_eq_of_lt (lt_pow_byteCount h)]

end Mios.Lib
