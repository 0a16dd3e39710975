import Mathlib.Algebra.BigOperators.Group.List.Basic
import Mathlib.Data.Nat.ModEq

/-! One's-complement arithmetic on words with the values 0 to `m`: an addition with end-around
carry, and the word that stands for a natural number. A number other than zero never becomes
the zero word, although `m` counts as zero too. -/

namespace Mios.Lib.Ones

variable {m a b n q r : Nat}

/-- Addition with end-around carry. -/
def add (m a b : Nat) : Nat := if a + b ≤ m then a + b else a + b - m

/-- The word for `n`. -/
def norm (m n : Nat) : Nat := if n = 0 then 0 else (n - 1) % m + 1

theorem norm_zero : norm m 0 = 0 := if_pos rfl

theorem norm_succ : norm m (n + 1) = n % m + 1 := if_neg (Nat.succ_ne_zero n)

theorem norm_of_le (h : n ≤ m) : norm m n = n := by
  cases n with
  | zero => exact norm_zero
  | succ n => rw [norm_succ, Nat.mod_eq_of_lt h]

theorem norm_le (hm : 0 < m) : norm m n ≤ m := by
  cases n with
  | zero => exact Nat.zero_le _
  | succ n => exact norm_succ ▸ Nat.mod_lt n hm

/-- Two numbers have the same word if they are congruent and both zero or both not. -/
theorem norm_inj : norm m a = norm m b ↔ a % m = b % m ∧ (a = 0 ↔ b = 0) := by
  have hpred (a b : Nat) : a % m = b % m ↔ (a + 1) % m = (b + 1) % m :=
    ⟨fun h => Nat.ModEq.add_right 1 h, fun h => Nat.ModEq.add_right_cancel' 1 h⟩
  cases a with
  | zero => cases b <;> simp [norm_zero, norm_succ]
  | succ a =>
    cases b with
    | zero => simp [norm_zero, norm_succ]
    | succ b => rw [norm_succ, norm_succ, Nat.add_right_cancel_iff, hpred a b]; simp

/-- A carry out of the word counts as one. -/
theorem norm_carry : norm m ((m + 1) * q + r) = norm m (q + r) := by
  cases hs : q + r with
  | zero =>
    obtain ⟨rfl, rfl⟩ := Nat.add_eq_zero_iff.mp hs
    rfl
  | succ s =>
    have hsum : (m + 1) * q + r = m * q + s + 1 := by
      rw [Nat.add_mul, Nat.one_mul, Nat.add_assoc, hs, Nat.add_assoc]
    rw [hsum, norm_succ, norm_succ, Nat.mul_add_mod]

theorem add_norm (hm : 0 < m) (hb : b ≤ m) : add m (norm m a) b = norm m (a + b) := by
  cases a with
  | zero => rw [norm_zero, add, Nat.zero_add, if_pos hb, norm_of_le hb]
  | succ a =>
    have hlt := Nat.mod_lt a hm
    have hsplit : a + b = m * (a / m) + (a % m + b) := by
      rw [← Nat.add_assoc, Nat.div_add_mod]
    rw [norm_succ, Nat.add_right_comm a 1 b, norm_succ, hsplit, Nat.mul_add_mod, add]
    generalize a % m = t at hlt
    by_cases hle : t + 1 + b ≤ m
    · rw [if_pos hle, Nat.mod_eq_of_lt (by omega), Nat.add_right_comm]
    · rw [if_neg hle, Nat.mod_eq_sub_mod (by omega), Nat.mod_eq_of_lt (by omega)]
      omega

/-- Adding words one after the other is adding their sum. -/
theorem foldl_add (hm : 0 < m) {ws : List Nat} (hws : ∀ w ∈ ws, w ≤ m) :
    ws.foldl (add m) (norm m n) = norm m (n + ws.sum) := by
  induction ws generalizing n with
  | nil => rfl
  | cons w ws ih =>
    rw [List.foldl_cons, add_norm hm (hws w (.head _)),
      ih fun v hv => hws v (.tail _ hv), List.sum_cons, Nat.add_assoc]

end Mios.Lib.Ones
