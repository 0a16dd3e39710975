import Mathlib.Data.List.Basic

/-! Memory as a function from addresses to bytes: what a range holds, a store into a range, and
copies that may overlap. -/

namespace Mios.Lib.Mem

open Function List

variable {α : Type}

/-- The `n` bytes from `a` on. -/
def read (m : Nat → α) (a n : Nat) : List α := (List.range n).map fun i => m (a + i)

def write (m : Nat → α) (a : Nat) (bs : List α) : Nat → α :=
  fun i => if a ≤ i then bs[i - a]?.getD (m i) else m i

variable {m m' : Nat → α} {a b n k : Nat} {bs : List α}

@[simp] theorem length_read : (read m a n).length = n := by simp [read]

@[simp] theorem read_zero : read m a 0 = [] := rfl

theorem read_succ : read m a (n + 1) = m a :: read m (a + 1) n := by
  simp only [read, range_succ_eq_map, map_cons, map_map, Nat.add_zero]
  congr 1
  refine map_congr_left fun i _ => ?_
  rw [comp_apply, Nat.add_right_comm, Nat.add_assoc a i 1]

theorem read_add : read m a (n + k) = read m a n ++ read m (a + n) k := by
  simp only [read, range_add, map_append, map_map]
  congr 1
  refine map_congr_left fun i _ => ?_
  rw [comp_apply, Nat.add_assoc]

theorem getElem?_read {i : Nat} (h : i < n) : (read m a n)[i]? = some (m (a + i)) := by
  simp [read, h]

theorem take_read : (read m a n).take k = read m a (min k n) := by
  rcases Nat.le_total k n with h | h
  · obtain ⟨j, rfl⟩ := Nat.exists_eq_add_of_le h
    rw [read_add, take_left' length_read, Nat.min_eq_left h]
  · rw [take_of_length_le (by simpa using h), Nat.min_eq_right h]

theorem drop_read : (read m a n).drop k = read m (a + k) (n - k) := by
  rcases Nat.le_total k n with h | h
  · obtain ⟨j, rfl⟩ := Nat.exists_eq_add_of_le h
    rw [read_add, drop_left' length_read, Nat.add_sub_cancel_left]
  · rw [drop_eq_nil_of_le (by simpa using h), Nat.sub_eq_zero_of_le h, read_zero]

theorem read_congr (h : ∀ i, a ≤ i → i < a + n → m' i = m i) : read m' a n = read m a n := by
  refine map_congr_left fun i hi => ?_
  have hi := mem_range.mp hi
  exact h (a + i) (Nat.le_add_right _ _) (Nat.add_lt_add_left hi _)

theorem write_nil : write m a [] = m := by
  funext i
  simp [write]

theorem write_of_lt {i : Nat} (h : i < a) : write m a bs i = m i :=
  if_neg (Nat.not_le.mpr h)

theorem write_of_ge {i : Nat} (h : a + bs.length ≤ i) : write m a bs i = m i := by
  have hle : bs.length ≤ i - a := by omega
  simp [write, List.getElem?_eq_none hle]

theorem read_write_of_disjoint (h : b + n ≤ a ∨ a + bs.length ≤ b) :
    read (write m a bs) b n = read m b n := by
  refine read_congr fun i hb hi => ?_
  rcases h with h | h
  · exact write_of_lt (by omega)
  · exact write_of_ge (by omega)

theorem read_write_self (m : Nat → α) (a : Nat) (bs : List α) :
    read (write m a bs) a bs.length = bs := by
  refine ext_getElem? fun i => ?_
  by_cases h : i < bs.length
  · rw [getElem?_read h]
    simp [write, h]
  · rw [List.getElem?_eq_none (by simpa using h), List.getElem?_eq_none (by simpa using h)]

/-- What was there before, and then what was stored behind it. -/
theorem read_write_behind (m : Nat → α) (a n : Nat) (bs : List α) :
    read (write m (a + n) bs) a (n + bs.length) = read m a n ++ bs := by
  rw [read_add, read_write_of_disjoint (.inl (Nat.le_refl _)), read_write_self]

/-! ## Copies -/

theorem write_read_apply (m m' : Nat → α) (d s n i : Nat) :
    write m d (read m' s n) i = if d ≤ i ∧ i < d + n then m' (s + (i - d)) else m i := by
  by_cases h : d ≤ i
  · by_cases hlt : i < d + n
    · rw [if_pos ⟨h, hlt⟩, write, if_pos h, getElem?_read (by omega), Option.getD_some]
    · rw [if_neg (by omega), write_of_ge (by rw [length_read]; omega)]
  · rw [if_neg (by omega), write_of_lt (by omega)]

/-- A copy that goes on where another one has got to, or before. -/
theorem write_read_cover (m : Nat → α) (d s : Nat) {j : Nat} (hj : j ≤ k) (hk : k ≤ j + n) :
    write (write m d (read m s k)) (d + j) (read m (s + j) n) = write m d (read m s (j + n)) := by
  funext i
  simp only [write_read_apply]
  by_cases h1 : d + j ≤ i ∧ i < d + j + n
  · rw [if_pos h1, if_pos (by omega)]
    congr 1
    omega
  · rw [if_neg h1]
    by_cases h2 : d ≤ i ∧ i < d + k
    · rw [if_pos h2, if_pos (by omega)]
    · rw [if_neg h2, if_neg (by omega)]

/-- A copy byte by byte, from the first one on. -/
def byteCopy : (Nat → α) → Nat → Nat → Nat → Nat → α
  | m, _, _, 0 => m
  | m, d, s, n + 1 => byteCopy (update m d (m s)) (d + 1) (s + 1) n

theorem write_cons (v : α) : write m a (v :: bs) = write (update m a v) (a + 1) bs := by
  funext i
  rcases Nat.lt_trichotomy i a with h | h | h
  · rw [write_of_lt h, write_of_lt (Nat.lt_succ_of_lt h), update_of_ne (Nat.ne_of_lt h)]
  · subst h
    rw [write_of_lt (Nat.lt_succ_self _), update_self]
    simp [write]
  · obtain ⟨j, rfl⟩ := Nat.exists_eq_add_of_lt h
    have hj : a + j + 1 - a = j + 1 := by omega
    have hj' : a + j + 1 - (a + 1) = j := by omega
    have hne : a + j + 1 ≠ a := by omega
    simp only [write, if_pos (Nat.le_of_lt h), if_pos (show a + 1 ≤ a + j + 1 by omega), hj, hj',
      List.getElem?_cons_succ, update_of_ne hne]

/-- Towards lower addresses such a copy may overlap. -/
theorem byteCopy_eq {d s : Nat} (h : d ≤ s ∨ s + n ≤ d) :
    byteCopy m d s n = write m d (read m s n) := by
  induction n generalizing m d s with
  | zero =>
    funext i
    simp [byteCopy, write]
  | succ n ih =>
    have hread : read (update m d (m s)) (s + 1) n = read m (s + 1) n := by
      refine read_congr fun i hi hlt => update_of_ne ?_ _ _
      omega
    rw [byteCopy, ih (by omega), hread, read_succ, write_cons]

end Mios.Lib.Mem
