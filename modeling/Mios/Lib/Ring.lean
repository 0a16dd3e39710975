import Mios.Lib.Mem

/-! A ring in memory: positions count up for ever and are taken modulo the size. What is stored
behind the content is content, as long as it fits. -/

namespace Mios.Lib.Ring

open List

variable {α : Type} {m : Nat → α} {base size p n k : Nat} {bs : List α}

/-- The `n` bytes from the position `p` on, in the ring of `size` bytes at `base`. -/
def read (m : Nat → α) (base size p n : Nat) : List α :=
  (List.range n).map fun i => m (base + (p + i) % size)

/-- A store from the position `p` on, in two parts if it goes around the end. -/
def write (m : Nat → α) (base size p : Nat) (bs : List α) : Nat → α :=
  if p % size + bs.length ≤ size then Mem.write m (base + p % size) bs
  else Mem.write (Mem.write m (base + p % size) (bs.take (size - p % size))) base
    (bs.drop (size - p % size))

@[simp] theorem length_read : (read m base size p n).length = n := by simp [read]

@[simp] theorem read_zero : read m base size p 0 = [] := rfl

theorem getElem?_read {i : Nat} (h : i < n) :
    (read m base size p n)[i]? = some (m (base + (p + i) % size)) := by
  simp [read, h]

theorem read_add (k : Nat) :
    read m base size p (n + k) = read m base size p n ++ read m base size (p + n) k := by
  simp only [read, range_add, map_append, map_map]
  congr 1
  refine map_congr_left fun i _ => ?_
  rw [Function.comp_apply, Nat.add_assoc]

/-- Content in two parts. -/
theorem read_append {bs' : List α} (h : read m base size p (bs ++ bs').length = bs ++ bs') :
    read m base size p bs.length = bs ∧ read m base size (p + bs.length) bs'.length = bs' := by
  rw [length_append, read_add] at h
  exact append_inj h length_read

/-- Only the remainder of the position counts. -/
theorem read_congr_mod {q : Nat} (h : p % size = q % size) :
    read m base size p n = read m base size q n := by
  refine map_congr_left fun i _ => ?_
  rw [Nat.add_mod, h, ← Nat.add_mod]

theorem write_congr_mod {q : Nat} (h : p % size = q % size) :
    write m base size p bs = write m base size q bs := by
  rw [write, write, h]

theorem read_congr {m' : Nat → α} (hsize : 0 < size)
    (h : ∀ a, base ≤ a → a < base + size → m' a = m a) :
    read m' base size p n = read m base size p n := by
  refine map_congr_left fun i _ => h _ (Nat.le_add_right _ _) ?_
  exact Nat.add_lt_add_left (Nat.mod_lt _ hsize) _

theorem take_read (h : k ≤ n) : (read m base size p n).take k = read m base size p k := by
  obtain ⟨j, rfl⟩ := Nat.exists_eq_add_of_le h
  rw [read_add, take_left' length_read]

theorem drop_read (h : k ≤ n) :
    (read m base size p n).drop k = read m base size (p + k) (n - k) := by
  obtain ⟨j, rfl⟩ := Nat.exists_eq_add_of_le h
  rw [read_add, drop_left' length_read, Nat.add_sub_cancel_left]

/-- A position less than once around. -/
theorem add_mod_cases (hk : k < size) :
    p % size + k < size ∧ (p + k) % size = p % size + k ∨
      size ≤ p % size + k ∧ (p + k) % size = p % size + k - size := by
  have hlt := Nat.mod_lt p (Nat.zero_lt_of_lt hk)
  rw [Nat.add_mod, Nat.mod_eq_of_lt hk]
  rcases Nat.lt_or_ge (p % size + k) size with h | h
  · exact .inl ⟨h, Nat.mod_eq_of_lt h⟩
  · refine .inr ⟨h, ?_⟩
    rw [Nat.mod_eq_sub_mod h, Nat.mod_eq_of_lt (by omega)]

/-- In one piece. -/
theorem read_eq_of_le (h : p % size + n ≤ size) :
    read m base size p n = Mem.read m (base + p % size) n := by
  refine map_congr_left fun i hi => ?_
  have hi := mem_range.mp hi
  have hlt : i < size := by omega
  rcases add_mod_cases hlt with ⟨-, heq⟩ | ⟨hge, -⟩
  · rw [heq, Nat.add_assoc]
  · omega

/-- In two pieces, around the end. -/
theorem read_eq_of_ge (hn : n ≤ size) (h : size ≤ p % size + n) (hsize : 0 < size) :
    read m base size p n =
      Mem.read m (base + p % size) (size - p % size) ++ Mem.read m base (p % size + n - size) := by
  have hlt := Nat.mod_lt p hsize
  have hsplit : n = size - p % size + (p % size + n - size) := by omega
  have hround : (p + (size - p % size)) % size = 0 := by
    have hp := Nat.div_add_mod p size
    have hnext : p + (size - p % size) = size * (p / size + 1) := by
      rw [Nat.mul_add, Nat.mul_one]
      omega
    rw [hnext, Nat.mul_mod_right]
  conv_lhs => rw [hsplit]
  rw [read_add, read_eq_of_le (by omega), read_eq_of_le (by omega), hround, Nat.add_zero]

/-- What is where after a store. -/
theorem write_apply (hlen : bs.length ≤ size) (hk : k < size) :
    write m base size p bs (base + (p + k) % size) =
      bs[k]?.getD (m (base + (p + k) % size)) := by
  have hlt := Nat.mod_lt p (Nat.zero_lt_of_lt hk)
  rw [write]
  split
  · rcases add_mod_cases hk with ⟨hin, heq⟩ | ⟨hout, heq⟩
    · rw [heq, Mem.write, if_pos (by omega)]
      congr 2
      omega
    · rw [heq, Mem.write_of_lt (by omega), List.getElem?_eq_none (by omega), Option.getD_none]
  · rcases add_mod_cases hk with ⟨hin, heq⟩ | ⟨hout, heq⟩
    · rw [heq, Mem.write_of_ge (by rw [length_drop]; omega), Mem.write, if_pos (by omega)]
      have hidx : base + (p % size + k) - (base + p % size) = k := by omega
      rw [hidx, List.getElem?_take_of_lt (by omega)]
    · rw [heq, Mem.write, if_pos (by omega)]
      have hidx : size - p % size + (base + (p % size + k - size) - base) = k := by omega
      rw [List.getElem?_drop, hidx, Mem.write_of_lt (by omega)]

theorem write_outside {a : Nat} (hlen : bs.length ≤ size) (hsize : 0 < size)
    (h : a < base ∨ base + size ≤ a) : write m base size p bs a = m a := by
  have hlt := Nat.mod_lt p hsize
  rw [write]
  split
  · rcases h with h | h
    · exact Mem.write_of_lt (by omega)
    · exact Mem.write_of_ge (by omega)
  · rcases h with h | h
    · rw [Mem.write_of_lt h, Mem.write_of_lt (by omega)]
    · rw [Mem.write_of_ge (by rw [length_drop]; omega),
        Mem.write_of_ge (by rw [length_take]; omega)]

/-- A store reaches the positions of its bytes and no other address. -/
theorem write_cases (m : Nat → α) (base p a : Nat) (hlen : bs.length ≤ size) (hsize : 0 < size) :
    (∃ k, a = base + (p + k) % size ∧ bs[k]? = some (write m base size p bs a)) ∨
      write m base size p bs a = m a := by
  by_cases hout : a < base ∨ base + size ≤ a
  · exact .inr (write_outside hlen hsize hout)
  have hlt := Nat.mod_lt p hsize
  -- the distance of the address from the store, around the ring
  obtain ⟨k, hk, hak⟩ : ∃ k < size, a = base + (p + k) % size := by
    refine ⟨(a - base + (size - p % size)) % size, Nat.mod_lt _ hsize, ?_⟩
    rw [Nat.add_mod_mod, ← Nat.mod_add_mod,
      show p % size + (a - base + (size - p % size)) = a - base + size by omega,
      Nat.add_mod_right, Nat.mod_eq_of_lt (by omega)]
    omega
  have happly : write m base size p bs (base + (p + k) % size) = _ := write_apply hlen hk
  rw [← hak] at happly
  rcases hb : bs[k]? with _ | b
  · exact .inr (by rw [happly, hb, Option.getD_none])
  · exact .inl ⟨k, hak, by rw [happly, hb, Option.getD_some]⟩

/-- What was there before, and then what was stored behind it. -/
theorem read_write_behind (h : n + bs.length ≤ size) :
    read (write m base size (p + n) bs) base size p (n + bs.length) =
      read m base size p n ++ bs := by
  rw [read_add]
  congr 1
  · refine map_congr_left fun i hi => ?_
    have hi := mem_range.mp hi
    -- seen from the store, the content is at the other end of the ring
    have hpos : (p + n + (size - n + i)) % size = (p + i) % size := by
      rw [show p + n + (size - n + i) = p + i + size by omega, Nat.add_mod_right]
    rw [← hpos, write_apply (by omega) (by omega), List.getElem?_eq_none (by omega),
      Option.getD_none]
  · refine ext_getElem? fun i => ?_
    by_cases hi : i < bs.length
    · rw [read, List.getElem?_map, List.getElem?_range hi, Option.map_some,
        write_apply (by omega) (by omega), List.getElem?_eq_getElem hi, Option.getD_some]
    · rw [List.getElem?_eq_none (by simpa using hi), List.getElem?_eq_none (by simpa using hi)]

/-- One byte of the content is replaced. -/
theorem read_write_set {b : α} (hk : k < n) (hn : n ≤ size) :
    read (write m base size (p + k) [b]) base size p n = (read m base size p n).set k b := by
  have hlen : [b].length ≤ size := by rw [length_singleton]; omega
  refine ext_getElem? fun i => ?_
  by_cases hi : i < n
  · rw [getElem?_read hi, List.getElem?_set, length_read]
    by_cases hki : k = i
    · have h : write m base size (p + k) [b] (base + (p + k + 0) % size) = b :=
        write_apply hlen (by omega)
      rw [if_pos hki, if_pos hk, ← hki]
      exact congrArg some h
    · -- the distance from the store, around the ring
      have hmod : (p + i) % size = (p + k + (size - k + i) % size) % size := by
        rw [Nat.add_mod_mod, show p + k + (size - k + i) = p + i + size by omega, Nat.add_mod_right]
      have hne : (size - k + i) % size ≠ 0 := by
        rcases Nat.lt_or_ge i k with hlt | hge
        · rw [Nat.mod_eq_of_lt (by omega)]
          omega
        · rw [show size - k + i = i - k + size by omega, Nat.add_mod_right,
            Nat.mod_eq_of_lt (by omega)]
          omega
      rw [if_neg hki, getElem?_read hi, hmod, write_apply hlen (Nat.mod_lt _ (by omega)),
        List.getElem?_eq_none (by rw [length_singleton]; omega), Option.getD_none]
  · rw [List.getElem?_eq_none (by simpa using hi), List.getElem?_eq_none (by simpa using hi)]

end Mios.Lib.Ring
