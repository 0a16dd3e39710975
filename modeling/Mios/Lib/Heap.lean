/-! Objects behind pointers: a heap is the list of its live objects, each of which
knows its address. Reading through a dangling pointer gives `none`, writing
through one changes nothing. -/

namespace Mios.Lib.Heap

open List

variable {α : Type} {addr : α → Nat}

def get (addr : α → Nat) (h : List α) (a : Nat) : Option α := h.find? (addr · == a)

def put (addr : α → Nat) (h : List α) (c : α) : List α :=
  h.map fun x => if addr x == addr c then c else x

def free (addr : α → Nat) (h : List α) (a : Nat) : List α := h.filter (addr · != a)

/-- An address no live object has. -/
def fresh (addr : α → Nat) (h : List α) : Nat := h.foldl (fun m x => max m (addr x + 1)) 0

def Live (addr : α → Nat) (h : List α) (a : Nat) : Prop := ∃ c ∈ h, addr c = a

variable {h : List α} {c : α}

theorem mem_of_get {a : Nat} (hc : get addr h a = some c) : c ∈ h :=
  mem_of_find?_eq_some hc

theorem addr_of_get {a : Nat} (hc : get addr h a = some c) : addr c = a := by
  simpa using List.find?_some hc

theorem mem_put {c d : α} (hd : d ∈ put addr h c) : d ∈ h ∨ d = c := by
  obtain ⟨x, hx, rfl⟩ := mem_map.mp hd
  by_cases hxc : (addr x == addr c) = true
  · exact .inr (if_pos hxc)
  · left
    rwa [if_neg hxc]

/-- The later of two stores through a pointer stays. -/
theorem put_put {c d : α} (hcd : addr c = addr d) : put addr (put addr h c) d = put addr h d := by
  simp only [put, map_map]
  apply map_congr_left
  intro x _
  by_cases hx : addr x = addr d
  · simp [hcd, hx]
  · simp [hcd, hx]

/-- A store frees nothing. -/
theorem Live.put {a : Nat} (hl : Live addr h a) (c : α) : Live addr (put addr h c) a := by
  obtain ⟨d, hd, rfl⟩ := hl
  refine ⟨_, mem_map.mpr ⟨d, hd, rfl⟩, ?_⟩
  by_cases hdc : (addr d == addr c) = true
  · rw [if_pos hdc]
    exact (beq_iff_eq.mp hdc).symm
  · rw [if_neg hdc]

/-- What was stored through a live pointer is read back. -/
theorem get_put_self (hl : Live addr h (addr c)) : get addr (put addr h c) (addr c) = some c := by
  obtain ⟨d, hd, hda⟩ := hl
  induction h with
  | nil => cases hd
  | cons x xs ih =>
    by_cases hx : addr x = addr c
    · simp [get, put, hx]
    · rcases mem_cons.mp hd with rfl | hd
      · exact absurd hda hx
      · simpa [get, put, hx] using ih hd

/-- A store changes what one pointer reads, if it is live. -/
theorem get_put_cases (h : List α) (c : α) (a : Nat) : get addr (put addr h c) a = get addr h a ∨
      a = addr c ∧ get addr (put addr h c) a = some c := by
  induction h with
  | nil => exact .inl rfl
  | cons x xs ih =>
    by_cases hx : addr x = addr c
    · by_cases ha : addr c = a
      · exact .inr ⟨ha.symm, by simp [get, put, hx, ha]⟩
      · simpa [get, put, hx, ha] using ih
    · by_cases ha : addr x = a
      · subst ha
        exact .inl (by simp [get, put, hx])
      · simpa [get, put, hx, ha] using ih

theorem get_free_ne (h : List α) {a b : Nat} (hab : a ≠ b) :
    get addr (free addr h b) a = get addr h a := by
  simp only [get, free, List.find?_filter]
  congr 1
  funext x
  by_cases hx : addr x = a
  · simp [hx, hab]
  · simp [hx]

theorem get_free_self (h : List α) (a : Nat) : get addr (free addr h a) a = none := by
  simp [get, free]

theorem Live.free {a b : Nat} (hl : Live addr h a) (hab : a ≠ b) : Live addr (free addr h b) a := by
  obtain ⟨c, hc, rfl⟩ := hl
  exact ⟨c, mem_filter.mpr ⟨hc, by simpa using hab⟩, rfl⟩

theorem mem_of_mem_free {a : Nat} (hc : c ∈ free addr h a) : c ∈ h :=
  (mem_filter.mp hc).1

theorem lt_fresh (hc : c ∈ h) : addr c < fresh addr h := by
  have hmono : ∀ (l : List α) (m : Nat), m ≤ l.foldl (fun m x => max m (addr x + 1)) m ∧
      ∀ x ∈ l, addr x < l.foldl (fun m x => max m (addr x + 1)) m := by
    intro l
    induction l with
    | nil => exact fun m => ⟨Nat.le_refl m, by simp⟩
    | cons y ys ih =>
      intro m
      obtain ⟨hle, hlt⟩ := ih (max m (addr y + 1))
      refine ⟨by simp only [foldl_cons]; omega, ?_⟩
      intro x hx
      rcases mem_cons.mp hx with rfl | hx
      · simp only [foldl_cons]
        omega
      · exact hlt x hx
  exact (hmono h 0).2 c hc

end Mios.Lib.Heap
