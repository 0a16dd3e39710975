import Mathlib.Algebra.Order.Ring.Nat

/-! Cells that fill a stretch of memory without gaps and are linked both ways: a cell
reaches up to the one its `next` names, and `prev` names the one before it. A list of
sizes and tags describes such a stretch; splitting, merging and retagging cells are
changes of that list. Address 0 is the null pointer. -/

namespace Mios.Lib.Dll

structure Cell (τ : Type) where
  next : Nat
  prev : Nat
  tag : τ
  deriving DecidableEq

abbrev Mem (τ : Type) := Nat → Cell τ

variable {τ : Type} {m m' : Mem τ}

namespace Mem

def set (m : Mem τ) (a : Nat) (c : Cell τ) : Mem τ := fun x => if x = a then c else m x

def setNext (m : Mem τ) (a n : Nat) : Mem τ := m.set a { m a with next := n }

def setPrev (m : Mem τ) (a p : Nat) : Mem τ := m.set a { m a with prev := p }

def setTag (m : Mem τ) (a : Nat) (t : τ) : Mem τ := m.set a { m a with tag := t }

@[simp] theorem set_self (m : Mem τ) (a : Nat) (c : Cell τ) : m.set a c a = c := if_pos rfl

variable {bs : List (Nat × τ)} {t : τ}

theorem set_of_ne (m : Mem τ) {a x : Nat} (c : Cell τ) (h : x ≠ a) : m.set a c x = m x := if_neg h

/-- A write of what is there already. -/
theorem set_eq_self {a : Nat} {c : Cell τ} (h : m a = c) : m.set a c = m := by
  funext x
  by_cases hx : x = a
  · rw [hx, set_self, h]
  · rw [set_of_ne m c hx]

theorem setNext_eq_self {a n : Nat} (h : (m a).next = n) : m.setNext a n = m := by
  subst h
  exact set_eq_self rfl

theorem setPrev_eq_self {a p : Nat} (h : (m a).prev = p) : m.setPrev a p = m := by
  subst h
  exact set_eq_self rfl

theorem setTag_eq_self {a : Nat} (h : (m a).tag = t) : m.setTag a t = m := by
  subst h
  exact set_eq_self rfl

end Mem

/-- `m'` has the same cells as `m` from `a` up to, and with, `b`. -/
def Same (m m' : Mem τ) (a b : Nat) : Prop := ∀ x, a ≤ x → x ≤ b → m' x = m x

variable {a b e n p q : Nat}

theorem Same.mono {c d : Nat} (h : Same m m' a b) (hac : a ≤ c) (hdb : d ≤ b) : Same m m' c d := by
  intro x hcx hxd
  exact h x (by omega) (by omega)

def total (bs : List (Nat × τ)) : Nat := (bs.map (·.1)).sum

@[simp] theorem total_nil : total ([] : List (Nat × τ)) = 0 := rfl

@[simp] theorem total_cons (b : Nat × τ) (bs : List (Nat × τ)) : total (b :: bs) = b.1 + total bs :=
  rfl

@[simp] theorem total_append (xs ys : List (Nat × τ)) : total (xs ++ ys) = total xs + total ys := by
  simp [total]

/-! ## Segments -/

/-- The cells `bs` lie one after another from `a` up to `b`; the first links back to `p`, and
`q` is what a cell at `b` has to link back to. -/
def Seg (m : Mem τ) : (p a : Nat) → List (Nat × τ) → (q b : Nat) → Prop
  | p, a, [], q, b => q = p ∧ b = a
  | p, a, (n, t) :: bs, q, b => 0 < n ∧ m a = ⟨a + n, p, t⟩ ∧ Seg m a (a + n) bs q b

/-- The cells `bs` from `a` up to an end cell at `e`, which has no successor and the tag `t`. -/
def Chain (m : Mem τ) (t : τ) : (p a : Nat) → List (Nat × τ) → (e : Nat) → Prop
  | p, a, [], e => e = a ∧ m a = ⟨0, p, t⟩
  | p, a, (n, u) :: bs, e => 0 < n ∧ m a = ⟨a + n, p, u⟩ ∧ Chain m t a (a + n) bs e

theorem Seg.end_eq (h : Seg m p a bs q b) : b = a + total bs := by
  induction bs generalizing p a with
  | nil => exact h.2
  | cons c bs ih =>
    have hb := ih h.2.2
    simp only [total_cons]
    omega

/-- The last cell of a segment reaches up to its end. -/
theorem Seg.last (h : Seg m p a bs q b) : bs = [] ∧ q = p ∧ b = a ∨
      a ≤ q ∧ q < b ∧ (m q).next = b ∧ ∃ c, bs.getLast? = some c ∧ (m q).tag = c.2 := by
  induction bs generalizing p a with
  | nil => exact .inl ⟨rfl, h⟩
  | cons c bs ih =>
    obtain ⟨hpos, hcell, hrest⟩ := h
    rcases ih hrest with ⟨rfl, rfl, rfl⟩ | ⟨hle, hlt, hnext, d, hd, htag⟩
    · exact .inr ⟨Nat.le_refl q, by omega, by rw [hcell], c, rfl, by rw [hcell]⟩
    · refine .inr ⟨by omega, hlt, hnext, d, ?_, htag⟩
      rw [List.getLast?_cons, hd]
      rfl

theorem Chain.end_eq (h : Chain m t p a bs e) : e = a + total bs := by
  induction bs generalizing p a with
  | nil => exact h.1
  | cons c bs ih =>
    have hb := ih h.2.2
    simp only [total_cons]
    omega

theorem chain_append {xs ys : List (Nat × τ)} :
    Chain m t p a (xs ++ ys) e ↔ ∃ q b, Seg m p a xs q b ∧ Chain m t q b ys e := by
  induction xs generalizing p a with
  | nil =>
    constructor
    · intro h
      exact ⟨p, a, ⟨rfl, rfl⟩, h⟩
    · rintro ⟨q, b, ⟨rfl, rfl⟩, h⟩
      exact h
  | cons c xs ih =>
    constructor
    · rintro ⟨hpos, hcell, hrest⟩
      obtain ⟨q, b, hseg, hys⟩ := ih.mp hrest
      exact ⟨q, b, ⟨hpos, hcell, hseg⟩, hys⟩
    · rintro ⟨q, b, ⟨hpos, hcell, hseg⟩, hys⟩
      exact ⟨hpos, hcell, ih.mpr ⟨q, b, hseg, hys⟩⟩

theorem Seg.same (h : Seg m p a bs q b)
    (hm : ∀ x, a ≤ x → x < b → m' x = m x) : Seg m' p a bs q b := by
  induction bs generalizing p a with
  | nil => exact h
  | cons c bs ih =>
    obtain ⟨hpos, hcell, hrest⟩ := h
    have hb := Seg.end_eq hrest
    refine ⟨hpos, ?_, ih hrest fun x hx hxb => hm x (by omega) hxb⟩
    rw [hm a (Nat.le_refl a) (by omega), hcell]

theorem Chain.same (h : Chain m t p a bs e) (hm : Same m m' a e) : Chain m' t p a bs e := by
  induction bs generalizing p a with
  | nil =>
    obtain ⟨rfl, hcell⟩ := h
    exact ⟨rfl, by rw [hm _ le_rfl le_rfl, hcell]⟩
  | cons c bs ih =>
    obtain ⟨hpos, hcell, hrest⟩ := h
    have he := Chain.end_eq hrest
    refine ⟨hpos, ?_, ih hrest (hm.mono (by omega) (Nat.le_refl e))⟩
    rw [hm a (Nat.le_refl a) (by omega), hcell]

/-! ## Changes -/

/-- The first cell gets another predecessor. -/
theorem Chain.relink {p' : Nat} (h : Chain m t p a bs e)
    (ha : m' a = { m a with prev := p' }) (hm : Same m m' (a + 1) e) : Chain m' t p' a bs e := by
  cases bs with
  | nil =>
    obtain ⟨rfl, hcell⟩ := h
    exact ⟨rfl, by rw [ha, hcell]⟩
  | cons c bs =>
    obtain ⟨hpos, hcell, hrest⟩ := h
    exact ⟨hpos, by rw [ha, hcell], hrest.same (hm.mono (by omega) (Nat.le_refl e))⟩

theorem Chain.retag {t u u' : τ}
    (h : Chain m t p a ((n, u) :: bs) e) (ha : m' a = { m a with tag := u' })
    (hm : Same m m' (a + 1) e) : Chain m' t p a ((n, u') :: bs) e := by
  obtain ⟨hpos, hcell, hrest⟩ := h
  exact ⟨hpos, by rw [ha, hcell], hrest.same (hm.mono (by omega) (Nat.le_refl e))⟩

/-- A cell becomes two. -/
theorem Chain.split {t u v w : τ} {k : Nat}
    (h : Chain m t p a ((n, u) :: bs) e) (hk : 0 < k) (hkn : k < n)
    (ha : m' a = ⟨a + k, p, v⟩) (hb : m' (a + k) = ⟨a + n, a, w⟩)
    (hc : m' (a + n) = { m (a + n) with prev := a + k }) (hm : Same m m' (a + n + 1) e) :
    Chain m' t p a ((k, v) :: (n - k, w) :: bs) e := by
  obtain ⟨-, -, hrest⟩ := h
  have hn : a + k + (n - k) = a + n := by omega
  refine ⟨hk, ha, by omega, ?_, ?_⟩
  · rw [hn]
    exact hb
  · rw [hn]
    exact hrest.relink hc hm

/-- Two cells become one. -/
theorem Chain.merge {t u v w : τ} {k : Nat}
    (h : Chain m t p a ((n, u) :: (k, v) :: bs) e) (ha : m' a = ⟨a + n + k, p, w⟩)
    (hc : m' (a + n + k) = { m (a + n + k) with prev := a })
    (hm : Same m m' (a + n + k + 1) e) : Chain m' t p a ((n + k, w) :: bs) e := by
  obtain ⟨hn, -, -, -, hrest⟩ := h
  refine ⟨by omega, by rw [ha, Nat.add_assoc], ?_⟩
  rw [← Nat.add_assoc]
  exact hrest.relink hc hm

/-! ## Cells by address -/

/-- The cells with their addresses. -/
def cells : Nat → List (Nat × τ) → List (Nat × Nat × τ)
  | _, [] => []
  | a, (n, t) :: bs => (a, n, t) :: cells (a + n) bs

@[simp] theorem cells_nil (a : Nat) : cells a ([] : List (Nat × τ)) = [] := rfl

@[simp] theorem cells_cons (a n : Nat) (t : τ) (bs : List (Nat × τ)) :
    cells a ((n, t) :: bs) = (a, n, t) :: cells (a + n) bs := rfl

@[simp] theorem cells_append (a : Nat) (xs ys : List (Nat × τ)) :
    cells a (xs ++ ys) = cells a xs ++ cells (a + total xs) ys := by
  induction xs generalizing a with
  | nil => rfl
  | cons c xs ih =>
    simp only [List.cons_append, cells, ih, total_cons, Nat.add_assoc]

/-- A cell of the list, with what lies before and after it. -/
theorem exists_of_mem_cells {x : Nat} (h : (x, n, t) ∈ cells a bs) :
    ∃ xs ys, bs = xs ++ (n, t) :: ys ∧ x = a + total xs := by
  induction bs generalizing a with
  | nil => cases h
  | cons c bs ih =>
    rcases List.mem_cons.mp h with heq | hrest
    · obtain ⟨m, u⟩ := c
      cases heq
      exact ⟨[], bs, rfl, rfl⟩
    · obtain ⟨xs, ys, rfl, rfl⟩ := ih hrest
      exact ⟨c :: xs, ys, rfl, by rw [total_cons, Nat.add_assoc]⟩

theorem mem_cells_bounds {x : Nat} (h : (x, n, t) ∈ cells a bs) : a ≤ x ∧ x + n ≤ a + total bs := by
  obtain ⟨xs, ys, rfl, rfl⟩ := exists_of_mem_cells h
  simp only [total_append, total_cons]
  omega

/-- A chain depends on its cells and its end only. -/
theorem Chain.same_cells (h : Chain m t p a bs e)
    (hm : ∀ c ∈ cells a bs, m' c.1 = m c.1) (he : m' e = m e) : Chain m' t p a bs e := by
  induction bs generalizing p a with
  | nil =>
    obtain ⟨rfl, hcell⟩ := h
    exact ⟨rfl, he.trans hcell⟩
  | cons c bs ih =>
    obtain ⟨hpos, hcell, hrest⟩ := h
    refine ⟨hpos, (hm _ (.head _)).trans hcell, ih hrest fun d hd => ?_⟩
    exact hm d (.tail _ hd)

theorem Chain.pos (h : Chain m t p a bs e) : ∀ b ∈ bs, 0 < b.1 := by
  induction bs generalizing p a with
  | nil => nofun
  | cons c bs ih =>
    exact List.forall_mem_cons.mpr ⟨h.1, fun b hb => ih h.2.2 b hb⟩

theorem mem_of_mem_cells {c : Nat × Nat × τ} (h : c ∈ cells a bs) : c.2 ∈ bs := by
  induction bs generalizing a with
  | nil => cases h
  | cons b bs ih =>
    rcases List.mem_cons.mp h with rfl | hrest
    · exact (.head _)
    · exact .tail _ (ih hrest)

/-- Of two cells, one lies before the other or they are the same. -/
theorem cells_apart {c d : Nat × Nat × τ} (hc : c ∈ cells a bs)
    (hd : d ∈ cells a bs) : c = d ∨ c.1 + c.2.1 ≤ d.1 ∨ d.1 + d.2.1 ≤ c.1 := by
  induction bs generalizing a with
  | nil => cases hc
  | cons b bs ih =>
    rcases List.mem_cons.mp hc with rfl | hc' <;> rcases List.mem_cons.mp hd with rfl | hd'
    · exact .inl rfl
    · exact .inr (.inl (mem_cells_bounds hd').1)
    · exact .inr (.inr (mem_cells_bounds hc').1)
    · exact ih hc' hd'

end Mios.Lib.Dll
