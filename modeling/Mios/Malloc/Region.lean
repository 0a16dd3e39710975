import Mathlib.Data.List.Chain
import Mios.Malloc.Heap

/-! What allocation and release do to the blocks of one region: an allocation cuts a free
block into at most three, a release merges a block with the free ones next to it, and
nothing outside the region is written. -/

namespace Mios.Malloc

open Lib.Dll List

/-! ## Alignment -/

variable {bs bs' post xs ys : List (Nat × Bool)} {a aligned e n p size x : Nat}

theorem le_align {b : Nat} (hb : 0 < b) : a ≤ align a b := by
  have hdiv := Nat.div_add_mod (a + b - 1) b
  have hmod := Nat.mod_lt (a + b - 1) hb
  unfold align
  rw [Nat.mul_comm]
  omega

theorem align_lt {b : Nat} (hb : 0 < b) : align a b < a + b := by
  have hle := Nat.div_mul_le_self (a + b - 1) b
  unfold align
  omega

theorem dvd_align (a b : Nat) : b ∣ align a b := Nat.dvd_mul_left b _

variable (t : Target)

theorem Target.blockSize_pos : 0 < t.blockSize := by
  unfold Target.blockSize
  split <;> omega

theorem Target.blockSize_eq_two_pow : ∃ j < 5, t.blockSize = 2 ^ j := by
  unfold Target.blockSize
  split
  · exact ⟨4, by decide, rfl⟩
  · exact ⟨3, by decide, rfl⟩

/-- A power of two is smaller than a block header or a multiple of it. -/
theorem blockSize_dvd_two_pow {k : Nat} (h : t.blockSize ≤ 2 ^ k) : t.blockSize ∣ 2 ^ k := by
  obtain ⟨j, -, hj⟩ := t.blockSize_eq_two_pow
  rw [hj] at h ⊢
  exact Nat.pow_dvd_pow 2 ((Nat.pow_le_pow_iff_right (by omega)).mp h)

/-! ## Cutting a free block -/

/-- A free block of this size, if there is something. -/
def freeOf (n : Nat) : List (Nat × Bool) := if n = 0 then [] else [(n, true)]

@[simp] theorem freeOf_zero : freeOf 0 = [] := rfl

theorem freeOf_pos (h : 0 < n) : freeOf n = [(n, true)] := if_neg (by omega)

@[simp] theorem total_freeOf (n : Nat) : total (freeOf n) = n := by
  unfold freeOf
  split
  · simp [*]
  · simp

variable {m : Mem Bool}

/-- Without the writes that change nothing. -/
theorem splitGap_eq {g : Nat} (hcell : m x = ⟨x + n, p, true⟩)
    (hp : p ≠ 0 → (m p).next = x) (ha : aligned = x + g + t.blockSize) :
    splitGap t m x aligned = ((((m.setNext x (x + g)).setPrev (x + g) x).setNext (x + g)
      (x + n)).setPrev (x + n) (x + g), x + g) := by
  have hhb : aligned - t.blockSize = x + g := by omega
  have hn : (m x).next = x + n := by rw [hcell]
  have hpr : (m x).prev = p := by rw [hcell]
  have htag : m.setTag x true = m := Mem.setTag_eq_self (by rw [hcell])
  have hnext : (if p ≠ 0 then m.setNext p x else m) = m := by
    split
    · exact Mem.setNext_eq_self (hp ‹_›)
    · rfl
  have hprev : m.setPrev x p = m := Mem.setPrev_eq_self hpr
  simp only [splitGap, hhb, hn, hpr, htag, hnext, hprev]

theorem splitGap_chain {g : Nat}
    (h : Chain m false p x ((n, true) :: post) e) (hp : p ≠ 0 → (m p).next = x)
    (hg : 0 < g) (hgn : g < n) (ha : aligned = x + g + t.blockSize) :
    ∃ m', splitGap t m x aligned = (m', x + g) ∧
      Chain (m'.setTag (x + g) false) false p x ((g, true) :: (n - g, false) :: post) e ∧
      ∀ y, y < x ∨ e < y → (m'.setTag (x + g) false) y = m y := by
  have hcell := h.2.1
  have he := h.2.2.end_eq
  refine ⟨_, splitGap_eq t hcell hp ha, h.split hg hgn ?_ ?_ ?_ fun y hy hye => ?_, fun y hy => ?_⟩
  all_goals
    simp (disch := omega) only [Mem.setTag, Mem.setNext, Mem.setPrev, Mem.set_self, Mem.set_of_ne,
      hcell]

theorem splitTail_chain (stop : Nat)
    (h : Chain m false p x ((n, false) :: post) e) (hx : x + t.blockSize ≤ stop)
    (hstop : stop ≤ x + n) : ∃ u k, n = u + k ∧ stop ≤ x + u ∧ (k = 0 ∨ x + u = stop) ∧
      Chain (splitTail t m x stop) false p x ((u, false) :: (freeOf k ++ post)) e ∧
      ∀ y, y < x ∨ e < y → splitTail t m x stop y = m y := by
  have hpos := t.blockSize_pos
  have hcell := h.2.1
  have he := h.2.2.end_eq
  have hn : (m x).next = x + n := by rw [hcell]
  by_cases htail : x + n - stop > t.blockSize
  · obtain ⟨u, rfl⟩ := Nat.exists_eq_add_of_le (Nat.le_of_add_right_le hx)
    refine ⟨u, n - u, by omega, le_rfl, .inr rfl, ?_⟩
    rw [freeOf_pos (by omega), splitTail, hn, if_pos htail]
    refine ⟨h.split (by omega) (by omega) ?_ ?_ ?_ fun y hy hye => ?_, fun y hy => ?_⟩
    all_goals
      simp (disch := omega) only [Mem.setTag, Mem.setNext, Mem.setPrev, Mem.set_self,
        Mem.set_of_ne, hcell]
  · have hsplit : splitTail t m x stop = m := by simp only [splitTail, hn, if_neg htail]
    rw [hsplit]
    exact ⟨n, 0, rfl, hstop, .inl rfl, h, fun _ _ => rfl⟩

/-- `bs'` is `bs`, laid out from `a`, with a free block cut up: a free part in front, a block in
use whose payload is at `aligned` and has room for `size`, and a free part behind. -/
def Cut (a size aligned : Nat) (bs bs' : List (Nat × Bool)) : Prop :=
  ∃ pre g u k post, bs = pre ++ (g + u + k, true) :: post ∧
    bs' = pre ++ (freeOf g ++ (u, false) :: (freeOf k ++ post)) ∧
    aligned = a + total pre + g + t.blockSize ∧ t.blockSize + size ≤ u ∧
    t.blockSize ∣ g ∧ t.blockSize ∣ u ∧ t.blockSize ∣ k

theorem Cut.cons {u : Bool} (h : Cut t (a + n) size aligned bs bs') :
    Cut t a size aligned ((n, u) :: bs) ((n, u) :: bs') := by
  obtain ⟨pre, g, w, k, post, rfl, rfl, ha, hrest⟩ := h
  refine ⟨(n, u) :: pre, g, w, k, post, rfl, rfl, ?_, hrest⟩
  simp only [total_cons]
  omega

theorem carve_spec {al : Nat}
    (h : Chain m false p x ((n, true) :: post) e) (hp : p ≠ 0 → (m p).next = x)
    (hal : t.blockSize ∣ al) (hx : t.blockSize ∣ x) (hn : t.blockSize ∣ n)
    (hsize : t.blockSize ∣ size)
    (hfits : align (x + t.blockSize) al + size ≤ x + n) (hpos : 0 < al) :
    ∃ m' bs', carve t m x (align (x + t.blockSize) al) (align (x + t.blockSize) al + size) = .ok m' ∧
      Chain m' false p x bs' e ∧ Cut t x size (align (x + t.blockSize) al) ((n, true) :: post) bs' ∧
      ∀ y, y < x ∨ e < y → m' y = m y := by
  have hbs := t.blockSize_pos
  have hle := le_align (a := x + t.blockSize) hpos
  have hdvd : t.blockSize ∣ align (x + t.blockSize) al := Nat.dvd_trans hal (dvd_align _ _)
  generalize align (x + t.blockSize) al = aligned at hfits hle hdvd ⊢
  obtain ⟨g, rfl⟩ : ∃ g, aligned = x + g + t.blockSize := ⟨aligned - t.blockSize - x, by omega⟩
  have hg : t.blockSize ∣ g := by
    have hxg : t.blockSize ∣ x + g := (Nat.dvd_add_left (Nat.dvd_refl _)).mp hdvd
    exact (Nat.dvd_add_right hx).mp hxg
  have hgap : x + g + t.blockSize - (x + t.blockSize) = g := by omega
  -- the part behind: what is left is a multiple of the header size too
  have hrest : ∀ u k, n - g = u + k → x + g + t.blockSize + size ≤ x + g + u →
      (k = 0 ∨ x + g + u = x + g + t.blockSize + size) →
      t.blockSize + size ≤ u ∧ t.blockSize ∣ u ∧ t.blockSize ∣ k := by
    intro u k huk hle hk
    have hng : t.blockSize ∣ n - g := Nat.dvd_sub hn hg
    rcases hk with rfl | hk
    · rw [Nat.add_zero] at huk
      exact ⟨by omega, huk ▸ hng, Nat.dvd_zero _⟩
    · have hu : t.blockSize ∣ u := by
        rw [show u = t.blockSize + size by omega]
        exact Nat.dvd_add (Nat.dvd_refl _) hsize
      exact ⟨by omega, hu, (Nat.dvd_add_right hu).mp (huk ▸ hng)⟩
  by_cases hg0 : g = 0
  · subst hg0
    have hused : Chain (m.setTag x false) false p x ((n, false) :: post) e := by
      refine h.retag (Mem.set_self ..) ?_
      intro y hy _
      exact Mem.set_of_ne _ _ (by omega)
    obtain ⟨u, k, hnuk, hle', hk, hchain, hsame⟩ :=
      splitTail_chain t (x + 0 + t.blockSize + size) hused (by omega) (by omega)
    obtain ⟨hu, hdu, hdk⟩ := hrest u k (by omega) (by omega) (by omega)
    refine ⟨_, _, ?_, hchain, ⟨[], 0, u, k, post, ?_, rfl, by simp, hu, hg, hdu, hdk⟩, ?_⟩
    · simp only [carve, hgap, ne_eq, not_true_eq_false, false_and, if_false]
    · rw [hnuk, Nat.zero_add]
      rfl
    · intro y hy
      rw [hsame y hy]
      have he := h.2.2.end_eq
      exact Mem.set_of_ne _ _ (by omega)
  · have hge : t.blockSize ≤ g := Nat.le_of_dvd (by omega) hg
    obtain ⟨m₁, hsplit, hchain₁, hsame₁⟩ := splitGap_chain t (g := g) h hp (by omega) (by omega) rfl
    obtain ⟨hgpos, hcell, hinner⟩ := hchain₁
    obtain ⟨u, k, hnuk, hle', hk, hchain, hsame⟩ :=
      splitTail_chain t (x + g + t.blockSize + size) hinner (by omega) (by omega)
    obtain ⟨hu, hdu, hdk⟩ := hrest u k hnuk hle' hk
    refine ⟨_, (g, true) :: (u, false) :: (freeOf k ++ post), ?_, ⟨hgpos, ?_, hchain⟩,
      ⟨[], g, u, k, post, ?_, ?_, by simp, hu, hg, hdu, hdk⟩, ?_⟩
    · simp only [carve, hgap, ne_eq, hg0, not_false_eq_true, true_and, if_neg (Nat.not_lt.mpr hge),
        if_true, hsplit]
    · rw [hsame x (.inl (by omega)), hcell]
    · rw [show n = g + u + k by omega]
      rfl
    · rw [freeOf_pos hgpos]
      rfl
    · intro y hy
      rw [hsame y (by omega), hsame₁ y hy]

/-- What a walk over the blocks `bs` can end with. -/
inductive Walked (m : Mem Bool) (r : Except Halt (Mem Bool × Option Nat)) (fuel size al p a e : Nat)
    (bs : List (Nat × Bool)) : Prop
  | fuel (hle : fuel ≤ bs.length) (herr : r = .error .outOfFuel)
  | none (hok : r = .ok (m, none))
  | some (m' : Mem Bool) (bs' : List (Nat × Bool)) (aligned : Nat) (hok : r = .ok (m', some aligned))
      (hchain : Chain m' false p a bs' e) (hcut : Cut t a size aligned bs bs')
      (hdvd : al ∣ aligned) (hsame : ∀ y, y < a ∨ e < y → m' y = m y)

/-- The walk by induction over the blocks left to look at. -/
theorem allocFrom_spec (fuel : Nat) {al : Nat} (hal : t.blockSize ∣ al) (hpos : 0 < al)
    (hsize : t.blockSize ∣ size)
    (h : Chain m false p a bs e) (hp : p ≠ 0 → (m p).next = a) (ha : t.blockSize ∣ a)
    (hbs : ∀ b ∈ bs, t.blockSize ∣ b.1) :
    Walked t m (allocFrom t fuel m a size al) fuel size al p a e bs := by
  induction fuel generalizing bs p a with
  | zero => exact .fuel (Nat.zero_le _) rfl
  | succ fuel ih =>
    cases bs with
    | nil =>
      refine .none ?_
      simp only [allocFrom, h.2, if_true]
    | cons b bs =>
      obtain ⟨n, u⟩ := b
      have hdn : t.blockSize ∣ n := hbs (n, u) (.head _)
      have hcell := h.2.1
      have hnpos := h.1
      have hne : a + n ≠ 0 := by omega
      -- the blocks behind this one
      have hrest := ih h.2.2 (fun _ => by rw [hcell]) (Nat.dvd_add ha hdn)
        (fun b hb => hbs b (.tail _ hb))
      have hskip (hnext : allocFrom t (fuel + 1) m a size al = allocFrom t fuel m (a + n) size al) :
          Walked t m (allocFrom t (fuel + 1) m a size al) (fuel + 1) size al p a e
            ((n, u) :: bs) := by
        rw [hnext]
        cases hrest with
        | fuel hle herr => exact .fuel (Nat.succ_le_succ hle) herr
        | none hok => exact .none hok
        | some m' bs' aligned hok hchain hcut hdvd hsame =>
          refine .some m' ((n, u) :: bs') aligned hok ⟨hnpos, ?_, hchain⟩ hcut.cons hdvd ?_
          · rw [hsame a (.inl (by omega)), hcell]
          · intro y hy
            exact hsame y (by omega)
      cases u with
      | false =>
        apply hskip
        simp only [allocFrom, hcell, hne, if_false, Bool.not_false, if_true]
      | true =>
        by_cases hfits : align (a + t.blockSize) al + size ≤ a + n
        · obtain ⟨m', bs', hok, hchain, hcut, hsame⟩ :=
            carve_spec t h hp hal ha hdn hsize hfits hpos
          refine .some m' bs' _ ?_ hchain hcut (dvd_align _ _) hsame
          simp only [allocFrom, hcell, hne, if_false, Bool.not_true, Bool.false_eq_true,
            if_neg (Nat.not_lt.mpr hfits), hok]
          rfl
        · apply hskip
          simp only [allocFrom, hcell, hne, if_false, Bool.not_true, Bool.false_eq_true,
            if_pos (Nat.lt_of_not_le hfits)]

/-! ## Merging free blocks -/

/-- The block at `x` takes in the free one behind it, if there is one. -/
theorem heapMergeNext_spec {j : Nat} {u : Bool}
    (h : Chain m false p x ((n, u) :: (freeOf j ++ post)) e)
    (hpost : ∀ b ∈ post.head?, b.2 = false) :
    ∃ m', heapMergeNext m x = .ok m' ∧ Chain m' false p x ((n + j, u) :: post) e ∧
      ∀ y, y < x ∨ e < y → m' y = m y := by
  have hcell := h.2.1
  have hnpos := h.1
  by_cases hj : j = 0
  · subst hj
    have htag : (m (x + n)).tag = false := by
      have hrest : Chain m false x (x + n) post e := h.2.2
      cases post with
      | nil => rw [hrest.2]
      | cons b post => rw [hrest.2.1]; exact hpost b rfl
    refine ⟨m, ?_, h, fun _ _ => rfl⟩
    simp only [heapMergeNext, hcell, htag, Bool.not_false, if_true]
  · have hjpos : 0 < j := by omega
    rw [freeOf_pos hjpos] at h
    have hnext := h.2.2.2.1
    have hend := h.2.2.2.2.end_eq
    refine ⟨(m.setNext x (x + n + j)).setPrev (x + n + j) x, ?_, h.merge ?_ ?_ fun y hy _ => ?_,
      fun y hy => ?_⟩
    · have hread : (m.setNext x (x + n + j)) (x + n) = ⟨x + n + j, x, true⟩ := by
        rw [Mem.setNext, Mem.set_of_ne _ _ (by omega), hnext]
      simp only [heapMergeNext, hcell, hnext, Bool.not_true, Bool.false_eq_true, if_false,
        if_neg (show ¬ x + n ≤ x by omega), hread]
    all_goals
      simp (disch := omega) only [Mem.setNext, Mem.setPrev, Mem.set_self, Mem.set_of_ne, hcell]

/-- The free blocks next to a block in use. -/
structure Around (pre post pre' post' : List (Nat × Bool)) (i j : Nat) : Prop where
  pre : pre = pre' ++ freeOf i
  post : post = freeOf j ++ post'
  last : ∀ b ∈ pre'.getLast?, b.2 = false
  head : ∀ b ∈ post'.head?, b.2 = false

/-- The block in use behind `pre` becomes free and one with the free ones next to it. -/
theorem heapFree_spec {i j : Nat} {pre pre' post' : List (Nat × Bool)} (ha : 0 < a)
    (h : Chain m false 0 a (pre ++ (n, false) :: post) e) (hr : Around pre post pre' post' i j) :
    ∃ m', heapFree t m (a + total pre + t.blockSize) = .ok m' ∧
      Chain m' false 0 a (pre' ++ (i + (n + j), true) :: post') e ∧
      ∀ y, y < a ∨ e < y → m' y = m y := by
  obtain ⟨rfl, rfl, hlast, hhead⟩ := hr
  obtain ⟨p, x, hseg, hblock⟩ := chain_append.mp h
  have hx := hseg.end_eq
  have hnpos := hblock.1
  have hend := hblock.2.2.end_eq
  -- the block itself, and the free one behind it
  have hfree : Chain (m.setTag x true) false p x ((n, true) :: (freeOf j ++ post')) e := by
    refine hblock.retag (Mem.set_self ..) ?_
    intro y hy _
    exact Mem.set_of_ne _ _ (by omega)
  obtain ⟨m₁, hmerge, hchain₁, hsame₁⟩ := heapMergeNext_spec hfree hhead
  have hsame₁' : ∀ y, y < x ∨ e < y → m₁ y = m y := by
    intro y hy
    rw [hsame₁ y hy]
    exact Mem.set_of_ne _ _ (by omega)
  have hptr : a + total (pre' ++ freeOf i) + t.blockSize - t.blockSize = x := by omega
  have hunfold : heapFree t m (a + total (pre' ++ freeOf i) + t.blockSize) =
      if p ≠ 0 ∧ (m₁ p).tag = true then
        if x ≤ p then .error .assertion else heapMergeNext m₁ p
      else .ok m₁ := by
    simp only [heapFree, hptr, hblock.2.1, hmerge, hchain₁.2.1,
      if_neg (show ¬ a + total (pre' ++ freeOf i) + t.blockSize = 0 by omega), Bool.false_eq_true,
      if_false]
  have hseg₁ : Seg m₁ 0 a (pre' ++ freeOf i) p x := by
    refine hseg.same ?_
    intro y _ hy
    exact hsame₁' y (.inl hy)
  have hall : Chain m₁ false 0 a (pre' ++ (freeOf i ++ (n + j, true) :: post')) e := by
    rw [← append_assoc]
    exact chain_append.mpr ⟨p, x, hseg₁, hchain₁⟩
  rw [hunfold]
  by_cases hi : i = 0
  · -- the block in front is in use, or there is none
    subst hi
    have htag : ¬(p ≠ 0 ∧ (m₁ p).tag = true) := by
      rintro ⟨hp, htag⟩
      rcases hseg₁.last with ⟨-, hp0, -⟩ | ⟨-, -, -, c, hc, hctag⟩
      · exact hp hp0
      · rw [freeOf_zero, append_nil] at hc
        rw [hctag, hlast c hc] at htag
        cases htag
    refine ⟨m₁, if_neg htag, ?_, ?_⟩
    · rw [Nat.zero_add]
      exact hall
    · intro y hy
      exact hsame₁' y (by omega)
  · -- the free block in front takes it in
    obtain ⟨q, b, hpre, hfront⟩ := chain_append.mp hall
    have hb := hpre.end_eq
    rw [total_append, total_freeOf] at hx
    have hfront' : Chain m₁ false q b ((i, true) :: (freeOf (n + j) ++ post')) e := by
      rw [freeOf_pos (by omega)] at hfront ⊢
      exact hfront
    have hp : p = b := by
      have hback : (m₁ (b + i)).prev = b := by
        rw [freeOf_pos (by omega)] at hfront
        rw [hfront.2.2.2.1]
      rw [show b + i = x by omega, hchain₁.2.1] at hback
      exact hback
    subst hp
    obtain ⟨m₂, hmerge₂, hchain₂, hsame₂⟩ := heapMergeNext_spec hfront' hhead
    refine ⟨m₂, ?_, chain_append.mpr ⟨q, p, hpre.same ?_, hchain₂⟩, ?_⟩
    · have hguard : p ≠ 0 ∧ (m₁ p).tag = true := by
        refine ⟨by omega, ?_⟩
        rw [hfront'.2.1]
      rw [if_pos hguard, if_neg (by omega), hmerge₂]
    · intro y _ hy
      exact hsame₂ y (.inl hy)
    · intro y hy
      rw [hsame₂ y (by omega), hsame₁' y (by omega)]

/-! ## Layouts -/

/-- No two neighbours are free. -/
def NoFreePair (bs : List (Nat × Bool)) : Prop :=
  bs.IsChain fun b c => ¬(b.2 = true ∧ c.2 = true)

theorem noFreePair_append : NoFreePair (xs ++ ys) ↔ NoFreePair xs ∧ NoFreePair ys ∧
      ∀ b ∈ xs.getLast?, ∀ c ∈ ys.head?, ¬(b.2 = true ∧ c.2 = true) :=
  isChain_append

/-- Next to a block in use anything may lie. -/
theorem noFreePair_used : NoFreePair (xs ++ (n, false) :: ys) ↔ NoFreePair xs ∧ NoFreePair ys := by
  have hcons : NoFreePair ((n, false) :: ys) ↔ NoFreePair ys := by
    cases ys with
    | nil | cons c ys => simp [NoFreePair]
  rw [noFreePair_append, hcons]
  simp

/-- Next to a free block everything is in use. -/
theorem noFreePair_free : NoFreePair (xs ++ (n, true) :: ys) ↔ NoFreePair xs ∧ NoFreePair ys ∧
      (∀ b ∈ xs.getLast?, b.2 = false) ∧ ∀ b ∈ ys.head?, b.2 = false := by
  have hcons : NoFreePair ((n, true) :: ys) ↔ NoFreePair ys ∧ ∀ b ∈ ys.head?, b.2 = false := by
    cases ys with
    | nil => simp [NoFreePair]
    | cons c ys => simp [NoFreePair, and_comm]
  rw [noFreePair_append, hcons]
  simp only [List.head?_cons, Option.mem_some_iff, forall_eq', and_true, Bool.not_eq_true]
  constructor
  · rintro ⟨hx, ⟨hy, hh⟩, hl⟩
    exact ⟨hx, hy, hl, hh⟩
  · rintro ⟨hx, hy, hl, hh⟩
    exact ⟨hx, ⟨hy, hh⟩, hl⟩

theorem noFreePair_append_freeOf (h : NoFreePair xs)
    (hl : ∀ b ∈ xs.getLast?, b.2 = false) : NoFreePair (xs ++ freeOf n) := by
  unfold freeOf
  split
  · rwa [append_nil]
  · exact noFreePair_free.mpr ⟨h, .nil, hl, nofun⟩

theorem noFreePair_freeOf_append (h : NoFreePair ys)
    (hh : ∀ b ∈ ys.head?, b.2 = false) : NoFreePair (freeOf n ++ ys) := by
  unfold freeOf
  split
  · exact h
  · exact noFreePair_free.mpr ⟨.nil, h, nofun, hh⟩

theorem Cut.noFreePair
    (h : Cut t a size aligned bs bs') (hbs : NoFreePair bs) : NoFreePair bs' := by
  obtain ⟨pre, g, u, k, post, rfl, rfl, -⟩ := h
  obtain ⟨hpre, hpost, hlast, hhead⟩ := noFreePair_free.mp hbs
  rw [← append_assoc]
  exact noFreePair_used.mpr
    ⟨noFreePair_append_freeOf hpre hlast, noFreePair_freeOf_append hpost hhead⟩

theorem Cut.sizes (h : Cut t a size aligned bs bs') (hbs : ∀ b ∈ bs, t.blockSize ∣ b.1) :
    ∀ b ∈ bs', t.blockSize ∣ b.1 := by
  obtain ⟨pre, g, u, k, post, rfl, rfl, -, -, hg, hu, hk⟩ := h
  have hfree : ∀ n, t.blockSize ∣ n → ∀ b ∈ freeOf n, t.blockSize ∣ b.1 := by
    intro n hn b hb
    unfold freeOf at hb
    split at hb
    · cases hb
    · rw [mem_singleton.mp hb]
      exact hn
  intro b hb
  simp only [mem_append, mem_cons] at hb hbs
  rcases hb with hb | hb | rfl | hb | hb
  · exact hbs b (.inl hb)
  · exact hfree g hg b hb
  · exact hu
  · exact hfree k hk b hb
  · exact hbs b (.inr (.inr hb))

theorem used_not_mem_freeOf {k : Nat} : (x, n, false) ∉ cells a (freeOf k) := by
  unfold freeOf
  split <;> simp

/-- The blocks in use after a cut: one more, at an address where no block in use was. -/
theorem Cut.used (h : Cut t a size aligned bs bs') (hpos : ∀ b ∈ bs, 0 < b.1) :
    ∃ x u, aligned = x + t.blockSize ∧ t.blockSize + size ≤ u ∧ (∀ n, (x, n, false) ∉ cells a bs) ∧
      ∀ y n, (y, n, false) ∈ cells a bs' ↔ (y, n, false) ∈ cells a bs ∨ y = x ∧ n = u := by
  obtain ⟨pre, g, u, k, post, rfl, rfl, ha, hu, -⟩ := h
  have hbs := t.blockSize_pos
  refine ⟨a + total pre + g, u, ha, hu, ?_, ?_⟩
  · intro n hmem
    have hn : 0 < n := hpos _ (mem_of_mem_cells hmem)
    simp only [cells_append, cells_cons, mem_append, mem_cons] at hmem
    rcases hmem with hmem | hmem | hmem
    · have hb := mem_cells_bounds hmem
      omega
    · simp at hmem
    · have hb := mem_cells_bounds hmem
      omega
  · intro y n
    have hend : a + total pre + g + u + k = a + total pre + (g + u + k) := by omega
    simp only [cells_append, cells_cons, total_freeOf, mem_append, mem_cons,
      used_not_mem_freeOf, false_or, Prod.mk.injEq, Bool.false_eq_true, and_false, and_true, hend]
    constructor
    · rintro (hmem | ⟨rfl, rfl⟩ | hmem)
      · exact .inl (.inl hmem)
      · exact .inr ⟨rfl, rfl⟩
      · exact .inl (.inr hmem)
    · rintro ((hmem | hmem) | ⟨rfl, rfl⟩)
      · exact .inl hmem
      · exact .inr (.inr hmem)
      · exact .inr (.inl ⟨rfl, rfl⟩)

/-- The free blocks next to a block in use, and that those behind them are in use. -/
theorem exists_around {pre : List (Nat × Bool)}
    (h : NoFreePair (pre ++ (n, false) :: post)) (hpos : ∀ b ∈ pre ++ post, 0 < b.1) :
    ∃ pre' post' i j, Around pre post pre' post' i j := by
  obtain ⟨hpre, hpost⟩ := noFreePair_used.mp h
  have hback : ∃ pre' i, pre = pre' ++ freeOf i ∧ ∀ b ∈ pre'.getLast?, b.2 = false := by
    rcases eq_nil_or_concat pre with rfl | ⟨xs, ⟨i, u⟩, rfl⟩
    · exact ⟨[], 0, rfl, nofun⟩
    rw [concat_eq_append] at hpre hpos ⊢
    cases u with
    | false => exact ⟨xs ++ [(i, false)], 0, by simp, by simp⟩
    | true =>
      have hi : 0 < i := hpos (i, true) (by simp)
      exact ⟨xs, i, by rw [freeOf_pos hi], (noFreePair_free.mp hpre).2.2.1⟩
  have hfront : ∃ post' j, post = freeOf j ++ post' ∧ ∀ b ∈ post'.head?, b.2 = false := by
    rcases post with _ | ⟨⟨j, u⟩, ys⟩
    · exact ⟨[], 0, rfl, nofun⟩
    cases u with
    | false => exact ⟨(j, false) :: ys, 0, rfl, by simp⟩
    | true =>
      have hj : 0 < j := hpos (j, true) (by simp)
      exact ⟨ys, j, by rw [freeOf_pos hj]; rfl, ((@noFreePair_free [] ys j).mp hpost).2.2.2⟩
  obtain ⟨pre', i, hpre', hlast⟩ := hback
  obtain ⟨post', j, hpost', hhead⟩ := hfront
  exact ⟨pre', post', i, j, hpre', hpost', hlast, hhead⟩

section

variable {a n i j : Nat} {pre post pre' post' : List (Nat × Bool)}

theorem Around.noFreePair (hr : Around pre post pre' post' i j)
    (h : NoFreePair (pre ++ (n, false) :: post)) :
    NoFreePair (pre' ++ (i + (n + j), true) :: post') := by
  obtain ⟨rfl, rfl, hlast, hhead⟩ := hr
  obtain ⟨hpre, hpost⟩ := noFreePair_used.mp h
  exact noFreePair_free.mpr
    ⟨(noFreePair_append.mp hpre).1, (noFreePair_append.mp hpost).2.1, hlast, hhead⟩

theorem Around.sizes (hr : Around pre post pre' post' i j)
    (h : ∀ b ∈ pre ++ (n, false) :: post, t.blockSize ∣ b.1) :
    ∀ b ∈ pre' ++ (i + (n + j), true) :: post', t.blockSize ∣ b.1 := by
  obtain ⟨rfl, rfl, -, -⟩ := hr
  have hfree : ∀ k, (∀ b ∈ freeOf k, t.blockSize ∣ b.1) → t.blockSize ∣ k := by
    intro k hk
    by_cases hk0 : k = 0
    · rw [hk0]
      exact Nat.dvd_zero _
    · rw [freeOf_pos (by omega)] at hk
      exact hk _ (.head _)
  simp only [mem_append, mem_cons] at h ⊢
  rintro b (hb | rfl | hb)
  · exact h b (.inl (.inl hb))
  · have hi := hfree i fun b hb => h b (.inl (.inr hb))
    have hj := hfree j fun b hb => h b (.inr (.inr (.inl hb)))
    exact Nat.dvd_add hi (Nat.dvd_add (h (n, false) (.inr (.inl rfl))) hj)
  · exact h b (.inr (.inr (.inr hb)))

/-- The blocks in use after a release: all but the one released. -/
theorem Around.used (hr : Around pre post pre' post' i j)
    (hpos : ∀ b ∈ pre ++ (n, false) :: post, 0 < b.1) (y k : Nat) :
    (y, k, false) ∈ cells a (pre' ++ (i + (n + j), true) :: post') ↔
      (y, k, false) ∈ cells a (pre ++ (n, false) :: post) ∧ y ≠ a + total pre := by
  obtain ⟨rfl, rfl, -, -⟩ := hr
  have hn : 0 < n := hpos (n, false) (by simp)
  simp only [cells_append, cells_cons, total_append, total_freeOf, mem_append, mem_cons,
    used_not_mem_freeOf, false_or, or_false, Prod.mk.injEq, Bool.false_eq_true, and_false, and_true,
    ← Nat.add_assoc]
  constructor
  · rintro (hmem | hmem)
    · have hk : 0 < k := hpos (k, false) (by simp [mem_of_mem_cells hmem])
      have hb := mem_cells_bounds hmem
      exact ⟨.inl hmem, by omega⟩
    · have hb := mem_cells_bounds hmem
      exact ⟨.inr (.inr hmem), by omega⟩
  · rintro ⟨hmem | ⟨rfl, rfl⟩ | hmem, hne⟩
    · exact .inl hmem
    · exact absurd rfl hne
    · exact .inr hmem

end

/-- Only free blocks, no two of them neighbours: one block. -/
theorem all_free_eq (h : NoFreePair bs) (hfree : ∀ b ∈ bs, b.2 = true)
    (hne : bs ≠ []) : bs = [(total bs, true)] := by
  rcases bs with _ | ⟨⟨n, u⟩, bs⟩
  · exact absurd rfl hne
  obtain rfl : u = true := hfree (n, u) (.head _)
  rcases bs with _ | ⟨c, bs⟩
  · simp
  · have hc : c.2 = false := ((@noFreePair_free [] (c :: bs) n).mp h).2.2.2 c rfl
    rw [hfree c (by simp)] at hc
    cases hc

end Mios.Malloc
