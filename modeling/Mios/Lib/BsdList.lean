import Mathlib.Data.List.Sort

/-! Lists with links in their elements, as the `LIST` macros of `sys/queue.h` make them. A
pointer to an element is in the head of a list or in the `le_next` of another element; the
`le_prev` of an element says where the pointer to it is. Elements are addresses, and 0 is the
null pointer. -/

namespace Mios.Lib.BsdList

open Function List

variable {η : Type}

/-- A place that holds a pointer. -/
inductive Slot (η : Type) where
  | head (h : η)
  | next (x : Nat)
  deriving DecidableEq, Repr

structure Links (η : Type) where
  word : Slot η → Nat
  prev : Nat → Slot η

namespace Links

def first (L : Links η) (h : η) : Nat := L.word (.head h)

def next (L : Links η) (x : Nat) : Nat := L.word (.next x)

/-! ## The list from a pointer on -/

/-- The pointer `v`, which is in the slot `s`, leads to the elements `xs` and then to null. -/
def Seg (L : Links η) (s : Slot η) (v : Nat) : List Nat → Prop
  | [] => v = 0
  | x :: xs => x ≠ 0 ∧ v = x ∧ L.prev x = s ∧ Seg L (.next x) (L.next x) xs

/-- Where the pointer to what follows `xs` is. -/
def endSlot (s : Slot η) : List Nat → Slot η
  | [] => s
  | x :: xs => endSlot (.next x) xs

variable {L L' : Links η} {s : Slot η} {v x y : Nat} {xs ys : List Nat}

theorem Seg.ne_zero (h : Seg L s v xs) : 0 ∉ xs := by
  induction xs generalizing s v with
  | nil => exact not_mem_nil
  | cons a xs ih =>
    obtain ⟨ha, -, -, hrest⟩ := h
    intro hmem
    rcases mem_cons.mp hmem with h0 | h0
    · exact ha h0.symm
    · exact ih hrest h0

theorem Seg.head (h : Seg L s v xs) : v = xs.headD 0 := by
  cases xs with
  | nil => exact h
  | cons a xs => exact h.2.1

theorem Seg.unique (h : Seg L s v xs) (h' : Seg L s v ys) : xs = ys := by
  induction xs generalizing s v ys with
  | nil =>
    cases ys with
    | nil => rfl
    | cons b ys => exact absurd (h'.2.1.symm.trans h) h'.1
  | cons a xs ih =>
    cases ys with
    | nil => exact absurd (h.2.1.symm.trans h') h.1
    | cons b ys =>
      obtain ⟨-, rfl, -, hrest⟩ := h
      obtain ⟨-, rfl, -, hrest'⟩ := h'
      rw [ih hrest hrest']

/-- Only the links of the elements matter. -/
theorem Seg.frame (h : Seg L s v xs) (hnext : ∀ z ∈ xs, L'.next z = L.next z)
    (hprev : ∀ z ∈ xs, L'.prev z = L.prev z) : Seg L' s v xs := by
  induction xs generalizing s v with
  | nil => exact h
  | cons a xs ih =>
    obtain ⟨ha, hv, hp, hrest⟩ := h
    refine ⟨ha, hv, (hprev a (.head _)).trans hp, ?_⟩
    rw [hnext a (.head _)]
    exact ih hrest (fun z hz => hnext z (.tail _ hz)) fun z hz => hprev z (.tail _ hz)

theorem ne_endSlot {p : Slot η} (hs : p ≠ s) (hxs : ∀ y ∈ xs, p ≠ .next y) :
    p ≠ endSlot s xs := by
  induction xs generalizing s with
  | nil => exact hs
  | cons a xs ih => exact ih (hxs a (.head _)) fun y hy => hxs y (.tail _ hy)

theorem next_ne_endSlot {h : η} (hx : x ∉ xs) : .next x ≠ endSlot (.head h) xs := by
  refine ne_endSlot (fun hc => by cases hc) fun y hy hc => ?_
  cases hc
  exact hx hy

theorem head_ne_endSlot {h h' : η} (hne : h' ≠ h) : .head h' ≠ endSlot (.head h) xs :=
  ne_endSlot (fun hc => hne (by cases hc; rfl)) fun _ _ hc => by cases hc

theorem Seg.word_endSlot (h : Seg L s (L.word s) (xs ++ ys)) :
    Seg L (endSlot s xs) (L.word (endSlot s xs)) ys := by
  induction xs generalizing s with
  | nil => exact h
  | cons a xs ih => exact ih h.2.2.2

theorem Seg.prev_eq (h : Seg L s v (xs ++ x :: ys)) : L.prev x = endSlot s xs := by
  induction xs generalizing s v with
  | nil => exact h.2.2.1
  | cons a xs ih => exact ih h.2.2.2

theorem Seg.next_eq (h : Seg L s v (xs ++ x :: ys)) : L.next x = ys.headD 0 := by
  induction xs generalizing s v with
  | nil => exact h.2.2.2.head
  | cons a xs ih => exact ih h.2.2.2

theorem headD_ne {z : Nat} (h0 : z ≠ 0) (hz : z ∉ ys) : ys.headD 0 ≠ z := by
  cases ys with
  | nil => exact h0.symm
  | cons y ys => exact fun heq => hz (heq ▸ mem_cons_self)

theorem Seg.next_ne (h : Seg L s v (xs ++ x :: ys)) (hnodup : (xs ++ x :: ys).Nodup) :
    L.next x ≠ x := by
  have h0 : x ≠ 0 := fun heq => h.ne_zero (by simp [heq])
  rw [h.next_eq]
  exact headD_ne h0 (nodup_cons.mp (nodup_append.mp hnodup).2.1).1

/-- All links but those of the list `h`, whose elements are among `zs`, are as before. -/
structure Frame (L L' : Links η) (h : η) (zs : List Nat) : Prop where
  next : ∀ z, z ≠ 0 → z ∉ zs → L'.next z = L.next z
  prev : ∀ z, z ≠ 0 → z ∉ zs → L'.prev z = L.prev z
  first : ∀ h', h' ≠ h → L'.first h' = L.first h'

theorem Frame.seg {h h' : η} {zs : List Nat} (hf : Frame L L' h zs)
    (hseg : Seg L (.head h') v xs) (hd : ∀ z ∈ xs, z ∉ zs) : Seg L' (.head h') v xs := by
  have h0 := hseg.ne_zero
  have hne : ∀ z ∈ xs, z ≠ 0 := fun z hz heq => h0 (heq ▸ hz)
  exact hseg.frame (fun z hz => hf.next z (hne z hz) (hd z hz))
    fun z hz => hf.prev z (hne z hz) (hd z hz)

/-! ## The operations -/

variable [DecidableEq η]

def put (L : Links η) (s : Slot η) (v : Nat) : Links η := { L with word := update L.word s v }

def setPrev (L : Links η) (x : Nat) (s : Slot η) : Links η := { L with prev := update L.prev x s }

/-- Link `x` in at the slot: what `LIST_INSERT_HEAD` and `LIST_INSERT_AFTER` have in common. -/
def insertAt (L : Links η) (s : Slot η) (x : Nat) : Links η :=
  let n := L.word s
  let L := L.put (.next x) n
  let L := if n ≠ 0 then L.setPrev n (.next x) else L
  (L.put s x).setPrev x s

def insertHead (L : Links η) (h : η) (x : Nat) : Links η := L.insertAt (.head h) x

def insertAfter (L : Links η) (y x : Nat) : Links η := L.insertAt (.next y) x

def insertBefore (L : Links η) (y x : Nat) : Links η :=
  let L := L.setPrev x (L.prev y)
  let L := L.put (.next x) y
  let L := L.put (L.prev y) x
  L.setPrev y (.next x)

def remove (L : Links η) (x : Nat) : Links η :=
  let L := if L.next x ≠ 0 then L.setPrev (L.next x) (L.prev x) else L
  L.put (L.prev x) (L.next x)

/-- The loop of `LIST_INSERT_SORTED`, at element `y`. -/
def insertSortedFrom (before : Nat → Nat → Prop) [DecidableRel before] :
    Nat → Links η → Nat → Nat → Option (Links η)
  | 0, _, _, _ => none
  | fuel + 1, L, x, y =>
    if before x y then some (L.insertBefore y x)
    else if L.next y = 0 then some (L.insertAfter y x)
    else insertSortedFrom before fuel L x (L.next y)

def insertSorted (before : Nat → Nat → Prop) [DecidableRel before] (fuel : Nat) (L : Links η)
    (h : η) (x : Nat) : Option (Links η) :=
  if L.first h = 0 then some (L.insertHead h x)
  else insertSortedFrom before fuel L x (L.first h)

/-! ## Linking in -/

theorem insertAt_next_self (hx : s ≠ .next x) : (L.insertAt s x).next x = L.word s := by
  unfold insertAt next
  dsimp only
  split <;> simp [put, setPrev, hx.symm]

theorem insertAt_word_self : (L.insertAt s x).word s = x := by
  unfold insertAt
  dsimp only
  split <;> simp [put, setPrev]

theorem insertAt_word {p : Slot η} (hp : p ≠ s) (hx : p ≠ .next x) :
    (L.insertAt s x).word p = L.word p := by
  unfold insertAt
  dsimp only
  split <;> simp [put, setPrev, hp, hx]

theorem insertAt_prev_self : (L.insertAt s x).prev x = s := by
  unfold insertAt
  dsimp only
  split <;> simp [put, setPrev]

theorem insertAt_prev_next (hn : L.word s ≠ 0) (hx : L.word s ≠ x) :
    (L.insertAt s x).prev (L.word s) = .next x := by
  unfold insertAt
  simp [put, setPrev, hn, hx]

theorem insertAt_prev {z : Nat} (hx : z ≠ x) (hn : z ≠ L.word s) :
    (L.insertAt s x).prev z = L.prev z := by
  unfold insertAt
  dsimp only
  split <;> simp [put, setPrev, hx, hn]

/-- An element that is not on the list is linked in after `xs`. -/
theorem Seg.insertAt (h : Seg L s (L.word s) (xs ++ ys)) (hnodup : (xs ++ ys).Nodup)
    (hx : x ∉ xs ++ ys) (h0 : x ≠ 0) (hs : ∀ z ∈ x :: (xs ++ ys), s ≠ .next z) :
    Seg (L.insertAt (endSlot s xs) x) s ((L.insertAt (endSlot s xs) x).word s)
      (xs ++ x :: ys) := by
  induction xs generalizing s with
  | nil =>
    simp only [nil_append, endSlot] at h hnodup hx hs ⊢
    refine ⟨h0, insertAt_word_self, insertAt_prev_self, ?_⟩
    rw [insertAt_next_self (hs x (.head _))]
    cases ys with
    | nil => exact h
    | cons y ys =>
      obtain ⟨hy, hv, -, hrest⟩ := h
      obtain ⟨hyn, -⟩ := nodup_cons.mp hnodup
      have hxy : L.word s ≠ x := fun heq => hx (by rw [← heq, hv]; exact (.head _))
      refine ⟨hy, hv, ?_, ?_⟩
      · have hp := insertAt_prev_next (hv ▸ hy) hxy
        rwa [hv] at hp
      have hnext : ∀ z ∈ y :: ys, (L.insertAt s x).next z = L.next z := by
        intro z hz
        refine insertAt_word (hs z (.tail _ hz)).symm ?_
        intro heq
        cases heq
        exact hx hz
      rw [hnext y (.head _)]
      refine hrest.frame (fun z hz => hnext z (.tail _ hz)) ?_
      intro z hz
      refine insertAt_prev ?_ ?_
      · exact fun heq => hx (heq ▸ .tail _ hz)
      · exact fun heq => hyn (hv ▸ heq ▸ hz)
  | cons a xs ih =>
    simp only [cons_append] at h hnodup hx hs ⊢
    obtain ⟨ha, hv, hp, hrest⟩ := h
    obtain ⟨han, hnodup⟩ := nodup_cons.mp hnodup
    have hxa : x ≠ a := fun heq => hx (heq ▸ mem_cons_self)
    have hend : s ≠ endSlot (.next a) xs :=
      ne_endSlot (hs a (by simp)) fun y hy => hs y (by simp [hy])
    have hslot : ∀ z ∈ x :: (xs ++ ys), (Slot.next a : Slot η) ≠ .next z := by
      intro z hz heq
      cases heq
      rcases mem_cons.mp hz with hz | hz
      · exact hxa hz.symm
      · exact han hz
    refine ⟨ha, ?_, ?_, ih hrest hnodup (fun hm => hx (.tail _ hm)) hslot⟩
    · rw [endSlot, insertAt_word hend (hs x (.head _))]
      exact hv
    rw [endSlot, insertAt_prev hxa.symm, hp]
    have hy := hrest.word_endSlot.head
    intro heq
    rw [hy] at heq
    cases ys with
    | nil => exact ha heq
    | cons y ys => exact han (by rw [heq]; simp)

/-- What `LIST_INSERT_BEFORE` does is the same, at the slot that points to the element. -/
theorem insertBefore_eq (hword : L.word (L.prev y) = y) (hy : y ≠ 0) (hxy : x ≠ y) :
    L.insertBefore y x = L.insertAt (L.prev y) x := by
  have hprev : (L.setPrev x (L.prev y)).prev y = L.prev y := by simp [setPrev, hxy.symm]
  unfold insertBefore Links.insertAt
  dsimp only
  rw [hword, if_pos hy]
  simp only [put, setPrev] at hprev ⊢
  rw [update_of_ne hxy.symm]
  congr 1
  rw [update_comm hxy]

/-! ## Unlinking -/

theorem remove_word_self (hx : L.next x ≠ x) : (L.remove x).word (L.prev x) = L.next x := by
  unfold remove
  dsimp only
  split
  · have hprev : (L.setPrev (L.next x) (L.prev x)).prev x = L.prev x := by simp [setPrev, hx.symm]
    rw [hprev]
    simp [put, setPrev, next]
  · simp [put]

theorem remove_word {p : Slot η} (hx : L.next x ≠ x) (hp : p ≠ L.prev x) :
    (L.remove x).word p = L.word p := by
  unfold remove
  split
  · simp [put, setPrev, hx.symm, hp]
  · simp [put, hp]

theorem remove_prev_next (hn : L.next x ≠ 0) : (L.remove x).prev (L.next x) = L.prev x := by
  unfold remove
  simp [put, setPrev, hn]

theorem remove_prev {z : Nat} (hz : z ≠ L.next x) : (L.remove x).prev z = L.prev z := by
  unfold remove
  split <;> simp [put, setPrev, hz]

/-- An element is unlinked. -/
theorem Seg.remove (h : Seg L s (L.word s) (xs ++ x :: ys)) (hnodup : (xs ++ x :: ys).Nodup)
    (hs : ∀ z ∈ xs ++ x :: ys, s ≠ .next z) :
    Seg (L.remove x) s ((L.remove x).word s) (xs ++ ys) := by
  have hnext := h.next_ne hnodup
  induction xs generalizing s with
  | nil =>
    simp only [nil_append] at h hnodup hs ⊢
    obtain ⟨-, hv, hp, hrest⟩ := h
    obtain ⟨hxn, hnodup⟩ := nodup_cons.mp hnodup
    have hword : (L.remove x).word s = L.next x := by
      have hw := remove_word_self hnext
      rwa [hp] at hw
    rw [hword]
    cases ys with
    | nil => exact hrest
    | cons y ys =>
      obtain ⟨hy, hvy, hpy, hrest⟩ := hrest
      obtain ⟨hyn, -⟩ := nodup_cons.mp hnodup
      refine ⟨hy, hvy, ?_, ?_⟩
      · have hpn := remove_prev_next (hvy ▸ hy)
        rwa [hvy, hp] at hpn
      have hnexts : ∀ z ∈ y :: ys, (L.remove x).next z = L.next z := by
        intro z hz
        refine remove_word hnext ?_
        rw [hp]
        exact (hs z (.tail _ hz)).symm
      rw [hnexts y (.head _)]
      refine hrest.frame (fun z hz => hnexts z (.tail _ hz)) ?_
      intro z hz
      refine remove_prev ?_
      rw [hvy]
      exact fun heq => hyn (heq ▸ hz)
  | cons a xs ih =>
    have hpx := h.prev_eq
    have hnx := h.next_eq
    simp only [cons_append] at h hnodup hs ⊢
    obtain ⟨ha, hv, hp, hrest⟩ := h
    obtain ⟨han, hnodup⟩ := nodup_cons.mp hnodup
    have hend : s ≠ L.prev x := by
      rw [hpx, endSlot]
      exact ne_endSlot (hs a (by simp)) fun y hy => hs y (by simp [hy])
    have hslot : ∀ z ∈ xs ++ x :: ys, (Slot.next a : Slot η) ≠ .next z := by
      intro z hz heq
      cases heq
      exact han hz
    refine ⟨ha, ?_, ?_, ih hrest hnodup hslot⟩
    · rw [remove_word hnext hend]
      exact hv
    · rw [remove_prev, hp]
      rw [hnx]
      exact (headD_ne ha fun hm => han (by simp [hm])).symm

/-! ## Lists -/

theorem frame_insertAt {h : η} (hseg : Seg L (.head h) (L.first h) (xs ++ ys)) :
    Frame L (L.insertAt (endSlot (.head h) xs) x) h (x :: (xs ++ ys)) := by
  refine ⟨?_, ?_, ?_⟩
  · intro z h0 hz
    refine insertAt_word (next_ne_endSlot fun hm => hz (by simp [hm])) ?_
    intro hc
    cases hc
    exact hz (.head _)
  · intro z h0 hz
    refine insertAt_prev (fun heq => hz (heq ▸ mem_cons_self)) ?_
    rw [hseg.word_endSlot.head]
    exact (headD_ne h0 fun hm => hz (by simp [hm])).symm
  · intro h' hne
    exact insertAt_word (head_ne_endSlot hne) (fun hc => by cases hc)

theorem frame_remove {h : η} (hseg : Seg L (.head h) (L.first h) (xs ++ x :: ys))
    (hnodup : (xs ++ x :: ys).Nodup) : Frame L (L.remove x) h (xs ++ x :: ys) := by
  have hprev := hseg.prev_eq
  have hnext := hseg.next_ne hnodup
  refine ⟨?_, ?_, ?_⟩
  · intro z hz0 hz
    refine remove_word hnext ?_
    rw [hprev]
    exact next_ne_endSlot fun hm => hz (by simp [hm])
  · intro z hz0 hz
    refine remove_prev ?_
    rw [hseg.next_eq]
    exact (headD_ne hz0 fun hm => hz (by simp [hm])).symm
  · intro h' hne
    refine remove_word hnext ?_
    rw [hprev]
    exact head_ne_endSlot hne

section Sorted

variable (before : Nat → Nat → Prop) [DecidableRel before]

/-- The loop goes on from the first element of `y :: ys` and puts `x` where it belongs. -/
theorem insertSortedFrom_spec {h : η} (hseg : Seg L (.head h) (L.first h) (xs ++ y :: ys))
    (hnodup : (xs ++ y :: ys).Nodup) (hx : x ∉ xs ++ y :: ys) (h0 : x ≠ 0) (fuel : Nat) :
    (∀ L', insertSortedFrom before fuel L x y = some L' →
      Seg L' (.head h) (L'.first h) (xs ++ (y :: ys).orderedInsert before x) ∧
        Frame L L' h (x :: (xs ++ y :: ys))) ∧
    (ys.length < fuel → ∃ L', insertSortedFrom before fuel L x y = some L') := by
  induction fuel generalizing xs y ys with
  | zero => exact ⟨fun L' hL => (by cases hL), fun hlt => absurd hlt (Nat.not_lt_zero _)⟩
  | succ fuel ih =>
    have hslots : ∀ z ∈ x :: (xs ++ y :: ys), (Slot.head h : Slot η) ≠ .next z :=
      fun z _ hc => by cases hc
    have hy0 : y ≠ 0 := fun heq => hseg.ne_zero (by simp [heq])
    have hxy : x ≠ y := fun heq => hx (by simp [heq])
    unfold insertSortedFrom
    by_cases hb : before x y
    · rw [if_pos hb]
      refine ⟨?_, fun _ => ⟨_, rfl⟩⟩
      intro L' hL
      injection hL with hL
      have hprev := hseg.prev_eq
      have hword : L.word (L.prev y) = y := by
        rw [hprev, hseg.word_endSlot.head]
        rfl
      rw [insertBefore_eq hword hy0 hxy, hprev] at hL
      subst hL
      rw [List.orderedInsert, if_pos hb]
      exact ⟨hseg.insertAt hnodup hx h0 hslots, frame_insertAt hseg⟩
    · rw [if_neg hb, List.orderedInsert, if_neg hb]
      have hnext : L.next y = ys.headD 0 := hseg.next_eq
      cases ys with
      | nil =>
        have hnil : L.next y = 0 := hnext
        rw [hnil, if_pos rfl]
        refine ⟨?_, fun _ => ⟨_, rfl⟩⟩
        intro L' hL
        injection hL with hL
        have hlist : xs ++ [y] = (xs ++ [y]) ++ [] := (append_nil _).symm
        have hend : endSlot (Slot.head h) (xs ++ [y]) = .next y := by
          clear * -
          generalize Slot.head h = s
          induction xs generalizing s with
          | nil => rfl
          | cons a xs ih => exact ih (.next a)
        rw [hlist] at hseg hnodup hx hslots
        have hseg' := hseg.insertAt hnodup hx h0 hslots
        have hframe := frame_insertAt (x := x) hseg
        rw [hend] at hseg' hframe
        rw [insertAfter] at hL
        subst hL
        rw [append_nil] at hframe
        exact ⟨by simpa [first] using hseg', hframe⟩
      | cons z ys =>
        have hz0 : z ≠ 0 := fun heq => hseg.ne_zero (by simp [heq])
        have hnz : L.next y = z := hnext
        rw [hnz, if_neg hz0]
        have hsplit : xs ++ y :: z :: ys = (xs ++ [y]) ++ z :: ys := by simp
        rw [hsplit] at hseg hnodup hx ⊢
        obtain ⟨hsome, hfuel⟩ := ih hseg hnodup hx
        refine ⟨fun L' hL => ?_, fun hlt => hfuel (by simp at hlt; omega)⟩
        obtain ⟨hs, hf⟩ := hsome L' hL
        exact ⟨by simpa using hs, hf⟩

/-- `LIST_INSERT_SORTED` puts `x` where it belongs, and gets there if the loop may go around as
often as the list is long. -/
theorem insertSorted_spec {h : η} (hseg : Seg L (.head h) (L.first h) xs) (hnodup : xs.Nodup)
    (hx : x ∉ xs) (h0 : x ≠ 0) (fuel : Nat) : (∀ L', insertSorted before fuel L h x = some L' →
      Seg L' (.head h) (L'.first h) (xs.orderedInsert before x) ∧ Frame L L' h (x :: xs)) ∧
    (xs.length ≤ fuel → ∃ L', insertSorted before fuel L h x = some L') := by
  have hfirst : L.first h = xs.headD 0 := hseg.head
  unfold insertSorted
  cases xs with
  | nil =>
    have hnil : L.first h = 0 := hfirst
    rw [hnil, if_pos rfl]
    refine ⟨?_, fun _ => ⟨_, rfl⟩⟩
    intro L' hL
    cases hL
    have hseg : Seg L (.head h) (L.first h) ([] ++ []) := hseg
    exact ⟨hseg.insertAt hnodup hx h0 (fun z _ hc => by cases hc), frame_insertAt hseg⟩
  | cons y ys =>
    have hy0 : y ≠ 0 := fun heq => hseg.ne_zero (by simp [heq])
    have hyf : L.first h = y := hfirst
    rw [hyf, if_neg hy0]
    have hseg : Seg L (.head h) (L.first h) ([] ++ y :: ys) := hseg
    exact insertSortedFrom_spec before hseg hnodup hx h0 fuel

end Sorted

end Links

end Mios.Lib.BsdList
