import Mios.Pbuf.Segment

/-! Chains of packet buffers as byte sequences: what a chain is, and what `pbuf_drop`, `pbuf_read`
and `pbuf_trim` do to the bytes, to the marks of the packet and to the pools. -/

namespace Mios.Packet

open Function Lib List
open Pbuf (sop eop dataSize)

/-! ## What a chain is -/

/-- The head's packet length is the number of bytes, and all bytes are in their data areas. -/
structure Sized (c : Packet) : Prop where
  len : headLen c = total c
  small : headLen c < 65536
  area : ∀ s ∈ c, s.offset + s.buflen ≤ dataSize

def Starts (c : Packet) : Prop := ∀ s ∈ c.head?, s.flags &&& sop ≠ 0

def Ends (c : Packet) : Prop := ∀ s ∈ c.getLast?, s.flags &&& eop ≠ 0

structure Inv (c : Packet) : Prop where
  sized : Sized c
  starts : Starts c
  ends : Ends c

instance decidableInv (c : Packet) : Decidable (Inv c) :=
  decidable_of_iff ((headLen c = total c ∧ headLen c < 65536 ∧
      ∀ s ∈ c, s.offset + s.buflen ≤ dataSize) ∧
      (∀ s ∈ c.head?, s.flags &&& sop ≠ 0) ∧ ∀ s ∈ c.getLast?, s.flags &&& eop ≠ 0)
    ⟨fun h => ⟨⟨h.1.1, h.1.2.1, h.1.2.2⟩, h.2.1, h.2.2⟩,
      fun h => ⟨⟨h.sized.len, h.sized.small, h.sized.area⟩, h.starts, h.ends⟩⟩

/-- No segment behind the head is marked as the start of a packet. -/
def Single (c : Packet) : Prop := ∀ s ∈ c.tail, s.flags &&& sop = 0

def key (s : Segment) : Nat × Nat := (s.pb, s.buf)

/-- The segments that left the chain are in the pools, and no others came there. -/
def Freed (c : Packet) (P : Pool) (c' : Packet) (P' : Pool) : Prop :=
  ∃ gone : List (Nat × Nat), (c.map key).Perm (c'.map key ++ gone) ∧
    P'.pbufs = gone.map (·.1) ++ P.pbufs ∧ P'.datas = gone.map (·.2) ++ P.datas

@[simp] theorem content_nil : content [] = [] := rfl

@[simp] theorem content_cons (s : Segment) (c : Packet) :
    content (s :: c) = s.window ++ content c := rfl

@[simp] theorem total_nil : total [] = 0 := rfl

@[simp] theorem total_cons (s : Segment) (c : Packet) : total (s :: c) = s.buflen + total c := rfl

@[simp] theorem length_window (s : Segment) : s.window.length = s.buflen := Mem.length_read

theorem length_content (c : Packet) : (content c).length = total c := by
  induction c with
  | nil => rfl
  | cons s c ih => rw [content_cons, length_append, length_window, ih, total_cons]

theorem buflen_le_total {c : Packet} {t : Segment} (ht : t ∈ c.getLast?) : t.buflen ≤ total c := by
  induction c with
  | nil => simp at ht
  | cons s c ih =>
    rw [total_cons]
    cases c with
    | nil =>
      obtain rfl : s = t := by simpa using ht
      exact Nat.le_add_right _ _
    | cons n c => exact Nat.le_add_left_of_le (ih (by simpa using ht))

theorem Freed.refl (c : Packet) (P : Pool) : Freed c P c P := ⟨[], by simp, rfl, rfl⟩

variable {k : Nat} {c' : Packet} {s' : Segment}

/-- The marks and counters of the segments do not matter. -/
theorem Freed.of_keys {c : Packet} (h : c.map key = c'.map key) (P : Pool) : Freed c P c' P :=
  ⟨[], by simp [h], rfl, rfl⟩

theorem Freed.trans {c d e : Packet} {P Q R : Pool} (h : Freed c P d Q) (h' : Freed d Q e R) :
    Freed c P e R := by
  obtain ⟨g, hp, hb, hd⟩ := h
  obtain ⟨g', hp', hb', hd'⟩ := h'
  refine ⟨g' ++ g, ?_, by simp [hb, hb'], by simp [hd, hd']⟩
  have happ := hp.trans (hp'.append_right g)
  rwa [append_assoc] at happ

theorem Freed.cons {c : Packet} {P P' : Pool} (h : Freed c P c' P') (s : Segment)
    (hs : key s = key s') : Freed (s :: c) P (s' :: c') P' := by
  obtain ⟨g, hp, hb, hd⟩ := h
  refine ⟨g, ?_, hb, hd⟩
  rw [map_cons, map_cons, cons_append, hs]
  exact hp.cons _

/-- A segment is put back and what follows it stays. -/
theorem Freed.put (s : Segment) (c : Packet) (P : Pool) (hs : key s' = key s) :
    Freed (s :: c) P c (P.put s') := by
  refine ⟨[key s], ?_, ?_, ?_⟩
  · rw [map_cons]
    exact (perm_append_singleton _ _).symm
  · exact congrArg (· :: P.pbufs) (congrArg Prod.fst hs)
  · exact congrArg (· :: P.datas) (congrArg Prod.snd hs)

theorem Freed.free (c : Packet) (P : Pool) : Freed c P [] (P.free c) := by
  induction c generalizing P with
  | nil => exact .refl [] P
  | cons s c ih => exact (Freed.put s c P rfl).trans (ih _)

variable {s n : Segment} {rest c : Packet} {P : Pool}

theorem Sized.head (h : Sized (s :: rest)) : s.pktlen = s.buflen + total rest := h.len

theorem sized_cons : Sized (s :: rest) ↔ s.pktlen = s.buflen + total rest ∧ s.pktlen < 65536 ∧
    s.offset + s.buflen ≤ dataSize ∧ ∀ n ∈ rest, n.offset + n.buflen ≤ dataSize := by
  constructor
  · intro h
    exact ⟨h.len, h.small, h.area s (by simp), fun n hn => h.area n (by simp [hn])⟩
  rintro ⟨hlen, hsmall, hs, hrest⟩
  refine ⟨hlen, hsmall, fun n hn => ?_⟩
  rcases mem_cons.mp hn with rfl | hn
  · exact hs
  · exact hrest n hn

theorem sized_nil : Sized [] := ⟨rfl, by simp [headLen], by simp⟩

theorem ends_cons_cons : Ends (s :: n :: rest) ↔ Ends (n :: rest) := by simp [Ends]

theorem ends_singleton : Ends [s] ↔ s.flags &&& eop ≠ 0 := by simp [Ends]

theorem starts_cons : Starts (s :: rest) ↔ s.flags &&& sop ≠ 0 := by simp [Starts]

/-! ## Marks -/

theorem Starts.head (h : Starts (s :: c)) (s' : Segment) (c' : Packet) (hf : s'.flags = s.flags) :
    Starts (s' :: c') := by
  rw [starts_cons] at h ⊢
  rwa [hf]

theorem sop_iff (f : BitVec 8) : f &&& sop ≠ 0 ↔ f[0] = true := by
  revert f
  decide

theorem no_sop_iff (f : BitVec 8) : f &&& sop = 0 ↔ f[0] = false := by
  revert f
  decide

theorem eop_iff (f : BitVec 8) : f &&& eop ≠ 0 ↔ f[1] = true := by
  revert f
  decide

/-- The end of the packet stays marked, and no start is marked inside it. -/
structure KeepsEnd (c c' : Packet) : Prop where
  ends : Ends c → Ends c'
  single : Single c → Single c'

theorem KeepsEnd.refl (c : Packet) : KeepsEnd c c := ⟨id, id⟩

theorem KeepsEnd.trans {d e : Packet} (h : KeepsEnd c d) (h' : KeepsEnd d e) : KeepsEnd c e :=
  ⟨h'.ends ∘ h.ends, h'.single ∘ h.single⟩

theorem keepsEnd_nil (c : Packet) :
    KeepsEnd c [] := ⟨fun _ => by simp [Ends], fun _ => by simp [Single]⟩

theorem keepsEnd_of_flags (h : c.map (·.flags) = c'.map (·.flags)) : KeepsEnd c c' := by
  have hends : ∀ d : Packet, Ends d ↔ ∀ f ∈ (d.map (·.flags)).getLast?, f &&& eop ≠ 0 := by
    intro d
    simp [Ends, List.getLast?_map]
  have hsingle : ∀ d : Packet, Single d ↔ ∀ f ∈ (d.map (·.flags)).tail, f &&& sop = 0 := by
    intro d
    simp [Single, ← map_tail]
  refine ⟨fun he => ?_, fun hs => ?_⟩
  · rw [hends, ← h, ← hends]
    exact he
  · rw [hsingle, ← h, ← hsingle]
    exact hs

/-- A head is changed, but it keeps its end mark. -/
theorem keepsEnd_head (h : s.flags[1] = true → s'.flags[1] = true) :
    KeepsEnd (s :: rest) (s' :: rest) := by
  refine ⟨fun hends => ?_, fun hsingle => hsingle⟩
  cases rest with
  | nil =>
    rw [ends_singleton, eop_iff] at hends ⊢
    exact h hends
  | cons n rest =>
    rw [ends_cons_cons] at hends ⊢
    exact hends

/-- The segment behind the head is gone, and its end mark is on the head. -/
theorem keepsEnd_merge (h : n.flags[1] = true → s'.flags[1] = true) :
    KeepsEnd (s :: n :: rest) (s' :: rest) := by
  refine ⟨fun hends => ?_, fun hsingle m hm => hsingle m (.tail _ hm)⟩
  rw [ends_cons_cons] at hends
  exact (keepsEnd_head h).ends hends

/-- The head is gone, and the next segment is the head. -/
theorem keepsEnd_tail : KeepsEnd (s :: n :: rest) (n :: rest) := by
  refine ⟨fun hends => ends_cons_cons.mp hends, fun hsingle m hm => ?_⟩
  exact hsingle m (.tail _ hm)

/-- What a packet stays when its bytes change. -/
structure Keeps (c : Packet) (P : Pool) (c' : Packet) (P' : Pool) : Prop
    extends KeepsEnd c c' where
  sized : Sized c'
  starts : Starts c → Starts c'
  freed : Freed c P c' P'

theorem Keeps.inv {P' : Pool} (h : Keeps c P c' P') (hc : Inv c) : Inv c' :=
  ⟨h.sized, h.starts hc.starts, h.ends hc.ends⟩

/-! ## `pbuf_drop` -/

theorem window_dropFront (k : Nat) : (s.dropFront k).window = s.window.drop k :=
  Mem.drop_read.symm

theorem drop_content_le (h : k ≤ s.buflen) :
    (content (s :: c)).drop k = content (s.dropFront k :: c) := by
  rw [content_cons, content_cons, window_dropFront, drop_append_of_le_length (by simpa using h)]

theorem drop_content_ge (h : s.buflen ≤ k) :
    (content (s :: c)).drop k = (content c).drop (k - s.buflen) := by
  rw [content_cons, drop_append, drop_eq_nil_of_le (by simpa using h), nil_append,
    length_window]

theorem take_content_le (h : k ≤ s.buflen) : (content (s :: c)).take k = s.window.take k := by
  rw [content_cons, take_append_of_le_length (by simpa using h)]

theorem take_content_ge (h : s.buflen ≤ k) :
    (content (s :: c)).take k = s.window ++ (content c).take (k - s.buflen) := by
  rw [content_cons, take_append, take_of_length_le (by simpa using h), length_window]

theorem pktlen_dropFront (hk : k ≤ s.pktlen) (hs : s.pktlen < 65536) :
    (s.dropFront k).pktlen = s.pktlen - k := by
  simp only [Segment.dropFront]
  omega

theorem Sized.dropFront (h : Sized (s :: rest)) (hk : k ≤ s.buflen) :
    Sized (s.dropFront k :: rest) := by
  obtain ⟨hlen, hsmall, harea, hrest⟩ := sized_cons.mp h
  have hp := pktlen_dropFront (k := k) (by omega) hsmall
  refine sized_cons.mpr ⟨?_, ?_, ?_, hrest⟩
  · rw [hp]
    simp only [Segment.dropFront]
    omega
  · omega
  · simp only [Segment.dropFront]
    omega

/-- The head is empty; the next segment takes its packet length over. -/
theorem Sized.next (h : Sized (s :: n :: rest)) (h0 : s.buflen = 0) (f : BitVec 8) :
    Sized ({ n with pktlen := s.pktlen, flags := f } :: rest) := by
  obtain ⟨hlen, hsmall, -, hrest⟩ := sized_cons.mp h
  refine sized_cons.mpr ⟨?_, hsmall, hrest n (by simp), fun m hm => hrest m (by simp [hm])⟩
  simp only [total_cons] at hlen
  show s.pktlen = n.buflen + total rest
  omega

/-- The head is used up, or keeps a byte. -/
theorem dropFront_min (s : Segment) (k : Nat) :
    s.buflen ≤ k ∧ min k s.buflen = s.buflen ∧ (s.dropFront s.buflen).buflen = 0 ∨
      k < s.buflen ∧ min k s.buflen = k ∧ (s.dropFront k).buflen ≠ 0 := by
  simp only [Segment.dropFront]
  omega

theorem dropLoop_spec (free : Bool) (bytes : Nat) (h : Sized (s :: rest))
    (hb : bytes ≤ total (s :: rest)) : ∃ c' P', dropLoop free s bytes rest P = .ok (c', P') ∧
      content c' = (content (s :: rest)).drop bytes ∧ Keeps (s :: rest) P c' P' ∧
      (c' = [] ↔ free = true ∧ bytes = total (s :: rest)) := by
  induction rest generalizing s bytes P with
  | nil =>
    have hlen := h.head
    simp only [total_cons, total_nil, Nat.add_zero] at hlen hb
    have hmin : min bytes s.buflen = bytes := Nat.min_eq_left hb
    have hone : Keeps [s] P [s.dropFront bytes] P :=
      ⟨keepsEnd_head id, h.dropFront hb, fun hs => hs.head _ _ rfl, Freed.of_keys rfl P⟩
    have hbl : (s.dropFront bytes).buflen = s.buflen - bytes := rfl
    simp only [dropLoop, hmin, if_neg (show ¬ s.pktlen < bytes by omega), hbl, ite_not]
    by_cases he : s.buflen - bytes = 0
    · have heq : bytes = s.buflen := by omega
      rw [if_pos he]
      cases free with
      | true =>
        refine ⟨[], _, rfl, ?_, ⟨keepsEnd_nil _, sized_nil, fun _ => by simp [Starts],
          Freed.put s [] P rfl⟩, by simp [heq]⟩
        simp [heq]
      | false => exact ⟨_, P, rfl, by simp [window_dropFront], hone, by simp⟩
    · rw [if_neg he]
      exact ⟨_, P, rfl, by simp [window_dropFront], hone, by simp; omega⟩
  | cons n rest ih =>
    have hlen := h.head
    have htot : total (s :: n :: rest) = s.buflen + total (n :: rest) := rfl
    rw [dropLoop, if_neg (show ¬ s.pktlen < bytes by omega)]
    rcases dropFront_min s bytes with ⟨hle, hmin, he⟩ | ⟨hlt, hmin, he⟩
    · simp only [hmin, he, ne_eq, not_true, if_false]
      have hnext := (h.dropFront (Nat.le_refl _)).next he
        (n.flags ||| ((s.dropFront s.buflen).flags &&& sop))
      obtain ⟨c', P', hd, hc, hk, hnil⟩ := ih
        (bytes - s.buflen) hnext (by
          rw [htot] at hb
          simp only [total_cons] at hb ⊢
          omega)
      refine ⟨c', P', hd, ?_, ⟨?_, hk.sized, fun hs => hk.starts ?_, ?_⟩, ?_⟩
      · rw [hc, drop_content_ge hle]
        rfl
      · refine (keepsEnd_tail.trans (keepsEnd_head ?_)).trans hk.toKeepsEnd
        intro he
        simp [he]
      · rw [starts_cons, sop_iff] at hs ⊢
        simp [Segment.dropFront, hs, sop]
      · exact ((Freed.put s _ P rfl).trans (Freed.of_keys rfl _)).trans hk.freed
      rw [hnil, htot]
      simp only [total_cons]
      constructor
      all_goals
        rintro ⟨hf, heq⟩
        exact ⟨hf, by omega⟩
    · simp only [hmin, if_pos he]
      refine ⟨_, P, rfl, (drop_content_le (Nat.le_of_lt hlt)).symm, ⟨keepsEnd_head id,
        h.dropFront (Nat.le_of_lt hlt), fun hs => hs.head _ _ rfl, Freed.of_keys rfl P⟩, ?_⟩
      · simp only [reduceCtorEq, htot, false_iff]
        omega

/-! ## `pbuf_read` -/

/-- The last segment has bytes. -/
def Full (c : Packet) : Prop := ∀ t ∈ c.getLast?, t.buflen ≠ 0

theorem Full.eq_nil (h : Full c') (hc : content c' = (content c).drop (total c)) : c' = [] := by
  have hzero : total c' = 0 := by
    rw [← length_content, hc, length_drop, length_content, Nat.sub_self]
  cases hlast : c'.getLast? with
  | none => exact getLast?_eq_none_iff.mp hlast
  | some t => exact absurd (Nat.le_zero.mp (hzero ▸ buflen_le_total hlast)) (h t hlast)

/-- The segment that is the first one when `len` bytes were read is marked as the start of a packet,
or none is left. -/
def Marked : Packet → Nat → Prop
  | [], _ => True
  | s :: rest, len =>
    if len = 0 ∨ len < s.buflen then s.flags &&& sop ≠ 0 else Marked rest (len - s.buflen)

theorem marked_head {len : Nat} (h : len = 0 ∨ len < s.buflen) :
    Marked (s :: rest) len ↔ s.flags &&& sop ≠ 0 := by
  rw [Marked, if_pos h]

theorem marked_next {len : Nat} (h0 : len ≠ 0) (h : s.buflen ≤ len) :
    Marked (s :: rest) len ↔ Marked rest (len - s.buflen) := by
  rw [Marked, if_neg (by omega)]

/-- The flags are left alone, so that the start mark goes with the head. -/
theorem readLoop_spec (len : Nat) (h : Sized (s :: rest)) (hb : len ≤ total (s :: rest)) :
    ∃ c' P', readLoop s len rest P = .ok ((content (s :: rest)).take len, c', P') ∧
      content c' = (content (s :: rest)).drop len ∧ Sized c' ∧ KeepsEnd (s :: rest) c' ∧
      Freed (s :: rest) P c' P' ∧
      (Starts c' ↔ Marked (s :: rest) len) ∧ (Full (s :: rest) → Full c') := by
  induction rest generalizing s len P with
  | nil =>
    simp only [total_cons, total_nil, Nat.add_zero] at hb
    have hmin : min len s.buflen = len := Nat.min_eq_left hb
    have hbl : (s.dropFront len).buflen = s.buflen - len := rfl
    simp only [readLoop, hmin, hbl, content_cons, content_nil, append_nil, Nat.sub_self, ite_true]
    by_cases h0 : len = 0
    · subst h0
      rw [if_pos rfl]
      exact ⟨[s], P, by simp, by simp, h, .refl _, .refl _ _,
        starts_cons.trans (marked_head (.inl rfl)).symm, id⟩
    · rw [if_neg h0]
      by_cases he : s.buflen - len = 0
      · have heq : len = s.buflen := by omega
        rw [if_neg (by simpa using he)]
        refine ⟨[], _, rfl, ?_, sized_nil, keepsEnd_nil _, Freed.put s [] P rfl, ?_, by simp [Full]⟩
        · simp [heq]
        · rw [marked_next h0 (by omega)]
          simp [Starts, Marked]
      · rw [if_pos he]
        exact ⟨_, P, rfl, by simp [window_dropFront], h.dropFront hb, keepsEnd_head id,
          Freed.of_keys rfl P, starts_cons.trans (marked_head (s := s) (.inr (by omega))).symm,
          fun _ => by simpa [Full, hbl] using he⟩
  | cons n rest ih =>
    have htot : total (s :: n :: rest) = s.buflen + total (n :: rest) := rfl
    simp only [readLoop, ite_not]
    by_cases h0 : len = 0
    · subst h0
      rw [if_pos rfl]
      exact ⟨_, P, by simp, by simp, h, .refl _, .refl _ _,
        starts_cons.trans (marked_head (.inl rfl)).symm, id⟩
    · rw [if_neg h0]
      rcases dropFront_min s len with ⟨hle, hmin, he⟩ | ⟨hlt, hmin, he⟩
      · rw [hmin, if_pos he]
        have hnext := (h.dropFront (Nat.le_refl _)).next he n.flags
        obtain ⟨c', P', hd, hc, hsz, hke, hfr, hst, hfull⟩ := ih
          (len - s.buflen) hnext (by
            rw [htot] at hb
            simp only [total_cons] at hb ⊢
            omega)
        refine ⟨c', P', ?_, ?_, hsz, ?_, ?_, ?_, fun hlast => hfull ?_⟩
        · have hwin : s.window.take s.buflen = s.window := take_of_length_le (by simp)
          rw [hd, take_content_ge hle, hwin]
          rfl
        · rw [hc, drop_content_ge hle]
          rfl
        · refine (keepsEnd_tail.trans (keepsEnd_head ?_)).trans hke
          exact fun he => he
        · exact ((Freed.put s _ P rfl).trans (Freed.of_keys rfl _)).trans hfr
        · rw [hst, marked_next h0 hle]
          rfl
        · cases rest <;> simpa [Full] using hlast
      · rw [hmin, if_neg he]
        refine ⟨_, P, ?_, ?_, h.dropFront (Nat.le_of_lt hlt), keepsEnd_head id,
          Freed.of_keys rfl P, starts_cons.trans (marked_head (.inr hlt)).symm,
          fun hlast => by simpa [Full] using hlast⟩
        · rw [take_content_le (Nat.le_of_lt hlt)]
        · exact (drop_content_le (Nat.le_of_lt hlt)).symm

/-! ## `pbuf_trim` -/

/-- Where the bytes of the head begin. -/
def front (c : Packet) : Option ((Nat → Byte) × Nat) := c.head?.map fun s => (s.area, s.offset)

/-- What one round of `pbuf_trim` does; the head's packet length is not yet changed. -/
structure Trimmed (bytes : Nat) (c : Packet) (P : Pool) (c' : Packet) (b : Nat) (P' : Pool) :
    Prop extends KeepsEnd c c' where
  ne : c' ≠ []
  len : headLen c' = headLen c
  front : c'.front = c.front
  left : b ≤ bytes
  total : c'.total + (bytes - b) = c.total
  content : c'.content = c.content.take c'.total
  each : ∀ m ∈ c', ∃ s ∈ c, m.offset + m.buflen ≤ s.offset + s.buflen ∧
    (s.flags &&& sop = 0 → m.flags &&& sop = 0)
  starts : Starts c → Starts c'
  freed : Freed c P c' P'
  progress : b = 0 ∨ c'.length < c.length ∨ c.length = 1 ∧ c.total < bytes

theorem take_window (hk : k ≤ s.buflen) :
    ({ s with buflen := k } : Segment).window = s.window.take k := by
  rw [Segment.window, Segment.window, Mem.take_read, Nat.min_eq_left hk]

theorem trimTail_spec (bytes : Nat) (hne : c ≠ []) :
    ∃ c' b P', trimTail bytes c P = (c', b, P') ∧ Trimmed bytes c P c' b P' := by
  fun_induction trimTail bytes c P with
  | case1 => exact absurd rfl hne
  | case2 s P =>
    refine ⟨_, _, _, rfl, keepsEnd_of_flags rfl, by simp, rfl, rfl, by omega, ?_, ?_, ?_,
      fun hs => hs.head _ _ rfl, Freed.of_keys rfl _, ?_⟩
    · simp only [total_cons, total_nil]
      omega
    · simp only [content_cons, content_nil, append_nil, total_cons, total_nil, Nat.add_zero]
      exact take_window (by omega)
    · intro m hm
      obtain rfl := mem_singleton.mp hm
      exact ⟨s, by simp, Nat.add_le_add_left (Nat.sub_le _ _) _, id⟩
    · by_cases hlt : s.buflen < bytes
      · exact .inr (.inr ⟨rfl, hlt⟩)
      · exact .inl (by omega)
  | case3 s t P c hz =>
    refine ⟨_, _, _, rfl, keepsEnd_merge fun ht => by simp [ht, eop], by simp, rfl, rfl, by omega,
      ?_, ?_, ?_, ?_, ?_, .inr (.inl (by simp))⟩
    · simp only [total_cons, total_nil]
      omega
    · simp only [content_cons, content_nil, append_nil, total_cons, total_nil, Nat.add_zero]
      exact (take_left' (length_window s)).symm
    · intro m hm
      obtain rfl := mem_singleton.mp hm
      refine ⟨s, by simp, Nat.le_refl _, fun hs => ?_⟩
      rw [no_sop_iff] at hs ⊢
      simp [hs, eop]
    · intro hs
      rw [starts_cons, sop_iff] at hs ⊢
      simp [hs]
    · refine ⟨[key t], ?_, rfl, rfl⟩
      exact List.Perm.refl _
  | case4 s t P c hz =>
    refine ⟨_, _, _, rfl, keepsEnd_of_flags rfl, by simp, rfl, rfl, by omega, ?_, ?_, ?_,
      fun hs => hs.head _ _ rfl, Freed.of_keys rfl _, .inl (by omega)⟩
    · simp only [total_cons, total_nil]
      omega
    · have htake := take_window (s := t) (k := t.buflen - c) (by omega)
      simp only [content_cons, content_nil, append_nil, total_cons, total_nil, Nat.add_zero]
      rw [take_append, take_of_length_le (by simp), length_window, htake,
        Nat.add_sub_cancel_left]
    · intro m hm
      rcases mem_cons.mp hm with rfl | hm
      · exact ⟨_, by simp, Nat.le_refl _, id⟩
      · obtain rfl := mem_singleton.mp hm
        exact ⟨t, by simp, Nat.add_le_add_left (Nat.sub_le _ _) _, id⟩
  | case5 s q t rest P r ih =>
    obtain ⟨c', b, P', heq, h⟩ := ih (by simp)
    have hr : r = (c', b, P') := heq
    obtain ⟨m, c'', rfl⟩ := exists_cons_of_ne_nil h.ne
    refine ⟨s :: m :: c'', b, P', by rw [hr], ⟨fun he => ?_, fun hs m hm => ?_⟩, by simp, rfl,
      rfl, h.left, ?_, ?_, ?_, fun hs => hs.head _ _ rfl, h.freed.cons s rfl, ?_⟩
    · rw [ends_cons_cons] at he ⊢
      exact h.ends he
    · obtain ⟨y, hy, -, hno⟩ := h.each m hm
      exact hno (hs y hy)
    · have htot := h.total
      simp only [total_cons] at htot ⊢
      omega
    · rw [content_cons, h.content, total_cons s, take_content_ge (Nat.le_add_right _ _),
        Nat.add_sub_cancel_left]
    · intro x hx
      rcases mem_cons.mp hx with rfl | hx
      · exact ⟨_, by simp, Nat.le_refl _, id⟩
      · obtain ⟨y, hy, hxy⟩ := h.each x hx
        exact ⟨y, .tail _ hy, hxy⟩
    · have hp := h.progress
      simp only [length_cons] at hp ⊢
      omega

/-- Each round removes the last segment or is the last one. -/
theorem pbufTrim_spec (fuel bytes : Nat) (hne : c ≠ []) (hfuel : c.length ≤ fuel) (h : Sized c)
    (hb : bytes ≤ total c) : ∃ c' P', pbufTrim fuel c bytes P = some (c', P') ∧ c' ≠ [] ∧
      content c' = (content c).take (total c - bytes) ∧ front c' = front c ∧
      Keeps c P c' P' := by
  induction fuel generalizing c bytes P with
  | zero => exact absurd (length_eq_zero_iff.mp (Nat.le_zero.mp hfuel)) hne
  | succ fuel ih =>
    cases bytes with
    | zero =>
      refine ⟨c, P, rfl, hne, ?_, rfl, .refl c, h, id, .refl c P⟩
      rw [Nat.sub_zero, take_of_length_le (Nat.le_of_eq (length_content c))]
    | succ k =>
      obtain ⟨c', b, P', heq, ht⟩ := trimTail_spec (P := P) (k + 1) hne
      obtain ⟨s, d, rfl⟩ := exists_cons_of_ne_nil ht.ne
      have htot := ht.total
      have hleft := ht.left
      have hround : Keeps c P (subLen (s :: d) (k + 1 - b)) P' := by
        have hl : s.pktlen = headLen c := ht.len
        have h1 := h.len
        have h2 := h.small
        refine ⟨ht.toKeepsEnd.trans (keepsEnd_of_flags rfl), ⟨?_, ?_, ?_⟩,
          fun hs => (ht.starts hs).head _ _ rfl, ht.freed.trans (Freed.of_keys rfl P')⟩
        · show (s.pktlen + 65536 - (k + 1 - b)) % 65536 = total (s :: d)
          omega
        · exact Nat.mod_lt _ (by decide)
        · have harea : ∀ m ∈ s :: d, m.offset + m.buflen ≤ dataSize := by
            intro m hm
            obtain ⟨y, hy, hle, -⟩ := ht.each m hm
            exact Nat.le_trans hle (h.area y hy)
          exact forall_mem_cons.mpr (forall_mem_cons.mp harea)
      rw [pbufTrim, heq]
      by_cases hb0 : b = 0
      · subst hb0
        refine ⟨subLen (s :: d) (k + 1 - 0), P', by rw [pbufTrim], cons_ne_nil _ _, ?_, ht.front,
          hround⟩
        refine ht.content.trans ?_
        congr 1
        omega
      · have hshort : (s :: d).length < c.length := by
          rcases ht.progress with h0 | h1 | h1
          · exact absurd h0 hb0
          · exact h1
          · omega
        have hsum : total (subLen (s :: d) (k + 1 - b)) = total (s :: d) := rfl
        obtain ⟨d', Q, hd, hdne, hcont, hfr, hk⟩ := ih b (c := subLen (s :: d) (k + 1 - b))
          (cons_ne_nil _ _) (Nat.le_of_lt_succ (Nat.lt_of_lt_of_le hshort hfuel)) hround.sized
          (by omega)
        refine ⟨d', Q, hd, hdne, ?_, hfr.trans ht.front, hround.toKeepsEnd.trans hk.toKeepsEnd,
          hk.sized, hk.starts ∘ hround.starts, hround.freed.trans hk.freed⟩
        have hcontent : content (subLen (s :: d) (k + 1 - b)) = (content c).take (total (s :: d)) :=
          ht.content
        rw [hcont, hcontent, take_take, hsum]
        congr 1
        omega

end Mios.Packet
