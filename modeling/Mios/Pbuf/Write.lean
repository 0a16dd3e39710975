import Mios.Lib.Loop
import Mios.Pbuf.Chain

/-! `pbuf_write`, which appends bytes to a packet and takes new buffers when the last one is full.
A segment counts as full when it has `max_fragment_size` bytes, but what is copied to it is bounded
by the fragment size less its bytes and less its offset. With an offset the two do not agree. -/

namespace Mios.Packet

open Lib List
open Pbuf (eop dataSize)

/-! ## The code -/

/-- The sizes in a `pushpull_t`, both of type `uint16_t`. -/
structure Pushpull where
  maxFragmentSize : Nat
  preferredOffset : Nat
  max_lt : maxFragmentSize < 65536
  offset_lt : preferredOffset < 65536

/-- The transports that set up a `pushpull_t`. For L2CAP the peer says its MPS. -/
inductive Transport where
  | vllp
  | mbus
  | l2cap (mps : BitVec 16)

/-- `lc_reframing` is still zero when `hdrs` is computed from it. -/
def Transport.pushpull : Transport → Pushpull
  | .vllp => ⟨dataSize - 4, 0, by decide, by decide⟩
  | .mbus => ⟨56, 0, by decide, by decide⟩
  | .l2cap mps =>
    let hdrs := 2 + 4 + 2 + 0 * 2
    ⟨min mps.toNat (dataSize - hdrs), hdrs,
      Nat.lt_of_le_of_lt (Nat.min_le_left _ _) mps.isLt, by decide⟩

/-- The outcome of each allocation, in their order: the `pbuf_t`, its data area and what is left
in there. -/
abbrev Allocs := Nat → Option (Nat × Nat × (Nat → Byte))

/-- A packet that bytes are appended to: the last segment, and those in front of it. -/
structure Filling where
  front : Packet
  tail : Segment

/-- The loop of `pbuf_write`: the packet, the bytes that are left and the number of buffers taken. -/
structure Writing where
  packet : Filling
  data : List Byte
  taken : Nat

/-- Without a buffer the packet is freed. -/
inductive Written where
  | done (c : Packet)
  | failed (freed : Packet)

def addHead (n : Nat) : Packet → Packet
  | [] => []
  | s :: c => s.addLen n :: c

namespace Filling

def chain (f : Filling) : Packet := f.front ++ [f.tail]

/-- Bytes are copied behind those of the last segment, and the head counts them. -/
def put (f : Filling) (bs : List Byte) : Filling :=
  let t := { f.tail with
    area := Mem.write f.tail.area (f.tail.offset + f.tail.buflen) bs
    buflen := (f.tail.buflen + bs.length) % 65536 }
  if f.front.isEmpty then ⟨[], t.addLen bs.length⟩ else ⟨addHead bs.length f.front, t⟩

/-- The last segment loses its end mark and another one follows. -/
def grow (f : Filling) (s : Segment) : Filling :=
  ⟨f.front ++ [{ f.tail with flags := f.tail.flags &&& ~~~eop }], s⟩

end Filling

section Code

-- `size_t` has `word` values.
variable (word : Nat) (pp : Pushpull)

/-- A negative difference is taken for a large `size_t`. -/
def room (offset buflen : Nat) : Nat :=
  if buflen + offset ≤ pp.maxFragmentSize then pp.maxFragmentSize - buflen - offset
  else word + pp.maxFragmentSize - buflen - offset

def fill (w : Writing) : Writing :=
  let n := min w.data.length (room word pp w.packet.tail.offset w.packet.tail.buflen)
  { w with packet := w.packet.put (w.data.take n), data := w.data.drop n }

def writeRound (alloc : Allocs) (w : Writing) : Round Writing Written :=
  if w.data.isEmpty then .done (.done w.packet.chain)
  else if pp.maxFragmentSize ≤ w.packet.tail.buflen then
    match alloc w.taken with
    | none =>
      .done (.failed (w.packet.front ++
        [{ w.packet.tail with flags := w.packet.tail.flags &&& ~~~eop }]))
    | some (x, y, area) =>
      .next (fill word pp { w with
        packet := w.packet.grow ⟨x, y, eop, 0, 0, pp.preferredOffset, 0, area⟩
        taken := w.taken + 1 })
  else .next (fill word pp w)

/-- `pbuf_write` for at most `fuel` rounds. -/
def pbufWrite (alloc : Allocs) (fuel : Nat) (c : Packet) (data : List Byte) : Option Written :=
  match c.getLast? with
  | none => some (.failed [])
  | some t => loop (writeRound word pp alloc) fuel ⟨⟨c.dropLast, t⟩, data, 0⟩

/-! ## When the data fits -/

/-- All `n` bytes go to the segment in one copy, and stay inside its data area. -/
def Takes (offset buflen n : Nat) : Prop :=
  n ≤ room word pp offset buflen ∧ offset + buflen + n ≤ dataSize

/-- There is no buffer for a new segment, or new segments can take `n` bytes: one of them if there
is an offset, any number otherwise. -/
def FitsNew (next : Option (Nat × Nat × (Nat → Byte))) (n : Nat) : Prop :=
  n = 0 ∨ next = none ∨ Takes word pp pp.preferredOffset 0 n ∨
    pp.preferredOffset = 0 ∧ 0 < pp.maxFragmentSize

/-- The last segment can take `n` bytes, or it has no offset and new ones can take the rest. -/
def FitsIn (next : Option (Nat × Nat × (Nat → Byte))) (offset buflen n : Nat) : Prop :=
  if pp.maxFragmentSize ≤ buflen then FitsNew word pp next n
  else Takes word pp offset buflen n ∨
    offset = 0 ∧ FitsNew word pp next (n - (pp.maxFragmentSize - buflen))

def Fits (alloc : Allocs) (c : Packet) (n : Nat) : Prop :=
  ∀ t ∈ c.getLast?, FitsIn word pp (alloc 0) t.offset t.buflen n

end Code

/-! ## Appending to a packet -/

variable {word : Nat} {pp : Pushpull} {w : Writing} {n : Nat} {c : Packet} {f : Filling}
  {bs : List Byte}

variable {s : Segment}

theorem content_append (c d : Packet) : content (c ++ d) = content c ++ content d :=
  flatMap_append

theorem content_addHead : content (addHead n c) = content c := by cases c <;> rfl

/-- All bytes are in their data areas. -/
def Areas (c : Packet) : Prop := ∀ s ∈ c, s.offset + s.buflen ≤ dataSize

variable {alloc : Allocs} {whole : List Byte} {b : Nat}

theorem areas_append {d : Packet} : Areas (c ++ d) ↔ Areas c ∧ Areas d := by
  constructor
  · intro h
    exact ⟨fun s hs => h s (mem_append_left _ hs), fun s hs => h s (mem_append_right _ hs)⟩
  · rintro ⟨hc, hd⟩ s hs
    rcases mem_append.mp hs with hs | hs
    · exact hc s hs
    · exact hd s hs

theorem areas_singleton : Areas [s] ↔ s.offset + s.buflen ≤ dataSize := by
  simp [Areas]

theorem areas_addHead (h : Areas c) : Areas (addHead n c) := by
  cases c with
  | nil => exact h
  | cons t c =>
    exact forall_mem_cons.mpr ⟨h t (.head _), fun s hs => h s (.tail _ hs)⟩

theorem starts_of_flags {c' : Packet} (h : c.map (·.flags) = c'.map (·.flags)) (hs : Starts c) :
    Starts c' := by
  cases c' with
  | nil => simp [Starts]
  | cons t c' =>
    cases c with
    | nil => cases h
    | cons s c =>
      have hflags : s.flags = t.flags := (List.cons.inj h).1
      rw [starts_cons] at hs ⊢
      rwa [← hflags]

namespace Filling

theorem content_chain (f : Filling) : content f.chain = content f.front ++ f.tail.window := by
  rw [chain, content_append, content_cons, content_nil, append_nil]

theorem areas_chain : Areas f.chain ↔ Areas f.front ∧ f.tail.offset + f.tail.buflen ≤ dataSize := by
  rw [chain, areas_append, areas_singleton]

@[simp] theorem put_offset : (f.put bs).tail.offset = f.tail.offset := by
  unfold put
  split <;> rfl

theorem put_mod (h : f.tail.offset + f.tail.buflen + bs.length ≤ dataSize) :
    (f.tail.buflen + bs.length) % 65536 = f.tail.buflen + bs.length :=
  Nat.mod_eq_of_lt (by simp only [dataSize] at h; omega)

theorem put_buflen (h : f.tail.offset + f.tail.buflen + bs.length ≤ dataSize) :
    (f.put bs).tail.buflen = f.tail.buflen + bs.length := by
  unfold put
  split <;> exact put_mod h

theorem content_put (h : f.tail.offset + f.tail.buflen + bs.length ≤ dataSize) :
    content (f.put bs).chain = content f.chain ++ bs := by
  have hwindow : ∀ l, Segment.window { f.tail with
      area := Mem.write f.tail.area (f.tail.offset + f.tail.buflen) bs
      buflen := (f.tail.buflen + bs.length) % 65536
      pktlen := l } = f.tail.window ++ bs := by
    intro l
    simp only [Segment.window, put_mod h]
    exact Mem.read_write_behind f.tail.area f.tail.offset f.tail.buflen bs
  rw [content_chain, content_chain, append_assoc]
  unfold put
  split
  · rename_i hempty
    rw [isEmpty_iff.mp hempty]
    exact congrArg _ (hwindow _)
  · rw [content_addHead]
    exact congrArg _ (hwindow f.tail.pktlen)

theorem areas_put (harea : Areas f.chain)
    (h : f.tail.offset + f.tail.buflen + bs.length ≤ dataSize) : Areas (f.put bs).chain := by
  rw [areas_chain, put_offset, put_buflen h, ← Nat.add_assoc]
  refine ⟨?_, h⟩
  unfold put
  split
  · intro s hs
    cases hs
  · exact areas_addHead (areas_chain.mp harea).1

theorem content_grow (h : s.buflen = 0) : content (f.grow s).chain = content f.chain := by
  have hs : s.window = [] := by
    unfold Segment.window
    rw [h, Mem.read_zero]
  simp only [content_chain, grow, hs, content_append, content_cons, content_nil, append_nil]
  rfl

theorem areas_grow (harea : Areas f.chain) (h : s.offset + s.buflen ≤ dataSize) :
    Areas (f.grow s).chain := by
  obtain ⟨hfront, htail⟩ := areas_chain.mp harea
  exact areas_chain.mpr ⟨areas_append.mpr ⟨hfront, areas_singleton.mpr htail⟩, h⟩

theorem flags_put : (f.put bs).chain.map (·.flags) = f.chain.map (·.flags) := by
  unfold put chain
  split
  · rename_i hempty
    rw [isEmpty_iff.mp hempty]
    rfl
  · cases f.front with
    | nil => rfl
    | cons s c => simp [addHead, Segment.addLen]

theorem headLen_put : headLen (f.put bs).chain = (headLen f.chain + bs.length) % 65536 := by
  unfold put chain
  split
  · rename_i hempty
    rw [isEmpty_iff.mp hempty]
    rfl
  · rename_i hne
    cases hfront : f.front with
    | nil => exact absurd (by rw [hfront]; rfl) hne
    | cons s c => rfl

theorem total_put (h : f.tail.offset + f.tail.buflen + bs.length ≤ dataSize) :
    total (f.put bs).chain = total f.chain + bs.length := by
  rw [← length_content, content_put h, length_append, length_content]

/-- The head counts the bytes, so that the packet stays well formed. -/
theorem inv_put (h : Inv f.chain) (harea : f.tail.offset + f.tail.buflen + bs.length ≤ dataSize)
    (hlen : headLen f.chain + bs.length < 65536) : Inv (f.put bs).chain := by
  have hhead : headLen (f.put bs).chain = headLen f.chain + bs.length := by
    rw [headLen_put, Nat.mod_eq_of_lt hlen]
  refine ⟨⟨?_, ?_, areas_put h.sized.area harea⟩, starts_of_flags flags_put.symm h.starts,
    (keepsEnd_of_flags flags_put.symm).ends h.ends⟩
  · rw [hhead, total_put harea, h.sized.len]
  · rw [hhead]
    exact hlen

theorem headLen_grow (s : Segment) : headLen (f.grow s).chain = headLen f.chain := by
  unfold grow chain
  cases f.front <;> rfl

/-- Another segment marks the end of the packet. -/
theorem inv_grow (h : Inv f.chain) (hs : s.flags &&& eop ≠ 0) (hbuf : s.buflen = 0)
    (harea : s.offset ≤ dataSize) : Inv (f.grow s).chain := by
  have htotal : total (f.grow s).chain = total f.chain := by
    rw [← length_content, content_grow hbuf, length_content]
  refine ⟨⟨?_, ?_, areas_grow h.sized.area (by omega)⟩, ?_, ?_⟩
  · rw [headLen_grow, htotal]
    exact h.sized.len
  · rw [headLen_grow]
    exact h.sized.small
  · have hstarts := h.starts
    unfold grow chain
    unfold chain at hstarts
    cases hfront : f.front with
    | nil =>
      rw [hfront] at hstarts
      have hflag : f.tail.flags[0] = true := (sop_iff _).mp (starts_cons.mp hstarts)
      refine starts_cons.mpr ((sop_iff _).mpr ?_)
      simp [hflag, eop]
    | cons n c =>
      rw [hfront] at hstarts
      exact starts_cons.mpr (starts_cons.mp hstarts)
  · intro t ht
    unfold grow chain at ht
    rw [List.getLast?_append_of_ne_nil _ (by simp)] at ht
    cases ht
    exact hs

end Filling

/-! ## One copy -/

variable {next : Option (Nat × Nat × (Nat → Byte))} {o : Nat}

/-- The last segment is about to be filled. -/
def Open (word : Nat) (pp : Pushpull) (next : Option (Nat × Nat × (Nat → Byte)))
    (offset buflen n : Nat) : Prop :=
  Takes word pp offset buflen n ∨ offset = 0 ∧ buflen < pp.maxFragmentSize ∧
    FitsNew word pp next (n - (pp.maxFragmentSize - buflen))

theorem fitsIn_zero (h : o + b ≤ dataSize) : FitsIn word pp next o b 0 := by
  unfold FitsIn
  split
  · exact .inl rfl
  · exact .inl ⟨Nat.zero_le _, h⟩

theorem room_start (word : Nat) (h : b ≤ pp.maxFragmentSize) :
    room word pp 0 b = pp.maxFragmentSize - b := by
  rw [room, if_pos (by omega), Nat.sub_zero]

/-- A copy takes at least one byte, stays inside the data area, and the rest fits again. -/
theorem Open.copied (hmax : pp.maxFragmentSize ≤ dataSize) (hn : 0 < n)
    (h : Open word pp next o b n) :
    0 < min n (room word pp o b) ∧ o + b + min n (room word pp o b) ≤ dataSize ∧
      FitsIn word pp next o (b + min n (room word pp o b)) (n - min n (room word pp o b)) := by
  by_cases htakes : Takes word pp o b n
  · obtain ⟨hroom, harea⟩ := htakes
    rw [Nat.min_eq_left hroom, Nat.sub_self]
    exact ⟨hn, harea, fitsIn_zero (by omega)⟩
  · obtain ⟨rfl, hlt, hnew⟩ := h.resolve_left htakes
    have hroom := room_start word (Nat.le_of_lt hlt)
    have hle : pp.maxFragmentSize - b ≤ n := by
      by_contra hgt
      exact htakes ⟨by omega, by omega⟩
    rw [hroom, Nat.min_eq_right hle, Nat.add_sub_cancel' (Nat.le_of_lt hlt)]
    refine ⟨by omega, by omega, ?_⟩
    rw [FitsIn, if_pos (Nat.le_refl _)]
    exact hnew

/-- What the loop keeps: the packet with the bytes that are left, and that there is room. -/
structure Writes (word : Nat) (pp : Pushpull) (alloc : Allocs) (whole : List Byte) (w : Writing) :
    Prop where
  content : content w.packet.chain ++ w.data = whole
  areas : Areas w.packet.chain
  fits : FitsIn word pp (alloc w.taken) w.packet.tail.offset w.packet.tail.buflen w.data.length

theorem fill_writes (hmax : pp.maxFragmentSize ≤ dataSize)
    (hcontent : content w.packet.chain ++ w.data = whole) (hareas : Areas w.packet.front)
    (hdata : 0 < w.data.length)
    (hopen : Open word pp (alloc w.taken) w.packet.tail.offset w.packet.tail.buflen
      w.data.length) : Writes word pp alloc whole (fill word pp w) ∧ (fill word pp w).data.length < w.data.length := by
  obtain ⟨hpos, harea, hfits⟩ := hopen.copied hmax hdata
  unfold fill
  generalize hk : min w.data.length (room word pp w.packet.tail.offset w.packet.tail.buflen) = k at *
  have hlen : (w.data.take k).length = k := by rw [length_take]; omega
  have hdrop : (w.data.drop k).length = w.data.length - k := length_drop
  have hbound : w.packet.tail.offset + w.packet.tail.buflen + (w.data.take k).length ≤ dataSize := by
    rw [hlen]
    exact harea
  refine ⟨⟨?_, ?_, ?_⟩, by rw [hdrop]; omega⟩
  · rw [Filling.content_put hbound, append_assoc, take_append_drop]
    exact hcontent
  · exact Filling.areas_put (Filling.areas_chain.mpr ⟨hareas, by omega⟩) hbound
  · rw [Filling.put_offset, Filling.put_buflen hbound, hlen, hdrop]
    exact hfits

/-! ## The loop -/

/-- The packet has exactly these bytes, all of them in their data areas. -/
def Appends (whole : List Byte) (r : Written) : Prop :=
  ∀ c', r = .done c' → content c' = whole ∧ Areas c'

theorem writeRound_next {w' : Writing}
    (hmax : pp.maxFragmentSize ≤ dataSize) (hw : Writes word pp alloc whole w)
    (h : writeRound word pp alloc w = .next w') :
    Writes word pp alloc whole w' ∧ w'.data.length < w.data.length := by
  unfold writeRound at h
  split at h
  · cases h
  rename_i hne
  have hdata : 0 < w.data.length := by
    rw [length_pos_iff]
    intro heq
    exact hne (by rw [heq]; rfl)
  have hfits := hw.fits
  obtain ⟨hfront, htail⟩ := Filling.areas_chain.mp hw.areas
  unfold FitsIn at hfits
  split at h
  · rename_i hfull
    rw [if_pos hfull] at hfits
    split at h
    · cases h
    rename_i hsome
    cases h
    have hopen : Open word pp (alloc (w.taken + 1)) pp.preferredOffset 0 w.data.length := by
      rcases hfits with hzero | hnone | htakes | ⟨hpref, hpos⟩
      · omega
      · rw [hnone] at hsome
        cases hsome
      · exact .inl htakes
      · exact .inr ⟨hpref, hpos, .inr (.inr (.inr ⟨hpref, hpos⟩))⟩
    refine fill_writes hmax ?_ ?_ hdata hopen
    · rw [← hw.content, Filling.content_grow rfl]
    · exact areas_append.mpr ⟨hfront, areas_singleton.mpr htail⟩
  · rename_i hroom
    rw [if_neg hroom] at hfits
    cases h
    have hopen : Open word pp (alloc w.taken) w.packet.tail.offset w.packet.tail.buflen
        w.data.length := by
      rcases hfits with htakes | ⟨hzero, hnew⟩
      · exact .inl htakes
      · exact .inr ⟨hzero, Nat.lt_of_not_le hroom, hnew⟩
    exact fill_writes hmax hw.content hfront hdata hopen

theorem writeRound_done {r : Written}
    (hw : Writes word pp alloc whole w) (h : writeRound word pp alloc w = .done r) :
    Appends whole r := by
  rintro c' rfl
  unfold writeRound at h
  split at h
  · rename_i hempty
    cases h
    refine ⟨?_, hw.areas⟩
    rw [← hw.content, isEmpty_iff.mp hempty, append_nil]
  · split at h
    · split at h <;> cases h
    · cases h

theorem Transport.max_le (tr : Transport) : tr.pushpull.maxFragmentSize ≤ dataSize := by
  cases tr with
  | vllp | mbus => decide
  | l2cap mps => exact Nat.le_trans (Nat.min_le_right _ _) (by decide)

/-! ## When the data does not fit -/

/-- A segment that is not full, but that nothing can be copied to. -/
theorem diverges_of_no_room (hdata : w.data.isEmpty = false)
    (hlt : w.packet.tail.buflen < pp.maxFragmentSize)
    (harea : w.packet.tail.offset + w.packet.tail.buflen ≤ dataSize)
    (hroom : room word pp w.packet.tail.offset w.packet.tail.buflen = 0) :
    Diverges (writeRound word pp alloc) w := by
  refine diverges_of_invariant (I := fun v => v.data.isEmpty = false ∧
    v.packet.tail.buflen < pp.maxFragmentSize ∧
    v.packet.tail.offset + v.packet.tail.buflen ≤ dataSize ∧
    room word pp v.packet.tail.offset v.packet.tail.buflen = 0) ?_ ⟨hdata, hlt, harea, hroom⟩
  rintro v ⟨hdata, hlt, harea, hroom⟩
  have hbuflen : (v.packet.put []).tail.buflen = v.packet.tail.buflen := Filling.put_buflen harea
  refine ⟨fill word pp v, ?_, ?_⟩
  · simp only [writeRound, hdata, Bool.false_eq_true, if_false, if_neg (Nat.not_le.mpr hlt)]
  · simp only [fill, hroom, Nat.min_zero, take_zero, drop_zero, Filling.put_offset,
      hbuflen]
    exact ⟨hdata, hlt, harea, trivial⟩

theorem content_put_front (f : Filling) (bs : List Byte) :
    content (f.put bs).front = content f.front := by
  unfold Filling.put
  split
  · rename_i hempty
    rw [isEmpty_iff.mp hempty]
  · exact content_addHead

/-- Bytes that do not fit in the data area: the segment has too many of them, or the count of its
bytes has lost a part. -/
theorem not_appends_put (h : dataSize < f.tail.offset + f.tail.buflen + bs.length) :
    ¬Appends (content f.chain ++ bs) (.done (f.put bs).chain) := by
  intro hput
  obtain ⟨hcontent, hareas⟩ := hput _ rfl
  have hlen := congrArg List.length hcontent
  have harea := (Filling.areas_chain.mp hareas).2
  rw [Filling.content_chain, Filling.content_chain, content_put_front] at hlen
  simp only [length_append, length_window] at hlen
  rw [Filling.put_offset] at harea
  omega

/-- A copy that does not take all bytes to a segment with an offset. -/
theorem not_returns_fill {r : Written} (hmax : pp.maxFragmentSize ≤ dataSize)
    (hword : w.data.length + dataSize ≤ word)
    (htail : w.packet.tail.offset + w.packet.tail.buflen ≤ dataSize)
    (htakes : ¬Takes word pp w.packet.tail.offset w.packet.tail.buflen w.data.length)
    (hoff : w.packet.tail.offset ≠ 0)
    (hcontent : content w.packet.chain ++ w.data = whole) (hr : Appends whole r) :
    ¬Returns (writeRound word pp alloc) (fill word pp w) r := by
  intro hreturns
  by_cases hle : w.packet.tail.buflen + w.packet.tail.offset ≤ pp.maxFragmentSize
  · -- the segment is filled up to less than the fragment size, and then nothing more is copied
    have hroom : room word pp w.packet.tail.offset w.packet.tail.buflen =
        pp.maxFragmentSize - w.packet.tail.buflen - w.packet.tail.offset := if_pos hle
    have hlt : room word pp w.packet.tail.offset w.packet.tail.buflen < w.data.length := by
      by_contra hge
      exact htakes ⟨Nat.le_of_not_lt hge, by omega⟩
    have hfill : fill word pp w = { w with
        packet := w.packet.put (w.data.take (room word pp w.packet.tail.offset w.packet.tail.buflen))
        data := w.data.drop (room word pp w.packet.tail.offset w.packet.tail.buflen) } := by
      simp only [fill, Nat.min_eq_right (Nat.le_of_lt hlt)]
    rw [hroom] at hfill hlt
    have hlen : (w.data.take
        (pp.maxFragmentSize - w.packet.tail.buflen - w.packet.tail.offset)).length = _ :=
      length_take_of_le (Nat.le_of_lt hlt)
    have hbuf := Filling.put_buflen (f := w.packet) (by rw [hlen]; omega)
    rw [hlen] at hbuf
    have hstuck : Diverges (writeRound word pp alloc) (fill word pp w) := by
      rw [hfill]
      refine diverges_of_no_room ?_ ?_ ?_ ?_
      · rw [isEmpty_eq_false_iff, ← length_pos_iff, length_drop]
        omega
      all_goals simp only [Filling.put_offset, hbuf]
      · omega
      · omega
      · rw [room, if_pos (by omega)]
        omega
    obtain ⟨fuel, hfuel⟩ := hreturns
    rw [hstuck fuel] at hfuel
    cases hfuel
  · -- all bytes are copied
    have hroom : room word pp w.packet.tail.offset w.packet.tail.buflen =
        word + pp.maxFragmentSize - w.packet.tail.buflen - w.packet.tail.offset := if_neg hle
    have hmin : min w.data.length (room word pp w.packet.tail.offset w.packet.tail.buflen) =
        w.data.length := Nat.min_eq_left (by omega)
    have hdone : writeRound word pp alloc (fill word pp w) =
        .done (.done (w.packet.put w.data).chain) := by
      simp only [writeRound, fill, hmin, take_length, drop_length, isEmpty_nil, if_true]
    obtain rfl := hreturns.of_done hdone
    rw [← hcontent] at hr
    exact not_appends_put (Nat.lt_of_not_le fun h => htakes ⟨by omega, h⟩) hr

theorem Transport.offset_le (tr : Transport) : tr.pushpull.preferredOffset ≤ dataSize ∧
    (tr.pushpull.preferredOffset = 0 → 0 < tr.pushpull.maxFragmentSize) := by
  cases tr with
  | vllp | mbus => decide
  | l2cap mps => exact ⟨(by decide : 8 ≤ dataSize), fun h => by cases h⟩

/-- A full segment, and new ones that do not take the data. -/
theorem not_returns_full {tr : Transport} {r : Written}
    (hword : w.data.length + dataSize ≤ word)
    (hfull : tr.pushpull.maxFragmentSize ≤ w.packet.tail.buflen)
    (hfits : ¬FitsNew word tr.pushpull (alloc w.taken) w.data.length)
    (hcontent : content w.packet.chain ++ w.data = whole) (hr : Appends whole r) :
    ¬Returns (writeRound word tr.pushpull alloc) w r := by
  obtain ⟨hne, hfits⟩ := not_or.mp hfits
  obtain ⟨hsome, hfits⟩ := not_or.mp hfits
  obtain ⟨htakes, hoff⟩ := not_or.mp hfits
  obtain ⟨⟨x, y, area⟩, halloc⟩ := Option.ne_none_iff_exists'.mp hsome
  intro hreturns
  have hround : writeRound word tr.pushpull alloc w = .next (fill word tr.pushpull { w with
      packet := w.packet.grow ⟨x, y, eop, 0, 0, tr.pushpull.preferredOffset, 0, area⟩
      taken := w.taken + 1 }) := by
    have hempty : w.data.isEmpty = false := by
      rw [isEmpty_eq_false_iff, ← length_pos_iff]
      omega
    simp only [writeRound, hempty, Bool.false_eq_true, if_false, if_pos hfull, halloc]
  refine not_returns_fill tr.max_le ?_ ?_ ?_ ?_ ?_ hr (hreturns.of_next hround)
  · exact hword
  · exact tr.offset_le.1
  · exact htakes
  · exact fun hzero => hoff ⟨hzero, tr.offset_le.2 hzero⟩
  · rw [← hcontent, Filling.content_grow rfl]

theorem not_returns {tr : Transport} {r : Written}
    (hword : w.data.length + dataSize ≤ word)
    (htail : w.packet.tail.offset + w.packet.tail.buflen ≤ dataSize)
    (hfits : ¬FitsIn word tr.pushpull (alloc w.taken) w.packet.tail.offset w.packet.tail.buflen
      w.data.length)
    (hcontent : content w.packet.chain ++ w.data = whole) (hr : Appends whole r) :
    ¬Returns (writeRound word tr.pushpull alloc) w r := by
  unfold FitsIn at hfits
  split at hfits
  · exact not_returns_full hword ‹_› hfits hcontent hr
  rename_i hlt
  obtain ⟨htakes, hnew⟩ := not_or.mp hfits
  have hmax := tr.max_le
  have hpos : w.data.length ≠ 0 := fun h => htakes ⟨by omega, by omega⟩
  have hround : writeRound word tr.pushpull alloc w = .next (fill word tr.pushpull w) := by
    have hempty : w.data.isEmpty = false := by
      rw [isEmpty_eq_false_iff, ← length_pos_iff]
      omega
    simp only [writeRound, hempty, Bool.false_eq_true, if_false, if_neg hlt]
  intro hreturns
  have hnext := hreturns.of_next hround
  by_cases hoff : w.packet.tail.offset = 0
  · -- the segment is filled up, and new ones follow
    have hroom : room word tr.pushpull 0 w.packet.tail.buflen = _ :=
      room_start word (Nat.le_of_not_le hlt)
    have hlen : tr.pushpull.maxFragmentSize - w.packet.tail.buflen < w.data.length := by
      by_contra hge
      exact htakes ⟨by rw [hoff, hroom]; omega, by omega⟩
    have hfill : fill word tr.pushpull w = { w with
        packet := w.packet.put
          (w.data.take (tr.pushpull.maxFragmentSize - w.packet.tail.buflen))
        data := w.data.drop (tr.pushpull.maxFragmentSize - w.packet.tail.buflen) } := by
      simp only [fill, hoff, hroom, Nat.min_eq_right (Nat.le_of_lt hlen)]
    have htake : (w.data.take
        (tr.pushpull.maxFragmentSize - w.packet.tail.buflen)).length = _ :=
      length_take_of_le (Nat.le_of_lt hlen)
    have hbound : w.packet.tail.offset + w.packet.tail.buflen + (w.data.take
        (tr.pushpull.maxFragmentSize - w.packet.tail.buflen)).length ≤ dataSize := by
      rw [htake]
      omega
    have hbuf := Filling.put_buflen hbound
    rw [hfill] at hnext
    refine not_returns_full ?_ ?_ ?_ ?_ hr hnext
    · simp only [length_drop]
      omega
    · simp only [hbuf, htake]
      omega
    · simp only [length_drop]
      exact fun h => hnew ⟨hoff, h⟩
    · simp only [Filling.content_put hbound, append_assoc, take_append_drop]
      exact hcontent
  · exact not_returns_fill hmax hword htail htakes hoff hcontent hr hnext

/-- `pbuf_write` appends exactly the data, or fails for want of a buffer, if and only if wherever
there is an offset the data fits in one copy. -/
theorem write_appends (word : Nat) (tr : Transport) (alloc : Allocs) (c : Packet)
    (data : List Byte) (hinv : Inv c) (hword : data.length + dataSize ≤ word) :
    (∃ fuel r, pbufWrite word tr.pushpull alloc fuel c data = some r ∧
      ∀ c', r = .done c' →
        content c' = content c ++ data ∧ ∀ s ∈ c', s.offset + s.buflen ≤ dataSize) ↔
      Fits word tr.pushpull alloc c data.length := by
  unfold pbufWrite Fits
  cases hlast : c.getLast? with
  | none =>
    refine ⟨fun _ => by simp, fun _ => ⟨0, .failed [], rfl, fun c' h => by cases h⟩⟩
  | some t =>
    have hc : c.dropLast ++ [t] = c := dropLast_append_getLast? t hlast
    have hareas : Areas (Filling.chain ⟨c.dropLast, t⟩) := by
      rw [Filling.chain, hc]
      exact hinv.sized.area
    have hcontent : content (Filling.chain ⟨c.dropLast, t⟩) ++ data = content c ++ data := by
      rw [Filling.chain, hc]
    constructor
    · rintro ⟨fuel, r, hfuel, hr⟩ t' ht'
      obtain rfl := Option.some.inj ht'
      by_contra hfits
      exact not_returns (w := ⟨⟨c.dropLast, t⟩, data, 0⟩) hword (Filling.areas_chain.mp hareas).2
        hfits hcontent hr ⟨fuel, hfuel⟩
    · intro hfits
      obtain ⟨r, ⟨fuel, hfuel⟩, hr⟩ := exists_returns (fun w : Writing => w.data.length)
        (fun w r hw h => writeRound_done hw h)
        (fun w w' hw h => writeRound_next tr.max_le hw h)
        (⟨hcontent, hareas, hfits t rfl⟩ :
          Writes word tr.pushpull alloc (content c ++ data) ⟨⟨c.dropLast, t⟩, data, 0⟩)
      exact ⟨fuel, r, hfuel, hr⟩

/-- A buffer as `pbuf_make` gives it. -/
def fresh (offset : Nat) : Segment := ⟨0, 0, 3, 0, 0, offset, 0, fun _ => 0⟩

theorem inv_single (hflags : s.flags = 3) (hlen : s.pktlen = s.buflen)
    (harea : s.offset + s.buflen ≤ dataSize) : Inv [s] := by
  refine ⟨sized_cons.mpr ⟨hlen, ?_, harea, by simp⟩, ?_, ?_⟩
  · simp only [dataSize] at harea
    omega
  · rw [starts_cons, hflags]
    decide
  · rw [ends_singleton, hflags]
    decide

/-- Sixty bytes over mbus take two segments. -/
theorem write_appends_mbus : Inv [fresh 0] ∧ ∃ fuel r,
    pbufWrite 4294967296 Transport.mbus.pushpull (fun k => some (k, k, fun _ => 0)) fuel [fresh 0]
      (List.replicate 60 7) = some r ∧
      ∀ c', r = .done c' → content c' = content [fresh 0] ++ List.replicate 60 7 ∧
        ∀ s ∈ c', s.offset + s.buflen ≤ dataSize := by
  have hinv : Inv [fresh 0] := inv_single rfl rfl (by decide)
  refine ⟨hinv, (write_appends _ _ _ _ _ hinv (by decide)).mpr fun t ht => ?_⟩
  obtain rfl : fresh 0 = t := by simpa using ht
  exact .inr ⟨rfl, .inr (.inr (.inr ⟨rfl, by decide⟩))⟩

/-- A segment with 500 bytes behind the headers of L2CAP. -/
def filled : Segment := { fresh 8 with buflen := 500, pktlen := 500 }

/-- Over L2CAP with an MPS of 23, sixteen bytes are never written to a new buffer: fifteen are copied,
and then none. With the largest MPS, five bytes are copied to a segment that has four left. -/
theorem l2cap_write_stuck :
    (Inv [fresh 8] ∧ ∀ fuel, pbufWrite 4294967296 (Transport.l2cap 23).pushpull (fun _ => none) fuel
      [fresh 8] (List.replicate 16 7) = none) ∧
    Inv [filled] ∧ ∃ s, pbufWrite 4294967296 (Transport.l2cap 504).pushpull (fun _ => none) 2
      [filled] (List.replicate 5 7) = some (.done [s]) ∧ dataSize < s.offset + s.buflen := by
  refine ⟨⟨inv_single rfl rfl (by decide), fun fuel => ?_⟩,
    inv_single rfl rfl (by decide), _, rfl, by decide⟩
  have hround : writeRound 4294967296 (Transport.l2cap 23).pushpull (fun _ => none)
      ⟨⟨[], fresh 8⟩, List.replicate 16 7, 0⟩ =
      .next (fill 4294967296 (Transport.l2cap 23).pushpull
        ⟨⟨[], fresh 8⟩, List.replicate 16 7, 0⟩) := rfl
  exact Diverges.next hround (diverges_of_no_room rfl (by decide) (by decide) rfl) fuel

end Mios.Packet
