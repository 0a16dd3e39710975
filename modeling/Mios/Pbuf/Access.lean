import Mathlib.Algebra.GroupWithZero.Nat
import Mios.Pbuf.Chain

/-! Random access to a packet: `pbuf_read_at` and `pbuf_memcmp_at`. Both look for the segment that
holds the first byte, and then go on from segment to segment. What they take from the first
one is bounded by its length, and not by what is left of it behind the offset. -/

namespace Mios.Packet

open Lib List Option

/-! ## The code -/

/-- The first loop: the segment with the byte at `offset`, and where in it the byte is. -/
def seek : Packet → Nat → Option (Segment × Nat × Packet)
  | [], _ => none
  | s :: rest, offset =>
    if s.buflen ≤ offset then seek rest (offset - s.buflen) else some (s, offset, rest)

/-- The second loop of `pbuf_read_at`, with the bytes it copies out. -/
def copyAt : Packet → Nat → Nat → Option (List Byte)
  | _, _, 0 => some []
  | [], _, _ + 1 => none
  | s :: rest, offset, len + 1 =>
    let c := min (len + 1) s.buflen
    (copyAt rest 0 (len + 1 - c)).map (Mem.read s.area (s.offset + offset) c ++ ·)

/-- The outcome is `none` for -1. -/
def pbufReadAt (c : Packet) (offset len : Nat) : Option (List Byte) :=
  match seek c offset with
  | none => none
  | some (s, off, rest) => copyAt (s :: rest) off len

def memcmp : List Byte → List Byte → Int
  | a :: as, b :: bs => if a = b then memcmp as bs else a.toNat - b.toNat
  | _, _ => 0

/-- The second loop of `pbuf_memcmp_at`. -/
def compareAt : Packet → Nat → List Byte → Int
  | _, _, [] => 0
  | [], _, _ :: _ => -1
  | s :: rest, offset, b :: data =>
    let c := min (b :: data).length s.buflen
    let n := memcmp ((b :: data).take c) (Mem.read s.area (s.offset + offset) c)
    if n ≠ 0 then n else compareAt rest 0 ((b :: data).drop c)

def pbufMemcmpAt (c : Packet) (data : List Byte) (offset : Nat) : Int :=
  if data.length = 0 then 0
  else
    match seek c offset with
    | none => -1
    | some (s, off, rest) => compareAt (s :: rest) off data

/-! ## Where the slice begins -/

variable {len off offset : Nat} {c rest : Packet} {s : Segment}

theorem seek_none (h : seek c offset = none) : total c ≤ offset := by
  induction c generalizing offset with
  | nil => exact Nat.zero_le _
  | cons s rest ih =>
    unfold seek at h
    split at h
    · have := ih h
      rw [total_cons]
      omega
    · cases h

/-- The segments that were passed are in front of the offset. -/
theorem seek_some (h : seek c offset = some (s, off, rest)) :
    off < s.buflen ∧ total c + off = total (s :: rest) + offset ∧
      (content c).drop offset = (content (s :: rest)).drop off := by
  induction c generalizing offset with
  | nil => cases h
  | cons n c ih =>
    unfold seek at h
    split at h
    · rename_i hle
      obtain ⟨hlt, htotal, hdrop⟩ := ih h
      refine ⟨hlt, ?_, ?_⟩
      · rw [total_cons n c]
        omega
      · rw [drop_content_ge hle]
        exact hdrop
    · rename_i hlt
      cases h
      exact ⟨Nat.lt_of_not_le hlt, rfl, rfl⟩

/-! ## From a segment on -/

/-- From the start of a segment: all bytes that are asked for, or none. -/
theorem copyAt_start (c : Packet) (len : Nat) :
    copyAt c 0 len = if len ≤ total c then some ((content c).take len) else none := by
  induction c generalizing len with
  | nil =>
    cases len with
    | zero => rfl
    | succ len => rfl
  | cons s rest ih =>
    cases len with
    | zero => simp [copyAt]
    | succ len =>
      rw [copyAt, ih, Nat.add_zero, total_cons]
      rcases Nat.le_total (len + 1) s.buflen with hle | hge
      · rw [Nat.min_eq_left hle, Nat.sub_self, if_pos (Nat.zero_le _), if_pos (by omega),
          take_content_le hle, map_some, take_zero, append_nil]
        rw [Segment.window, Mem.take_read, Nat.min_eq_left hle]
      · rw [Nat.min_eq_right hge]
        by_cases hlen : len + 1 - s.buflen ≤ total rest
        · rw [if_pos hlen, if_pos (by omega), map_some, take_content_ge hge]
          rfl
        · rw [if_neg hlen, if_neg (by omega), map_none]

/-- Inside one segment. -/
theorem copyAt_inside (rest : Packet) (h : off + len ≤ s.buflen) :
    copyAt (s :: rest) off len = some (((content (s :: rest)).drop off).take len) := by
  cases len with
  | zero => simp [copyAt]
  | succ len =>
    have hmin : min (len + 1) s.buflen = len + 1 := Nat.min_eq_left (by omega)
    have hoff : off ≤ s.buflen := by omega
    have hleft : len + 1 ≤ (s.dropFront off).buflen := by
      simp only [Segment.dropFront]
      omega
    have hzero : copyAt rest 0 0 = some [] := by cases rest <;> rfl
    rw [copyAt]
    simp only [hmin, Nat.sub_self]
    rw [hzero, map_some, append_nil, drop_content_le hoff, take_content_le hleft,
      Segment.window, Mem.take_read, Nat.min_eq_left hleft]
    rfl

/-- More bytes than there are from the segment on. -/
theorem copyAt_none (h : total (s :: rest) < len) :
    copyAt (s :: rest) off len = none := by
  rw [total_cons] at h
  cases len with
  | zero => cases h
  | succ len =>
    rw [copyAt, copyAt_start, Nat.min_eq_right (by omega), if_neg (by omega), map_none]

/-- For the lengths of the segments: the slice begins where a segment begins, or it ends in the
segment that it begins in, or it is longer than this segment and all behind it. -/
def Whole : List Nat → Nat → Nat → Prop
  | [], _, _ => True
  | n :: ns, offset, len =>
    if n ≤ offset then Whole ns (offset - n) len
    else offset = 0 ∨ offset + len ≤ n ∨ (n :: ns).sum < len

theorem sum_buflen (c : Packet) : (c.map Segment.buflen).sum = total c := by
  induction c with
  | nil => rfl
  | cons s c ih => rw [map_cons, sum_cons, ih, total_cons]

theorem Whole.seek (h : Whole (c.map Segment.buflen) offset len)
    (hseek : seek c offset = some (s, off, rest)) :
    off = 0 ∨ off + len ≤ s.buflen ∨ total (s :: rest) < len := by
  induction c generalizing offset with
  | nil => cases hseek
  | cons n c ih =>
    simp only [map_cons, Whole] at h
    unfold Packet.seek at hseek
    split at hseek
    · rename_i hle
      exact ih (by rwa [if_pos hle] at h) hseek
    · rename_i hlt
      cases hseek
      rw [if_neg hlt, sum_cons, sum_buflen] at h
      exact h

theorem copyAt_eq (hlt : off < s.buflen)
    (h : off = 0 ∨ off + len ≤ s.buflen ∨ total (s :: rest) < len) :
    copyAt (s :: rest) off len = if off + len ≤ total (s :: rest) then
      some (((content (s :: rest)).drop off).take len) else none := by
  rcases h with rfl | h | h
  · rw [copyAt_start, Nat.zero_add, drop_zero]
  · rw [copyAt_inside rest h, if_pos]
    rw [total_cons]
    omega
  · rw [copyAt_none h, if_neg (by omega)]

theorem pbufReadAt_eq (h : Whole (c.map Segment.buflen) offset len) :
    pbufReadAt c offset len = if offset + len ≤ total c ∧ offset < total c then
      some (((content c).drop offset).take len) else none := by
  unfold pbufReadAt
  cases hseek : seek c offset with
  | none =>
    have := seek_none hseek
    rw [if_neg (by omega)]
  | some r =>
    obtain ⟨s, off, rest⟩ := r
    obtain ⟨hlt, htotal, hdrop⟩ := seek_some hseek
    have hle : s.buflen ≤ total (s :: rest) := Nat.le_add_right _ _
    simp only [copyAt_eq hlt (h.seek hseek), hdrop]
    by_cases hin : off + len ≤ total (s :: rest)
    · rw [if_pos hin, if_pos (by omega)]
    · rw [if_neg hin, if_neg (by omega)]

/-! ## Comparing -/

theorem memcmp_eq_zero {as bs : List Byte} (h : as.length = bs.length) :
    memcmp as bs = 0 ↔ as = bs := by
  induction as generalizing bs with
  | nil =>
    obtain rfl := length_eq_zero_iff.mp h.symm
    simp [memcmp]
  | cons a as ih =>
    cases bs with
    | nil => cases h
    | cons b bs =>
      unfold memcmp
      by_cases hab : a = b
      · rw [if_pos hab, ih (Nat.succ.inj h), hab]
        simp
      have hne : a.toNat ≠ b.toNat := fun heq => hab (BitVec.eq_of_toNat_eq heq)
      rw [if_neg hab]
      constructor
      · intro hz
        omega
      · intro heq
        exact absurd (List.cons.inj heq).1 hab

/-- A comparison goes wrong exactly where a copy of the same slice differs or fails. -/
theorem compareAt_eq_zero (c : Packet) (off : Nat) (data : List Byte) :
    compareAt c off data = 0 ↔ copyAt c off data.length = some data := by
  induction c generalizing off data with
  | nil => cases data <;> simp [compareAt, copyAt]
  | cons s rest ih =>
    cases data with
    | nil => simp [compareAt, copyAt]
    | cons b data =>
      generalize hd : b :: data = d
      have hlen : d.length = data.length + 1 := by rw [← hd]; rfl
      have hcmp : compareAt (s :: rest) off d =
          if memcmp (d.take (min d.length s.buflen))
              (Mem.read s.area (s.offset + off) (min d.length s.buflen)) ≠ 0 then
            memcmp (d.take (min d.length s.buflen))
              (Mem.read s.area (s.offset + off) (min d.length s.buflen))
          else compareAt rest 0 (d.drop (min d.length s.buflen)) := by
        rw [← hd]
        rfl
      have hcopy : copyAt (s :: rest) off d.length =
          (copyAt rest 0 (d.length - min d.length s.buflen)).map
            (Mem.read s.area (s.offset + off) (min d.length s.buflen) ++ ·) := by
        rw [hlen, copyAt]
      rw [hcmp, hcopy]
      generalize hk : min d.length s.buflen = k
      have hkd : k ≤ d.length := by omega
      have htake : (d.take k).length = (Mem.read s.area (s.offset + off) k).length := by
        rw [Mem.length_read, length_take, Nat.min_eq_left hkd]
      by_cases heq : d.take k = Mem.read s.area (s.offset + off) k
      · rw [if_neg (by rw [(memcmp_eq_zero htake).mpr heq]; simp), ih, length_drop, ← heq]
        constructor
        · intro h
          rw [h, map_some, take_append_drop]
        · intro h
          obtain ⟨x, hx, happ⟩ := map_eq_some_iff.mp h
          rw [hx, ← append_cancel_left (happ.trans (take_append_drop k d).symm)]
      · have hne : memcmp (d.take k) (Mem.read s.area (s.offset + off) k) ≠ 0 :=
          fun hz => heq ((memcmp_eq_zero htake).mp hz)
        rw [if_pos hne]
        refine ⟨fun hz => absurd hz hne, fun h => ?_⟩
        obtain ⟨x, hx, happ⟩ := map_eq_some_iff.mp h
        refine absurd ?_ heq
        rw [← happ, take_left' Mem.length_read]

theorem pbufMemcmpAt_eq_zero {data : List Byte} (h : 0 < data.length) :
    pbufMemcmpAt c data offset = 0 ↔ pbufReadAt c offset data.length = some data := by
  unfold pbufMemcmpAt pbufReadAt
  rw [if_neg (by omega)]
  cases seek c offset with
  | none => simp
  | some r => exact compareAt_eq_zero (r.1 :: r.2.2) r.2.1 data

/-! ## Random access -/

/-- A slice is read exactly if it is inside the packet, and compared to exactly its bytes. -/
def Accesses (c : Packet) (offset len : Nat) : Prop :=
  (∀ out, pbufReadAt c offset len = some out ↔
    offset + len ≤ total c ∧ out = ((content c).drop offset).take len) ∧
  ∀ data, data.length = len →
    (pbufMemcmpAt c data offset = 0 ↔ ((content c).drop offset).take len = data)

theorem accesses_of_whole (hwhole : Whole (c.map Segment.buflen) offset len)
    (hend : len = 0 → offset ≠ total c) : Accesses c offset len := by
  have hlength : (((content c).drop offset).take len).length = min len (total c - offset) := by
    rw [length_take, length_drop, length_content]
  refine ⟨fun out => ?_, fun data hdata => ?_⟩
  · rw [pbufReadAt_eq hwhole]
    by_cases hin : offset + len ≤ total c
    · have hlt : offset < total c := by
        by_contra hle
        exact hend (by omega) (by omega)
      rw [if_pos ⟨hin, hlt⟩]
      simp [hin, eq_comm]
    · rw [if_neg fun h => hin h.1]
      simp [hin]
  · by_cases hzero : data.length = 0
    · have hnil : data = [] := length_eq_zero_iff.mp hzero
      subst hnil
      subst hdata
      simp [pbufMemcmpAt]
    · rw [pbufMemcmpAt_eq_zero (by omega), hdata, pbufReadAt_eq hwhole]
      by_cases hin : offset + len ≤ total c
      · rw [if_pos (by omega), Option.some.injEq]
      rw [if_neg fun h => hin h.1]
      constructor
      · intro h
        cases h
      · intro h
        have hlen := congrArg List.length h
        omega

/-! ### Across the end of a segment -/

def holding (b : Byte) (s : Segment) : Segment := { s with area := fun _ => b }

/-- The segments without what is in their data areas. -/
def layout (c : Packet) : Packet := c.map (holding 0)

theorem layout_holding (b : Byte) (c : Packet) : layout (c.map (holding b)) = layout c := by
  rw [layout, List.map_map]
  rfl

theorem buflen_layout (c : Packet) : (layout c).map Segment.buflen = c.map Segment.buflen := by
  rw [layout, List.map_map]
  rfl

theorem total_eq_of_layout {c' : Packet} (h : layout c' = layout c) : total c' = total c := by
  rw [← sum_buflen, ← buflen_layout, h, buflen_layout, sum_buflen]

theorem content_holding (b : Byte) (c : Packet) :
    content (c.map (holding b)) = replicate (total c) b := by
  induction c with
  | nil => rfl
  | cons s c ih =>
    have hwindow : (holding b s).window = replicate s.buflen b := by
      simp [Segment.window, holding, Mem.read, map_const']
    rw [map_cons, content_cons, hwindow, ih, total_cons, replicate_add]

theorem not_whole (h : ¬Whole (c.map Segment.buflen) offset len) : ∃ pre s rest off,
    c = pre ++ s :: rest ∧ offset = total pre + off ∧ 0 < off ∧ off < s.buflen ∧
      s.buflen < off + len ∧ len ≤ total (s :: rest) := by
  induction c generalizing offset with
  | nil => exact absurd trivial h
  | cons n c ih =>
    simp only [map_cons, Whole] at h
    split at h
    · obtain ⟨pre, s, rest, off, rfl, hoff, h⟩ := ih h
      refine ⟨n :: pre, s, rest, off, rfl, ?_, h⟩
      rw [total_cons]
      omega
    · rw [sum_cons, sum_buflen] at h
      refine ⟨[], n, c, offset, rfl, (Nat.zero_add _).symm, ?_⟩
      rw [total_cons]
      omega

theorem seek_append (pre rest : Packet) (h : off < s.buflen) :
    seek (pre ++ s :: rest) (total pre + off) = some (s, off, rest) := by
  induction pre with
  | nil =>
    rw [nil_append, total_nil, Nat.zero_add, seek, if_neg (by omega)]
  | cons n pre ih =>
    rw [cons_append, seek, total_cons, if_pos (by omega), Nat.add_assoc, Nat.add_sub_cancel_left, ih]

/-- Behind the end of the first segment zeros are read, and not the ones of the next segment. -/
theorem not_accesses {pre rest : Packet} (hpos : 0 < off) (hlt : off < s.buflen)
    (hcross : s.buflen < off + len) (hlen : len ≤ total (s :: rest)) :
    ¬Accesses (pre ++ holding 0 s :: rest.map (holding 1)) (total pre + off) len := by
  rintro ⟨hread, -⟩
  have hseek := seek_append pre (rest.map (holding 1)) (s := holding 0 s) hlt
  have htotal : total (rest.map (holding 1)) = total rest :=
    total_eq_of_layout (layout_holding 1 rest)
  obtain ⟨k, rfl⟩ : ∃ k, len = k + 1 := Nat.exists_eq_add_one.mpr (by omega)
  rw [total_cons] at hlen
  obtain ⟨out, hout⟩ : ∃ out, copyAt (rest.map (holding 1)) 0
      (k + 1 - min (k + 1) s.buflen) = some out := by
    rw [copyAt_start, if_pos (by omega)]
    exact ⟨_, rfl⟩
  have hcopy : pbufReadAt (pre ++ holding 0 s :: rest.map (holding 1)) (total pre + off)
      (k + 1) = some (Mem.read (fun _ => 0) (s.offset + off) (min (k + 1) s.buflen) ++ out) := by
    rw [pbufReadAt, hseek]
    exact congrArg (Option.map _) hout
  obtain ⟨hin, hslice⟩ := (hread _).mp hcopy
  have hdrop := (seek_some hseek).2.2
  rw [hdrop, content_cons, content_holding] at hslice
  have hbyte := congrArg (·[s.buflen - off]?) hslice
  have hwindow : (holding 0 s).window.length = s.buflen := length_window _
  rw [getElem?_append_left (by rw [Mem.length_read]; omega), Mem.getElem?_read (by omega),
    getElem?_take_of_lt (by omega), getElem?_drop, Nat.add_sub_cancel' (Nat.le_of_lt hlt),
    getElem?_append_right (Nat.le_of_eq hwindow), hwindow, Nat.sub_self] at hbyte
  cases hrest : total rest with
  | zero =>
    rw [hrest] at hbyte
    cases hbyte
  | succ n =>
    rw [hrest, replicate_succ] at hbyte
    exact absurd (Option.some.inj hbyte) (by decide)

/-- Whatever the data areas hold, a slice is read and compared right, if and only if it begins where
a segment begins, or ends in the segment that it begins in, or is longer than all from there on, and
is not the empty slice at the end of the packet. -/
theorem random_access (c : Packet) (offset len : Nat) :
    (∀ c', layout c' = layout c → Accesses c' offset len) ↔
      Whole (c.map Segment.buflen) offset len ∧ (len = 0 → offset ≠ total c) := by
  constructor
  · intro h
    constructor
    · by_contra hwhole
      obtain ⟨pre, s, rest, off, rfl, rfl, hpos, hlt, hcross, hlen⟩ := not_whole hwhole
      refine not_accesses hpos hlt hcross hlen (h _ ?_)
      have hrest := layout_holding 1 rest
      simp only [layout, map_append, map_cons] at hrest ⊢
      rw [hrest]
      rfl
    · rintro rfl rfl
      have hread := ((h c rfl).1 _).mpr ⟨Nat.le_refl _, rfl⟩
      rw [pbufReadAt] at hread
      cases hseek : seek c (total c) with
      | none =>
        rw [hseek] at hread
        cases hread
      | some r =>
        obtain ⟨s, off, rest⟩ := r
        obtain ⟨hlt, htotal, -⟩ := seek_some hseek
        rw [total_cons] at htotal
        omega
  · rintro ⟨hwhole, hend⟩ c' hlayout
    have hlens : c'.map Segment.buflen = c.map Segment.buflen := by
      rw [← buflen_layout, hlayout, buflen_layout]
    exact accesses_of_whole (hlens ▸ hwhole) (total_eq_of_layout hlayout ▸ hend)

/-- Two segments with two bytes each, in data areas that hold zeros behind them. -/
def twoPairs : Packet :=
  [⟨0, 0, 1, 0, 4, 0, 2, fun i => [0x61, 0x62].getD i 0⟩,
    ⟨1, 1, 2, 0, 0, 0, 2, fun i => [0x63, 0x64].getD i 0⟩]

/-- A slice across the end of the first segment gets what is in the data area behind it, is not
equal to its own bytes, and is found even if it ends outside of the packet. -/
theorem slice_across_segments : pbufReadAt twoPairs 1 2 = some [0x62, 0] ∧
    ((content twoPairs).drop 1).take 2 = [0x62, 0x63] ∧ pbufMemcmpAt twoPairs [0x62, 0x63] 1 ≠ 0 ∧
    total twoPairs < 1 + 4 ∧ pbufReadAt twoPairs 1 4 = some [0x62, 0, 0x63, 0x64] := by
  decide

end Mios.Packet
