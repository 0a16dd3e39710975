import Mathlib.Data.List.Forall2
import Mios.Pbuf.Chain

/-! `pbuf_pullup`, `pbuf_prepend`, `pbuf_append` and `pbuf_copy_pkt`, and all functions together:
every chain is a byte sequence to them. -/

namespace Mios.Packet

open Function Lib List
open Pbuf (sop eop dataSize)

variable {s n : Segment} {rest c : Packet} {P : Pool}

/-! ## `pbuf_pullup` -/

/-- Bytes of the next segment are copied behind those of the head. -/
theorem window_copy (s n : Segment) (k : Nat) : ({ s with
      area := Mem.write s.area (s.offset + s.buflen) (Mem.read n.area n.offset k)
      buflen := s.buflen + k } : Segment).window = s.window ++ Mem.read n.area n.offset k := by
  have hread := Mem.read_write_behind s.area s.offset s.buflen (Mem.read n.area n.offset k)
  rwa [Mem.length_read] at hread

theorem pullupLoop_spec (bytes : Nat) (hb : bytes ≤ total rest)
    (harea : ∀ n ∈ rest, n.offset + n.buflen ≤ dataSize) :
    ∃ s' rest' P', pullupLoop s rest bytes P = (s' :: rest', 0, P') ∧
      s'.window = s.window ++ (content rest).take bytes ∧
      content rest' = (content rest).drop bytes ∧ s'.pktlen = s.pktlen ∧ s'.offset = s.offset ∧
      s'.buflen = s.buflen + bytes ∧ (∀ n ∈ rest', n.offset + n.buflen ≤ dataSize) ∧
      (s.flags[0] = true → s'.flags[0] = true) ∧ KeepsEnd (s :: rest) (s' :: rest') ∧
      Freed (s :: rest) P (s' :: rest') P' := by
  induction rest generalizing s bytes P with
  | nil =>
    obtain rfl : bytes = 0 := Nat.le_zero.mp hb
    exact ⟨s, [], P, by simp [pullupLoop], by simp, rfl, rfl, rfl, rfl, by simp, id, .refl _, .refl _ _⟩
  | cons n rest ih =>
    cases bytes with
    | zero =>
      exact ⟨s, n :: rest, P, by simp [pullupLoop], by simp, by simp, rfl, rfl, rfl, harea, id,
        .refl _, .refl _ _⟩
    | succ b =>
      have hn := harea n (by simp)
      have hrest : ∀ m ∈ rest, m.offset + m.buflen ≤ dataSize := fun m hm => harea m (by simp [hm])
      have hcopy := window_copy s n
      simp only [pullupLoop]
      by_cases he : n.buflen - min (b + 1) n.buflen = 0
      · have hle : n.buflen ≤ b + 1 := by omega
        have hmin : min (b + 1) n.buflen = n.buflen := Nat.min_eq_right hle
        rw [if_pos he, hmin]
        obtain ⟨s', rest', P', heq, hw, hc, hl, ho, hbl, ha, hst, hke, hfr⟩ :=
          ih (s := { s with
            area := Mem.write s.area (s.offset + s.buflen) (Mem.read n.area n.offset n.buflen)
            buflen := s.buflen + n.buflen
            flags := s.flags ||| (n.flags &&& eop)
            credits := (s.credits + n.credits) % 256 }) (b + 1 - n.buflen)
            (by simp only [total_cons] at hb; omega) hrest
        refine ⟨s', rest', P', heq, ?_, ?_, hl, ho, ?_, ha, ?_, ?_, ?_⟩
        · rw [hw, take_content_ge hle, ← append_assoc]
          exact congrArg (· ++ _) (hcopy n.buflen)
        · rw [hc, drop_content_ge hle]
        · rw [hbl]
          show s.buflen + n.buflen + (b + 1 - n.buflen) = s.buflen + (b + 1)
          omega
        · intro hs
          refine hst ?_
          simp [hs]
        · refine (keepsEnd_merge ?_).trans hke
          intro hend
          simp [hend, eop]
        · refine Freed.trans ⟨[key n], ?_, rfl, rfl⟩ hfr
          rw [map_cons, map_cons, map_cons, cons_append]
          exact (perm_append_singleton _ _).symm.cons _
      · have hlt : b + 1 < n.buflen := by omega
        have hmin : min (b + 1) n.buflen = b + 1 := Nat.min_eq_left (Nat.le_of_lt hlt)
        rw [if_neg he, hmin, Nat.sub_self]
        refine ⟨_, _, P, rfl, ?_, ?_, rfl, rfl, rfl, ?_, id, keepsEnd_of_flags rfl,
          Freed.of_keys rfl P⟩
        · rw [hcopy, take_content_le (Nat.le_of_lt hlt), ← take_window (Nat.le_of_lt hlt)]
          rfl
        · rw [drop_content_le (Nat.le_of_lt hlt)]
          rfl
        intro m hm
        rcases mem_cons.mp hm with rfl | hm
        · show n.offset + (b + 1) + (n.buflen - (b + 1)) ≤ dataSize
          omega
        · exact hrest m hm

/-- The contract of `memcpy`: the ranges do not overlap. -/
def Copies (memcpy : (Nat → Byte) → Nat → Nat → Nat → Nat → Byte) : Prop :=
  ∀ m d s n, d + n ≤ s ∨ s + n ≤ d → memcpy m d s n = Mem.write m d (Mem.read m s n)

/-- A `memcpy` that may be used towards lower addresses. -/
def CopiesDown (memcpy : (Nat → Byte) → Nat → Nat → Nat → Nat → Byte) : Prop :=
  ∀ m d s n, d ≤ s → memcpy m d s n = Mem.write m d (Mem.read m s n)

theorem copies_byteCopy : Copies Mem.byteCopy := fun _ _ _ _ h => Mem.byteCopy_eq (by omega)

theorem copiesDown_byteCopy : CopiesDown Mem.byteCopy := fun _ _ _ _ h => Mem.byteCopy_eq (.inl h)

/-- All blocks but the last one, which is left for the tail. -/
theorem copyBlocks_eq (fuel : Nat) (m : Nat → Byte) (d s n : Nat) (hf : n ≤ fuel)
    (h : d + n ≤ s ∨ s + n ≤ d) :
    ∃ k, k ≤ n ∧ n ≤ k + 32 ∧ copyBlocks fuel m d s n = Mem.write m d (Mem.read m s k) := by
  induction fuel generalizing m d s n with
  | zero => exact ⟨0, by omega, by omega, by funext i; simp [copyBlocks, Mem.write]⟩
  | succ fuel ih =>
    rw [copyBlocks]
    split
    · obtain ⟨k, hk, hk', heq⟩ := ih (Mem.write m d (Mem.read m s 32)) (d + 32) (s + 32) (n - 32)
        (by omega) (by omega)
      refine ⟨32 + k, by omega, by omega, ?_⟩
      rw [heq, Mem.read_write_of_disjoint (by rw [Mem.length_read]; omega),
        Mem.write_read_cover m d s (Nat.le_refl 32) (Nat.le_add_right _ _)]
    · exact ⟨0, by omega, by omega, by funext i; simp [Mem.write]⟩

theorem copies_memcpyAarch64 : Copies memcpyAarch64 := by
  intro m d s n h
  unfold memcpyAarch64
  split
  · exact Mem.byteCopy_eq (by omega)
  split
  · rw [Nat.add_sub_assoc (by omega), Nat.add_sub_assoc (by omega),
      Mem.write_read_cover m d s (by omega) (by omega), Nat.sub_add_cancel (by omega)]
  · obtain ⟨k, hk, hk', heq⟩ := copyBlocks_eq n m d s n (Nat.le_refl _) h
    simp only [heq]
    rw [Nat.add_sub_assoc (by omega), Nat.add_sub_assoc (by omega),
      Mem.read_write_of_disjoint (by rw [Mem.length_read]; omega),
      Mem.write_read_cover m d s (by omega) (by omega), Nat.sub_add_cancel (by omega)]

variable {memcpy : (Nat → Byte) → Nat → Nat → Nat → Nat → Byte}

/-- `memcpy` brings the bytes of the segment to the front of its data area. -/
def Compacts (memcpy : (Nat → Byte) → Nat → Nat → Nat → Nat → Byte) (s : Segment) : Prop :=
  Mem.read (memcpy s.area 0 s.offset s.buflen) 0 s.buflen = s.window

theorem window_compact (h : Compacts memcpy s) : (compact memcpy s).window = s.window := h

theorem Copies.compacts (h : Copies memcpy) (hs : s.buflen ≤ s.offset ∨ CopiesDown memcpy) :
    Compacts memcpy s := by
  have hcopy : memcpy s.area 0 s.offset s.buflen = Mem.write s.area 0 s.window := by
    rcases hs with hs | hs
    · exact h s.area 0 s.offset s.buflen (.inl (by omega))
    · exact hs s.area 0 s.offset s.buflen (Nat.zero_le _)
  have hread := Mem.read_write_self s.area 0 s.window
  rw [length_window] at hread
  rw [Compacts, hcopy, hread]

/-- Everything but the bytes is right whatever `memcpy` does. -/
theorem pbufPullup_spec (bytes : Nat)
    (h : Sized (s :: rest)) (hb : bytes ≤ total (s :: rest)) (hd : bytes ≤ dataSize) :
    ∃ s' rest' P', pbufPullup memcpy (s :: rest) bytes P = .ok (s' :: rest', 0, P') ∧
      (content (s' :: rest') = content (s :: rest) ↔
        (s.buflen < bytes → dataSize < bytes + s.offset → Compacts memcpy s)) ∧
      bytes ≤ s'.buflen ∧ Keeps (s :: rest) P (s' :: rest') P' := by
  obtain ⟨hlen, hsmall, harea, hrest⟩ := sized_cons.mp h
  simp only [pbufPullup]
  by_cases hle : bytes ≤ s.buflen
  · rw [if_pos hle]
    exact ⟨s, rest, P, rfl, ⟨fun _ hlt => absurd hle (Nat.not_le.mpr hlt), fun _ => rfl⟩, hle,
      .refl _, h, id, .refl _ _⟩
  rw [if_neg hle]
  -- both branches run the loop, one of them after the bytes were moved to the front
  have hgen : ∀ t : Segment, t.buflen = s.buflen → t.pktlen = s.pktlen →
      t.flags = s.flags → key t = key s → t.offset + bytes ≤ dataSize →
      ∃ s' rest' P', pullupLoop t rest (bytes - s.buflen) P = (s' :: rest', 0, P') ∧
      (content (s' :: rest') = content (s :: rest) ↔ t.window = s.window) ∧ bytes ≤ s'.buflen ∧
      Keeps (s :: rest) P (s' :: rest') P' := by
    intro t htb htp htf htk hto
    obtain ⟨s', rest', P', heq, hw, hc, hl, ho, hbl, ha, hst, hke, hfr⟩ :=
      pullupLoop_spec (bytes - s.buflen)
        (by simp only [total_cons] at hb; omega) hrest
    have htot : total rest' = total rest - (bytes - s.buflen) := by
      rw [← length_content, hc, length_drop, length_content]
    refine ⟨s', rest', P', heq, ?_, by omega, ?_, ?_, ?_, ?_⟩
    · rw [content_cons, hw, hc, append_assoc, take_append_drop, content_cons]
      exact append_left_inj _
    · exact KeepsEnd.trans (keepsEnd_of_flags (by simp [htf])) hke
    · simp only [total_cons] at hb
      exact sized_cons.mpr ⟨by omega, by omega, by omega, ha⟩
    · intro hs
      rw [starts_cons, sop_iff] at hs ⊢
      exact hst (htf ▸ hs)
    · exact Freed.trans (Freed.of_keys (by simp [htk]) P) hfr
  by_cases hmove : dataSize < bytes + s.offset
  · rw [if_pos hmove, if_pos hd]
    obtain ⟨s', rest', P', heq, hcont, hspec⟩ := hgen (compact memcpy s) rfl rfl
      rfl rfl (by show 0 + bytes ≤ dataSize; omega)
    refine ⟨s', rest', P', by rw [heq], hcont.trans ?_, hspec⟩
    exact ⟨fun hw _ _ => hw, fun hw => hw (Nat.lt_of_not_le hle) hmove⟩
  · rw [if_neg hmove]
    obtain ⟨s', rest', P', heq, hcont, hspec⟩ := hgen s rfl rfl rfl rfl (by omega)
    exact ⟨s', rest', P', by rw [heq], ⟨fun _ _ hlt => absurd hlt hmove, fun _ => hcont.mpr rfl⟩,
      hspec⟩

/-! ## `pbuf_prepend` and `pbuf_append` -/

variable {wait : Bool} {k : Nat} {c' src : Packet} {P' : Pool}

/-- `pb_pktlen` counts what was added if it does not wrap. -/
theorem sized_grown (h : Sized c) (hhead : headLen c' = (headLen c + k) % 65536)
    (htot : total c' = total c + k) (harea : ∀ s ∈ c', s.offset + s.buflen ≤ dataSize) :
    Sized c' ↔ total c + k < 65536 := by
  have hlen := h.len
  constructor
  · intro h'
    have hlen' := h'.len
    have hsmall := h'.small
    omega
  · intro hlt
    exact ⟨by omega, by omega, harea⟩

/-- Where the data of the last segment ends. -/
def lastEnd : Packet → Nat
  | [] => dataSize
  | [s] => s.offset + s.buflen
  | _ :: n :: rest => lastEnd (n :: rest)

theorem appendLast_spec (bytes : Nat) (hroom : lastEnd c + bytes ≤ dataSize)
    (harea : ∀ s ∈ c, s.offset + s.buflen ≤ dataSize) (hne : c ≠ []) :
    ∃ c' room, appendLast bytes c = .ok c' ∧ room.length = bytes ∧
      content c' = content c ++ room ∧ c'.headLen = c.headLen ∧
      (∀ s ∈ c', s.offset + s.buflen ≤ dataSize) ∧ c'.map (·.flags) = c.map (·.flags) ∧
      c'.map key = c.map key := by
  induction c with
  | nil => exact absurd rfl hne
  | cons s rest ih =>
    cases rest with
    | nil =>
      simp only [lastEnd] at hroom
      refine ⟨_, Mem.read s.area (s.offset + s.buflen) bytes, if_pos hroom, by simp, ?_, rfl, ?_, rfl,
        rfl⟩
      · simp only [content_cons, content_nil, append_nil]
        exact Mem.read_add
      · intro n hn
        obtain rfl := mem_singleton.mp hn
        show s.offset + (s.buflen + bytes) ≤ dataSize
        omega
    | cons n rest =>
      obtain ⟨c', room, heq, hlen, hcont, -, ha, hf, hk⟩ :=
        ih hroom (fun m hm => harea m (by simp [hm])) (by simp)
      refine ⟨s :: c', room, by simp [appendLast, heq, Except.map], hlen, ?_, rfl, ?_, ?_, ?_⟩
      · rw [content_cons, hcont, content_cons s, append_assoc]
      · exact forall_mem_cons.mpr ⟨harea _ (by simp), fun m hm => ha m hm⟩
      · exact congrArg (s.flags :: ·) hf
      · exact congrArg (key s :: ·) hk

/-- The pools have `k` buffers for a caller; the last item is only for one that waits. -/
def Supplies (P : Pool) (wait : Bool) (k : Nat) : Prop :=
  k + (if wait then 0 else 1) ≤ min P.pbufs.length P.datas.length

theorem poolGet_cases (wait : Bool) (l : List Nat) :
    poolGet wait l = none ∧ wait = true ∨
    poolGet wait l = some none ∧ l.length < 1 + (if wait then 0 else 1) ∨
    ∃ x r, poolGet wait l = some (some (x, r)) ∧ l = x :: r ∧
      1 + (if wait then 0 else 1) ≤ l.length := by
  rcases l with _ | ⟨x, _ | ⟨y, l⟩⟩ <;> cases wait <;> simp [poolGet]

/-- The caller sleeps, gets nothing, or gets the first item of both pools. -/
theorem get_cases (wait : Bool) (P : Pool) :
    P.get wait = none ∧ wait = true ∨ P.get wait = some none ∧ ¬ Supplies P wait 1 ∨
    ∃ x y P', P.get wait = some (some (x, y, P')) ∧ Supplies P wait 1 ∧
      P.pbufs = x :: P'.pbufs ∧ P.datas = y :: P'.datas := by
  rw [Supplies, Nat.le_min]
  rcases poolGet_cases wait P.pbufs with ⟨hx, hw⟩ | ⟨hx, hlt⟩ | ⟨x, pbufs, hx, hpbufs, hle⟩
  · exact .inl ⟨by rw [Pool.get, hx], hw⟩
  · exact .inr (.inl ⟨by rw [Pool.get, hx], fun h => absurd h.1 (Nat.not_le.mpr hlt)⟩)
  rcases poolGet_cases wait P.datas with ⟨hy, hw⟩ | ⟨hy, hlt⟩ | ⟨y, datas, hy, hdatas, hle'⟩
  · exact .inl ⟨by rw [Pool.get, hx]; simp only [hy], hw⟩
  · exact .inr (.inl ⟨by rw [Pool.get, hx]; simp only [hy],
      fun h => absurd h.2 (Nat.not_le.mpr hlt)⟩)
  · exact .inr (.inr ⟨x, y, { P with pbufs := pbufs, datas := datas },
      by rw [Pool.get, hx]; simp only [hy], ⟨hle, hle'⟩, hpbufs, hdatas⟩)

theorem get_some {x y : Nat} (h : P.get wait = some (some (x, y, P'))) :
    Supplies P wait 1 ∧ P.pbufs = x :: P'.pbufs ∧ P.datas = y :: P'.datas := by
  rcases get_cases wait P with ⟨hget, -⟩ | ⟨hget, -⟩ | ⟨x, y, P', hget, hspec⟩
  all_goals cases hget.symm.trans h
  exact hspec

theorem get_null (h : P.get wait = some none) : ¬ Supplies P wait 1 := by
  rcases get_cases wait P with ⟨hget, -⟩ | ⟨-, hs⟩ | ⟨x, y, P', hget, -⟩
  · cases hget.symm.trans h
  · exact hs
  · cases hget.symm.trans h

theorem get_returns (P : Pool) : P.get false ≠ none := by
  rcases get_cases false P with ⟨-, hw⟩ | ⟨hget, -⟩ | ⟨x, y, P', hget, -⟩
  · cases hw
  all_goals simp [hget]

/-- `pbuf_make` sleeps, fails, or makes an empty segment of the first items. -/
theorem pbufMake_cases (offset : Nat) (wait : Bool) (P : Pool) :
    pbufMake offset wait P = none ∧ wait = true ∨
    pbufMake offset wait P = some none ∧ ¬ Supplies P wait 1 ∨
    ∃ x y P', pbufMake offset wait P =
        some (some (⟨x, y, sop ||| eop, 0, 0, offset, 0, P.stale y⟩, P')) ∧
      Supplies P wait 1 ∧ P.pbufs = x :: P'.pbufs ∧ P.datas = y :: P'.datas := by
  unfold pbufMake
  rcases get_cases wait P with ⟨hget, hw⟩ | ⟨hget, hs⟩ | ⟨x, y, P', hget, hspec⟩
  all_goals rw [hget]
  · exact .inl ⟨rfl, hw⟩
  · exact .inr (.inl ⟨rfl, hs⟩)
  · exact .inr (.inr ⟨x, y, P', rfl, hspec⟩)

/-- The bytes in front are in the data area of the head, or in a new segment. -/
inductive Prepended (c : Packet) (P : Pool) (c' : Packet) (P' : Pool) : Prop
  | failed (h : c' = []) (hfreed : Freed c P [] P')
  | inPlace (hkeys : c'.map key = c.map key) (hpool : P' = P)
  | segment (s : Segment) (hkeys : c'.map key = key s :: c.map key)
      (hb : P.pbufs = s.pb :: P'.pbufs) (hd : P.datas = s.buf :: P'.datas)

theorem pbufPrepend_spec {bytes extra : Nat}
    (h : Sized (s :: rest)) (hroom : bytes + extra ≤ dataSize)
    (hp : pbufPrepend (s :: rest) bytes wait extra P = some (c', P')) :
    Prepended (s :: rest) P c' P' ∧
      (c' = [] ↔ s.offset < bytes + extra ∧ ¬ Supplies P wait 1) ∧
      (c' ≠ [] → (∃ room, room.length = bytes ∧ content c' = room ++ content (s :: rest)) ∧
        (Sized c' ↔ total (s :: rest) + bytes < 65536) ∧
        (Starts (s :: rest) → Starts c') ∧ KeepsEnd (s :: rest) c') := by
  obtain ⟨hpkt, hsmall, harea, hrest⟩ := sized_cons.mp h
  simp only [pbufPrepend] at hp
  split at hp
  · rename_i hfit
    injection hp with hp
    cases hp
    refine ⟨.inPlace rfl rfl, ⟨fun h => absurd h (by simp), fun h => by omega⟩, fun _ =>
      ⟨⟨Mem.read s.area (s.offset - bytes) bytes, by simp, ?_⟩, sized_grown h rfl ?_ ?_,
      fun hs => hs.head _ _ rfl, keepsEnd_of_flags rfl⟩⟩
    · rw [content_cons, content_cons, ← append_assoc]
      congr 1
      show Mem.read s.area (s.offset - bytes) (s.buflen + bytes) = _
      rw [Nat.add_comm, Mem.read_add, Nat.sub_add_cancel (by omega)]
      rfl
    · show s.buflen + bytes + total rest = s.buflen + total rest + bytes
      omega
    · refine forall_mem_cons.mpr ⟨?_, fun m hm => hrest m hm⟩
      show s.offset - bytes + (s.buflen + bytes) ≤ dataSize
      omega
  rename_i hfit
  rcases pbufMake_cases extra wait P with
    ⟨hmake, -⟩ | ⟨hmake, hnone⟩ | ⟨x, y, Q, hmake, hsupply, hb, hd⟩
  all_goals rw [hmake] at hp
  · cases hp
  · cases hp
    exact ⟨.failed rfl (Freed.free _ P), ⟨fun _ => ⟨Nat.lt_of_not_le hfit, hnone⟩, fun _ => rfl⟩,
      fun hne => absurd rfl hne⟩
  · cases hp
    refine ⟨.segment ⟨x, y, sop ||| eop, 0, 0, extra, 0, P.stale y⟩ rfl hb hd,
      ⟨fun h => absurd h (by simp), fun h => absurd hsupply h.2⟩, fun _ =>
      ⟨⟨Mem.read (P.stale y) extra bytes, by simp, rfl⟩, sized_grown h rfl ?_ ?_, fun _ => ?_, ?_, ?_⟩⟩
    · show bytes + (s.buflen + total rest) = s.buflen + total rest + bytes
      omega
    · refine forall_mem_cons.mpr ⟨?_, forall_mem_cons.mpr ⟨harea, fun m hm => hrest m hm⟩⟩
      show extra + bytes ≤ dataSize
      omega
    · rw [starts_cons]
      show sop &&& sop ≠ 0
      decide
    · intro he
      rw [ends_cons_cons]
      refine (keepsEnd_head ?_).ends he
      intro hend
      simp [hend, sop]
    · intro hs m hm
      rcases mem_cons.mp hm with rfl | hm
      · rw [no_sop_iff]
        simp [sop]
      · exact hs m hm

theorem pbufPrepend_returns (bytes extra : Nat) (P : Pool) :
    pbufPrepend (s :: rest) bytes false extra P ≠ none := by
  simp only [pbufPrepend]
  split
  · simp
  rcases pbufMake_cases extra false P with ⟨-, hw⟩ | ⟨hmake, -⟩ | ⟨x, y, P', hmake, -⟩
  · cases hw
  all_goals simp [hmake]

/-! ## `pbuf_copy_pkt` -/

/-- A segment and its copy. -/
structure Copied (s d : Segment) : Prop where
  flags : d.flags = s.flags
  pktlen : d.pktlen = s.pktlen
  offset : d.offset = s.offset
  buflen : d.buflen = s.buflen
  window : d.window = s.window

theorem copied_copySegment (x y : Nat) (P : Pool) (s : Segment) : Copied s (copySegment x y P s) := by
  refine ⟨rfl, rfl, rfl, rfl, ?_⟩
  have hread := Mem.read_write_self (P.stale y) s.offset s.window
  rw [length_window] at hread
  exact hread

/-- Either everything was copied into buffers of the pools, or these are back in the pools. -/
inductive CopyDone (src : Packet) (P : Pool) (c' : Packet) (P' : Pool) : Prop
  | failed (h : c' = []) (hb : P'.pbufs.Perm P.pbufs) (hd : P'.datas.Perm P.datas)
  | copied (h : List.Forall₂ Copied src c') (hb : P.pbufs = c'.map (·.pb) ++ P'.pbufs)
      (hd : P.datas = c'.map (·.buf) ++ P'.datas)

/-- The segments up to the next start mark. -/
def span : Packet → Nat
  | [] => 0
  | [_] => 1
  | _ :: n :: rest => if n.flags &&& sop ≠ 0 then 1 else span (n :: rest) + 1

theorem span_le (c : Packet) : span c ≤ c.length := by
  fun_induction span c <;> simp_all

theorem span_eq_iff : span c = c.length ↔ Single c := by
  fun_induction span c with
  | case1 => simp [Single]
  | case2 => simp [Single]
  | case3 s n rest hsop => simpa [Single] using fun h => absurd h hsop
  | case4 s n rest hsop ih =>
    rw [length_cons, Nat.add_right_cancel_iff, ih]
    simp only [ne_eq, Decidable.not_not] at hsop
    simp [Single, hsop]

theorem span_cons (s : Segment) (rest : Packet) :
    span (s :: rest) = if rest.head?.any fun n => n.flags &&& sop ≠ 0 then 1 else span rest + 1 := by
  cases rest with
  | nil => rfl
  | cons n rest => simp [span]

theorem copyLoop_spec {P₀ : Pool} {r : Packet} (done : Packet) (hr : List.Forall₂ Copied done r)
    (hb : P₀.pbufs = r.map (·.pb) ++ P.pbufs) (hd : P₀.datas = r.map (·.buf) ++ P.datas)
    (h : copyLoop wait src r P = some (c', P')) :
    CopyDone (done ++ src.take (span src)) P₀ c' P' := by
  induction src generalizing done r P with
  | nil =>
    simp only [copyLoop, Option.some.injEq, Prod.mk.injEq] at h
    obtain ⟨rfl, rfl⟩ := h
    rw [take_nil, append_nil]
    exact .copied hr hb hd
  | cons s rest ih =>
    simp only [copyLoop] at h
    split at h
    · cases h
    · simp only [Option.some.injEq, Prod.mk.injEq] at h
      obtain ⟨rfl, rfl⟩ := h
      obtain ⟨gone, hperm, hgb, hgd⟩ := Freed.free r P
      have hpb : (gone.map (·.1)).Perm (r.map (·.pb)) := by
        have hmap := (hperm.map Prod.fst).symm
        rwa [map_map] at hmap
      have hpd : (gone.map (·.2)).Perm (r.map (·.buf)) := by
        have hmap := (hperm.map Prod.snd).symm
        rwa [map_map] at hmap
      refine .failed rfl ?_ ?_
      · rw [hgb, hb]
        exact hpb.append_right _
      · rw [hgd, hd]
        exact hpd.append_right _
    · rename_i x y Q hget
      obtain ⟨-, hx, hy⟩ := get_some hget
      have hr' : List.Forall₂ Copied (done ++ [s]) (r ++ [copySegment x y P s]) :=
        rel_append hr (.cons (copied_copySegment x y P s) .nil)
      have hb' : P₀.pbufs = (r ++ [copySegment x y P s]).map (·.pb) ++ Q.pbufs := by
        simp [hb, hx, copySegment]
      have hd' : P₀.datas = (r ++ [copySegment x y P s]).map (·.buf) ++ Q.datas := by
        simp [hd, hy, copySegment]
      rw [span_cons]
      split at h
      · rename_i hstop
        simp only [Option.some.injEq, Prod.mk.injEq] at h
        obtain ⟨rfl, rfl⟩ := h
        rw [if_pos hstop]
        exact .copied hr' hb' hd'
      · rename_i hgo
        rw [if_neg hgo]
        have hres := ih _ hr' hb' hd' h
        rwa [append_assoc, singleton_append, ← take_succ_cons] at hres

/-- Nothing is copied if the pools run out before the next start mark. -/
theorem copyLoop_nil_iff {r : Packet} (hne : src ≠ [])
    (h : copyLoop wait src r P = some (c', P')) : c' = [] ↔ ¬ Supplies P wait (span src) := by
  induction src generalizing r P with
  | nil => exact absurd rfl hne
  | cons s rest ih =>
    simp only [copyLoop] at h
    rw [span_cons]
    split at h
    · cases h
    · rename_i hget
      simp only [Option.some.injEq, Prod.mk.injEq] at h
      refine ⟨fun _ hs => get_null hget ?_, fun _ => h.1.symm⟩
      have hone : 1 ≤ if rest.head?.any fun n => n.flags &&& sop ≠ 0 then 1 else span rest + 1 := by
        split <;> omega
      exact Nat.le_trans (Nat.add_le_add_right hone _) hs
    rename_i x y Q hget
    obtain ⟨hsupply, hx, hy⟩ := get_some hget
    split at h
    · rename_i hstop
      simp only [Option.some.injEq, Prod.mk.injEq] at h
      rw [if_pos hstop, ← h.1]
      simpa using hsupply
    · rename_i hgo
      rw [if_neg hgo]
      have hnext : Supplies P wait (span rest + 1) ↔ Supplies Q wait (span rest) := by
        simp only [Supplies, hx, hy, length_cons]
        omega
      rw [hnext]
      cases rest with
      | nil =>
        simp only [copyLoop, Option.some.injEq, Prod.mk.injEq] at h
        have hs : Supplies Q wait 0 := hnext.mp hsupply
        rw [← h.1]
        simpa [span] using hs
      | cons n rest => exact ih (by simp) h

theorem copyLoop_returns (src r : Packet) (P : Pool) : copyLoop false src r P ≠ none := by
  induction src generalizing r P with
  | nil => simp [copyLoop]
  | cons s rest ih =>
    simp only [copyLoop]
    split
    · rename_i hget
      exact absurd hget (get_returns P)
    · simp
    · split
      · simp
      · exact ih _ _

section

variable (h : List.Forall₂ Copied src c')
include h

theorem content_copied : content c' = content src := by
  induction h with
  | nil => rfl
  | cons h _ ih => rw [content_cons, content_cons, h.window, ih]

theorem copied_map {β : Type} {f : Segment → β}
    (hf : ∀ s d, Copied s d → f d = f s) : c'.map f = src.map f := by
  induction h with
  | nil => rfl
  | cons hs _ ih => rw [map_cons, map_cons, ih, hf _ _ hs]

theorem sized_copied (hs : Sized src) : Sized c' := by
  have hlen : headLen c' = headLen src := by
    cases h with
    | nil => rfl
    | cons hd _ => exact hd.pktlen
  have htot : total c' = total src := by
    rw [← length_content, content_copied h, length_content]
  have hends : c'.map (fun d => d.offset + d.buflen) = src.map fun d => d.offset + d.buflen :=
    copied_map h fun a b hab => by rw [hab.offset, hab.buflen]
  have harea : ∀ n ∈ c'.map (fun d => d.offset + d.buflen), n ≤ dataSize := by
    rw [hends]
    exact forall_mem_map.mpr hs.area
  exact ⟨by rw [hlen, htot, hs.len], by rw [hlen]; exact hs.small, forall_mem_map.mp harea⟩

theorem starts_copied (hs : Starts src) : Starts c' := by
  cases h with
  | nil => exact hs
  | cons hd _ => exact hs.head _ _ hd.flags

end

/-! ## All functions -/

/-- What the functions do to a packet `c`, and when it is a packet with the right bytes afterwards:
`pbuf_pullup` copies with `memcpy` inside one data area, `pb_pktlen` can wrap, `pbuf_read` takes the
start mark away with the head, and `pbuf_copy_pkt` stops at a start mark. -/
structure Sound (memcpy : (Nat → Byte) → Nat → Nat → Nat → Nat → Byte) (c : Packet) : Prop where
  drop : ∀ n free P, n ≤ total c → ∃ c' P', pbufDrop c n free P = .ok (c', P') ∧
    content c' = (content c).drop n ∧ Inv c' ∧ (Single c → Single c') ∧ Freed c P c' P' ∧
    (c' = [] ↔ free = true ∧ n = total c)
  trim : ∀ n P, n ≤ total c → ∃ c' P', pbufTrim c.length c n P = some (c', P') ∧ c' ≠ [] ∧
    content c' = (content c).take (total c - n) ∧ Inv c' ∧ (Single c → Single c') ∧ Freed c P c' P'
  pullup : ∀ n P, n ≤ total c → n ≤ dataSize →
    ∃ c' P', pbufPullup memcpy c n P = .ok (c', 0, P') ∧
      (content c' = content c ↔
        ∀ s ∈ c.head?, s.buflen < n → dataSize < n + s.offset → Compacts memcpy s) ∧
      (∃ s' ∈ c'.head?, n ≤ s'.buflen) ∧ Inv c' ∧ (Single c → Single c') ∧ Freed c P c' P'
  prepend : ∀ n wait extra P, n + extra ≤ dataSize →
    (wait = false → pbufPrepend c n wait extra P ≠ none) ∧
    ∀ c' P', pbufPrepend c n wait extra P = some (c', P') → Prepended c P c' P' ∧
      (c' = [] ↔ (∀ s ∈ c.head?, s.offset < n + extra) ∧ ¬ Supplies P wait 1) ∧
      (c' ≠ [] → (∃ room, room.length = n ∧ content c' = room ++ content c) ∧
        (Inv c' ↔ total c + n < 65536) ∧ (Single c → Single c'))
  append : ∀ n, lastEnd c + n ≤ dataSize → ∃ c' room,
    pbufAppend c n = .ok c' ∧ room.length = n ∧ content c' = content c ++ room ∧
    (Inv c' ↔ total c + n < 65536) ∧ (Single c → Single c') ∧ c'.map key = c.map key
  read : ∀ n P, n ≤ total c → ∃ c' P', pbufRead c n P = .ok ((content c).take n, c', P') ∧
    content c' = (content c).drop n ∧ (Inv c' ↔ Marked c n) ∧ Sized c' ∧ Ends c' ∧
    (Single c → Single c') ∧ Freed c P c' P'
  copyPkt : ∀ wait P, (wait = false → pbufCopyPkt c wait P ≠ none) ∧
    ∀ c' P', pbufCopyPkt c wait P = some (c', P') →
      (CopyDone c P c' P' ∧ (c' ≠ [] → content c' = content c ∧ Inv c' ∧ Single c') ↔
        Single c ∨ ¬ Supplies P wait (span c))

theorem prepend_sound (h : Inv (s :: rest)) {extra : Nat} (hroom : k + extra ≤ dataSize)
    (hp : pbufPrepend (s :: rest) k wait extra P = some (c', P')) : Prepended (s :: rest) P c' P' ∧
      (c' = [] ↔ (∀ t ∈ (s :: rest).head?, t.offset < k + extra) ∧ ¬ Supplies P wait 1) ∧
      (c' ≠ [] → (∃ room, room.length = k ∧ content c' = room ++ content (s :: rest)) ∧
        (Inv c' ↔ total (s :: rest) + k < 65536) ∧ (Single (s :: rest) → Single c')) := by
  obtain ⟨hpre, hnil, hspec⟩ := pbufPrepend_spec h.sized hroom hp
  refine ⟨hpre, by simpa using hnil, fun hne => ?_⟩
  obtain ⟨hcont, hsz, hst, hke⟩ := hspec hne
  refine ⟨hcont, ?_, hke.single⟩
  rw [← hsz]
  exact ⟨fun h' => h'.sized, fun h' => ⟨h', hst h.starts, hke.ends h.ends⟩⟩

theorem append_sound (h : Inv (s :: rest)) (hroom : lastEnd (s :: rest) + k ≤ dataSize) :
    ∃ c' room, pbufAppend (s :: rest) k = .ok c' ∧ room.length = k ∧
      content c' = content (s :: rest) ++ room ∧ (Inv c' ↔ total (s :: rest) + k < 65536) ∧
      (Single (s :: rest) → Single c') ∧ c'.map key = (s :: rest).map key := by
  obtain ⟨hpkt, hsmall, harea, hrest⟩ := sized_cons.mp h.sized
  have hend : lastEnd (s.addLen k :: rest) = lastEnd (s :: rest) := by cases rest <;> rfl
  obtain ⟨c', room, heq, hl, hcont, hhead, ha, hf, hk⟩ := appendLast_spec k
    (by rw [hend]; exact hroom)
    (by
      intro m hm
      rcases mem_cons.mp hm with rfl | hm
      · exact harea
      · exact hrest m hm)
    (by simp)
  have hkeeps : KeepsEnd (s :: rest) c' := keepsEnd_of_flags hf.symm
  have hcont : content c' = content (s :: rest) ++ room := hcont
  have htot : total c' = total (s :: rest) + k := by
    rw [← length_content, hcont, length_append, length_content, hl]
  have hstarts : Starts c' := by
    have hst := h.starts
    cases c' with
    | nil => simp [Starts]
    | cons d rest' => exact hst.head _ _ (List.cons.inj hf).1
  refine ⟨c', room, heq, hl, hcont, ?_, hkeeps.single, hk⟩
  rw [← sized_grown h.sized hhead htot ha]
  exact ⟨fun h' => h'.sized, fun h' => ⟨h', hstarts, hkeeps.ends h.ends⟩⟩

theorem read_sound (h : Inv (s :: rest)) (hk : k ≤ total (s :: rest)) :
    ∃ c' P', pbufRead (s :: rest) k P = .ok ((content (s :: rest)).take k, c', P') ∧
      content c' = (content (s :: rest)).drop k ∧ (Inv c' ↔ Marked (s :: rest) k) ∧ Sized c' ∧
      Ends c' ∧ (Single (s :: rest) → Single c') ∧ Freed (s :: rest) P c' P' := by
  have hpkt := h.sized.head
  obtain ⟨c', P', heq, hcont, hsz, hke, hfr, hst, -⟩ := readLoop_spec k h.sized hk
  rw [pbufRead, if_neg (by simp only [total_cons] at hk; omega)]
  refine ⟨c', P', heq, hcont, ?_, hsz, hke.ends h.ends, hke.single, hfr⟩
  rw [← hst]
  exact ⟨fun h' => h'.starts, fun h' => ⟨hsz, h', hke.ends h.ends⟩⟩

/-- A packet with a start mark inside is copied only if that cannot happen for lack of buffers. -/
theorem copyPkt_sound (hne : c ≠ []) (h : Inv c) (hp : pbufCopyPkt c wait P = some (c', P')) :
    CopyDone c P c' P' ∧ (c' ≠ [] → content c' = content c ∧ Inv c' ∧ Single c') ↔
      Single c ∨ ¬ Supplies P wait (span c) := by
  have hnil := copyLoop_nil_iff hne hp
  have hpart : CopyDone (c.take (span c)) P c' P' := copyLoop_spec [] .nil rfl rfl hp
  constructor
  · rintro ⟨hdone, -⟩
    by_cases hc' : c' = []
    · exact .inr (hnil.mp hc')
    refine .inl (span_eq_iff.mp ?_)
    cases hdone with
    | failed h0 => exact absurd h0 hc'
    | copied hall =>
      cases hpart with
      | failed h0 => exact absurd h0 hc'
      | copied hsome =>
        rw [hall.length_eq, ← hsome.length_eq, length_take, Nat.min_eq_left (span_le c)]
  · rintro (hs | hs)
    · rw [span_eq_iff.mpr hs, take_length] at hpart
      refine ⟨hpart, fun hne' => ?_⟩
      cases hpart with
      | failed h0 => exact absurd h0 hne'
      | copied hall =>
        have hke := keepsEnd_of_flags (copied_map hall fun _ _ h => h.flags).symm
        exact ⟨content_copied hall, ⟨sized_copied hall h.sized, starts_copied hall h.starts,
          hke.ends h.ends⟩, hke.single hs⟩
    · obtain rfl := hnil.mpr hs
      refine ⟨?_, fun hne' => absurd rfl hne'⟩
      cases hpart with
      | failed _ hb hd => exact .failed rfl hb hd
      | copied _ hb hd => exact .failed rfl (hb ▸ .refl _) (hd ▸ .refl _)

theorem chain_sound (hne : c ≠ []) (h : Inv c) : Sound memcpy c := by
  obtain ⟨s, rest, rfl⟩ := exists_cons_of_ne_nil hne
  refine ⟨?_, ?_, ?_, ?_, fun k => append_sound h, fun k P => read_sound h, ?_⟩
  · intro k free P hk
    obtain ⟨c', P', heq, hcont, hkeeps, hnil⟩ := dropLoop_spec free k h.sized hk
    exact ⟨c', P', heq, hcont, hkeeps.inv h, hkeeps.single, hkeeps.freed, hnil⟩
  · intro k P hk
    obtain ⟨c', P', heq, hne', hcont, -, hkeeps⟩ :=
      pbufTrim_spec _ k hne (Nat.le_refl _) h.sized hk
    exact ⟨c', P', heq, hne', hcont, hkeeps.inv h, hkeeps.single, hkeeps.freed⟩
  · intro k P hk hd
    obtain ⟨s', rest', P', heq, hcont, hle, hkeeps⟩ := pbufPullup_spec k h.sized hk hd
    exact ⟨_, P', heq, by simpa using hcont, ⟨s', by simp, hle⟩, hkeeps.inv h, hkeeps.single,
      hkeeps.freed⟩
  · intro k wait extra P hroom
    refine ⟨fun hw => hw ▸ pbufPrepend_returns k extra P, fun c' P' hp => ?_⟩
    exact prepend_sound h hroom hp
  · intro wait P
    exact ⟨fun hw => hw ▸ copyLoop_returns _ _ P, fun c' P' hp => copyPkt_sound hne h hp⟩

/-! ## Three packets -/

theorem exists_ok {α : Type} {r : Except Halt α} {p : α → Prop} [DecidablePred p]
    (h : r.toOption.any (fun a => decide (p a)) = true) : ∃ a, r = .ok a ∧ p a := by
  cases r with
  | error e => simp [Except.toOption] at h
  | ok a => exact ⟨a, rfl, by simpa [Except.toOption] using h⟩

/-- A segment whose data area counts up. -/
def counting (i : Nat) (flags : BitVec 8) (pktlen offset buflen : Nat) : Segment :=
  ⟨i, i, flags, 0, pktlen, offset, buflen, fun k => BitVec.ofNat 8 k⟩

def twoBytes : Packet := [counting 0 sop 2 0 1, counting 1 eop 0 0 1]

/-- 40 bytes at offset 4, and 512 more. -/
def overlapping : Packet := [counting 0 sop 552 4 40, counting 1 eop 0 0 512]

/-- As many bytes as `pb_pktlen` can count. -/
def longest : Packet :=
  counting 0 sop 65535 0 512 :: (List.replicate 126 (counting 1 0 0 0 512) ++ [counting 2 eop 0 0 511])

/-- After `pbuf_read` of the first of two segments the packet has no start mark; `pbuf_pullup` of
510 bytes changes a byte with the `memcpy` of 64 bit ARM; and `pbuf_append` of the byte for which
there is room makes the packet length wrap. -/
theorem not_every_call :
    (Inv twoBytes ∧ ∃ c' P', pbufRead twoBytes 1 .empty = .ok ((content twoBytes).take 1, c', P') ∧
      c' ≠ [] ∧ ¬ Inv c') ∧ (Inv overlapping ∧ 510 ≤ total overlapping ∧ ∃ c' P',
      pbufPullup memcpyAarch64 overlapping 510 .empty = .ok (c', 0, P') ∧
      content c' ≠ content overlapping) ∧ (Inv longest ∧ lastEnd longest + 1 ≤ dataSize ∧
      ∃ c', pbufAppend longest 1 = .ok c' ∧ headLen c' = 0 ∧ ¬ Inv c') := by
  refine ⟨⟨by decide, _, _, rfl, by simp, by decide⟩, ⟨by decide, by decide, _, _, rfl, ?_⟩,
    by decide +kernel, by decide +kernel, exists_ok (by decide +kernel)⟩
  intro heq
  have hbyte := congrArg (·[8]?) heq
  revert hbyte
  decide +kernel

theorem twoBytes_sound : Inv twoBytes ∧ Sound Mem.byteCopy twoBytes := by
  have hinv : Inv twoBytes := by decide
  exact ⟨hinv, chain_sound (by simp [twoBytes]) hinv⟩

end Mios.Packet
