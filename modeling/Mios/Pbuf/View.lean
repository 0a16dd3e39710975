import Mios.Pbuf.ChainSound

/-! The packets of `Mios.Pbuf`, which VLLP is modelled over, are what is left of the segments when
their data areas and the pools are forgotten. `pbuf_drop` and `pbuf_pullup` of the two agree, so that
what is known of them for segments holds there too. -/

namespace Mios.Packet

open Lib List
open Pbuf (sop eop dataSize)

def view (s : Segment) : Pbuf := ⟨s.flags, s.credits, s.pktlen, s.offset, s.window⟩

variable {s n : Segment} {rest c : Packet} {P : Pool}

@[simp] theorem buflen_view (s : Segment) : (view s).buflen = s.buflen := length_window s

theorem content_view (c : Packet) : Pbuf.content (c.map view) = content c := by
  rw [Pbuf.content, content, flatMap_map]
  rfl

theorem view_dropFront {k : Nat} (hk : k ≤ s.pktlen) (hs : s.pktlen < 65536) :
    view (s.dropFront k) = (view s).dropFront k := by
  have hpkt := pktlen_dropFront hk hs
  have hwin := window_dropFront (s := s) k
  simp only [view, Pbuf.dropFront, hpkt, hwin]
  rfl

theorem dropLoop_view (free : Bool) (bytes : Nat) (hs : s.pktlen < 65536) :
    (dropLoop free s bytes rest P).map (·.1.map view) =
      Pbuf.dropLoop free (view s) bytes (rest.map view) := by
  induction rest generalizing s bytes P with
  | nil =>
    simp only [dropLoop, Pbuf.dropLoop, map_nil, buflen_view]
    by_cases hlt : s.pktlen < bytes
    · rw [if_pos hlt, if_pos (show (view s).pktlen < bytes from hlt)]
      rfl
    rw [if_neg hlt, if_neg (show ¬ (view s).pktlen < bytes from hlt),
      ← view_dropFront (by omega) hs, buflen_view]
    split
    · rfl
    · cases free <;> rfl
  | cons n rest ih =>
    simp only [dropLoop, Pbuf.dropLoop, map_cons, buflen_view]
    by_cases hlt : s.pktlen < bytes
    · rw [if_pos hlt, if_pos (show (view s).pktlen < bytes from hlt)]
      rfl
    rw [if_neg hlt, if_neg (show ¬ (view s).pktlen < bytes from hlt),
      ← view_dropFront (by omega) hs, buflen_view]
    split
    · rfl
    · refine ih _ ?_
      rw [pktlen_dropFront (by omega) hs]
      omega

/-- A packet length is 16 bits wide, so the head's is below the bound. -/
theorem pbufDrop_view (bytes : Nat) (free : Bool) (h : headLen c < 65536) :
    (pbufDrop c bytes free P).map (·.1.map view) = Pbuf.pbufDrop (c.map view) bytes free := by
  cases c with
  | nil => rfl
  | cons s rest => exact dropLoop_view free bytes h

theorem pullupLoop_view (bytes : Nat) (rest : Packet) (P : Pool) :
    ((pullupLoop s rest bytes P).1.map view, (pullupLoop s rest bytes P).2.1) =
      Pbuf.pullupLoop (view s) (rest.map view) bytes := by
  induction rest generalizing s bytes P with
  | nil => cases bytes <;> rfl
  | cons n rest ih =>
    cases bytes with
    | zero => rfl
    | succ b =>
      have hcopy := (window_copy s n (min (b + 1) n.buflen)).trans
        (congrArg _ (take_window (Nat.min_le_right _ _)))
      simp only [pullupLoop, Pbuf.pullupLoop, map_cons, buflen_view]
      split
      · rw [ih]
        refine congrArg (fun p => Pbuf.pullupLoop p _ _) ?_
        simp only [view, Pbuf.mk.injEq, true_and]
        exact hcopy
      · refine Prod.ext (congrArg₂ List.cons ?_ (congrArg (· :: rest.map view) ?_)) rfl
        · simp only [view, Pbuf.mk.injEq, true_and]
          exact hcopy
        · simp only [view, Pbuf.mk.injEq, true_and]
          exact Mem.drop_read.symm

theorem pbufPullup_view {memcpy : (Nat → Byte) → Nat → Nat → Nat → Nat → Byte} (bytes : Nat)
    (hm : dataSize < bytes + s.offset → Compacts memcpy s) :
    (pbufPullup memcpy (s :: rest) bytes P).map (fun r => (r.1.map view, r.2.1)) =
      Pbuf.pbufPullup ((s :: rest).map view) bytes := by
  simp only [pbufPullup, Pbuf.pbufPullup, map_cons, buflen_view]
  by_cases hle : bytes ≤ s.buflen
  · rw [if_pos hle, if_pos hle]
    rfl
  rw [if_neg hle, if_neg hle]
  by_cases hmove : dataSize < bytes + s.offset
  · rw [if_pos hmove, if_pos (show dataSize < bytes + (view s).offset from hmove)]
    split
    · have hview : view (compact memcpy s) = { view s with offset := 0 } := by
        simp only [view, window_compact (hm hmove)]
        rfl
      rw [← hview]
      exact congrArg Except.ok (pullupLoop_view _ rest P)
    · rfl
  · rw [if_neg hmove, if_neg (show ¬ dataSize < bytes + (view s).offset from hmove)]
    exact congrArg Except.ok (pullupLoop_view _ rest P)

theorem sized_view (hs : headLen c < 65536) : Pbuf.Sized (c.map view) ↔ Sized c := by
  have hlen : Pbuf.headLen (c.map view) = headLen c := by cases c <;> rfl
  have hcount : (Pbuf.content (c.map view)).length = total c := by
    rw [content_view, length_content]
  constructor
  · rintro ⟨h, harea⟩
    refine ⟨hlen.symm.trans (h.trans hcount), hs, fun s hm => ?_⟩
    exact buflen_view s ▸ harea (view s) (mem_map_of_mem hm)
  · intro h
    refine ⟨hlen.trans (h.len.trans hcount.symm), forall_mem_map.mpr fun s hm => ?_⟩
    exact (buflen_view s).symm ▸ h.area s hm

/-- A buffer with a data area that holds its bytes. -/
def ofPbuf (p : Pbuf) : Segment :=
  ⟨0, 0, p.flags, p.credits, p.pktlen, p.offset, p.buflen, Mem.write (fun _ => 0) p.offset p.data⟩

theorem view_ofPbuf (p : Pbuf) : view (ofPbuf p) = p := by
  have hdata : (ofPbuf p).window = p.data := Mem.read_write_self _ _ _
  simp only [view, hdata]
  rfl

theorem exists_view {d : Pbuf.Chain} (h : Pbuf.Sized d) (hs : Pbuf.headLen d < 65536) :
    ∃ c : Packet, c.map view = d ∧ Sized c := by
  have hd : (d.map ofPbuf).map view = d := by
    rw [map_map]
    exact map_id'' view_ofPbuf d
  refine ⟨_, hd, (sized_view ?_).mp (hd.symm ▸ h)⟩
  cases d <;> exact hs

end Mios.Packet

namespace Mios.Pbuf

variable {c : Chain} {bytes : Nat}

/-- Dropping at most the content never panics; it removes exactly the first bytes and
returns `NULL` just when nothing is left. -/
theorem pbufDrop_spec (hne : c ≠ []) (h : Sized c) (hs : headLen c < 65536)
    (hb : bytes ≤ (content c).length) :
    ∃ c', pbufDrop c bytes true = .ok c' ∧ content c' = (content c).drop bytes ∧
      Sized c' ∧ (c' = [] ↔ content c' = []) := by
  obtain ⟨_ | ⟨s, rest⟩, rfl, hd⟩ := Packet.exists_view h hs
  · exact absurd rfl hne
  rw [Packet.content_view] at hb ⊢
  rw [Packet.length_content] at hb
  obtain ⟨d, P, heq, hcont, hkeeps, hnil⟩ :=
    Packet.dropLoop_spec (P := .empty) true bytes hd hb
  refine ⟨d.map Packet.view, (Packet.pbufDrop_view bytes true hd.small).symm.trans
    (congrArg (Except.map _) heq), ?_, (Packet.sized_view hkeeps.sized.small).mpr hkeeps.sized, ?_⟩
  · rw [Packet.content_view, hcont]
  · rw [Packet.content_view, hcont, List.map_eq_nil_iff, hnil, List.drop_eq_nil_iff,
      Packet.length_content]
    simp only [true_and]
    omega

/-- A pull-up of at most the content and at most one data area succeeds: it leaves the
bytes of the packet as they are and gathers the first ones in the head. -/
theorem pbufPullup_spec (hne : c ≠ []) (h : Sized c) (hs : headLen c < 65536)
    (hb : bytes ≤ (content c).length) (hd : bytes ≤ dataSize) :
    ∃ p rest, pbufPullup c bytes = .ok (p :: rest, 0) ∧ content (p :: rest) = content c ∧
      p.data.take bytes = (content c).take bytes ∧ Sized (p :: rest) := by
  obtain ⟨_ | ⟨s, rest⟩, rfl, hd'⟩ := Packet.exists_view h hs
  · exact absurd rfl hne
  rw [Packet.content_view] at hb ⊢
  rw [Packet.length_content] at hb
  have hm : dataSize < bytes + s.offset → Packet.Compacts Lib.Mem.byteCopy s := fun _ =>
    Packet.copies_byteCopy.compacts (.inr Packet.copiesDown_byteCopy)
  obtain ⟨t, d, P, heq, hcont, hle, hkeeps⟩ :=
    Packet.pbufPullup_spec (P := .empty) bytes hd' hb hd
  have hcont := hcont.mpr fun _ => hm
  refine ⟨_, _, (Packet.pbufPullup_view bytes hm).symm.trans (congrArg (Except.map _) heq), ?_, ?_,
    (Packet.sized_view hkeeps.sized.small).mpr hkeeps.sized⟩
  · exact (Packet.content_view (t :: d)).trans hcont
  · exact (Packet.take_content_le hle).symm.trans (congrArg _ hcont)

end Mios.Pbuf
