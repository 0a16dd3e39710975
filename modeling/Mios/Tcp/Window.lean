import Mios.Lib.Seq
import Mios.Tcp.Conn

/-! Which segments are acted upon: outside of the receive window nothing changes, if the one
comparison that is made with a sequence number in the place of an offset happens to be right. -/

namespace Mios.Tcp

open Lib

/-- The test of RFC 9293, 3.4: the first or the last sequence number is in the window. -/
def inWindow (t : Tcb) (g : Seg) : Prop :=
  let wnd := (rxfifoAvail t).toNat
  if segLen g = 0 then
    if wnd = 0 then g.seq = t.rcv.nxt else (g.seq - t.rcv.nxt).toNat < wnd
  else
    wnd ≠ 0 ∧ ((g.seq - t.rcv.nxt).toNat < wnd ∨
      (g.seq + BitVec.ofNat 32 (segLen g - 1) - t.rcv.nxt).toNat < wnd)

instance (t : Tcb) (g : Seg) : Decidable (inWindow t g) := by
  unfold inWindow
  infer_instance

/-- `rcv.nxt + rcv_wnd`, wrapped, is not more than the window. -/
def edgeWraps (t : Tcb) : Prop :=
  t.rcv.nxt = 0 ∨ 4294967296 ≤ t.rcv.nxt.toNat + (rxfifoAvail t).toNat

instance (t : Tcb) : Decidable (edgeWraps t) := by
  unfold edgeWraps
  infer_instance

variable {P : Conn → Prop}

theorem lt_of_edgeWraps {n w x : BitVec 32} (h : n = 0 ∨ 4294967296 ≤ n.toNat + w.toNat)
    (hx : x < n + w) : x.toNat < w.toNat := by
  rw [BitVec.lt_def, BitVec.toNat_add] at hx
  rcases h with rfl | h
  · have h0 : (0 : BitVec 32).toNat = 0 := rfl
    omega
  · omega

/-- What step 1 lets through is in the window. -/
theorem inWindow_of_acceptance {t : Tcb} {g : Seg} (h : acceptance t g = true)
    (hw : segLen g = 0 → (rxfifoAvail t).toNat ≠ 0 → edgeWraps t) : inWindow t g := by
  have hzero : rxfifoAvail t = 0 ↔ (rxfifoAvail t).toNat = 0 := by
    rw [← BitVec.toNat_inj]
    rfl
  simp only [acceptance] at h
  simp only [inWindow]
  by_cases hlen : segLen g = 0
  · rw [if_pos hlen] at h ⊢
    by_cases hwnd : rxfifoAvail t = 0
    · rw [if_pos hwnd] at h
      rw [if_pos (hzero.mp hwnd)]
      exact Seq.eq_of_sub_eq_zero (of_decide_eq_true h)
    · rw [if_neg hwnd] at h
      have hne := mt hzero.mpr hwnd
      rw [if_neg hne]
      exact lt_of_edgeWraps (hw hlen hne) (of_decide_eq_true h)
  · rw [if_neg hlen] at h ⊢
    by_cases hwnd : rxfifoAvail t = 0
    · rw [if_pos hwnd] at h
      cases h
    rw [if_neg hwnd] at h
    have hne := mt hzero.mpr hwnd
    have hseq : g.seq - t.rcv.nxt = 0 := of_decide_eq_true h
    refine ⟨hne, .inl ?_⟩
    rw [hseq]
    exact Nat.pos_of_ne_zero hne

/-- Nothing but the count of refused segments changes. -/
def Ignored (t : Tcb) (g : Seg) (o : InputSupply) : Prop :=
  ∃ k, (tcpInputIpv4 t g o).1 = { t with fastRejectLimiter := k }

theorem ignored_of_refused {t : Tcb} {g : Seg} (o : InputSupply) (hs : t.state ≠ .synSent)
    (hacc : acceptance t g ≠ true) : Ignored t g o := by
  rw [Ignored, tcpInputIpv4, if_neg hs, if_neg hacc, inputRefused]
  split
  · exact ⟨t.fastRejectLimiter, rfl⟩
  · split
    · exact ⟨t.fastRejectLimiter, rfl⟩
    · exact ⟨t.fastRejectLimiter + 1, rfl⟩

def bareSeg (seq ack : SeqNo) (flg : BitVec 8) (wnd : BitVec 16) : Seg := ⟨seq, ack, flg, wnd, [], []⟩

theorem segLen_rst (seq ack : SeqNo) (wnd : BitVec 16) :
    segLen (bareSeg seq ack flagRst wnd) = 0 := by
  simp [segLen, bareSeg, Seg.len, show has flagRst flagSyn = false by decide,
    show has flagRst flagFin = false by decide]

/-- What comes just behind the window is accepted. -/
theorem acceptance_behind {t : Tcb} {g : Seg} (hlen : segLen g = 0)
    (hoff : g.seq - t.rcv.nxt = rxfifoAvail t) (hwnd : (rxfifoAvail t).toNat ≠ 0)
    (hedge : ¬edgeWraps t) : acceptance t g = true ∧ ¬inWindow t g := by
  obtain ⟨hnxt, hsum⟩ := not_or.mp hedge
  have hpos : t.rcv.nxt.toNat ≠ 0 := mt (BitVec.eq_of_toNat_eq (y := 0)) hnxt
  have hne : rxfifoAvail t ≠ 0 := fun h => hwnd (congrArg BitVec.toNat h)
  have hlt : rxfifoAvail t < t.rcv.nxt + rxfifoAvail t := by
    rw [BitVec.lt_def, BitVec.toNat_add]
    omega
  constructor
  · simp only [acceptance, if_pos hlen, if_neg hne, hoff]
    exact decide_eq_true hlt
  · simp only [inWindow, if_pos hlen, if_neg hwnd, hoff]
    exact Nat.lt_irrefl _

/-- In every state but `SYN_SENT` a segment with data, a SYN or a FIN that is outside of the window
changes nothing but the count of refused segments. For those without, such as most RSTs, this is so
exactly if the window is closed or reaches around the end of the sequence space. -/
theorem outside_window_ignored (t : Tcb) (hs : t.state ≠ .synSent) (hc : t.state ≠ .closed) :
    (∀ g o, segLen g ≠ 0 → ¬inWindow t g → Ignored t g o) ∧
    ((∀ g o, segLen g = 0 → ¬inWindow t g → Ignored t g o) ↔
      (rxfifoAvail t).toNat = 0 ∨ edgeWraps t) := by
  refine ⟨fun g o hlen hout => ?_, fun h => ?_, fun h g o _ hout => ?_⟩
  · refine ignored_of_refused o hs fun hacc => hout (inWindow_of_acceptance hacc ?_)
    exact fun hzero => absurd hzero hlen
  · by_contra hcond
    obtain ⟨hwnd, hedge⟩ := not_or.mp hcond
    -- a RST just behind the window
    have hlen := segLen_rst (t.rcv.nxt + rxfifoAvail t) 0 0
    obtain ⟨hacc, hout⟩ := acceptance_behind hlen
      (show t.rcv.nxt + _ - _ = _ by rw [BitVec.add_comm, BitVec.add_sub_cancel]) hwnd hedge
    obtain ⟨k, hk⟩ := h _ ⟨⟨0, true⟩, none⟩ hlen hout
    have hrst : has (bareSeg (t.rcv.nxt + rxfifoAvail t) 0 flagRst 0).flg flagRst = true :=
      show has flagRst flagRst = true by decide
    rw [tcpInputIpv4, if_neg hs, if_pos hacc, inputAccepted, if_pos hrst] at hk
    exact hc (congrArg Tcb.state hk).symm
  · refine ignored_of_refused o hs fun hacc => hout (inWindow_of_acceptance hacc ?_)
    exact fun _ hwnd => h.resolve_left hwnd

def size4096 : FifoSize := ⟨4096, by decide, by decide⟩

def size2048 : FifoSize := ⟨2048, by decide, by decide⟩

def size4 : FifoSize := ⟨4, by decide, by decide⟩

def plenty : InputSupply := ⟨⟨2, true⟩, some ⟨2, true⟩⟩

/-- The window of this connection goes from 2^32 - 1024 to 1023. -/
def wrapped : Tcb :=
  { tcbCreate 100 size4096 size2048 (fun _ => 0) with
    state := .established, rcv := ⟨0xfffffc00, 0xfffffc00⟩ }

theorem wrapped_rst_ignored : ¬ inWindow wrapped (bareSeg 0x1000 101 flagRst 0) ∧
    Ignored wrapped (bareSeg 0x1000 101 flagRst 0) plenty := by
  have hout : ¬ inWindow wrapped (bareSeg 0x1000 101 flagRst 0) := by decide +kernel
  have hiff := (outside_window_ignored wrapped (by decide) (by decide)).2
  exact ⟨hout, hiff.mpr (by decide +kernel) _ plenty (segLen_rst _ _ _) hout⟩

/-! ## A RST far outside of the window -/

/-- A service is opened by a SYN with the sequence number `irs`; our own is `iss`. -/
def opened (tx rx : FifoSize) (iss irs : SeqNo) : Option (Tcb × List Sent) :=
  passiveOpen iss tx rx (fun _ => 0) (bareSeg irs 0 flagSyn 1000) true ⟨2, true⟩

theorem init_of_opened {tx rx : FifoSize} {iss irs : SeqNo} {r : Tcb × List Sent}
    (h : r ∈ opened tx rx iss irs) : Conn.Init (Conn.start r.1 r.2 none) :=
  .passive iss tx rx _ (bareSeg irs 0 flagSyn 1000) true ⟨2, true⟩ r.1 r.2 rfl h

/-- What is found by executing events after the SYN is found by a run. -/
theorem run_of_opened (tx rx : FifoSize) (iss irs : SeqNo) {es : List Event}
    (h : ∃ r ∈ opened tx rx iss irs, ∃ c ∈ exec Conn.step (Conn.start r.1 r.2 none) es, P c) :
    ∃ c0 c, Conn.Init c0 ∧ Run Conn.Step c0 es c ∧ P c := by
  obtain ⟨r, hr, c, hc, hp⟩ := h
  exact ⟨_, c, init_of_opened hr, run_of_exec hc, hp⟩

theorem guarded_run_of_opened (tx rx : FifoSize) (iss irs : SeqNo) (es : List Event)
    (ok : Conn → Event → Prop) [∀ c e, Decidable (ok c e)] {P : Conn → Prop}
    (h : ∃ r ∈ opened tx rx iss irs,
      ∃ c ∈ exec (guardStep ok Conn.step) (Conn.start r.1 r.2 none) es, P c) :
    ∃ c0 c, Conn.Init c0 ∧ Run (Guarded ok Conn.Step) c0 es c ∧ P c := by
  obtain ⟨r, hr, hex⟩ := h
  obtain ⟨c, hrun, hp⟩ := exists_guarded_run hex
  exact ⟨_, c, init_of_opened hr, hrun, hp⟩

/-- What is found by executing events of an active open is found by a run. -/
theorem run_of_connected (tx rx : FifoSize) (iss : SeqNo) {es : List Event}
    (h : ∃ c ∈ exec Conn.step (Conn.start (tcpConnect iss tx rx fun _ => 0) [] none) es, P c) :
    ∃ c0 c, Conn.Init c0 ∧ Run Conn.Step c0 es c ∧ P c := by
  obtain ⟨c, hrun, hp⟩ := exists_run h
  exact ⟨_, c, .active iss tx rx _, hrun, hp⟩

theorem guarded_run_of_connected (tx rx : FifoSize) (iss : SeqNo) (es : List Event)
    (ok : Conn → Event → Prop) [∀ c e, Decidable (ok c e)] {P : Conn → Prop}
    (h : ∃ c ∈ exec (guardStep ok Conn.step)
      (Conn.start (tcpConnect iss tx rx fun _ => 0) [] none) es, P c) :
    ∃ c0 c, Conn.Init c0 ∧ Run (Guarded ok Conn.Step) c0 es c ∧ P c := by
  obtain ⟨c, hrun, hp⟩ := exists_guarded_run h
  exact ⟨_, c, .active iss tx rx _, hrun, hp⟩

/-- `rcv.nxt` is 2^31 and the window 2048; the RST is a million further. -/
theorem rst_outside_window_closes : ∃ c0 c, Conn.Init c0 ∧
    Run Conn.Step c0 [.input (bareSeg 0x80000000 101 flagAck 1000) plenty] c ∧
    c.tcb.state = .established ∧ ¬ inWindow c.tcb (bareSeg 0x800f4240 101 flagRst 0) ∧
    ∃ c' ∈ c.step (.input (bareSeg 0x800f4240 101 flagRst 0) plenty), c'.tcb.state = .closed := by
  refine run_of_opened size4096 size2048 100 0x7fffffff ?_
  decide +kernel

end Mios.Tcp
