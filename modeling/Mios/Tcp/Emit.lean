import Mios.Tcp.Handshake

/-! The loop of `tcp_task_cb` that sends what is in the FIFO. Without a pending SYN each round that
succeeds moves `snd.nxt` towards `snd.wrptr`; with one, `tcp_emit` sends the SYN and nothing moves. -/

namespace Mios.Tcp

open Lib

variable {t : Tcb} {force : Bool}

/-- The bytes that are not sent yet. -/
def unsent (t : Tcb) : Nat := (t.snd.wrptr - t.snd.nxt).toNat

/-! ## One round -/

theorem bytesInFifo_ne_zero (h : emitStops force t = false) : bytesInFifo t.snd t.snd.nxt ≠ 0 := by
  simp only [emitStops, Bool.or_eq_false_iff, beq_eq_false_iff_ne, ne_eq] at h
  obtain ⟨⟨hne, hroom⟩, -⟩ := h
  have hunsent : (t.snd.wrptr - t.snd.nxt).toNat ≠ 0 := fun h0 => hne (Seq.toNat_sub_eq_zero.mp h0)
  rw [bytesInFifo, if_pos rfl]
  omega

theorem emitData_nxt_ne (b : Supply) {bytes : Nat} (hbytes : bytes ≠ 0)
    (h : (emitData t b t.snd.nxt bytes).err = false) :
    (emitData t b t.snd.nxt bytes).tcb.snd.nxt ≠ t.snd.nxt := by
  have hlen := length_copyData t.buffer t.txfifoSize.pos b.more firstUsed bytes 20 t.snd.nxt
  have hnil := copyData_ne_nil t.buffer t.txfifoSize.pos b.more hbytes t.snd.nxt
  have hpos := List.length_pos_iff.mpr hnil
  simp only [maxPktSize] at hlen
  cases hb : b.sent with
  | false => simp [emitData, output, hb] at h
  | true =>
    simp only [emitData, output, hb, Bool.not_true, Bool.false_eq_true, if_false, if_true]
    generalize
      (copyData t.buffer t.txfifoSize.val b.more firstUsed bytes 20 t.snd.nxt).length = k at *
    bv_omega

/-- With something to send and no SYN pending, `tcp_emit` fails or sends. -/
theorem tcpEmit_nxt_ne (b : Option Supply) (hsyn : t.pendingSyn = 0)
    (hbytes : bytesInFifo t.snd t.snd.nxt ≠ 0) (h : (tcpEmit t b t.snd.nxt false).err = false) :
    (tcpEmit t b t.snd.nxt false).tcb.snd.nxt ≠ t.snd.nxt := by
  cases b with
  | none => cases h
  | some b =>
    generalize hr : tcpEmit t (some b) t.snd.nxt false = r at h
    cases tcpEmit_case hr with
    | syn hne => exact absurd hsyn hne
    | idle hzero | ack hzero => exact absurd hzero hbytes
    | fin =>
      intro heq
      refine hbytes ?_
      have hwrptr : t.snd.wrptr = t.snd.nxt := heq
      rw [bytesInFifo, if_pos rfl, hwrptr, BitVec.sub_self]
      exact Nat.zero_min _
    | data _ hne => exact emitData_nxt_ne b hne h

theorem unsent_add {u : Tcb} {k : Nat} (hwrptr : u.snd.wrptr = t.snd.wrptr)
    (hk : k ≤ unsent t) (hnxt : u.snd.nxt = t.snd.nxt + BitVec.ofNat 32 k) :
    unsent u = unsent t - k := by
  unfold unsent at *
  rw [hwrptr, hnxt]
  bv_omega

/-- Sending from `snd.nxt` never makes the unsent bytes more. -/
theorem unsent_tcpEmit_le (t : Tcb) (b : Option Supply) (genAck : Bool) :
    unsent (tcpEmit t b t.snd.nxt genAck).tcb ≤ unsent t := by
  obtain ⟨k, hk, hnxt⟩ := tcpEmit_nxt t b genAck
  rw [unsent_add (tcpEmit_onlyNxt t b t.snd.nxt genAck).wrptr hk hnxt]
  exact Nat.sub_le _ _

/-- A round of the loop fails or makes them fewer. -/
theorem emit_advances (b : Option Supply) (hsyn : t.pendingSyn = 0)
    (hstop : emitStops force t = false) (h : (tcpEmit t b t.snd.nxt false).err = false) :
    unsent (tcpEmit t b t.snd.nxt false).tcb < unsent t := by
  have hne := tcpEmit_nxt_ne b hsyn (bytesInFifo_ne_zero hstop) h
  obtain ⟨k, hk, hnxt⟩ := tcpEmit_nxt t b false
  have hk0 : k ≠ 0 := by
    rintro rfl
    exact hne (hnxt.trans (BitVec.add_zero _))
  rw [unsent_add (tcpEmit_onlyNxt t b t.snd.nxt false).wrptr hk hnxt]
  unfold unsent at *
  omega

/-! ## The loop -/

/-- The blocks at the beginning of the rounds. -/
def emitTops (force : Bool) (t : Tcb) : List (Option Supply) → List Tcb
  | [] => [t]
  | b :: rest =>
    if emitStops force t then [t]
    else
      let e := tcpEmit t b t.snd.nxt false
      if e.err then [t] else t :: emitTops force e.tcb rest

theorem emitTops_eq (force : Bool) (t : Tcb) (bs : List (Option Supply)) :
    ∃ rest, emitTops force t bs = t :: rest := by
  cases bs with
  | nil => exact ⟨[], rfl⟩
  | cons b bs =>
    unfold emitTops
    dsimp only
    split
    · exact ⟨[], rfl⟩
    · split
      · exact ⟨[], rfl⟩
      · exact ⟨_, rfl⟩

theorem emitTops_advance (force : Bool) (bs : List (Option Supply)) (hsyn : t.pendingSyn = 0) :
    (emitTops force t bs).IsChain fun u v => unsent v < unsent u := by
  induction bs generalizing t with
  | nil => exact List.IsChain.singleton t
  | cons b bs ih =>
    unfold emitTops
    dsimp only
    split
    · exact List.IsChain.singleton t
    rename_i hstop
    split
    · exact List.IsChain.singleton t
    rename_i herr
    have hlt := emit_advances b hsyn (Bool.not_eq_true _ ▸ hstop) (Bool.not_eq_true _ ▸ herr)
    have hrest := ih ((tcpEmit_onlyNxt t b t.snd.nxt false).pendingSyn.trans hsyn)
    obtain ⟨rest, heq⟩ := emitTops_eq force (tcpEmit t b t.snd.nxt false).tcb bs
    rw [heq] at hrest ⊢
    exact List.isChain_cons_cons.mpr ⟨hlt, hrest⟩

/-- As many rounds as there are unsent bytes are enough. -/
theorem emitLoop_ends (force : Bool) (bs : List (Option Supply)) (hsyn : t.pendingSyn = 0)
    (hbs : unsent t ≤ bs.length) : ∃ r, emitLoop force t bs = some r := by
  induction bs generalizing t with
  | nil =>
    have hzero : t.snd.wrptr = t.snd.nxt := Seq.toNat_sub_eq_zero.mp (Nat.le_zero.mp hbs)
    exact ⟨(t, []), if_pos (by simp [emitStops, hzero])⟩
  | cons b bs ih =>
    unfold emitLoop
    dsimp only
    split
    · exact ⟨_, rfl⟩
    rename_i hstop
    split
    · exact ⟨_, rfl⟩
    rename_i herr
    have hlt := emit_advances b hsyn (Bool.not_eq_true _ ▸ hstop) (Bool.not_eq_true _ ▸ herr)
    obtain ⟨r, hr⟩ := ih ((tcpEmit_onlyNxt t b t.snd.nxt false).pendingSyn.trans hsyn)
      (by rw [List.length_cons] at hbs; omega)
    exact ⟨_, by rw [hr]; rfl⟩

/-! ## The task -/

/-- The block as the loop finds it. -/
def loopTcb (t : Tcb) (o : TaskSupply) : Tcb :=
  let w := (taskWndOpen (taskConnect { t with signals := noSignals } t.signals o).tcb t.signals o).tcb
  { w with rtxTimer := w.rtxTimer || w.snd.una == w.snd.nxt }

/-- With a SYN pending `tcp_emit` moves nothing. -/
theorem tcpEmit_syn (b : Option Supply) (seq : SeqNo) (genAck : Bool) (hsyn : t.pendingSyn ≠ 0) :
    (tcpEmit t b seq genAck).tcb.snd = t.snd := by
  cases b with
  | none => rfl
  | some b =>
    rw [tcpEmit, if_pos hsyn, output]

/-- Without a connect among the signals, the block is the same up to `snd.nxt`. -/
theorem loopTcb_spec (o : TaskSupply) (h : t.signals.connect = false) :
    (loopTcb t o).pendingSyn = t.pendingSyn ∧ unsent (loopTcb t o) ≤ unsent t ∧
      (t.pendingSyn ≠ 0 → (loopTcb t o).snd = t.snd) := by
  have hconnect : taskConnect { t with signals := noSignals } t.signals o =
      ⟨{ t with signals := noSignals }, [], false⟩ := by
    rw [taskConnect, h]
    rfl
  unfold loopTcb
  rw [hconnect]
  unfold taskWndOpen
  split
  · exact ⟨(tcpEmit_onlyNxt _ _ _ _).pendingSyn,
      unsent_tcpEmit_le { t with signals := noSignals } _ _,
      fun hsyn => tcpEmit_syn (t := { t with signals := noSignals }) _ _ _ hsyn⟩
  · exact ⟨rfl, Nat.le_refl _, fun _ => rfl⟩

theorem state_taskWndOpen (t : Tcb) (signals : Signals) (o : TaskSupply) :
    (taskWndOpen (taskConnect { t with signals := noSignals } signals o).tcb signals o).tcb.state =
      t.state := by
  have hconnect : (taskConnect { t with signals := noSignals } signals o).tcb.state = t.state := by
    unfold taskConnect
    split
    · exact (tcpEmit_onlyNxt _ _ _ _).state
    · rfl
  unfold taskWndOpen
  split
  · exact (tcpEmit_onlyNxt _ _ _ _).state.trans hconnect
  · exact hconnect

/-- Whatever the signals are and however the rounds go, the loop ends after at most as many rounds as
there are unsent bytes, and each round but the last one makes the unsent bytes fewer. A connect is
signalled only before the SYN. -/
def Drains (t : Tcb) : Prop :=
  ∀ signals o, (signals.connect = true → emitsIn t.state = false) →
    (unsent t ≤ o.loop.length → ∃ r, tcpTaskCb { t with signals := signals } o = some r) ∧
    (emitsIn t.state = true →
      (emitTops signals.flush (loopTcb { t with signals := signals } o) o.loop).IsChain
        fun u v => unsent v < unsent u)

/-- No SYN is in the way of what is to be sent. -/
def Sendable (t : Tcb) : Prop :=
  t.pendingSyn = 0 ∨ t.snd.wrptr = t.snd.nxt ∨ wndRoom t.snd = 0

/-- With a SYN pending, the loop does not begin. -/
theorem Sendable.stops (h : Sendable t) (hsyn : t.pendingSyn ≠ 0) (force : Bool) :
    emitStops force t = true := by
  rcases h with h | h | h
  · exact absurd h hsyn
  · simp [emitStops, h]
  · simp [emitStops, h]

theorem Sendable.loop (h : Sendable t) (force : Bool) (bs : List (Option Supply)) :
    (unsent t ≤ bs.length → ∃ r, emitLoop force t bs = some r) ∧
      (emitTops force t bs).IsChain fun u v => unsent v < unsent u := by
  by_cases hsyn : t.pendingSyn = 0
  · exact ⟨emitLoop_ends force bs hsyn, emitTops_advance force bs hsyn⟩
  · have hstops := h.stops hsyn force
    cases bs with
    | nil => exact ⟨fun _ => ⟨_, if_pos hstops⟩, List.IsChain.singleton t⟩
    | cons b bs =>
      unfold emitLoop emitTops
      rw [if_pos hstops, if_pos hstops]
      exact ⟨fun _ => ⟨_, rfl⟩, List.IsChain.singleton t⟩

theorem loopTcb_sendable {signals : Signals} (o : TaskSupply) (h : Sendable t)
    (hconnect : signals.connect = false) : Sendable (loopTcb { t with signals := signals } o) := by
  obtain ⟨hsyn, -, hsnd⟩ := loopTcb_spec (t := { t with signals := signals }) o hconnect
  by_cases hzero : t.pendingSyn = 0
  · exact .inl (hsyn.trans hzero)
  · unfold Sendable
    rw [hsyn, hsnd hzero]
    exact h

/-- `tcp_emit` sends the SYN, and the block stays as it is. -/
theorem emitLoop_syn_pending (force : Bool) (hsyn : t.pendingSyn ≠ 0)
    (hstop : emitStops force t = false) (n : Nat) :
    emitLoop force t (List.replicate n (some ⟨0, true⟩)) = none := by
  induction n generalizing t with
  | zero => exact if_neg (by rw [hstop]; simp)
  | succ n ih =>
    have hemit : tcpEmit t (some ⟨0, true⟩) t.snd.nxt false = ⟨{ t with delayedAckTimer := false },
        [tcpOutputTcb { t with delayedAckTimer := false } t.pendingSyn t.iss []], false⟩ := by
      rw [tcpEmit, if_pos hsyn]
      rfl
    rw [List.replicate_succ, emitLoop, if_neg (by rw [hstop]; simp)]
    rw [hemit]
    dsimp only
    rw [ih (t := { t with delayedAckTimer := false }) hsyn hstop]
    rfl

/-- A flush with a SYN pending and something to send. -/
def flushOnly : Signals := ⟨false, false, false, false, true⟩

theorem task_syn_pending (hemits : emitsIn t.state = true) (hsyn : t.pendingSyn ≠ 0)
    (hstop : emitStops true t = false) (n : Nat) :
    tcpTaskCb { t with signals := flushOnly }
      ⟨none, none, List.replicate n (some ⟨0, true⟩), none⟩ = none := by
  unfold tcpTaskCb
  simp only [flushOnly, taskConnect, taskWndOpen, taskEmit, Bool.false_eq_true, if_false, false_and,
    Bool.or_true, true_and, hemits, if_true]
  rw [emitLoop_syn_pending true]
  · rfl
  · exact hsyn
  · exact hstop

/-- The loop ends exactly if no SYN is in its way. -/
theorem drains_iff (t : Tcb) : Drains t ↔ (emitsIn t.state = true → Sendable t) := by
  constructor
  · intro h hemits
    by_contra hnot
    obtain ⟨hsyn, hrest⟩ := not_or.mp hnot
    have hstop : emitStops true t = false := by
      simp [emitStops, not_or.mp hrest]
    obtain ⟨r, hr⟩ := (h flushOnly ⟨none, none, List.replicate (unsent t) (some ⟨0, true⟩), none⟩
      (fun hc => by cases hc)).1 (by simp)
    rw [task_syn_pending hemits hsyn hstop] at hr
    cases hr
  · intro h signals o hconnect
    have hfalse (hemits : emitsIn t.state = true) : signals.connect = false :=
      Bool.eq_false_iff.mpr fun hc => by simp [hconnect hc] at hemits
    have hloop (hemits : emitsIn t.state = true) :=
      (loopTcb_sendable o (h hemits) (hfalse hemits)).loop signals.flush o.loop
    refine ⟨fun hlen => ?_, fun hemits => (hloop hemits).2⟩
    have htask : ∃ l, taskEmit (taskWndOpen (taskConnect { t with signals := noSignals } signals
        o).tcb signals o).tcb signals o = some l := by
      unfold taskEmit
      split
      · rename_i hemit
        have hemits : emitsIn t.state = true := by
          rw [← state_taskWndOpen t signals o]
          exact hemit.2
        refine (hloop hemits).1 (Nat.le_trans ?_ hlen)
        exact (loopTcb_spec (t := { t with signals := signals }) o (hfalse hemits)).2.1
      · exact ⟨_, rfl⟩
    obtain ⟨l, hl⟩ := htask
    unfold tcpTaskCb
    dsimp only
    rw [hl]
    exact ⟨_, rfl⟩

theorem synchronized_of_emitsIn {s : State} (h : emitsIn s = true) : synchronized s = true := by
  cases s <;> first | rfl | cases h

/-- In every state that can be reached the loop ends if and only if it does not send there, or no SYN
is pending, or there is nothing to send, or the window is full; this is so in every run in which the
handshake is regular. -/
theorem emit_loop_ends {c0 c : Conn} {es : List Event} (hinit : Conn.Init c0) :
    (Run Conn.Step c0 es c → (Drains c.tcb ↔ (emitsIn c.tcb.state = true → Sendable c.tcb))) ∧
    (Run (Guarded (fun c e => Regular shakeIrregular c.tcb e) Conn.Step) c0 es c →
      Drains c.tcb) := by
  refine ⟨fun _ => drains_iff c.tcb, fun hrun => (drains_iff c.tcb).mpr fun hemits => ?_⟩
  exact .inl ((synced_of_run hinit hrun).1.noSyn (synchronized_of_emitsIn hemits))

/-- Three bytes are written to a connection that the peer has acknowledged. -/
def threeWritten : List Event :=
  [.input (bareSeg 501 101 flagAck 1000) plenty, .write [[7, 8, 9]] false false]

theorem emit_loop_ends_three : ∃ c0 c, Conn.Init c0 ∧
    Run (Guarded (fun c e => Regular shakeIrregular c.tcb e) Conn.Step) c0 threeWritten c ∧
    emitsIn c.tcb.state = true ∧ unsent c.tcb = 3 ∧
    ∃ r, tcpTaskCb { c.tcb with signals := flushOnly } ⟨none, none, [lots, lots, lots], none⟩ =
      some r := by
  obtain ⟨c0, c, hinit, hrun, hemits, hunsent⟩ := guarded_run_of_opened size4096 size2048 100 500
    threeWritten (fun c e => Regular shakeIrregular c.tcb e)
    (P := fun c => emitsIn c.tcb.state = true ∧ unsent c.tcb = 3) (by decide +kernel)
  have hdrains := (emit_loop_ends hinit).2 hrun
  refine ⟨c0, c, hinit, hrun, hemits, hunsent, (hdrains flushOnly _ fun hc => by cases hc).1 ?_⟩
  exact Nat.le_of_eq hunsent

/-- A premature acknowledgement, a write and a flush. -/
def prematureWrite : List Event :=
  [.input (bareSeg 501 106 flagAck 1000) plenty, .write [[7]] false false, .flush]

/-- The connection is established with the SYN pending, and the next task never ends: whatever
number of segments it has sent, it goes on. -/
theorem emit_loop_forever : ∃ c0 c, Conn.Init c0 ∧ Run Conn.Step c0 prematureWrite c ∧
    c.tcb.state = .established ∧ c.tcb.signals = flushOnly ∧
    ∀ n, tcpTaskCb c.tcb ⟨none, none, List.replicate n (some ⟨0, true⟩), none⟩ = none := by
  obtain ⟨c0, c, hinit, hrun, hstate, hsignals, hsyn, hstop⟩ :=
    run_of_opened size4096 size2048 100 500
      (P := fun c => c.tcb.state = .established ∧ c.tcb.signals = flushOnly ∧
        c.tcb.pendingSyn ≠ 0 ∧ emitStops true c.tcb = false)
      (show ∃ r ∈ opened size4096 size2048 100 500,
        ∃ c ∈ exec Conn.step (Conn.start r.1 r.2 none) prematureWrite, _ from by decide +kernel)
  refine ⟨c0, c, hinit, hrun, hstate, hsignals, fun n => ?_⟩
  have htask := task_syn_pending (t := c.tcb) (by rw [hstate]; rfl) hsyn hstop n
  rwa [← hsignals] at htask

end Mios.Tcp
