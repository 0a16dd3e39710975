import Mios.Tcp.SynAck

/-! A connection that a SYN has opened, with the clock: when its retransmission timer is due, when
something was last received, and when it is given up. The clock is in microseconds. -/

namespace Mios.Tcp

open Lib Option

/-- `tcb_rto`, the same for every connection. -/
def rtoTime : Nat := 250000

/-- `TCP_KEEPALIVE_INTERVAL`. -/
def keepaliveInterval : Nat := 10000000

/-- `TCP_TIMEOUT_INTERVAL`. -/
def timeoutInterval : Nat := 21000000

/-- `TCP_TIMEOUT_HANDSHAKE`. -/
def timeoutHandshake : Nat := 5000000

/-- Times are `uint64_t`. -/
def timeRange : Nat := 18446744073709551616

/-- `lastRx` and `timo` are fields of the block and `expire` is that of its retransmission timer.
An observer knows when the last segment came, `heard`, whether it was one that is written to
`tcb_last_rx`, `counted`, and when the SYN-ACK was first sent or last tried again, `tried`. -/
structure Timed where
  conn : Conn
  clock : Nat
  lastRx : Nat
  timo : Nat
  expire : Nat
  heard : Nat
  counted : Bool
  tried : Nat

/-- The states in which `TCP_EVENT_CLOSE` sends a FIN. -/
def sendsFin (s : State) : Bool :=
  match s with
  | .established | .synReceived | .closeWait => true
  | _ => false

/-- `tcp_task_cb` arms the timer: with the SYN, before the loop, or with the FIN. -/
def taskArms (t : Tcb) (o : TaskSupply) : Bool :=
  let c := taskConnect { t with signals := noSignals } t.signals o
  let w := taskWndOpen c.tcb t.signals o
  t.signals.connect && t.snd.una == t.snd.nxt ||
    (t.signals.emit || t.signals.flush) && emitsIn w.tcb.state &&
      w.tcb.snd.una == w.tcb.snd.nxt ||
    t.signals.close && (taskEmit w.tcb t.signals o).any fun l =>
      sendsFin l.1.state && l.1.snd.una == l.1.snd.nxt

/-- `arm_rtx`. -/
def armRtx (snd : Snd) (nxt : SeqNo) (now : Nat) : Nat :=
  (now + if snd.una = nxt then keepaliveInterval else rtoTime) % timeRange

namespace Timed

variable (s : Timed) (now : Nat)

/-- `tcb_last_rx` after an event. -/
def lastRxAfter : Event → Nat
  | .input g _ => if processed s.conn.tcb g then now else s.lastRx
  | .task _ => if s.conn.tcb.signals.connect then now else s.lastRx
  | _ => s.lastRx

/-- `tcb_timo` after an event. -/
def timoAfter : Event → Nat
  | .input g _ =>
    if processed s.conn.tcb g ∧ s.conn.tcb.state = .synReceived ∧ 0 ≤ unaAck s.conn.tcb g ∧
        ackNxt s.conn.tcb g ≤ 0 then timeoutInterval
    else s.timo
  | _ => s.timo

/-- When the timer is due after an event. `tcp_ack` arms it before anything is sent. -/
def expireAfter (t' : Tcb) : Event → Nat
  | .input _ _ =>
    if t'.snd.una = s.conn.tcb.snd.una then s.expire else armRtx t'.snd s.conn.tcb.snd.nxt now
  | .task o => if taskArms s.conn.tcb o then (now + rtoTime) % timeRange else s.expire
  | .rtx false _ => armRtx t'.snd t'.snd.nxt now
  | _ => s.expire

def heardAfter : Event → Nat
  | .input _ _ => now
  | _ => s.heard

def countedAfter : Event → Bool
  | .input g _ => processed s.conn.tcb g
  | _ => s.counted

def triedAfter : Event → Nat
  | .rtx _ _ => now
  | _ => s.tried

def after (e : Event) (c : Conn) : Timed :=
  ⟨c, now, s.lastRxAfter now e, s.timoAfter e, s.expireAfter now c.tcb e, s.heardAfter now e,
    s.countedAfter e, s.triedAfter now e⟩

/-- `tcp_rtx_cb` runs when the timer is due, and finds out whether the time is over. Its `now` is the
`t_expire` of the timer, which is the time of the event if the callback runs on time. -/
def due : Event → Bool
  | .rtx timedOut _ =>
    decide (s.expire ≤ now) && timedOut == decide ((s.lastRx + s.timo) % timeRange < now)
  | _ => true

def step (x : Nat × Event) : Option Timed :=
  if s.clock ≤ x.1 ∧ s.due x.1 x.2 = true then (s.conn.step x.2).map (s.after x.1 x.2) else none

def Step (s : Timed) (x : Nat × Event) (s' : Timed) : Prop := s.step x = some s'

/-- A connection opened at the time `now`; `tcb_create` has cleared `tcb_last_rx`. -/
def opened (t : Tcb) (out : List Sent) (mss : Option Nat) : Timed :=
  ⟨Conn.start t out mss, now, 0, timeoutHandshake, (now + rtoTime) % timeRange, now, false, now⟩

inductive Init : Timed → Prop
  | passive (now : Nat) (iss : SeqNo) (tx rx : FifoSize) (buffer : Nat → Byte) (g : Seg)
      (pulled : Bool) (b : Supply) (t : Tcb) (out : List Sent) (hflg : g.flg = flagSyn)
      (h : passiveOpen iss tx rx buffer g pulled b = some (t, out)) :
      Init (opened now t out ((parseOptions g.options).bind (·.mss)))

end Timed

/-- The event gives the connection up. -/
def givesUp : Event → Bool
  | .rtx timedOut _ => timedOut
  | _ => false

/-- The clock is far from its end, no write goes to an overfull FIFO, and when the connection is
given up, the last segment that came was written to `tcb_last_rx`. -/
def LifeOk (s : Timed) (x : Nat × Event) : Prop :=
  x.1 + timeoutInterval < timeRange ∧ WriteOk s.conn.tcb x.2 ∧
    (givesUp x.2 = true → s.counted = true)

instance (s : Timed) (x : Nat × Event) : Decidable (LifeOk s x) := by
  unfold LifeOk
  infer_instance

structure Life (n : SeqNo) (s : Timed) : Prop where
  passive : Passive True n s.conn.tcb
  heard : s.counted = true → s.lastRx = s.heard
  lastRx : s.lastRx ≤ s.clock
  timo : s.timo ≤ timeoutInterval
  expire : Waiting s.conn.tcb → s.expire ≤ s.tried + rtoTime

variable {s s' : Timed} {n : SeqNo} {x : Nat × Event}

/-! ## One event -/

theorem step_iff (h : s.step x = some s') : s.clock ≤ x.1 ∧ s.due x.1 x.2 = true ∧
      ∃ c, s.conn.step x.2 = some c ∧ s' = s.after x.1 x.2 c := by
  obtain ⟨⟨hclock, hdue⟩, h⟩ := ite_none_right_eq_some.mp h
  obtain ⟨c, hc, rfl⟩ := map_eq_some_iff.mp h
  exact ⟨hclock, hdue, c, hc, rfl⟩

variable {c : Conn} {now : Nat} {b : Option Supply}

/-- A connection that waits has been waiting. -/
theorem Life.waiting_before (h : Life n s) (hok : WriteOk s.conn.tcb x.2)
    (hstep : s.conn.step x.2 = some c) (hw : Waiting c.tcb) : Waiting s.conn.tcb := by
  have hbefore : Passive (Waiting s.conn.tcb) n s.conn.tcb := { h.passive with
    syn := h.passive.syn.imp_right (Or.imp_right fun hw => ⟨hw.2, hw.2⟩) }
  rcases (hbefore.step hok hstep).syn with hz | hc | ⟨hr, -⟩
  · exact absurd hz hw.pending
  · exact absurd (hc ▸ hw.state) (by decide)
  · exact hr

/-- While the SYN is pending, `snd.nxt` stays. -/
theorem Emits.snd_of_pending {t t' : Tcb} (h : Emits t t') (hp : t.pendingSyn ≠ 0) :
    t'.snd = t.snd ∧ t'.pendingSyn ≠ 0 := by
  obtain ⟨nxt, d, rfl, hnxt⟩ := h
  rw [hnxt hp]
  exact ⟨rfl, hp⟩

/-- While the SYN-ACK is outstanding, no task arms the timer. -/
theorem taskArms_of_pending {t : Tcb} (hp : t.pendingSyn ≠ 0) (hne : t.snd.una ≠ t.snd.nxt)
    (hconn : t.signals.connect = false) (o : TaskSupply) : taskArms t o = false := by
  obtain ⟨hwnd, hp'⟩ := (taskWndOpen_emits (t := { t with signals := noSignals }) t.signals
    o).snd_of_pending hp
  have hfin : (taskEmit (taskWndOpen { t with signals := noSignals } t.signals o).tcb t.signals
      o).any (fun l => sendsFin l.1.state && l.1.snd.una == l.1.snd.nxt) = false := by
    unfold taskEmit
    split
    · cases hl : emitLoop _ _ o.loop with
      | none => rfl
      | some l =>
        have hloop := ((emitLoop_emits hl).snd_of_pending hp').1.trans hwnd
        simp only [any_some, hloop, beq_eq_false_iff_ne.mpr hne, Bool.and_false]
    · simp only [any_some, hwnd, beq_eq_false_iff_ne.mpr hne, Bool.and_false]
  unfold taskArms
  rw [taskConnect_of_not o hconn, hconn]
  dsimp only
  rw [hfin, hwnd, beq_eq_false_iff_ne.mpr hne]
  simp only [Bool.and_false, Bool.or_false]

theorem armRtx_le {snd : Snd} {nxt : SeqNo} (h : snd.una ≠ nxt) (now : Nat) :
    armRtx snd nxt now ≤ now + rtoTime := by
  rw [armRtx, if_neg h]
  exact Nat.mod_le _ _

theorem rtx_step {c' : Conn} {timedOut : Bool} (h : c.step (.rtx timedOut b) = some c') :
    c' = c.after (tcpRtxCb c.tcb timedOut b) := by
  obtain ⟨-, h⟩ := ite_none_left_eq_some.mp h
  obtain ⟨r, hr, rfl⟩ := map_eq_some_iff.mp h
  obtain ⟨-, rfl⟩ := of_ite_some hr
  rfl

/-- Only the callback arms the timer of the SYN-ACK. -/
theorem Life.expireAfter (h : Life n s) (hok : WriteOk s.conn.tcb x.2)
    (hstep : s.conn.step x.2 = some c) (hw : Waiting c.tcb) :
    s.expireAfter x.1 c.tcb x.2 ≤ s.triedAfter x.1 x.2 + rtoTime := by
  have hbefore := h.waiting_before hok hstep hw
  have hafter := h.passive.step hok hstep
  have hle := h.expire hbefore
  cases he : x.2 with
  | input g o =>
    show (if c.tcb.snd.una = s.conn.tcb.snd.una then s.expire else _) ≤ s.tried + rtoTime
    rw [if_pos ((hafter.una hw).trans (h.passive.una hbefore).symm)]
    exact hle
  | task o =>
    show (if Tcp.taskArms s.conn.tcb o = true then _ else s.expire) ≤ s.tried + rtoTime
    rw [taskArms_of_pending hbefore.pending (h.passive.una_ne_nxt hbefore) h.passive.connect o]
    exact hle
  | rtx timedOut b =>
    cases timedOut with
    | false => exact armRtx_le (hafter.una_ne_nxt hw) x.1
    | true =>
      -- the connection is closed
      exfalso
      rw [he] at hstep
      obtain rfl := rtx_step hstep
      exact absurd (show awaitsAck .closed = true from hw.state) (by decide)
  | _ => exact hle

theorem Life.step (h : Life n s) (hok : LifeOk s x) (hstep : s.step x = some s') : Life n s' := by
  obtain ⟨hclock, -, c, hc, rfl⟩ := step_iff hstep
  refine ⟨h.passive.step hok.2.1 hc, ?_, ?_, ?_, h.expireAfter hok.2.1 hc⟩
  · cases x.2 with
    | input g o => exact fun hp => if_pos hp
    | task o =>
      intro hcount
      show (if s.conn.tcb.signals.connect = true then x.1 else s.lastRx) = s.heard
      rw [h.passive.connect]
      exact h.heard hcount
    | _ => exact h.heard
  · have hle := Nat.le_trans h.lastRx hclock
    cases x.2 with
    | input g o | task o =>
      show (if _ then x.1 else s.lastRx) ≤ x.1
      split
      · exact Nat.le_refl _
      · exact hle
    | _ => exact hle
  · cases x.2 with
    | input g o =>
      show (if _ then timeoutInterval else s.timo) ≤ timeoutInterval
      split
      · exact Nat.le_refl _
      · exact h.timo
    | _ => exact h.timo

theorem Timed.Init.life (h : Timed.Init s) : Life s.conn.tcb.iss s := by
  cases h with
  | passive now iss tx rx buffer g pulled b t out hflg h =>
    have ho := passiveOpen_opened h
    have hbase := (Conn.Init.passive iss tx rx buffer g pulled b t out hflg h).base
    have htimer : t.rtxTimer = true := by
      obtain ⟨o, -, heq⟩ := map_eq_some_iff.mp h
      cases heq
      show (false || iss == iss) = true
      rw [beq_self_eq_true]
      rfl
    have hwait : Waiting t := ⟨ho.pendingSyn, by rw [ho.state]; rfl, htimer⟩
    refine ⟨⟨hbase, ho.connect, ?_, rfl, .inr (.inr ⟨trivial, hwait⟩)⟩, (fun hc => by cases hc),
      Nat.zero_le _, ?_, fun _ => Nat.mod_le _ _⟩
    · show t.state ≠ .synSent
      rw [ho.state]
      decide
    · show timeoutHandshake ≤ timeoutInterval
      decide

/-! ## Runs -/

/-- The time is over when the connection is given up. -/
theorem Life.heard_of_givesUp (h : Life n s)
    (hok : LifeOk s (now, .rtx true b)) (hstep : s.Step (now, .rtx true b) s') :
    s.heard + s.timo < now := by
  obtain ⟨hclock, hdue, -⟩ := step_iff hstep
  have hle := h.lastRx
  have htimo := h.timo
  have hrange := hok.1
  rw [← h.heard (hok.2.2 rfl)]
  simp only [Timed.due, Bool.and_eq_true, beq_iff_eq] at hdue
  have hover := of_decide_eq_true hdue.2.symm
  rwa [Nat.mod_eq_of_lt (by omega)] at hover

/-- The SYN-ACK is sent again by a callback that does not give up. -/
theorem Life.sent_again (h : Life n s) (hw : Waiting s.conn.tcb) {b : Supply}
    (hsent : b.sent = true) (hstep : s.Step (now, .rtx false (some b)) s') :
    s'.conn.tcb.pendingSyn ≠ 0 ∧ ∃ pos, s'.conn.log = s.conn.log ++
      [(pos, tcpOutputTcb s.conn.tcb (flagSyn ||| flagAck) n [])] := by
  obtain ⟨-, -, c, hc, rfl⟩ := step_iff hstep
  obtain rfl := rtx_step hc
  refine ⟨?_, ?_⟩
  · show (tcpRtxCb s.conn.tcb false (some b)).1.pendingSyn ≠ 0
    unfold tcpRtxCb
    rw [if_neg (by decide)]
    split
    · exact hw.pending
    · exact (tcpEmit_onlyNxt _ _ _ _).pendingSyn.trans_ne hw.pending
  · show ∃ pos, s.conn.log ++ (tcpRtxCb s.conn.tcb false (some b)).2.map _ = _
    rw [h.passive.resent hw b hsent]
    exact ⟨_, rfl⟩

/-- A callback that is due before the time is over can run. -/
theorem Life.callback (h : Life n s) (hw : Waiting s.conn.tcb)
    (hclock : s.clock ≤ now) (hrange : now + timeoutInterval < timeRange)
    (hcount : s.counted = true) (hdue : s.expire ≤ now) (hin : now ≤ s.heard + s.timo) :
    ∃ s', s.Step (now, .rtx false b) s' := by
  have hle := h.lastRx
  have htimo := h.timo
  have hover : ¬ (s.lastRx + s.timo) % timeRange < now := by
    rw [Nat.mod_eq_of_lt (by omega), h.heard hcount]
    omega
  have hopen : freed s.conn.tcb = false := by
    have hne : s.conn.tcb.state ≠ .closed := by
      intro hc
      exact absurd (hc ▸ hw.state) (by decide)
    rw [freed, beq_eq_false_iff_ne.mpr hne, Bool.false_and]
  have hruns : s.due now (.rtx false b) = true := by
    simp only [Timed.due, decide_eq_true hdue, decide_eq_false hover]
    rfl
  refine ⟨s.after now (.rtx false b) (s.conn.after (tcpRtxCb s.conn.tcb false b)), ?_⟩
  show s.step _ = _
  rw [Timed.step, if_pos ⟨hclock, hruns⟩]
  show (if freed s.conn.tcb = true then none else
    (if s.conn.tcb.rtxTimer = true then _ else none).map _).map _ = _
  rw [hopen, if_neg (by decide), if_pos hw.timer]
  rfl

/-- In every run that meets the condition a connection opened by a SYN is given up only when for
its timeout no segment has come. As long as its SYN-ACK is outstanding, the timer is armed, it is
due within the retransmission time, it can run until the timeout is over, and then the SYN-ACK is
sent again. -/
theorem handshake_lifetime {s0 s : Timed} {xs : List (Nat × Event)} (hinit : Timed.Init s0)
    (hrun : Run (Guarded LifeOk Timed.Step) s0 xs s) :
    (∀ now b s', LifeOk s (now, .rtx true b) → s.Step (now, .rtx true b) s' →
      s.heard + s.timo < now) ∧ (s.conn.tcb.pendingSyn ≠ 0 → s.conn.tcb.state ≠ .closed →
      s.conn.tcb.rtxTimer = true ∧ s.expire ≤ s.tried + rtoTime ∧
      (∀ now b, s.clock ≤ now → now + timeoutInterval < timeRange → s.counted = true →
        s.expire ≤ now → now ≤ s.heard + s.timo → ∃ s', s.Step (now, .rtx false b) s') ∧
      ∀ now b s', b.sent = true → s.Step (now, .rtx false (some b)) s' →
        s'.conn.tcb.pendingSyn ≠ 0 ∧ ∃ pos, s'.conn.log = s.conn.log ++
          [(pos, tcpOutputTcb s.conn.tcb (flagSyn ||| flagAck) s0.conn.tcb.iss [])]) := by
  have h : Life s0.conn.tcb.iss s := hrun.invariant hinit.life fun u x v hu hs => hu.step hs.1 hs.2
  refine ⟨fun now b s' hok hstep => h.heard_of_givesUp hok hstep, fun hsyn hopen => ?_⟩
  have hw : Waiting s.conn.tcb := by
    rcases h.passive.syn with hz | hc | ⟨-, hw⟩
    · exact absurd hz hsyn
    · exact absurd hc hopen
    · exact hw
  refine ⟨hw.timer, h.expire hw, fun now b hclock hrange hcount hdue hin =>
    h.callback hw hclock hrange hcount hdue hin, fun now b s' hsent hstep =>
    h.sent_again hw hsent hstep⟩

/-- With the acknowledgement of the peer a connection opened after six seconds lives on for its
full timeout. -/
theorem handshake_lifetime_acked : ∃ s0 s, Timed.Init s0 ∧ s0.clock = 6000000 ∧
    Run (Guarded LifeOk Timed.Step) s0
      [(6100000, .input (bareSeg 501 101 flagAck 1000) plenty)] s ∧
    s.conn.tcb.state = .established ∧
    ∀ now b s', LifeOk s (now, .rtx true b) → s.Step (now, .rtx true b) s' → 27100000 < now := by
  have h : ∃ r ∈ opened size4096 size2048 100 500,
      ∃ s ∈ exec (guardStep LifeOk Timed.step) (Timed.opened 6000000 r.1 r.2 none)
        [(6100000, .input (bareSeg 501 101 flagAck 1000) plenty)],
        s.conn.tcb.state = .established ∧ s.heard = 6100000 ∧ s.timo = 21000000 := by
    decide +kernel
  obtain ⟨r, hr, hex⟩ := h
  obtain ⟨s, hrun, hstate, hheard, htimo⟩ := exists_guarded_run hex
  have hinit : Timed.Init (Timed.opened 6000000 r.1 r.2 none) :=
    .passive _ _ _ _ _ (bareSeg 500 0 flagSyn 1000) true ⟨2, true⟩ r.1 r.2 rfl hr
  refine ⟨_, s, hinit, rfl, hrun, hstate, fun now b s' hok hstep => ?_⟩
  have hlate := (handshake_lifetime hinit hrun).1 now b s' hok hstep
  rw [hheard, htimo] at hlate
  exact hlate

theorem timed_of_opened {xs : List (Nat × Event)} {Q : Timed → Prop}
    (h : ∃ r ∈ opened size4096 size2048 100 500,
      ∃ s ∈ exec Timed.step (Timed.opened now r.1 r.2 none) xs, Q s) :
    ∃ s0 s, Timed.Init s0 ∧ s0.clock = now ∧ Run Timed.Step s0 xs s ∧ Q s := by
  obtain ⟨r, hr, hex⟩ := h
  obtain ⟨s, hrun, hq⟩ := exists_run hex
  exact ⟨_, s, .passive now _ _ _ _ (bareSeg 500 0 flagSyn 1000) true ⟨2, true⟩ r.1 r.2 rfl hr, rfl,
    hrun, hq⟩

/-- The SYN-ACK is lost, again and again. -/
def resends (k : Nat) : List (Nat × Event) :=
  (List.range k).map fun i => (250000 * (i + 1), .rtx false lots)

/-- A connection opened six seconds after the start of the system is given up by the first
callback, a quarter of a second after its SYN. One opened at the start is given up after five
seconds, just after the peer has sent its SYN again. -/
theorem given_up_early :
    (∃ s0 s, Timed.Init s0 ∧ s0.clock = 6000000 ∧ Run Timed.Step s0 [(6250000, .rtx true lots)] s ∧
      s.conn.tcb.state = .closed ∧ s.heard = 6000000 ∧ s.timo = 5000000 ∧
      s.conn.log.length = 1) ∧ ∃ s0 s, Timed.Init s0 ∧ s0.clock = 0 ∧
      Run Timed.Step s0 (resends 20 ++ [(5100000, .input (bareSeg 500 0 flagSyn 1000) plenty),
        (5250000, .rtx true lots)]) s ∧
      s.conn.tcb.state = .closed ∧ s.heard = 5100000 ∧ s.timo = 5000000 := by
  refine ⟨?_, ?_⟩
  · refine timed_of_opened (Q := fun s => s.conn.tcb.state = .closed ∧ s.heard = 6000000 ∧
      s.timo = 5000000 ∧ s.conn.log.length = 1) ?_
    decide +kernel
  · refine timed_of_opened (Q := fun s => s.conn.tcb.state = .closed ∧ s.heard = 5100000 ∧
      s.timo = 5000000) ?_
    decide +kernel

end Mios.Tcp
