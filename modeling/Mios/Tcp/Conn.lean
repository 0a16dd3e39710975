import Mios.Lib.Run
import Mios.Tcp.Input

/-! Everything that happens to a connection: calls of the application, its task in the network
thread, segments and timers, each of them one event. Besides the control block a run keeps what an
observer sees: every segment that was sent, at its position in the unwrapped sequence space, the
windows the peer advertised and what the application was given. -/

namespace Mios.Tcp

open Lib Option

/-! ## Task and timers -/

/-- The loop for `TCP_EVENT_EMIT` ends here: all is sent, the window is full, or the rest waits for
an acknowledgement. -/
def emitStops (force : Bool) (t : Tcb) : Bool :=
  t.snd.wrptr == t.snd.nxt || wndRoom t.snd == 0 ||
    (!force && (t.snd.wrptr - t.snd.nxt).toNat < t.maxSegmentSize && t.snd.una != t.snd.nxt)

/-- The loop, with the supply of each round. -/
def emitLoop (force : Bool) (t : Tcb) : List (Option Supply) → Option (Tcb × List Sent)
  | [] => if emitStops force t then some (t, []) else none
  | b :: rest =>
    if emitStops force t then some (t, [])
    else
      let e := tcpEmit t b t.snd.nxt false
      if e.err then some (e.tcb, e.out)
      else (emitLoop force e.tcb rest).map fun r => (r.1, e.out ++ r.2)

structure TaskSupply where
  syn : Option Supply
  wnd : Option Supply
  loop : List (Option Supply)
  fin : Option Supply
  deriving DecidableEq, Repr

/-- The states in which `TCP_EVENT_EMIT` sends. -/
def emitsIn (s : State) : Bool :=
  match s with
  | .established | .finWait1 | .finWait2 | .closeWait | .closing => true
  | _ => false

/-- `tcp_do_connect`; the local port is left out. -/
def tcpDoConnect (t : Tcb) (b : Option Supply) : Emitted :=
  let e := tcpSendSyn t flagSyn b
  { e with tcb := { e.tcb with linked := true } }

def taskConnect (t : Tcb) (signals : Signals) (o : TaskSupply) : Emitted :=
  if signals.connect then tcpDoConnect t o.syn else ⟨t, [], false⟩

def taskWndOpen (t : Tcb) (signals : Signals) (o : TaskSupply) : Emitted :=
  if signals.wndOpen ∧ t.state = .established then tcpEmit t o.wnd t.snd.nxt true
  else ⟨t, [], false⟩

def taskEmit (t : Tcb) (signals : Signals) (o : TaskSupply) : Option (Tcb × List Sent) :=
  if (signals.emit || signals.flush) ∧ emitsIn t.state then
    emitLoop signals.flush { t with rtxTimer := t.rtxTimer || t.snd.una == t.snd.nxt } o.loop
  else some (t, [])

def taskClose (t : Tcb) (signals : Signals) (o : TaskSupply) : Emitted :=
  if signals.close then
    let t := { t with appClosed := true }
    match t.state with
    | .established | .synReceived =>
      tcpSendFin { t with state := .finWait1 } (flagFin ||| flagAck) o.fin
    | .closeWait => tcpSendFin { t with state := .lastAck } (flagFin ||| flagAck) o.fin
    | _ => ⟨t, [], false⟩
  else ⟨t, [], false⟩

/-- `tcp_task_cb` with the pending signals. -/
def tcpTaskCb (t : Tcb) (o : TaskSupply) : Option (Tcb × List Sent) :=
  let signals := t.signals
  let c := taskConnect { t with signals := noSignals } signals o
  let w := taskWndOpen c.tcb signals o
  (taskEmit w.tcb signals o).map fun l =>
    let f := taskClose l.1 signals o
    (f.tcb, c.out ++ w.out ++ l.2 ++ f.out)

/-- `tcp_rtx_cb`; `timedOut`: nothing was received for `tcb_timo`. -/
def tcpRtxCb (t : Tcb) (timedOut : Bool) (b : Option Supply) : Tcb × List Sent :=
  let t := { t with rtxTimer := false }
  if timedOut then (tcpClose t, [])
  else if t.snd.una = t.snd.wrptr then
    let keepAlive := tcpOutputTcb t (flagAck ||| flagPsh) (t.snd.una - 1) []
    ({ t with rtxTimer := true },
      if t.state = .established ∧ b.any (·.sent) then [keepAlive] else [])
  else
    let e := tcpEmit t b t.snd.una false
    ({ e.tcb with rtxTimer := true }, e.out)

def tcpDelayedAckCb (t : Tcb) (b : Option Supply) : Tcb × List Sent :=
  let e := tcpEmit { t with delayedAckTimer := false } b t.snd.nxt true
  (e.tcb, e.out)

/-! ## The stream -/

/-- The copy of one buffer; `none` if the FIFO is full before its end. -/
def writeBuf (t : Tcb) (buf : List Byte) : Tcb × Bool :=
  let avail := (txfifoAvail t).toNat
  if buf = [] then (t, true)
  else if avail = 0 then (t, false)
  else
    let src := buf.take avail
    ({ t with
        buffer := ltowMemcpy t.buffer 0 src t.snd.wrptr t.txfifoSize.val
        snd := { t.snd with wrptr := t.snd.wrptr + BitVec.ofNat 32 src.length } },
      buf.length ≤ avail)

def writeBufs (t : Tcb) : List (List Byte) → Tcb × Bool
  | [] => (t, true)
  | buf :: rest =>
    let r := writeBuf t buf
    if r.2 then writeBufs r.1 rest else r

/-- `tcp_stream_writev` up to its return, or to the point where it sleeps. Then the rest is a later
call. -/
def tcpStreamWritev (t : Tcb) (iov : List (List Byte)) (all noWait : Bool) : Tcb :=
  if t.state = .closed then t
  else if all && (txfifoAvail t).toNat < iov.flatten.length then t
  else
    let r := writeBufs t iov
    let kick :=
      if r.2 then
        r.1.maxSegmentSize ≤ (r.1.snd.wrptr - r.1.snd.nxt).toNat || r.1.snd.una == r.1.snd.nxt
      else !noWait
    { r.1 with signals := { r.1.signals with emit := r.1.signals.emit || kick } }

/-- `tcb_rxfifo_user_bytes`; `none` for `ERR_NOT_CONNECTED`. -/
def rxfifoUserBytes (t : Tcb) : Option Nat :=
  if t.state = .closed then none
  else if t.finReceived then
    if (rxfifoUsed t).toNat ≤ 1 then none else some ((rxfifoUsed t).toNat - 1)
  else some (rxfifoUsed t).toNat

/-- `tcp_rxfifo_consume`. -/
def tcpRxfifoConsume (t : Tcb) (bytes : Nat) : Tcb :=
  let t := { t with rcv := { t.rcv with rdptr := t.rcv.rdptr + BitVec.ofNat 32 bytes } }
  if t.rcvWindowClosed ∧ max (t.rxfifoSize.val / 2) (rcvMss * 2) ≤ (rxfifoAvail t).toNat then
    { t with rcvWindowClosed := false, signals := { t.signals with wndOpen := true } }
  else t

/-- A call of `tcp_stream_read`: what it has copied and what it still wants. -/
structure Reader where
  got : List Byte
  size : Nat
  require : Nat
  deriving DecidableEq, Repr

/-- How the call is left: it returns the bytes, it returns an error, or it sleeps. -/
inductive ReadEnd where
  | returned
  | failed
  | asleep
  deriving DecidableEq, Repr

/-- The loop of `tcp_stream_read`. Every round copies a byte, so that `size + 1` rounds are
enough. -/
def readLoop : Nat → Tcb → Reader → Tcb × Reader × ReadEnd
  | 0, t, r => (t, r, .returned)
  | rounds + 1, t, r =>
    if r.size = 0 then (t, r, .returned)
    else
      match rxfifoUserBytes t with
      | none => (t, r, .failed)
      | some 0 => (t, r, if r.require ≤ r.got.length then .returned else .asleep)
      | some used =>
        let toCopy := min r.size used
        let copied := wtolMemcpy t.buffer t.txfifoSize.val toCopy t.rcv.rdptr t.rxfifoSize.val
        readLoop rounds (tcpRxfifoConsume t toCopy) ⟨r.got ++ copied, r.size - toCopy, r.require⟩

/-- `tcp_stream_peek`: how many bytes follow each other in memory. -/
def peekLen (t : Tcb) : Option Nat :=
  (rxfifoUserBytes t).map fun used =>
    min used (t.rxfifoSize.val - t.rcv.rdptr.toNat % t.rxfifoSize.val)

/-- What a caller of `tcp_stream_peek` sees. -/
def peekBytes (t : Tcb) (n : Nat) : List Byte :=
  Mem.read t.buffer (t.txfifoSize.val + t.rcv.rdptr.toNat % t.rxfifoSize.val) n

/-! ## Runs -/

inductive Event where
  | write (iov : List (List Byte)) (all noWait : Bool)
  | flush
  | close
  | read (size require : Nat)
  | wake
  | peek
  | drop (bytes : Nat)
  | task (o : TaskSupply)
  | input (g : Seg) (o : InputSupply)
  | rtx (timedOut : Bool) (b : Option Supply)
  | delayedAck (b : Option Supply)
  | timeWait
  deriving DecidableEq, Repr

/-- The block is freed when the connection is closed on both sides. -/
def freed (t : Tcb) : Bool := t.state == .closed && t.appClosed

/-- What an event that does not read does to the block, and what is sent. -/
def step (t : Tcb) : Event → Option (Tcb × List Sent)
  | .write iov all noWait => some (tcpStreamWritev t iov all noWait, [])
  | .flush => some ({ t with signals := { t.signals with flush := true } }, [])
  | .close => some ({ t with signals := { t.signals with flush := true, close := true } }, [])
  | .read _ _ => none
  | .wake => none
  | .peek => none
  | .drop _ => none
  | .task o => if t.signals = noSignals then none else tcpTaskCb t o
  | .input g o => if t.linked then some (tcpInputIpv4 t g o) else none
  | .rtx timedOut b => if t.rtxTimer then some (tcpRtxCb t timedOut b) else none
  | .delayedAck b => if t.delayedAckTimer then some (tcpDelayedAckCb t b) else none
  | .timeWait => if t.timeWaitTimer then some (tcpClose { t with timeWaitTimer := false }, []) else none

/-- `acked` counts the acknowledged sequence numbers from `iss` on, `log` has every segment sent
with the position of its first sequence number, `edge` is the largest right edge of a window that
the peer advertised, `peerMss` its MSS option. `delivered` is what calls of the application
returned, `ended` that one returned an error. -/
structure Conn where
  tcb : Tcb
  reader : Option Reader
  acked : Nat
  log : List (Nat × Sent)
  edge : Nat
  peerMss : Option Nat
  delivered : List Byte
  ended : Bool

namespace Conn

/-- The position of a sequence number that is not before `snd.una`. -/
def pos (c : Conn) (s : SeqNo) : Nat := c.acked + (s - c.tcb.snd.una).toNat

/-- The block after an event, in which acknowledgements are processed before anything is sent. -/
def after (c : Conn) (r : Tcb × List Sent) : Conn :=
  let acked := c.pos r.1.snd.una
  { c with
    tcb := r.1
    acked := acked
    log := c.log ++ r.2.map fun s => (acked + (s.seq - r.1.snd.una).toNat, s) }

/-- The window of a segment whose acknowledgement is accepted. -/
def advertised (t : Tcb) (g : Seg) : Option Nat :=
  if t.state = .synSent then
    if has g.flg flagAck ∧ has g.flg flagSyn ∧ ¬ has g.flg flagRst ∧ 0 < (g.ack - t.iss).toInt ∧
        (g.ack - t.snd.nxt).toInt ≤ 0 then some g.wnd.toNat
    else none
  else if acceptance t g ∧ ¬ has g.flg flagRst ∧ ¬ has g.flg flagSyn ∧ has g.flg flagAck ∧
      0 ≤ unaAck t g ∧ 0 ≤ ackNxt t g then some (scaledWnd t g).toNat
  else none

/-- What the peer says about its limits in a segment. -/
def hear (c : Conn) (g : Seg) : Conn :=
  { c with
    edge := max c.edge ((advertised c.tcb g).elim 0 fun wnd => c.pos g.ack + wnd)
    peerMss :=
      if c.tcb.state = .synSent ∧ has g.flg flagSyn then (parseOptions g.options).bind (·.mss)
      else c.peerMss }

/-- A call of `tcp_stream_read` runs until it returns or sleeps. -/
def runReader (c : Conn) (r : Reader) : Conn :=
  let e := readLoop (r.size + 1) c.tcb r
  match e.2.2 with
  | .returned =>
    { c with tcb := e.1, reader := none, delivered := c.delivered ++ e.2.1.got }
  | .failed => { c with tcb := e.1, reader := none, ended := true }
  | .asleep => { c with tcb := e.1, reader := some e.2.1 }

def step (c : Conn) (e : Event) : Option Conn :=
  if freed c.tcb then none
  else
    match e with
    | .read size require => if c.reader.isSome then none else some (c.runReader ⟨[], size, require⟩)
    | .wake => c.reader.map c.runReader
    | .peek => some { c with ended := c.ended || (rxfifoUserBytes c.tcb).isNone }
    | .drop bytes =>
      if c.reader.isSome then none
      else if (peekLen c.tcb).any (bytes ≤ ·) then
        some { c with
          tcb := tcpRxfifoConsume c.tcb bytes
          delivered := c.delivered ++ peekBytes c.tcb bytes }
      else none
    | .input g _ => (Tcp.step c.tcb e).map (c.hear g).after
    | e => (Tcp.step c.tcb e).map c.after

/-- All that a step of a connection can be. -/
inductive Does (c : Conn) : Event → Conn → Prop
  | read (size require : Nat) (hnone : c.reader = none) :
      Does c (.read size require) (c.runReader ⟨[], size, require⟩)
  | wake (r : Reader) (hr : c.reader = some r) : Does c .wake (c.runReader r)
  | peek : Does c .peek { c with ended := c.ended || (rxfifoUserBytes c.tcb).isNone }
  | drop (bytes : Nat) (hnone : c.reader = none) (h : (peekLen c.tcb).any (bytes ≤ ·)) :
      Does c (.drop bytes) { c with
        tcb := tcpRxfifoConsume c.tcb bytes
        delivered := c.delivered ++ peekBytes c.tcb bytes }
  | input (g : Seg) (o : InputSupply) (hlinked : c.tcb.linked = true) :
      Does c (.input g o) ((c.hear g).after (tcpInputIpv4 c.tcb g o))
  | other (e : Event) (r : Tcb × List Sent) (he : ∀ g o, e ≠ .input g o)
      (hr : Tcp.step c.tcb e = some r) : Does c e (c.after r)

theorem step_does {c c' : Conn} {e : Event} (h : c.step e = some c') : Does c e c' := by
  obtain ⟨-, h⟩ := ite_none_left_eq_some.mp h
  have hother : (∀ g o, e ≠ .input g o) → (Tcp.step c.tcb e).map c.after = some c' →
      Does c e c' := by
    intro he h
    obtain ⟨r, hr, rfl⟩ := map_eq_some_iff.mp h
    exact .other e r he hr
  cases e with
  | read size require =>
    obtain ⟨hnone, h⟩ := ite_none_left_eq_some.mp h
    cases h
    exact .read size require (by simpa using hnone)
  | wake =>
    obtain ⟨r, hr, rfl⟩ := map_eq_some_iff.mp h
    exact .wake r hr
  | peek =>
    cases h
    exact .peek
  | drop bytes =>
    obtain ⟨hnone, h⟩ := ite_none_left_eq_some.mp h
    obtain ⟨hlen, rfl⟩ := of_ite_some h
    exact .drop bytes (by simpa using hnone) hlen
  | input g o =>
    obtain ⟨r, hr, rfl⟩ := map_eq_some_iff.mp h
    obtain ⟨hlinked, rfl⟩ := of_ite_some hr
    exact .input g o hlinked
  | _ => exact hother (fun _ _ => Event.noConfusion) h

theorem runReader_tcb (c : Conn) (r : Reader) :
    (c.runReader r).tcb = (readLoop (r.size + 1) c.tcb r).1 := by
  simp only [runReader]
  split <;> rfl

/-- The steps of a connection. -/
def Step (c : Conn) (e : Event) (c' : Conn) : Prop := c.step e = some c'

def start (t : Tcb) (out : List Sent) (mss : Option Nat) : Conn :=
  ⟨t, none, 0, out.map fun s => ((s.seq - t.iss).toNat, s), 0, mss, [], false⟩

/-- A connection at its beginning, opened by a SYN or by `tcp_connect`. -/
inductive Init : Conn → Prop
  | passive (iss : SeqNo) (tx rx : FifoSize) (buffer : Nat → Byte) (g : Seg) (pulled : Bool)
      (b : Supply) (t : Tcb) (out : List Sent) (hflg : g.flg = flagSyn)
      (h : passiveOpen iss tx rx buffer g pulled b = some (t, out)) :
      Init (start t out ((parseOptions g.options).bind (·.mss)))
  | active (iss : SeqNo) (tx rx : FifoSize) (buffer : Nat → Byte) :
      Init (start (tcpConnect iss tx rx buffer) [] none)

end Conn

end Mios.Tcp
