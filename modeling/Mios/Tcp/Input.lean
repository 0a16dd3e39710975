import Mios.Net.Input
import Mios.Tcp.Tcb

/-! `tcp_input_ipv4`: a SYN for a service opens a connection, and a segment of a connection goes
through the steps of RFC 9293, 3.10.7. Signed differences of sequence numbers decide. -/

namespace Mios.Tcp

/-- What the interface and the buffer pools give to one call: the packet itself is used for the
first segment that is sent. -/
structure InputSupply where
  first : Supply
  second : Option Supply
  deriving DecidableEq, Repr

/-- The length of the payload, `pb_pktlen` without the header. -/
def Seg.len (g : Seg) : Nat := g.data.flatten.length

/-- `seg_len`. -/
def segLen (g : Seg) : Nat :=
  g.len + (if has g.flg flagSyn then 1 else 0) + if has g.flg flagFin then 1 else 0

/-- `una_ack`. -/
def unaAck (t : Tcb) (g : Seg) : Int := (g.ack - t.snd.una).toInt

/-- `ack_nxt`. -/
def ackNxt (t : Tcb) (g : Seg) : Int := (t.snd.nxt - g.ack).toInt

def scaledWnd (t : Tcb) (g : Seg) : BitVec 32 := g.wnd.setWidth 32 <<< t.sndWndShift

def sendReply (t : Tcb) (b : Supply) (s : Sent) : Tcb × List Sent := (t, if b.sent then [s] else [])

/-! ## Opening -/

/-- `tcp_parse_options` on the bytes behind the header; what it reads behind these is taken as 0. -/
def parseOptions (options : List Byte) : Option Net.TcpOptions :=
  Net.tcpParseOptions (fun i => options.getD i 0) options.length 0 options.length ⟨none, none⟩

/-- A SYN opens a connection of a service. `pulled`: `pbuf_pullup` could gather the header. -/
def passiveOpen (iss : SeqNo) (tx rx : FifoSize) (buffer : Nat → Byte) (g : Seg) (pulled : Bool)
    (b : Supply) : Option (Tcb × List Sent) :=
  (if pulled then parseOptions g.options else some ⟨none, none⟩).map fun o =>
    let t := { tcbCreate iss tx rx buffer with
      rcv := ⟨g.seq + 1, g.seq + 1⟩
      maxSegmentSize := o.mss.getD 536
      sndWndShift := o.wndShift.getD 0
      wndScaleOk := o.wndShift.isSome }
    let e := tcpSendSyn t (flagSyn ||| flagAck) (some b)
    ({ e.tcb with state := .synReceived, linked := true }, e.out)

/-- `tcp_connect`: the SYN is sent by the task of the connection. -/
def tcpConnect (iss : SeqNo) (tx rx : FifoSize) (buffer : Nat → Byte) : Tcb :=
  { tcbCreate iss tx rx buffer with
    state := .synSent, signals := { noSignals with connect := true } }

/-- A SYN in `SYN_SENT`. -/
def synInSynSent (t : Tcb) (g : Seg) (b : Supply) : Tcb × List Sent :=
  let t := { t with rcv := ⟨g.seq + 1, g.seq + 1⟩ }
  let t := if has g.flg flagAck then tcpAck t (g.ack - t.snd.una) else t
  let t := { t with snd := { t.snd with wnd := g.wnd.setWidth 32, wl1 := g.seq, wl2 := g.ack } }
  if 0 < (t.snd.una - t.iss).toInt then
    let e := tcpEmit { t with state := .established } (some b) t.snd.nxt true
    (e.tcb, e.out)
  else
    let e := tcpSendSyn t (flagSyn ||| flagAck) (some b)
    ({ e.tcb with state := .synReceived }, e.out)

/-- 3.10.7.3. -/
def inputSynSent (t : Tcb) (g : Seg) (b : Supply) : Tcb × List Sent :=
  if has g.flg flagAck ∧ ((g.ack - t.iss).toInt ≤ 0 ∨ 0 < (g.ack - t.snd.nxt).toInt) then
    if has g.flg flagRst then (t, []) else sendReply t b (tcpReply t.snd.nxt 0 flagRst 0)
  else if has g.flg flagRst then
    if has g.flg flagAck ∧ 0 < unaAck t g ∧ 0 ≤ (g.ack - t.snd.nxt).toInt then (tcpClose t, [])
    else (t, [])
  else if has g.flg flagSyn then synInSynSent t g b
  else (t, [])

/-! ## The other states -/

/-- Step 1. -/
def acceptance (t : Tcb) (g : Seg) : Bool :=
  let nxtSeq := g.seq - t.rcv.nxt
  let rcvWnd := rxfifoAvail t
  if segLen g = 0 then
    if rcvWnd = 0 then nxtSeq = 0 else nxtSeq < t.rcv.nxt + rcvWnd
  else if rcvWnd = 0 then false
  else nxtSeq = 0

/-- What to do with a segment that step 1 refuses. -/
def inputRefused (t : Tcb) (g : Seg) (b : Supply) : Tcb × List Sent :=
  if has g.flg flagRst then (t, [])
  else if t.fastRejectLimiter = 5 then (t, [])
  else
    sendReply { t with fastRejectLimiter := t.fastRejectLimiter + 1 } b
      (tcpReply t.snd.nxt t.rcv.nxt flagAck (rxfifoAvail t))

def setWindow (t : Tcb) (g : Seg) : Tcb :=
  { t with snd := { t.snd with wnd := scaledWnd t g, wl1 := g.seq, wl2 := g.ack } }

def updateWindow (t : Tcb) (g : Seg) : Tcb :=
  if 0 < (g.seq - t.snd.wl1).toInt ∨
      (g.seq - t.snd.wl1).toInt = 0 ∧ 0 ≤ (g.ack - t.snd.wl2).toInt then setWindow t g
  else t

/-- Everything that was sent is acknowledged. -/
def finAcked (t : Tcb) (g : Seg) : Tcb :=
  if ackNxt t g = 0 ∧ (t.state = .finWait1 ∨ t.state = .closing) then { t with state := .finWait2 }
  else t

/-- The acknowledgement in an open state; a segment that ends the call is answered. -/
def ackOpen (t : Tcb) (g : Seg) : Except (Tcb × Sent) Tcb :=
  if 0 ≤ unaAck t g ∧ 0 ≤ ackNxt t g then
    .ok (finAcked (updateWindow (tcpAck t (g.ack - t.snd.una)) g) g)
  else if unaAck t g < 0 then .ok (finAcked t g)
  else .error (t, tcpReply t.snd.nxt t.rcv.nxt flagAck (rxfifoAvail t))

/-- Step 5. -/
def inputAck (t : Tcb) (g : Seg) : Except (Tcb × Sent) Tcb :=
  match t.state with
  | .synReceived =>
    if 0 ≤ unaAck t g ∧ ackNxt t g ≤ 0 then ackOpen (setWindow { t with state := .established } g) g
    else .error (t, tcpReply t.snd.nxt t.rcv.nxt flagRst 0)
  | .established | .finWait1 | .finWait2 | .closeWait | .closing => ackOpen t g
  | .lastAck => .ok (tcpClose t)
  | .timeWait | .closed | .listen | .synSent => .ok t

/-- The payload, buffer by buffer, into the RX FIFO. -/
def storeData (t : Tcb) : List (List Byte) → Tcb
  | [] => t
  | p :: rest =>
    storeData { t with
      buffer := ltowMemcpy t.buffer t.txfifoSize.val p t.rcv.nxt t.rxfifoSize.val
      rcv := { t.rcv with nxt := t.rcv.nxt + BitVec.ofNat 32 p.length } } rest

/-- After the payload is stored: an acknowledgement now, or when the timer fires. The second
result is whether the packet is gone. -/
def ackPayload (t : Tcb) (b : Supply) : Emitted × Bool :=
  let t := { t with rcvWindowClosed := (rxfifoAvail t).toInt < rcvMss }
  if t.snd.wrptr = t.snd.nxt ∧ (t.delayedAckTimer || t.rcvWindowClosed) then
    (tcpEmit { t with delayedAckTimer := false } (some b) t.snd.nxt true, true)
  else (⟨{ t with delayedAckTimer := true }, [], false⟩, false)

def storesData (s : State) : Bool :=
  match s with
  | .established | .finWait1 | .finWait2 => true
  | _ => false

/-- Step 8. -/
def inputPayload (t : Tcb) (g : Seg) (b : Supply) : Emitted × Bool :=
  if storesData t.state ∧ g.len ≠ 0 ∧ g.len ≤ (rxfifoAvail t).toNat then
    ackPayload (storeData t g.data) b
  else (⟨t, [], false⟩, false)

/-- The state after a FIN. -/
def afterFin (t : Tcb) (g : Seg) : Tcb :=
  match t.state with
  | .synReceived | .established => { t with state := .closeWait }
  | .finWait1 => if g.ack = t.snd.nxt then tcpTimeWait t else { t with state := .closing }
  | .finWait2 => tcpTimeWait t
  | _ => t

def inputFin (t : Tcb) (g : Seg) (b : Option Supply) : Tcb × List Sent :=
  if has g.flg flagFin ∧ t.state ≠ .closed ∧ t.state ≠ .listen ∧ t.state ≠ .synSent then
    let t := { t with finReceived := true, rcv := { t.rcv with nxt := t.rcv.nxt + 1 } }
    let e := tcpEmit t b t.snd.nxt true
    (afterFin e.tcb g, e.out)
  else (t, [])

/-- Payload and FIN of a segment whose acknowledgement was processed. -/
def inputData (t : Tcb) (g : Seg) (o : InputSupply) : Tcb × List Sent :=
  let p := inputPayload t g o.first
  let f := inputFin p.1.tcb g (if p.2 then o.second else some o.first)
  (f.1, p.1.out ++ f.2)

/-- `tcp_input_ipv4` from step 2 on. -/
def inputAccepted (t : Tcb) (g : Seg) (o : InputSupply) : Tcb × List Sent :=
  if has g.flg flagRst then (tcpClose t, [])
  else if has g.flg flagSyn then
    sendReply t o.first (tcpReply t.snd.nxt t.rcv.nxt flagRst 0)
  else if !has g.flg flagAck then (t, [])
  else
    match inputAck t g with
    | .error r => sendReply r.1 o.first r.2
    | .ok t => inputData t g o

/-- `tcp_input_ipv4` for a segment of the connection `t`. -/
def tcpInputIpv4 (t : Tcb) (g : Seg) (o : InputSupply) : Tcb × List Sent :=
  if t.state = .synSent then inputSynSent t g o.first
  else if acceptance t g then inputAccepted { t with fastRejectLimiter := 0 } g o
  else inputRefused t g o.first

end Mios.Tcp
