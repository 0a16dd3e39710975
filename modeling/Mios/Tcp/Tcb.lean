import Mios.Crc32
import Mios.Lib.Mem

/-! The control block of a TCP connection and what leaves it (`net/ipv4/tcp.c`): the two FIFOs
behind the block, `tcp_emit` with everything that may be in a segment, and the small functions
that move the pointers. Ports, addresses, checksums, statistics and wake-ups are left out; a timer
is armed or not. -/

namespace Mios.Tcp

open Lib

abbrev SeqNo := BitVec 32

inductive State where
  | closed | listen | synSent | synReceived | established | finWait1 | finWait2 | closing
  | timeWait | closeWait | lastAck
  deriving DecidableEq, Repr

def flagFin : BitVec 8 := 0x01
def flagSyn : BitVec 8 := 0x02
def flagRst : BitVec 8 := 0x04
def flagPsh : BitVec 8 := 0x08
def flagAck : BitVec 8 := 0x10

def has (flg f : BitVec 8) : Bool := flg &&& f != 0

/-- The size of a FIFO: a power of two in a `uint32_t`. -/
structure FifoSize where
  val : Nat
  pow2 : val ∣ 4294967296
  small : val < 4294967296

/-- Pending `TCP_EVENT_` bits. -/
structure Signals where
  connect : Bool
  close : Bool
  emit : Bool
  wndOpen : Bool
  flush : Bool
  deriving DecidableEq, Repr

def noSignals : Signals := ⟨false, false, false, false, false⟩

/-- `tcb_snd`. -/
structure Snd where
  wrptr : SeqNo
  nxt : SeqNo
  una : SeqNo
  wnd : BitVec 32
  wl1 : SeqNo
  wl2 : SeqNo
  deriving DecidableEq, Repr

/-- `tcb_rcv`. -/
structure Rcv where
  rdptr : SeqNo
  nxt : SeqNo
  deriving DecidableEq, Repr

/-- `linked`: the block is in the list `tcbs`. The TX FIFO is at the start of `buffer`, the RX
FIFO behind it. -/
structure Tcb where
  state : State
  appClosed : Bool
  pendingSyn : BitVec 8
  pendingFin : BitVec 8
  finReceived : Bool
  rcvWindowClosed : Bool
  fastRejectLimiter : Nat
  wndScaleOk : Bool
  sndWndShift : Nat
  snd : Snd
  iss : SeqNo
  rcv : Rcv
  maxSegmentSize : Nat
  txfifoSize : FifoSize
  rxfifoSize : FifoSize
  rtxTimer : Bool
  delayedAckTimer : Bool
  timeWaitTimer : Bool
  signals : Signals
  linked : Bool
  buffer : Nat → Byte

/-- `tcb_rcv.mss`, the same for every connection. -/
def rcvMss : Nat := 1460

/-- A segment that the interface took. -/
structure Sent where
  seq : SeqNo
  ack : SeqNo
  flg : BitVec 8
  wnd : Nat
  options : List Byte
  payload : List Byte
  deriving DecidableEq, Repr

/-- A segment of this connection, its data in the buffers it arrived in. -/
structure Seg where
  seq : SeqNo
  ack : SeqNo
  flg : BitVec 8
  wnd : BitVec 16
  options : List Byte
  data : List (List Byte)
  deriving DecidableEq, Repr

/-- What `tcp_emit` finds: how many more buffers it can have for data, and whether `tcp_output`
succeeds. -/
structure Supply where
  more : Nat
  sent : Bool
  deriving DecidableEq, Repr

/-! ## FIFOs -/

def txfifoUsed (t : Tcb) : BitVec 32 := t.snd.wrptr - t.snd.una

def txfifoAvail (t : Tcb) : BitVec 32 := BitVec.ofNat 32 t.txfifoSize.val - txfifoUsed t

def rxfifoUsed (t : Tcb) : BitVec 32 := t.rcv.nxt - t.rcv.rdptr

def rxfifoAvail (t : Tcb) : BitVec 32 := BitVec.ofNat 32 t.rxfifoSize.val - rxfifoUsed t

/-- `wtol_memcpy` out of the FIFO at `fifo`: the `length` bytes at the destination. Those the copy
does not reach are taken to be 0. -/
def wtolMemcpy (m : Nat → Byte) (fifo length : Nat) (offset : SeqNo) (size : Nat) : List Byte :=
  let offset := offset.toNat % size
  let stop := (offset + length) % size
  if offset ≤ stop then Mem.read m (fifo + offset) length
  else Mem.read m (fifo + offset) (size - offset) ++ Mem.read m fifo stop ++
    List.replicate (length - (size - offset) - stop) 0

/-- `ltow_memcpy` into the FIFO at `fifo`. -/
def ltowMemcpy (m : Nat → Byte) (fifo : Nat) (src : List Byte) (offset : SeqNo) (size : Nat) :
    Nat → Byte :=
  let offset := offset.toNat % size
  let stop := (offset + src.length) % size
  if offset ≤ stop then Mem.write m (fifo + offset) src
  else Mem.write (Mem.write m (fifo + offset) (src.take (size - offset))) fifo
    ((src.drop (size - offset)).take stop)

/-! ## Output -/

/-- The options of a SYN: the MSS, and the window scale if the peer has offered it or we open. -/
def synOptions (t : Tcb) (flg : BitVec 8) : List Byte :=
  [2, 4, 5, 180] ++ if has flg flagAck && !t.wndScaleOk then [] else [1, 3, 3, 0]

def tcpOutputTcb (t : Tcb) (flg : BitVec 8) (seq : SeqNo) (payload : List Byte) : Sent :=
  ⟨seq, t.rcv.nxt, flg, min (rxfifoAvail t).toNat 65535,
    if has flg flagSyn then synOptions t flg else [], payload⟩

/-- `tcp_reply`. -/
def tcpReply (seq ack : SeqNo) (flg : BitVec 8) (rcvWnd : BitVec 32) : Sent :=
  ⟨seq, ack, flg, min rcvWnd.toNat 65535, [], []⟩

/-- The window that is not in flight. -/
def wndRoom (s : Snd) : Nat := s.wnd.toNat - (s.nxt - s.una).toNat

/-- What may be sent from `seq` on; only fresh data is held back by the window. -/
def bytesInFifo (s : Snd) (seq : SeqNo) : Nat :=
  if seq = s.nxt then min (s.wrptr - seq).toNat (wndRoom s) else (s.wrptr - seq).toNat

def pbufDataSize : Nat := 512

/-- `max_pkt_size`, the header included. -/
def maxPktSize : Nat := 1480

/-- The loop that fills the segment; `used` bytes of the current buffer are taken. Every round but
the first begins with a new buffer. -/
def copyData (m : Nat → Byte) (size : Nat) : Nat → Nat → Nat → Nat → SeqNo → List Byte
  | more, used, bytes, pktlen, seq =>
    let toCopy := min (maxPktSize - pktlen) (min bytes (pbufDataSize - used))
    let copied := wtolMemcpy m 0 toCopy seq size
    if bytes - toCopy = 0 ∨ maxPktSize ≤ pktlen + toCopy then copied
    else
      match more with
      | 0 => copied
      | more + 1 =>
        copied ++ copyData m size more 0 (bytes - toCopy) (pktlen + toCopy)
          (seq + BitVec.ofNat 32 toCopy)

/-- The block afterwards, what was sent and whether there was an error. -/
structure Emitted where
  tcb : Tcb
  out : List Sent
  err : Bool

/-- The segment has been handed to `tcp_output`. -/
def output (t : Tcb) (b : Supply) (s : Sent) : Emitted := ⟨t, if b.sent then [s] else [], !b.sent⟩

/-- `pb_offset + pb_buflen` of the first buffer: headroom for the lower layers and the header. -/
def firstUsed : Nat := 56

/-- `tcp_emit` with data in the segment. -/
def emitData (t : Tcb) (b : Supply) (seq : SeqNo) (bytes : Nat) : Emitted :=
  let payload := copyData t.buffer t.txfifoSize.val b.more firstUsed bytes 20 seq
  let e := output t b (tcpOutputTcb t (flagPsh ||| flagAck) seq payload)
  if e.err then e
  else if t.snd.nxt = seq then
    { e with tcb := { t with snd := { t.snd with nxt := t.snd.nxt + BitVec.ofNat 32 payload.length } } }
  else e

/-- `tcp_emit`; `b` is `none` if there is no buffer for the header. -/
def tcpEmit (t : Tcb) (b : Option Supply) (seq : SeqNo) (genAck : Bool) : Emitted :=
  match b with
  | none => ⟨t, [], true⟩
  | some b =>
    let t := { t with delayedAckTimer := false }
    let bytes := bytesInFifo t.snd seq
    if t.pendingSyn ≠ 0 then output t b (tcpOutputTcb t t.pendingSyn t.iss [])
    else if bytes = 0 then
      if genAck then output t b (tcpOutputTcb t flagAck seq []) else ⟨t, [], false⟩
    else if t.pendingFin ≠ 0 then
      if bytes = 1 then
        output { t with snd := { t.snd with nxt := t.snd.wrptr } } b
          (tcpOutputTcb t t.pendingFin seq [])
      else emitData t b seq (bytes - 1)
    else emitData t b seq bytes

/-! ## Pointers and states -/

/-- `tcp_send_syn`. -/
def tcpSendSyn (t : Tcb) (flags : BitVec 8) (b : Option Supply) : Emitted :=
  let t := { t with
    rtxTimer := t.rtxTimer || t.snd.una == t.snd.nxt
    pendingSyn := flags
    snd := { t.snd with nxt := t.snd.nxt + 1 } }
  tcpEmit t b t.snd.nxt false

/-- `tcp_send_fin`. -/
def tcpSendFin (t : Tcb) (flags : BitVec 8) (b : Option Supply) : Emitted :=
  let t := { t with
    rtxTimer := t.rtxTimer || t.snd.una == t.snd.nxt
    pendingFin := flags
    snd := { t.snd with wrptr := t.snd.wrptr + 1 } }
  tcpEmit t b t.snd.nxt false

/-- `tcp_ack`. -/
def tcpAck (t : Tcb) (count : BitVec 32) : Tcb :=
  if count = 0 then t
  else
    { t with
      snd := { t.snd with una := t.snd.una + count }
      pendingSyn := 0
      rtxTimer := true
      signals := { t.signals with emit := t.signals.emit || t.snd.wrptr != t.snd.nxt } }

/-- `tcp_close`. -/
def tcpClose (t : Tcb) : Tcb :=
  { t with
    rtxTimer := false
    delayedAckTimer := false
    timeWaitTimer := false
    linked := false
    state := .closed }

/-- `tcp_time_wait`. -/
def tcpTimeWait (t : Tcb) : Tcb :=
  { t with state := .timeWait, rtxTimer := false, delayedAckTimer := false, timeWaitTimer := true }

/-- `tcb_create`, without what is set by its callers. -/
def tcbCreate (iss : SeqNo) (tx rx : FifoSize) (buffer : Nat → Byte) : Tcb where
  state := .closed
  appClosed := false
  pendingSyn := 0
  pendingFin := 0
  finReceived := false
  rcvWindowClosed := false
  fastRejectLimiter := 0
  wndScaleOk := false
  sndWndShift := 0
  snd := ⟨iss + 1, iss, iss, 0, 0, 0⟩
  iss := iss
  rcv := ⟨0, 0⟩
  maxSegmentSize := 536
  txfifoSize := tx
  rxfifoSize := rx
  rtxTimer := false
  delayedAckTimer := false
  timeWaitTimer := false
  signals := noSignals
  linked := false
  buffer := buffer

end Mios.Tcp
