import Mios.Lib.Seq
import Mios.Tcp.Conn

/-! What an event can do to a connection, said once: a sequence of moves, each of which sends at
most one segment or changes one thing. The results about runs need to look at the moves only. A
list of irregular events may be excluded; then the moves say what follows. -/

namespace Mios.Tcp

open Lib List

/-! ## Irregular events -/

/-- Events that upset the sender or the handshake. -/
inductive Irregular where
  /-- A SYN without ACK in `SYN_SENT`. -/
  | simultaneousOpen
  /-- In `SYN_RECEIVED` an acknowledgement of more than was sent. -/
  | tooNewAck
  /-- The application closes before the SYN is acknowledged. -/
  | closeInSynReceived
  /-- A retransmission reaches data that has not been sent. -/
  | beyondNxt
  /-- A write while the FIFO has more than its size, the FIN included. -/
  | overfull
  /-- A write after the FIN was queued. -/
  | writeAfterFin
  /-- An acknowledgement moves `snd.una`, but its smaller window is taken for an old one. -/
  | staleWindow
  /-- With a FIN to send the window is open, but too short for all that is before it. -/
  | windowShort
  /-- In `FIN_WAIT1` or `CLOSING` all that was sent is acknowledged, but the FIN is not sent. -/
  | finUnsent
  /-- In `LAST_ACK` a segment that does not acknowledge the FIN. -/
  | lastAckOther
  /-- A FIN behind data that is not taken, or that fills the RX FIFO. -/
  | finRefused
  /-- A whole FIFO is written at once, but not from its beginning. -/
  | wholeRing
  deriving DecidableEq, Repr

def finBit (t : Tcb) : Nat := if t.pendingFin = 0 then 0 else 1

/-- The payload that a retransmission may have. -/
def rtxBytes (t : Tcb) : Nat := min 1460 ((t.snd.wrptr - t.snd.una).toNat - finBit t)

/-- The window of the segment is newer than the one in use. -/
def newerWindow (t : Tcb) (g : Seg) : Prop :=
  0 < (g.seq - t.snd.wl1).toInt ∨
    (g.seq - t.snd.wl1).toInt = 0 ∧ 0 ≤ (g.ack - t.snd.wl2).toInt

instance (t : Tcb) (g : Seg) : Decidable (newerWindow t g) := by
  unfold newerWindow
  infer_instance

/-- The FIN at the end of the TX FIFO. -/
def finQueued (t : Tcb) (s : State) : Tcb :=
  { t with
    state := s
    pendingFin := flagFin ||| flagAck
    snd := { t.snd with wrptr := t.snd.wrptr + 1 } }

/-- Some, but not all of what is not yet sent fits into the window, and there is a FIN behind it. -/
def clipped (t : Tcb) : Prop :=
  t.pendingFin ≠ 0 ∧ t.snd.nxt ≠ t.snd.wrptr ∧
    (t.snd.nxt - t.snd.una).toNat < t.snd.wnd.toNat ∧
    t.snd.wnd.toNat < (t.snd.wrptr - t.snd.una).toNat

instance (t : Tcb) : Decidable (clipped t) := by
  unfold clipped
  infer_instance

/-- The acknowledgement of the segment is looked at, outside of `SYN_SENT`. -/
def processed (t : Tcb) (g : Seg) : Bool :=
  acceptance t g && !has g.flg flagRst && !has g.flg flagSyn && has g.flg flagAck

/-- The states in which data is taken, or will be after the acknowledgement. -/
def takesData (s : State) : Bool := storesData s || s == .synReceived

/-- Irregular segments. -/
def occursInput (t : Tcb) (g : Seg) : Irregular → Bool
  | .simultaneousOpen => t.state = .synSent ∧ has g.flg flagSyn ∧ !has g.flg flagAck
  | .tooNewAck =>
    processed t g ∧ t.state = .synReceived ∧ 0 ≤ unaAck t g ∧ ackNxt t g < 0
  | .staleWindow =>
    processed t g ∧ 0 < unaAck t g ∧ 0 ≤ ackNxt t g ∧ ¬ newerWindow t g ∧
      (scaledWnd t g).toNat < t.snd.wnd.toNat
  | .windowShort =>
    processed t g ∧ 0 ≤ unaAck t g ∧ 0 ≤ ackNxt t g ∧
      clipped (updateWindow (tcpAck t (g.ack - t.snd.una)) g)
  | .finUnsent =>
    processed t g ∧ (t.state = .finWait1 ∨ t.state = .closing) ∧ g.ack = t.snd.nxt ∧
      t.snd.nxt ≠ t.snd.wrptr
  | .lastAckOther =>
    processed t g ∧ t.state = .lastAck ∧ (g.ack ≠ t.snd.nxt ∨ t.snd.nxt ≠ t.snd.wrptr)
  | .finRefused =>
    processed t g ∧ has g.flg flagFin ∧
      ((rxfifoAvail t).toNat < g.len + 1 ∨ g.len ≠ 0 ∧ !takesData t.state)
  | .wholeRing =>
    processed t g ∧ t.rcv.nxt.toNat % t.rxfifoSize.val ≠ 0 ∧
      ∃ p ∈ g.data, t.rxfifoSize.val ≤ p.length
  | _ => false

/-- The block when the task comes to `TCP_EVENT_CLOSE`. -/
def beforeClose (t : Tcb) (o : TaskSupply) : Option Tcb :=
  let c := taskConnect { t with signals := noSignals } t.signals o
  let w := taskWndOpen c.tcb t.signals o
  (taskEmit w.tcb t.signals o).map (·.1)

/-- Irregular calls of the task, all when the application has closed. -/
def occursTask (t : Tcb) (o : TaskSupply) : Irregular → Bool
  | .closeInSynReceived => t.signals.close ∧ t.state = .synReceived
  | .windowShort =>
    t.signals.close ∧ ∃ u ∈ beforeClose t o, clipped (finQueued u .finWait1)
  | _ => false

def occurs (x : Irregular) (t : Tcb) : Event → Bool
  | .input g _ => occursInput t g x
  | .task o => occursTask t o x
  | .rtx _ _ =>
    x = .beyondNxt ∧ t.pendingSyn = 0 ∧ t.snd.una ≠ t.snd.nxt ∧
      (t.snd.nxt - t.snd.una).toNat < rtxBytes t
  | .write iov _ _ =>
    x = .overfull ∧ t.txfifoSize.val < (txfifoUsed t).toNat ∨
      x = .writeAfterFin ∧ t.pendingFin ≠ 0 ∨
      x = .wholeRing ∧ t.snd.wrptr.toNat % t.txfifoSize.val ≠ 0 ∧
        ∃ buf ∈ iov, t.txfifoSize.val ≤ buf.length
  | _ => false

/-- None of the irregular events in `L`. -/
def Regular (L : List Irregular) (t : Tcb) (e : Event) : Prop := ∀ x ∈ L, occurs x t e = false

instance (L : List Irregular) (t : Tcb) (e : Event) : Decidable (Regular L t e) := by
  unfold Regular
  infer_instance

/-! ## Moves -/

/-- The block but for what only its own functions look at. -/
structure Same (t t' : Tcb) : Prop where
  state : t'.state = t.state
  pendingSyn : t'.pendingSyn = t.pendingSyn
  pendingFin : t'.pendingFin = t.pendingFin
  finReceived : t'.finReceived = t.finReceived
  sndWndShift : t'.sndWndShift = t.sndWndShift
  snd : t'.snd = t.snd
  iss : t'.iss = t.iss
  rcv : t'.rcv = t.rcv
  txfifoSize : t'.txfifoSize = t.txfifoSize
  rxfifoSize : t'.rxfifoSize = t.rxfifoSize
  rtxTimer : t'.rtxTimer = t.rtxTimer
  timeWaitTimer : t'.timeWaitTimer = t.timeWaitTimer
  connect : t'.signals.connect = t.signals.connect
  buffer : t'.buffer = t.buffer

/-- A segment without sequence numbers. -/
structure Bare (t : Tcb) (s : Sent) : Prop where
  payload : s.payload = []
  noSyn : has s.flg flagSyn = false
  noFin : has s.flg flagFin = false
  wnd : s.wnd = 0 ∨ s.ack = t.rcv.nxt ∧ s.wnd ≤ (rxfifoAvail t).toNat

/-- Where `tcp_emit` starts: at `snd.nxt`, or at `snd.una` when the timer fired. -/
def EmitsFrom (e : Event) (t : Tcb) (seq : SeqNo) : Prop :=
  seq = t.snd.nxt ∨ seq = t.snd.una ∧ seq ≠ t.snd.nxt ∧ ∃ timedOut b, e = .rtx timedOut b

def withNxt (t : Tcb) (nxt : SeqNo) : Tcb := { t with snd := { t.snd with nxt := nxt } }

/-- The bytes `src` at the end of the TX FIFO. -/
def written (t : Tcb) (src : List Byte) : Tcb :=
  { t with
    buffer := ltowMemcpy t.buffer 0 src t.snd.wrptr t.txfifoSize.val
    snd := { t.snd with wrptr := t.snd.wrptr + BitVec.ofNat 32 src.length } }

/-- What a segment or the end of a timer makes of a state. -/
inductive Follows : State → State → Prop
  | stay (s : State) : Follows s s
  | close (s : State) : Follows s .closed
  | closeWait : Follows .established .closeWait
  | finAcked : Follows .finWait1 .finWait2
  | bothAcked : Follows .closing .finWait2
  | closing : Follows .finWait1 .closing
  | over : Follows .finWait1 .timeWait
  | timeWait : Follows .finWait2 .timeWait

/-- The part of the block that the sender looks at. -/
structure SameTx (t t' : Tcb) : Prop where
  pendingSyn : t'.pendingSyn = t.pendingSyn
  pendingFin : t'.pendingFin = t.pendingFin
  snd : t'.snd = t.snd
  iss : t'.iss = t.iss
  txfifoSize : t'.txfifoSize = t.txfifoSize
  connect : t'.signals.connect = t.signals.connect
  follows : Follows t.state t'.state

/-- One move of the event `e` that sends nothing and leaves the sender alone. -/
inductive OtherMove (L : List Irregular) (e : Event) (t : Tcb) : Tcb → Prop
  | quiet {t' : Tcb} (h : Same t t') : OtherMove L e t t'
  | arm {armed : Bool} (h : t.rtxTimer = true → armed = true) :
      OtherMove L e t { t with rtxTimer := armed }
  | finAcked {g : Seg} {o : InputSupply} (he : e = .input g o)
      (hstate : t.state = .finWait1 ∨ t.state = .closing)
      (h : .finUnsent ∈ L → t.snd.una = t.snd.nxt ∧ t.snd.nxt = t.snd.wrptr)
      (hack : g.ack = t.snd.nxt) (hold : unaAck t g ≤ 0) :
      OtherMove L e t { t with state := .finWait2 }
  | lastAck {g : Seg} {o : InputSupply} (he : e = .input g o)
      (hack : has g.flg flagAck = true) (hstate : t.state = .lastAck)
      (h : .lastAckOther ∈ L → g.ack = t.snd.nxt ∧ t.snd.nxt = t.snd.wrptr) :
      OtherMove L e t (tcpClose t)
  | abort (he : (∃ g o, e = .input g o ∧ has g.flg flagRst = true) ∨ ∃ b, e = .rtx true b) :
      OtherMove L e t (tcpClose t)
  | expire (he : e = .timeWait) (h : t.timeWaitTimer = true) : OtherMove L e t (tcpClose t)
  | store {g : Seg} {o : InputSupply} (he : e = .input g o)
      (hstate : storesData t.state = true) (hne : g.len ≠ 0)
      (havail : g.len ≤ (rxfifoAvail t).toNat) (hsyn : has g.flg flagSyn = false)
      (hseq : g.seq = t.rcv.nxt)
      (hring : .wholeRing ∈ L → t.rcv.nxt.toNat % t.rxfifoSize.val = 0 ∨
        ∀ p ∈ g.data, p.length < t.rxfifoSize.val) : OtherMove L e t (storeData t g.data)
  | finRcvd {g : Seg} {o : InputSupply} (he : e = .input g o)
      (hfin : has g.flg flagFin = true) (hstate : t.state ≠ .closed ∧ t.state ≠ .synSent)
      (hsyn : has g.flg flagSyn = false)
      (hroom : .finRefused ∈ L → t.rcv.nxt = g.seq + BitVec.ofNat 32 g.len ∧
        1 ≤ (rxfifoAvail t).toNat) :
      OtherMove L e t { t with
        finReceived := true
        rcv := { t.rcv with nxt := t.rcv.nxt + 1 } }
  | finState {g : Seg} {o : InputSupply} (he : e = .input g o)
      (hfin : t.finReceived = true) (hsyn : t.state ≠ .synReceived)
      (h : .finUnsent ∈ L → t.state = .finWait1 → g.ack ≠ t.snd.nxt)
      (hold : t.state = .finWait1 → unaAck t g ≤ 0) : OtherMove L e t (afterFin t g)

/-- One move of the event `e`; none of them changes `snd.una`. -/
inductive Move (L : List Irregular) (e : Event) (t : Tcb) : List Sent → Tcb → Prop
  | other {t' : Tcb} (h : OtherMove L e t t') : Move L e t [] t'
  | bare {s : Sent} (h : Bare t s) : Move L e t [s] t
  | syn (h : t.pendingSyn ≠ 0) : Move L e t [tcpOutputTcb t t.pendingSyn t.iss []] t
  | fin {seq : SeqNo} (sent : Bool) (hconn : t.signals.connect = false)
      (hsyn : t.pendingSyn = 0) (hfin : t.pendingFin ≠ 0) (hseq : EmitsFrom e t seq)
      (hone : bytesInFifo t.snd seq = 1) :
      Move L e t (if sent then [tcpOutputTcb t t.pendingFin seq []] else [])
        (withNxt t t.snd.wrptr)
  | data {seq : SeqNo} {payload : List Byte} (hconn : t.signals.connect = false)
      (hsyn : t.pendingSyn = 0) (hseq : EmitsFrom e t seq) (hne : payload ≠ [])
      (hmax : payload.length ≤ 1460)
      (hlen : payload.length + finBit t ≤ bytesInFifo t.snd seq)
      (hrtx : .beyondNxt ∈ L → seq ≠ t.snd.nxt → payload.length ≤ (t.snd.nxt - t.snd.una).toNat) :
      Move L e t [tcpOutputTcb t (flagPsh ||| flagAck) seq payload]
        (withNxt t (if t.snd.nxt = seq then t.snd.nxt + BitVec.ofNat 32 payload.length
          else t.snd.nxt))
  | connect (h : t.signals.connect = true) :
      Move L e t [] { t with
        pendingSyn := flagSyn
        snd := { t.snd with nxt := t.snd.nxt + 1 }
        signals := { t.signals with connect := false } }
  | simultaneous {t' : Tcb} {out : List Sent} {g : Seg} {o : InputSupply}
      (he : e = .input g o) (hL : .simultaneousOpen ∉ L) (hstate : t.state = .synSent)
      (h : t' = (synInSynSent t g o.first).1) (hout : out = (synInSynSent t g o.first).2)
      (huna : t'.snd.una = t.snd.una) (hconn : t'.signals.connect = t.signals.connect)
      (hsyn : has g.flg flagSyn = true) (hack : ¬ has g.flg flagAck = true) : Move L e t out t'
  | tooNew {g : Seg} {o : InputSupply} (he : e = .input g o) (hL : .tooNewAck ∉ L)
      (hstate : t.state = .synReceived) :
      Move L e t [] (setWindow { t with state := .established } g)
  | write {src : List Byte} (he : ∃ iov all noWait, e = .write iov all noWait)
      (hstate : t.state ≠ .closed) (hne : src ≠ [])
      (havail : src.length ≤ (txfifoAvail t).toNat)
      (hfull : .overfull ∈ L → (txfifoUsed t).toNat ≤ t.txfifoSize.val)
      (hfin : .writeAfterFin ∈ L → t.pendingFin = 0)
      (hring : .wholeRing ∈ L → .overfull ∈ L → t.snd.wrptr.toNat % t.txfifoSize.val = 0 ∨
        src.length < t.txfifoSize.val) : Move L e t [] (written t src)
  | queueFin {s : State} (he : ∃ o, e = .task o)
      (hstate : (t.state = .established ∨ t.state = .synReceived) ∧ s = .finWait1 ∨
        t.state = .closeWait ∧ s = .lastAck)
      (hsyn : .closeInSynReceived ∈ L → t.state ≠ .synReceived)
      (hwnd : .windowShort ∈ L → ¬ clipped (finQueued t s)) : Move L e t [] (finQueued t s)

theorem Move.quiet {L : List Irregular} {e : Event} {t t' : Tcb} (h : Same t t') : Move L e t [] t' :=
  .other (.quiet h)

/-! ## Frames -/

variable {L : List Irregular} {e : Event} {t t' : Tcb} {g : Seg} {out : List Sent}

theorem Same.refl (t : Tcb) : Same t t := by
  constructor <;> rfl

/-- What `tcp_emit` does with a buffer, after it stopped the timer of the delayed acknowledgement. -/
inductive EmitCase (t : Tcb) (b : Supply) (seq : SeqNo) : Emitted → Prop
  | syn (hsyn : t.pendingSyn ≠ 0) :
      EmitCase t b seq (output t b (tcpOutputTcb t t.pendingSyn t.iss []))
  | idle (hzero : bytesInFifo t.snd seq = 0) : EmitCase t b seq ⟨t, [], false⟩
  | ack (hzero : bytesInFifo t.snd seq = 0) :
      EmitCase t b seq (output t b (tcpOutputTcb t flagAck seq []))
  | fin (hsyn : t.pendingSyn = 0) (hfin : t.pendingFin ≠ 0) (hone : bytesInFifo t.snd seq = 1) :
      EmitCase t b seq (output (withNxt t t.snd.wrptr) b (tcpOutputTcb t t.pendingFin seq []))
  | data {bytes : Nat} (hsyn : t.pendingSyn = 0) (hne : bytes ≠ 0)
      (hbytes : bytes + finBit t = bytesInFifo t.snd seq) :
      EmitCase t b seq (emitData t b seq bytes)

theorem tcpEmit_case {b : Supply} {seq : SeqNo} {genAck : Bool} {r : Emitted}
    (h : tcpEmit t (some b) seq genAck = r) :
    EmitCase { t with delayedAckTimer := false } b seq r := by
  subst h
  unfold tcpEmit
  dsimp only
  split
  · exact .syn ‹_›
  rename_i hsyn
  have hsyn := not_not.mp hsyn
  split
  · split
    · exact .ack ‹_›
    · exact .idle ‹_›
  rename_i hzero
  split
  · rename_i hfin
    split
    · exact .fin hsyn hfin ‹_›
    · rename_i hone
      have hbit : finBit t = 1 := if_neg hfin
      have hbytes : bytesInFifo t.snd seq - 1 + finBit t = bytesInFifo t.snd seq := by omega
      exact .data hsyn (by omega) hbytes
  · rename_i hfin
    have hbit : finBit t = 0 := if_pos (not_not.mp hfin)
    have hbytes : bytesInFifo t.snd seq + finBit t = bytesInFifo t.snd seq := by omega
    exact .data hsyn hzero hbytes

theorem emitData_tcb (t : Tcb) (b : Supply) (seq : SeqNo) (bytes : Nat) :
    ∃ n, (emitData t b seq bytes).tcb = withNxt t n := by
  cases hb : b.sent with
  | false => exact ⟨t.snd.nxt, by simp [emitData, output, hb, withNxt]⟩
  | true =>
    by_cases hseq : t.snd.nxt = seq
    · exact ⟨_, by simp only [emitData, output, hb, if_pos hseq]; rfl⟩
    · exact ⟨t.snd.nxt, by simp [emitData, output, hb, hseq, withNxt]⟩

/-- Nothing has changed but `snd.nxt`, before the SYN is acknowledged not even that, and the timer of
the delayed acknowledgement. -/
def Emits (t t' : Tcb) : Prop := ∃ n d, t' = { withNxt t n with delayedAckTimer := d } ∧
  (t.pendingSyn ≠ 0 → n = t.snd.nxt)

theorem Emits.refl (t : Tcb) : Emits t t := ⟨_, _, rfl, fun _ => rfl⟩

theorem Emits.trans {u : Tcb} (h : Emits t t') (h' : Emits t' u) : Emits t u := by
  obtain ⟨n, d, rfl, h⟩ := h
  obtain ⟨n', d', rfl, h'⟩ := h'
  exact ⟨n', d', rfl, fun hp => (h' hp).trans (h hp)⟩

theorem tcpEmit_emits (t : Tcb) (b : Option Supply) (seq : SeqNo) (genAck : Bool) :
    Emits t (tcpEmit t b seq genAck).tcb := by
  cases b with
  | none => exact .refl t
  | some b =>
    generalize hr : tcpEmit t (some b) seq genAck = r
    cases tcpEmit_case hr with
    | syn | idle | ack => exact ⟨t.snd.nxt, false, rfl, fun _ => rfl⟩
    | fin hsyn => exact ⟨t.snd.wrptr, false, rfl, fun hp => absurd hsyn hp⟩
    | data hsyn =>
      obtain ⟨n, hn⟩ := emitData_tcb { t with delayedAckTimer := false } b seq _
      exact ⟨n, false, hn, fun hp => absurd hsyn hp⟩

/-- The fields of a block that only differs in `snd.nxt`. -/
structure OnlyNxt (t t' : Tcb) : Prop where
  state : t'.state = t.state
  pendingSyn : t'.pendingSyn = t.pendingSyn
  pendingFin : t'.pendingFin = t.pendingFin
  finReceived : t'.finReceived = t.finReceived
  wrptr : t'.snd.wrptr = t.snd.wrptr
  una : t'.snd.una = t.snd.una
  wnd : t'.snd.wnd = t.snd.wnd
  rcv : t'.rcv = t.rcv
  txfifoSize : t'.txfifoSize = t.txfifoSize
  signals : t'.signals = t.signals

theorem Emits.onlyNxt (h : Emits t t') : OnlyNxt t t' := by
  obtain ⟨n, d, rfl, -⟩ := h
  exact ⟨rfl, rfl, rfl, rfl, rfl, rfl, rfl, rfl, rfl, rfl⟩

theorem tcpEmit_onlyNxt (t : Tcb) (b : Option Supply) (seq : SeqNo) (genAck : Bool) :
    OnlyNxt t (tcpEmit t b seq genAck).tcb := (tcpEmit_emits t b seq genAck).onlyNxt

theorem storeData_frame (t : Tcb) (data : List (List Byte)) : ∃ buffer nxt, storeData t data =
      { t with buffer := buffer, rcv := { t.rcv with nxt := nxt } } := by
  induction data generalizing t with
  | nil => exact ⟨t.buffer, t.rcv.nxt, rfl⟩
  | cons p rest ih =>
    obtain ⟨buffer, nxt, h⟩ := ih { t with
      buffer := ltowMemcpy t.buffer t.txfifoSize.val p t.rcv.nxt t.rxfifoSize.val
      rcv := { t.rcv with nxt := t.rcv.nxt + BitVec.ofNat 32 p.length } }
    exact ⟨buffer, nxt, h⟩

theorem Same.sameTx (h : Same t t') : SameTx t t' :=
  { h with follows := h.state ▸ .stay t.state }

theorem afterFin_sameTx (h : t.state ≠ .synReceived) : SameTx t (afterFin t g) := by
  have hkeep (s : State) (hs : Follows t.state s) : SameTx t { t with state := s } :=
    ⟨rfl, rfl, rfl, rfl, rfl, rfl, hs⟩
  have htime (hs : Follows t.state .timeWait) : SameTx t (tcpTimeWait t) :=
    ⟨rfl, rfl, rfl, rfl, rfl, rfl, hs⟩
  unfold afterFin
  split
  · exact absurd ‹_› h
  · exact hkeep _ (‹t.state = _› ▸ .closeWait)
  · split
    · exact htime (‹t.state = _› ▸ .over)
    · exact hkeep _ (‹t.state = _› ▸ .closing)
  · exact htime (‹t.state = _› ▸ .timeWait)
  · exact (Same.refl t).sameTx

theorem OtherMove.sameTx (h : OtherMove L e t t') : SameTx t t' := by
  cases h with
  | quiet h => exact h.sameTx
  | finAcked _ hstate =>
    refine ⟨rfl, rfl, rfl, rfl, rfl, rfl, ?_⟩
    rcases hstate with hs | hs
    · exact hs ▸ .finAcked
    · exact hs ▸ .bothAcked
  | lastAck | abort | expire => exact ⟨rfl, rfl, rfl, rfl, rfl, rfl, .close _⟩
  | store =>
    obtain ⟨buffer, nxt, h⟩ := storeData_frame t _
    rw [h]
    exact ⟨rfl, rfl, rfl, rfl, rfl, rfl, .stay _⟩
  | arm | finRcvd => exact ⟨rfl, rfl, rfl, rfl, rfl, rfl, .stay _⟩
  | finState _ _ hsyn => exact afterFin_sameTx hsyn

theorem Move.una_eq (h : Move L e t out t') : t'.snd.una = t.snd.una := by
  cases h with
  | other h => rw [h.sameTx.snd]
  | simultaneous _ _ _ _ _ huna => exact huna
  | _ => rfl

/-! ## Sequences of moves -/

/-- Moves one after the other, with everything they send. -/
def Moves (L : List Irregular) (e : Event) (t : Tcb) (out : List Sent) (t' : Tcb) : Prop :=
  ∃ outs, Run (Move L e) t outs t' ∧ outs.flatten = out

namespace Moves

theorem refl (t : Tcb) : Moves L e t [] t := ⟨[], .nil t, rfl⟩

theorem single (h : Move L e t out t') : Moves L e t out t' :=
  ⟨[out], .single h, flatten_singleton⟩

theorem quiet (h : Same t t') : Moves L e t [] t' := single (.quiet h)

theorem trans {u : Tcb} {out' : List Sent} (h : Moves L e t out t') (h' : Moves L e t' out' u) :
    Moves L e t (out ++ out') u := by
  obtain ⟨outs, hrun, rfl⟩ := h
  obtain ⟨outs', hrun', rfl⟩ := h'
  exact ⟨outs ++ outs', hrun.trans hrun', flatten_append⟩

/-- A move that sends nothing, then others. -/
theorem cons {u : Tcb} (h : Move L e t [] t') (h' : Moves L e t' out u) : Moves L e t out u :=
  (single h).trans h'

/-- Others, then a move that sends nothing. -/
theorem snoc {u : Tcb} (h : Moves L e t out t') (h' : Move L e t' [] u) : Moves L e t out u := by
  have := h.trans (single h')
  rwa [append_nil] at this

theorem una_eq (h : Moves L e t out t') : t'.snd.una = t.snd.una := by
  obtain ⟨outs, hrun, -⟩ := h
  induction hrun with
  | nil => rfl
  | snoc _ hs ih => rw [hs.una_eq, ih]

end Moves

/-! ## `tcp_emit` -/

theorem length_wtolMemcpy (m : Nat → Byte) (fifo length : Nat) (offset : SeqNo) {size : Nat}
    (hsize : 0 < size) : (wtolMemcpy m fifo length offset size).length = length := by
  have hlt := Nat.mod_lt offset.toNat hsize
  have hdiv := Nat.div_add_mod (offset.toNat % size + length) size
  simp only [wtolMemcpy]
  split
  · rw [Mem.length_read]
  rename_i hstop
  have hq : size ≤ size * ((offset.toNat % size + length) / size) := by
    refine Nat.le_mul_of_pos_right _ (Nat.div_pos ?_ hsize)
    by_contra hle
    rw [Nat.mod_eq_of_lt (Nat.not_le.mp hle)] at hstop
    omega
  rw [length_append, length_append, Mem.length_read, Mem.length_read,
    length_replicate]
  omega

theorem FifoSize.pos (s : FifoSize) : 0 < s.val :=
  Nat.pos_of_dvd_of_pos s.pow2 (by decide)

theorem FifoSize.two_mul_le (s : FifoSize) : 2 * s.val ≤ 4294967296 := by
  obtain ⟨k, hk⟩ := s.pow2
  have hsmall := s.small
  rcases k with _ | _ | k
  · omega
  · omega
  · rw [hk, Nat.mul_comm 2]
    exact Nat.mul_le_mul_left _ (Nat.le_add_left 2 k)

theorem length_copyData (m : Nat → Byte) {size : Nat} (hsize : 0 < size) (more used bytes pktlen : Nat)
    (seq : SeqNo) :
    (copyData m size more used bytes pktlen seq).length ≤ min (maxPktSize - pktlen) bytes := by
  induction more generalizing used bytes pktlen seq with
  | zero =>
    simp only [copyData, ite_self]
    rw [length_wtolMemcpy _ _ _ _ hsize]
    omega
  | succ more ih =>
    rw [copyData]
    split
    · rw [length_wtolMemcpy _ _ _ _ hsize]
      omega
    rw [length_append, length_wtolMemcpy _ _ _ _ hsize]
    have := ih 0 (bytes - min (maxPktSize - pktlen) (min bytes (pbufDataSize - used)))
      (pktlen + min (maxPktSize - pktlen) (min bytes (pbufDataSize - used)))
      (seq + BitVec.ofNat 32 (min (maxPktSize - pktlen) (min bytes (pbufDataSize - used))))
    omega

/-- The first round. -/
theorem copyData_first (m : Nat → Byte) (size more used bytes pktlen : Nat) (seq : SeqNo) :
    ∃ rest, copyData m size more used bytes pktlen seq =
      wtolMemcpy m 0 (min (maxPktSize - pktlen) (min bytes (pbufDataSize - used))) seq size ++ rest := by
  cases more with
  | zero => exact ⟨[], by simp only [copyData, ite_self, append_nil]⟩
  | succ more =>
    rw [copyData]
    split
    · exact ⟨[], (append_nil _).symm⟩
    · exact ⟨_, rfl⟩

theorem copyData_ne_nil (m : Nat → Byte) {size : Nat} (hsize : 0 < size) (more : Nat) {bytes : Nat}
    (hbytes : bytes ≠ 0) (seq : SeqNo) : copyData m size more firstUsed bytes 20 seq ≠ [] := by
  obtain ⟨rest, h⟩ := copyData_first m size more firstUsed bytes 20 seq
  have hcopied := length_wtolMemcpy m 0
    (min (maxPktSize - 20) (min bytes (pbufDataSize - firstUsed))) seq hsize
  intro hnil
  rw [h, append_eq_nil_iff] at hnil
  rw [hnil.1] at hcopied
  simp only [maxPktSize, pbufDataSize, firstUsed, length_nil] at hcopied
  omega

/-- What `tcp_emit` does when it sends data. -/
theorem emitData_moves (b : Supply) {seq : SeqNo} {bytes : Nat}
    (hconn : t.signals.connect = false) (hsyn : t.pendingSyn = 0)
    (hseq : EmitsFrom e t seq) (hne : bytes ≠ 0) (hbytes : bytes + finBit t ≤ bytesInFifo t.snd seq)
    (hrtx : .beyondNxt ∈ L → seq ≠ t.snd.nxt → rtxBytes t ≤ (t.snd.nxt - t.snd.una).toNat) :
    Moves L e t (emitData t b seq bytes).out (emitData t b seq bytes).tcb := by
  have hlen := length_copyData t.buffer t.txfifoSize.pos b.more firstUsed bytes 20 seq
  have hnil := copyData_ne_nil t.buffer t.txfifoSize.pos b.more hne seq
  have hmax : maxPktSize - 20 = 1460 := rfl
  cases hb : b.sent with
  | false =>
    have heq : emitData t b seq bytes = ⟨t, [], true⟩ := by simp [emitData, output, hb]
    rw [heq]
    exact .refl t
  | true =>
    have hbeyond : .beyondNxt ∈ L → seq ≠ t.snd.nxt →
        (copyData t.buffer t.txfifoSize.val b.more firstUsed bytes 20 seq).length ≤
          (t.snd.nxt - t.snd.una).toNat := by
      intro hL hnxt
      have := hrtx hL hnxt
      have huna : seq = t.snd.una := (hseq.resolve_left hnxt).1
      rw [bytesInFifo, if_neg hnxt, huna] at hbytes
      rw [rtxBytes] at this
      omega
    have hmove := Move.data hconn hsyn hseq hnil (by omega) (by omega) hbeyond
    by_cases hnxt : t.snd.nxt = seq
    · have heq : emitData t b seq bytes = ⟨withNxt t (t.snd.nxt + BitVec.ofNat 32
          (copyData t.buffer t.txfifoSize.val b.more firstUsed bytes 20 seq).length),
          [tcpOutputTcb t (flagPsh ||| flagAck) seq
            (copyData t.buffer t.txfifoSize.val b.more firstUsed bytes 20 seq)], false⟩ := by
        simp only [emitData, output, hb, if_pos hnxt, withNxt]
        rfl
      rw [if_pos hnxt] at hmove
      rw [heq]
      exact .single hmove
    · have heq : emitData t b seq bytes = ⟨t, [tcpOutputTcb t (flagPsh ||| flagAck) seq
          (copyData t.buffer t.txfifoSize.val b.more firstUsed bytes 20 seq)], false⟩ := by
        simp [emitData, output, hb, hnxt]
      rw [if_neg hnxt] at hmove
      rw [heq]
      exact .single hmove

theorem bare_tcpOutputTcb (t : Tcb) (seq : SeqNo) {flg : BitVec 8} (hs : has flg flagSyn = false)
    (hf : has flg flagFin = false) : Bare t (tcpOutputTcb t flg seq []) :=
  ⟨rfl, hs, hf, .inr ⟨rfl, Nat.min_le_left _ _⟩⟩

theorem bare_tcpReply (t : Tcb) (seq ack : SeqNo) {flg : BitVec 8} {wnd : BitVec 32}
    (hs : has flg flagSyn = false) (hf : has flg flagFin = false)
    (hw : wnd = 0 ∨ ack = t.rcv.nxt ∧ wnd = rxfifoAvail t) : Bare t (tcpReply seq ack flg wnd) := by
  refine ⟨rfl, hs, hf, ?_⟩
  rcases hw with rfl | ⟨rfl, rfl⟩
  · exact .inl rfl
  · exact .inr ⟨rfl, Nat.min_le_left _ _⟩

/-- A segment handed to the interface, if it takes it. -/
theorem output_moves (b : Supply) {s : Sent} (h : Move L e t [s] t) :
    Moves L e t (output t b s).out (output t b s).tcb := by
  cases hb : b.sent with
  | false =>
    have heq : output t b s = ⟨t, [], true⟩ := by simp [output, hb]
    rw [heq]
    exact .refl t
  | true =>
    have heq : output t b s = ⟨t, [s], false⟩ := by simp [output, hb]
    rw [heq]
    exact .single h

/-- `tcp_emit` is a move, or two if the timer of the delayed acknowledgement is stopped. -/
theorem tcpEmit_moves (b : Option Supply) {seq : SeqNo} (genAck : Bool)
    (hconn : t.signals.connect = false) (hseq : EmitsFrom e t seq)
    (hrtx : .beyondNxt ∈ L → t.pendingSyn = 0 → seq ≠ t.snd.nxt →
      rtxBytes t ≤ (t.snd.nxt - t.snd.una).toNat) :
    Moves L e t (tcpEmit t b seq genAck).out (tcpEmit t b seq genAck).tcb := by
  cases b with
  | none => exact .refl t
  | some b =>
    have hsame : Same t { t with delayedAckTimer := false } := by
      constructor <;> rfl
    refine .cons (.quiet hsame) ?_
    generalize hr : tcpEmit t (some b) seq genAck = r
    cases tcpEmit_case hr with
    | syn hsyn => exact output_moves b (.syn hsyn)
    | idle => exact .refl _
    | ack => exact output_moves b (.bare (bare_tcpOutputTcb _ _ (by decide) (by decide)))
    | fin hsyn hfin hone => exact .single (.fin b.sent hconn hsyn hfin hseq hone)
    | data hsyn hne hbytes =>
      exact emitData_moves b hconn hsyn hseq hne hbytes.le fun hL => hrtx hL hsyn

/-- Fresh data, or an acknowledgement. -/
theorem tcpEmit_nxt_moves (b : Option Supply) (genAck : Bool) {seq : SeqNo}
    (hconn : t.signals.connect = false) (h : seq = t.snd.nxt) :
    Moves L e t (tcpEmit t b seq genAck).out (tcpEmit t b seq genAck).tcb :=
  tcpEmit_moves b genAck hconn (.inl h) fun _ _ hne => absurd h hne

end Mios.Tcp
