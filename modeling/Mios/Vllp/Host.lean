import Mios.Lib.Heap
import Mios.Vllp.Frame

/-! The host end of a VLLP link (`host/dsig/vllp.c`), as client and as server. The
library runs under one mutex, so an event is one critical section: a round of
`vllp_thread`, the arrival of a frame, or a call of the application. Which deadline
has passed is an input of the event. Objects are not freed in the model, and
reference counts are left out. -/

namespace Mios.Vllp

open Lib Crc32

/-! ## State -/

def vllpErrOk : Int := 0
def vllpErrTimeout : Int := -2
def vllpErrBadState : Int := -13
def vllpErrChecksumError : Int := -18
def vllpErrMalformed : Int := -19

inductive PktType where
  | msg
  | eof
  | rdy
  deriving DecidableEq, Repr

/-- `vllp_pkt_t`. In a `txq` the first byte is the header, without `S`, `E` and `F`
until the packet is sent. -/
structure Pkt where
  type : PktType
  data : List Byte
  deriving DecidableEq, Repr

inductive HChanState where
  | created
  | pendingOpen
  | openSent
  | established
  | active
  | closeSent
  | closed
  deriving DecidableEq, Repr

/-- `struct vllp_channel` of the host. `rxbuf` holds the `rxlen` bytes in use, `eof` says
that the callback is set and `reconnect` is `VLLP_CHANNEL_RECONNECT`. -/
structure HChannel where
  addr : Nat
  id : Nat
  state : HChanState
  txq : List Pkt
  mtxq : List Pkt
  rxq : List Pkt
  txCrcIV : BitVec 32
  rxCrcIV : BitVec 32
  rxbuf : List Byte
  name : List Byte
  reconnect : Bool
  eof : Bool
  isClosed : Bool
  closedStatus : Int
  deriving DecidableEq, Repr

/-- `struct vllp` of the host. Channel `0` is the CMC. -/
structure Host where
  client : Bool
  fdcan : Bool
  objs : List HChannel
  channels : List Nat
  pendingOpen : List Nat
  activeChannels : List Nat
  rxq : List (List Byte)
  currentTx : Option Pkt
  crcIV : BitVec 32
  channelIvCnt : BitVec 32
  availableChannelIds : BitVec 16
  remoteFlowStatus : BitVec 16
  localFlowStatus : BitVec 16
  connected : Bool
  S : Bool
  E : Bool
  mtu : Nat
  out : List Ev
  deriving DecidableEq, Repr

/-- What one round of the thread finds: passed deadlines, a new cookie (`none` when
`getrandom` fails), and the answer of a server's `open_channel`: an error, and whether
it sets an `eof` callback. -/
structure HIn where
  timedOut : Bool
  rtxDue : Bool
  ackDue : Bool
  cookie : Option (BitVec 32)
  openChannel : List Byte → Int
  openEof : Bool

def newHChannel (addr id : Nat) (state : HChanState) : HChannel :=
  ⟨addr, id, state, [], [], [], 0, 0, [], [], false, false, false, 0⟩

def errBytes (err : Int) : List Byte := le32 (BitVec.ofInt 32 err)

/-- The two low bytes of an error code, as CMC messages carry it. -/
def errCode (err : Int) : List Byte := (errBytes err).take 2

/-- `data[0] | (data[1] << 8)` as an `int16_t`. -/
def readErr (data : List Byte) : Int :=
  ((data.getD 1 0) ++ (data.getD 0 0) : BitVec 16).toInt

namespace Host

def cmc : Nat := 0

def chan (v : Host) (a : Nat) : HChannel :=
  (Heap.get HChannel.addr v.objs a).getD (newHChannel a 0 .closed)

def setChan (v : Host) (c : HChannel) : Host :=
  { v with objs := Heap.put HChannel.addr v.objs c }

def log (v : Host) (e : Ev) : Host := { v with out := v.out ++ [e] }

def setState (v : Host) (a : Nat) (s : HChanState) : Host :=
  v.setChan { v.chan a with state := s }

/-- `LIST_REMOVE(vc, link)` -/
def unlink (v : Host) (a : Nat) : Host := { v with channels := v.channels.filter (· != a) }

def freeId (v : Host) (a : Nat) : Host :=
  { v with availableChannelIds := v.availableChannelIds ||| (1#16 <<< (v.chan a).id) }

def freeIdIfClient (v : Host) (a : Nat) : Host := if v.client then v.freeId a else v

end Host

/-- The fragment a transmit packet holds. -/
def Pkt.frag (p : Pkt) : Frag :=
  match p.data with
  | [] => ⟨0, false, []⟩
  | h :: payload => ⟨hdrChannel h, hdrL h, payload⟩

def Host.currentFrag (v : Host) : Option Frag := v.currentTx.map Pkt.frag

namespace Host

/-! ## Leaving a session -/

/-- `channel_enq_rx_meta` -/
def channelEnqRxMeta (v : Host) (a : Nat) (err : Int) (type : PktType) : Host :=
  let vc := v.chan a
  v.setChan { vc with rxq := vc.rxq ++ [⟨type, errBytes err⟩] }

/-- The tail of the loop body of `vllp_disconnect`: the channel moves to `tmp`. -/
def dropChannel (v : Host) (tmp : List Nat) (a : Nat) : Host × List Nat :=
  ((v.unlink a).freeIdIfClient a, a :: tmp)

/-- The case shared by `ACTIVE` and `ESTABLISHED`: a reconnecting channel is queued to
be opened again. -/
def dropOrReconnect (v : Host) (tmp : List Nat) (a : Nat) : Host × List Nat :=
  if (v.chan a).reconnect then
    let v := (channelEnqRxMeta v a 0 .eof).setState a .pendingOpen
    ({ v with pendingOpen := v.pendingOpen ++ [a] }, tmp)
  else dropChannel v tmp a

/-- The loop of `vllp_disconnect`; `tmp` collects the channels to be released. -/
def disconnectLoop (v : Host) (tmp : List Nat) : List Nat → Host × List Nat
  | [] => (v, tmp)
  | a :: rest =>
      let (v, tmp) :=
        if a = cmc then (v, tmp)
        else match (v.chan a).state with
          | .pendingOpen =>
              if (v.chan a).reconnect then (v, tmp)
              else dropChannel { v with pendingOpen := v.pendingOpen.filter (· != a) } tmp a
          | .active =>
              dropOrReconnect { v with activeChannels := v.activeChannels.filter (· != a) } tmp a
          | .established => dropOrReconnect v tmp a
          | .closeSent => dropChannel (v.setState a .closed) tmp a
          | _ => dropChannel v tmp a
      disconnectLoop v tmp rest

def callEof (v : Host) : List Nat → Host
  | [] => v
  | a :: rest => callEof (if (v.chan a).eof then v.log (.close (v.chan a).id) else v) rest

/-- `vllp_disconnect`. The outstanding packet and the queues of the CMC stay. -/
def vllpDisconnect (v : Host) : Host :=
  if !v.connected then v
  else
    let (v, tmp) := disconnectLoop v [] v.channels
    { callEof v tmp with connected := false, S := false, E := true }

/-! ## Transmission -/

def vllpGenChannelCrc (v : Host) : Host × BitVec 32 :=
  let v := { v with channelIvCnt := v.channelIvCnt + 1 }
  (v, crc32 v.crcIV (le32 v.channelIvCnt))

/-- `vllp_generate_crc` on a packet with room for it. -/
def vllpGenerateCrc (iv : BitVec 32) (pkt : List Byte) : List Byte := pkt ++ le32 (~~~crc32 iv pkt)

def synFrame (mtu : Nat) (cookie : BitVec 32) : List Byte :=
  [synByte, vllpVersion, BitVec.ofNat 8 mtu] ++ le32 cookie

/-- `vllp_send_syn`: a new cookie, and with it new IVs of the CMC. -/
def vllpSendSyn (i : HIn) (v : Host) : Host :=
  match i.cookie with
  | none => v
  | some cookie =>
      let v := { v with crcIV := cookie, rxq := [], channelIvCnt := 0 }
      let (v, cmcIV) := vllpGenChannelCrc v
      let v := v.setChan { v.chan cmc with txCrcIV := ~~~cmcIV, rxCrcIV := cmcIV }
      v.log (.tx (synFrame v.mtu v.crcIV))

def vllpSendAck (v : Host) : Host :=
  v.log (.tx (ackFrame v.crcIV v.S v.E v.localFlowStatus))

/-- The header of a packet as it is sent now. -/
def sendHdr (v : Host) (h : Byte) : Byte :=
  hdrByte v.S v.E (hdrChannel h != 15 && v.localFlowStatus.getLsbD (hdrChannel h)) (hdrL h)
    (hdrChannel h)

/-- `vllp_send_pkt` on the outstanding packet, whose header it rewrites. -/
def vllpSendPkt (v : Host) (vp : Pkt) : Host :=
  match vp.data with
  | [] => v
  | h :: payload =>
      let pkt := v.sendHdr h :: payload
      { v with currentTx := some { vp with data := pkt } }.log
        (.tx (if v.fdcan then addPad [] pkt else pkt))

/-- The inner loop of `fragment` over a message with its CRC. Each round takes at least
one byte, so as many rounds as bytes are enough. -/
def splitMsg (id mtu : Nat) : Nat → List Byte → List Pkt
  | 0, _ => []
  | fuel + 1, data =>
      let n := min (data.length + 1) mtu - 1
      let rest := data.drop n
      ⟨.msg, hdrByte false false false rest.isEmpty id :: data.take n⟩ ::
        (if rest.isEmpty then [] else splitMsg id mtu fuel rest)

/-- The outer loop of `fragment`. -/
def fragmentLoop (mtu : Nat) (vc : HChannel) : List Pkt → HChannel
  | [] => { vc with mtxq := [] }
  | m :: rest =>
      if m.type ≠ .msg then fragmentLoop mtu { vc with txq := vc.txq ++ [m] } rest
      else
        let data := vllpGenerateCrc vc.txCrcIV m.data
        fragmentLoop mtu { vc with
          txCrcIV := vc.txCrcIV + 1
          txq := vc.txq ++ splitMsg vc.id mtu data.length data } rest

def fragment (v : Host) (a : Nat) : Host :=
  v.setChan (fragmentLoop v.mtu (v.chan a) (v.chan a).mtxq)

def channelFind (v : Host) (channelId : Nat) : Option Nat :=
  v.channels.find? fun a => (v.chan a).id == channelId

def channelSendVp (v : Host) (a : Nat) (vp : Pkt) : Host :=
  let vc := v.chan a
  let v := v.setChan { vc with mtxq := vc.mtxq ++ [vp] }
  if vc.state = .established then
    { v.setState a .active with activeChannels := v.activeChannels ++ [a] }
  else v

def channelSendMessage (v : Host) (a : Nat) (data : List Byte) : Host :=
  channelSendVp v a ⟨.msg, data⟩

def channelSendClose (v : Host) (a : Nat) (err : Int) : Host :=
  channelSendVp v a ⟨.eof, errBytes err⟩

/-! ## Channel management -/

def channelMake (v : Host) (id : Nat) (state : HChanState) : Host × Nat :=
  let a := Heap.fresh HChannel.addr v.objs
  ({ v with objs := newHChannel a id state :: v.objs, channels := a :: v.channels }, a)

/-- `cmc_handle_open`, on a server. -/
def cmcHandleOpen (i : HIn) (v : Host) (target : Nat) (data : List Byte) : Host × Int :=
  if data.length < 1 then (v, vllpErrMalformed)
  else if (v.channelFind target).isSome then (v, vllpErrBadState)
  else
    let (v, a) := v.channelMake target .created
    let (v, iv) := v.vllpGenChannelCrc
    let v := v.setChan { v.chan a with txCrcIV := iv, rxCrcIV := ~~~iv }
    let err := i.openChannel data
    let v :=
      if err = 0 then v.setChan { v.chan a with state := .established, eof := i.openEof }
      else (v.unlink a).setState a .closed
    (v.channelSendMessage cmc (BitVec.ofNat 8 (target + 2 * 16) :: errCode err), vllpErrOk)

/-- A reconnecting channel forgets what its reader had not taken; its transmit queues
stay. -/
def dropStale (v : Host) (a : Nat) : Host :=
  if (v.chan a).reconnect then
    v.setChan { v.chan a with rxq := [], rxbuf := [], isClosed := false, closedStatus := 0 }
  else v

def cmcHandleOpenResponse (v : Host) (target : Nat) (data : List Byte) : Host × Int :=
  match v.channelFind target with
  | none => (v, vllpErrBadState)
  | some a =>
      if (v.chan a).state ≠ .openSent then (v, vllpErrBadState)
      else if data.length ≠ 2 then (v, vllpErrMalformed)
      else if readErr data = 0 then
        let v := (v.dropStale a).channelEnqRxMeta a 0 .rdy
        if (v.chan a).mtxq ≠ [] then
          ({ v.setState a .active with activeChannels := v.activeChannels ++ [a] }, vllpErrOk)
        else (v.setState a .established, vllpErrOk)
      else
        (((((v.setState a .closed).freeId a).unlink a).channelEnqRxMeta a (readErr data) .eof),
          vllpErrOk)

def cmcHandleClose (v : Host) (target : Nat) (data : List Byte) : Host × Int :=
  if data.length < 2 then (v, vllpErrMalformed)
  else match v.channelFind target with
    | none => (v, vllpErrOk)
    | some a =>
        if a = cmc then (v, vllpErrMalformed)
        else match (v.chan a).state with
          | .active | .established =>
              ((v.channelSendClose a (readErr data)).channelEnqRxMeta a (readErr data) .eof, vllpErrOk)
          | .closeSent =>
              ((((v.setState a .closed).freeIdIfClient a).unlink a).channelEnqRxMeta a
                (readErr data) .eof, vllpErrOk)
          | _ => (v, vllpErrOk)

def cmcRx (i : HIn) (v : Host) (data : List Byte) : Host × Int :=
  match data with
  | [] => (v, vllpErrMalformed)
  | u :: rest =>
      let opcode := (u >>> 4).toNat
      let channel := hdrChannel u
      if v.client then
        if opcode = 2 then v.cmcHandleOpenResponse channel rest
        else if opcode = 3 then v.cmcHandleClose channel rest
        else (v, vllpErrMalformed)
      else
        if opcode = 0 then v.cmcHandleOpen i channel rest
        else if opcode = 3 then v.cmcHandleClose channel rest
        else (v, vllpErrMalformed)

/-! ## Reception -/

/-- The end of `vllp_channel_receive`: the last fragment completed the bytes in `rxbuf`.
A message that is shorter than its CRC makes `msglen` wrap. -/
def channelComplete (i : HIn) (v : Host) (a : Nat) (msg : List Byte) : Except Halt (Host × Int) :=
  let vc := v.chan a
  if crc32 vc.rxCrcIV msg ≠ BitVec.allOnes 32 then
    .ok (v.setChan { vc with rxbuf := [] }, vllpErrChecksumError)
  else if msg.length < 4 then .error (.fault "vllp_channel_receive")
  else
    let v := v.setChan { vc with rxCrcIV := vc.rxCrcIV + 1, rxbuf := [] }
    let body := msg.take (msg.length - 4)
    if a = cmc then .ok (v.cmcRx i body)
    else
      let vc := v.chan a
      .ok ((v.setChan { vc with rxq := vc.rxq ++ [⟨.msg, body⟩] }).log (.deliver vc.id body),
        vllpErrOk)

def vllpChannelReceive (i : HIn) (v : Host) (hdr : Byte) (payload : List Byte) :
    Except Halt (Host × Int) :=
  match v.channelFind (hdrChannel hdr) with
  | none => .ok (v, vllpErrOk)
  | some a =>
      let vc := v.chan a
      let rxbuf := vc.rxbuf ++ payload
      if hdrL hdr then v.channelComplete i a rxbuf
      else .ok (v.setChan { vc with rxbuf := rxbuf }, vllpErrOk)

/-- `vllp_accept_syn`, on a server. -/
def vllpAcceptSyn (v : Host) (frame : List Byte) : Host × Int :=
  if v.client then (v, vllpErrMalformed)
  else if frame.length ≠ 7 then (v, vllpErrMalformed)
  else if frame.getD 1 0 ≠ vllpVersion then (v, vllpErrMalformed)
  else if (frame.getD 2 0).toNat ≠ v.mtu then (v, vllpErrMalformed)
  else
    let v := { v.vllpDisconnect with
      crcIV := ofLe32 (frame.drop 3), connected := true, channelIvCnt := 0 }
    let (v, cmcIV) := v.vllpGenChannelCrc
    ((v.setChan { v.chan cmc with txCrcIV := cmcIV, rxCrcIV := ~~~cmcIV }).vllpSendAck, vllpErrOk)

/-- The acknowledgement half of `vllp_handle_rx`. -/
def rxAck (v : Host) (peerAccepted : Bool) : Host :=
  match v.currentTx with
  | none => v
  | some p => if peerAccepted then { v with currentTx := none }.log (.discard p.frag) else v

/-- The flow bit of a data frame. -/
def setRemoteFlow (v : Host) (hdr : Byte) : Host :=
  { v with remoteFlowStatus :=
      (v.remoteFlowStatus &&& ~~~(1#16 <<< hdrChannel hdr)) |||
        (if hdrF hdr then 1#16 <<< hdrChannel hdr else 0) }

/-- `vllp_handle_rx` behind the checks of an acknowledgement, in a session. -/
def rxSession (i : HIn) (v : Host) (hdr : Byte) (payload : List Byte) : Except Halt (Host × Int) :=
  let peerAccepted := hdrE hdr != v.S
  let weCanAccept := hdrS hdr == v.E
  if hdrChannel hdr = 15 then .ok (v.rxAck peerAccepted, vllpErrOk)
  else if weCanAccept then
    match v.vllpChannelReceive i hdr payload with
    | .error h => .error h
    | .ok (v, err) =>
        if err ≠ 0 then .ok (v, err)
        else
          let v := { v with E := !v.E }.log (.accept ⟨hdrChannel hdr, hdrL hdr, payload⟩)
          .ok ((v.setRemoteFlow hdr).rxAck peerAccepted, vllpErrOk)
  else .ok ((v.setRemoteFlow hdr).rxAck peerAccepted, vllpErrOk)

/-- The flow bits of an acknowledgement. -/
def ackFlow (v : Host) (hdr : Byte) (payload : List Byte) : Host :=
  if isAck hdr then { v with remoteFlowStatus := (payload.getD 1 0) ++ (payload.getD 0 0) } else v

/-- The answer a client waits for: an acknowledgement with only `E` set. -/
def synResponse : Byte := 0x5f

def vllpHandleRx (i : HIn) (v : Host) (frame : List Byte) : Except Halt (Host × Int) :=
  match frame with
  | [] => .ok (v, vllpErrMalformed)
  | hdr :: payload =>
      if hdr = synByte then .ok (v.vllpAcceptSyn frame)
      else if isAck hdr && crc32 v.crcIV frame != BitVec.allOnes 32 then .ok (v, vllpErrChecksumError)
      else if isAck hdr && frame.length != 7 then .ok (v, vllpErrMalformed)
      else
        let v := v.ackFlow hdr payload
        if v.connected then v.rxSession i hdr payload
        else if v.client then
          if hdr ≠ synResponse then .ok (v, vllpErrBadState)
          else .ok ({ v with connected := true }, vllpErrOk)
        else .ok (v, vllpErrOk)

/-! ## The thread -/

def enqueueChannelOpen (v : Host) (a : Nat) : Host :=
  let (v, iv) := v.vllpGenChannelCrc
  let vc := v.chan a
  let v := v.setChan { vc with txCrcIV := ~~~iv, rxCrcIV := iv }
  v.channelSendMessage cmc (BitVec.ofNat 8 vc.id :: vc.name)

/-- The loop of `handle_pending_channels` over the queue. -/
def handlePendingLoop (v : Host) : List Nat → Except Halt Host
  | [] => .ok v
  | a :: rest =>
      let v := { v with pendingOpen := v.pendingOpen.filter (· != a) }
      if (v.chan a).state ≠ .pendingOpen then .error (.assertion "handle_pending_channels")
      else handlePendingLoop ((v.setState a .openSent).enqueueChannelOpen a) rest

def handlePendingChannels (v : Host) : Except Halt Host := handlePendingLoop v v.pendingOpen

/-- A channel whose next packet is its close: tell the peer. -/
def txClose (v : Host) (a : Nat) (vp : Pkt) (rest : List Pkt) : Host :=
  let v := v.setChan { v.chan a with txq := rest }
  let v := { v with activeChannels := v.activeChannels.filter (· != a) }
  let v := v.channelSendMessage cmc
    (BitVec.ofNat 8 (3 * 16 + (v.chan a).id) :: vp.data.take 2)
  v.setState a .closeSent

/-- Make the next packet of a channel the outstanding one and send it. -/
def txStart (v : Host) (a : Nat) (vp : Pkt) (rest : List Pkt) : Host :=
  let v := v.setChan { v.chan a with txq := rest }
  let v := { v with
    activeChannels := v.activeChannels.filter (· != a)
    remoteFlowStatus := v.remoteFlowStatus &&& ~~~(1#16 <<< (v.chan a).id)
    currentTx := some vp
    S := !v.S }
  let v := v.log (.start vp.frag)
  let v :=
    if rest = [] then v.setState a .established
    else { v with activeChannels := v.activeChannels ++ [a] }
  v.vllpSendPkt vp

/-- The loop of `vllp_tx` over the active channels; `again` is the tail call behind
a close. -/
def txLoop (i : HIn) (again : Host → Except Halt Host) (v : Host) : List Nat → Except Halt Host
  | [] => .ok (if i.ackDue then v.vllpSendAck else v)
  | a :: rest =>
      if (v.chan a).state ≠ .active then .error (.assertion "vllp_tx")
      else
        let v := v.fragment a
        match (v.chan a).txq with
        | [] => .error (.assertion "vllp_tx")
        | vp :: txq =>
            if vp.type = .eof then again (v.txClose a vp txq)
            else if !v.remoteFlowStatus.getLsbD (v.chan a).id then txLoop i again v rest
            else .ok (v.txStart a vp txq)

def vllpTx (i : HIn) : Nat → Host → Except Halt Host
  | 0, _ => .error (.hang "vllp_tx")
  | fuel + 1, v =>
      if !v.connected then
        .ok (if v.client && i.ackDue then v.vllpSendSyn i else v)
      else match v.currentTx with
        | some vp => .ok (if i.rtxDue then v.vllpSendPkt vp else v)
        | none => txLoop i (vllpTx i fuel) v v.activeChannels

/-- One round of `vllp_thread`. A close takes its channel off the active ones, so the
tail calls of `vllp_tx` are at most one for each channel and one for the CMC. -/
def vllpThread (i : HIn) (v : Host) : Except Halt Host :=
  match (if v.connected then v.handlePendingChannels else .ok v) with
  | .error h => .error h
  | .ok v =>
      if i.timedOut then .ok v.vllpDisconnect
      else match v.rxq with
        | frame :: rest =>
            match { v with rxq := rest }.vllpHandleRx i frame with
            | .error h => .error h
            | .ok (v, err) => .ok (if err = 0 then v else v.vllpDisconnect)
        | [] => vllpTx i (v.activeChannels.length + 2) v

/-! ## Calls from other threads -/

/-- `vllp_input`: remove the padding and queue the frame. -/
def vllpInput (v : Host) (frame : List Byte) : Host :=
  match (if v.fdcan then stripPad frame else some frame) with
  | none => v
  | some [] => v
  | some f => { v with rxq := v.rxq ++ [f] }

/-- `ffs(available_channel_ids) - 1` -/
def firstId (ids : BitVec 16) : Option Nat := (List.range 16).find? ids.getLsbD

def vllpChannelCreate (v : Host) (name : List Byte) (reconnect eof : Bool) : Host :=
  if !v.client then v
  else match firstId v.availableChannelIds with
    | none => v
    | some id =>
        let (v, a) := v.channelMake id .pendingOpen
        let v := v.setChan { v.chan a with name := name, reconnect := reconnect, eof := eof }
        { v with
          availableChannelIds := v.availableChannelIds &&& ~~~(1#16 <<< id)
          pendingOpen := v.pendingOpen ++ [a] }

def vllpChannelSend (v : Host) (a : Nat) (data : List Byte) : Host := v.channelSendMessage a data

/-- `vllp_channel_close` up to the wait for the peer. -/
def vllpChannelClose (v : Host) (a : Nat) (err : Int) : Except Halt Host :=
  match (v.chan a).state with
  | .created => .error (.panic "vllp_channel_close")
  | .pendingOpen =>
      .ok (({ v with pendingOpen := v.pendingOpen.filter (· != a) }.freeIdIfClient a).unlink a)
  | .openSent | .established | .active => .ok (v.channelSendClose a err)
  | .closeSent => .ok (v.unlink a)
  | .closed => .ok v

/-- The wait of `vllp_channel_close` ran out: close without the peer. -/
def closeTimeout (v : Host) (a : Nat) : Host :=
  if (v.chan a).state ≠ .closed then ((v.setState a .closed).freeIdIfClient a).unlink a else v

/-- A reader takes the next packet; an EOF is remembered. The reading thread of a channel with
callbacks, which drops the `eof` callback once it was called, is not part of the model. -/
def vllpChannelRead (v : Host) (a : Nat) : Host :=
  let vc := v.chan a
  if vc.isClosed then v
  else match vc.rxq with
    | [] => v
    | vp :: rest =>
        if vp.type = .eof then
          v.setChan { vc with rxq := rest, isClosed := true, closedStatus := (ofLe32 vp.data).toInt }
        else v.setChan { vc with rxq := rest }

/-- A read that is abandoned closes the channel for reading. -/
def readTimeout (v : Host) (a : Nat) : Host :=
  v.setChan { v.chan a with isClosed := true, closedStatus := vllpErrTimeout }

end Host

inductive HostEvent where
  | thread (i : HIn)
  | input (frame : List Byte)
  | create (name : List Byte) (reconnect eof : Bool)
  | send (a : Nat) (data : List Byte)
  | close (a : Nat) (err : Int)
  | closeTimeout (a : Nat)
  | read (a : Nat)
  | readTimeout (a : Nat)

/-- One event. The application holds channels it created, never the CMC. -/
def Host.step (v : Host) (e : HostEvent) : Except Halt Host :=
  let v := { v with out := [] }
  let app (a : Nat) (r : Except Halt Host) : Except Halt Host :=
    if a ≠ Host.cmc ∧ (v.objs.any (·.addr == a)) = true then r else .ok v
  match e with
  | .thread i => v.vllpThread i
  | .input frame => .ok (v.vllpInput frame)
  | .create name reconnect eof => .ok (v.vllpChannelCreate name reconnect eof)
  | .send a data => app a (.ok (v.vllpChannelSend a data))
  | .close a err => app a (v.vllpChannelClose a err)
  | .closeTimeout a => app a (.ok (v.closeTimeout a))
  | .read a => app a (.ok (v.vllpChannelRead a))
  | .readTimeout a => app a (.ok (v.readTimeout a))

/-- `vllp_create` for an MTU the library accepts. -/
def vllpCreate (client fdcan : Bool) (mtu : Nat) : Host :=
  { client := client, fdcan := fdcan
    objs := [newHChannel Host.cmc cmcId .established]
    channels := [Host.cmc], pendingOpen := [], activeChannels := [], rxq := []
    currentTx := none, crcIV := 0, channelIvCnt := 0
    availableChannelIds := if client then 0x3fff else 0
    remoteFlowStatus := 0xffff, localFlowStatus := 0xffff
    connected := false, S := false, E := true
    mtu := if fdcan && decide (8 < mtu) then mtu - 1 else mtu
    out := [] }

end Mios.Vllp
