import Mios.Lib.Heap
import Mios.Vllp.Frame

/-! The device end of a VLLP link (`net/vllp.c`). Time is left out: each timer
callback is an event that may happen at any moment. The answers of everything
below and above the link layer (buffer pool, services, applications) come in with
the event, so that a statement over all inputs covers every answer. What the
step emits or tells the application is collected in `out`. -/

namespace Mios.Vllp

open Lib Crc32 Pbuf

/-! ## State -/

def errNoBuffer : Int := -7
def errBadState : Int := -13
def errNotFound : Int := -17
def errChecksumError : Int := -18
def errMalformed : Int := -19
def errNoMemory : Int := -29
def errExist : Int := -35

/-- `struct vllp_channel`. The list links are the lists of addresses in `Dev`;
`hasApp` says that `pp.app` is set, which it is for all channels but the CMC. -/
structure Channel where
  addr : Nat
  id : Nat
  hasApp : Bool
  rxq : Chain
  txq : List Pbuf
  txCrcIV : BitVec 32
  rxCrcIV : BitVec 32
  appClosed : Nat
  netClosed : Bool
  deriving DecidableEq, Repr

/-- What a read through a dangling pointer finds in the model. -/
def deadChannel (addr : Nat) : Channel := ⟨addr, 0, false, [], [], 0, 0, 0, false⟩

/-- `struct vllp` and the channel objects it allocated. Channel `0` is the CMC. -/
structure Dev where
  objs : List Channel
  channels : List Nat
  established : List Nat
  currentTxBuf : Chain
  currentTxLen : Nat
  currentTxChannel : Nat
  crcIV : BitVec 32
  channelIvCnt : BitVec 32
  localFlowStatus : BitVec 16
  transmittedLocalFlowStatus : BitVec 16
  connected : Bool
  S : Bool
  E : Bool
  mtu : Nat
  out : List Ev
  deriving DecidableEq, Repr

/-- What a service promises of a packet it offers for transmission: the lengths are right
and the last buffer has room for the CRC (`max_fragment_size` is `PBUF_DATA_SIZE - 4`). -/
structure Offered (c : Chain) : Prop where
  sized : Sized c
  room : c ≠ [] → 4 ≤ Pbuf.room c
  max : (content c).length + 4 < 65536

/-- What the surroundings answer during one step. Applications are asked by channel
id, buffers for a CLOSE by channel pointer; `fill` is what uninitialised padding bytes
happen to contain. -/
structure Answers where
  mayPush : Nat → Bool
  pull : Nat → Chain
  serviceFind : List Byte → Bool
  openService : Int
  allocChannel : Bool
  allocRx : Bool
  allocTx : Bool
  allocAck : Bool
  allocFlow : Bool
  allocClose : Nat → Bool
  fill : List Byte

/-- Surroundings whose services keep their promise. -/
structure In extends Answers where
  pullOffered : ∀ id, Offered (pull id)

instance : Coe In Answers := ⟨In.toAnswers⟩

/-- Surroundings that grant everything and have nothing to send. -/
def In.calm : In where
  mayPush _ := true
  pull _ := []
  serviceFind _ := true
  openService := 0
  allocChannel := true
  allocRx := true
  allocTx := true
  allocAck := true
  allocFlow := true
  allocClose _ := true
  fill := []
  pullOffered _ := ⟨⟨rfl, by simp⟩, by simp, by simp⟩

namespace Dev

def cmc : Nat := 0

/-- Follow a channel pointer. -/
def chan (v : Dev) (a : Nat) : Channel := (Heap.get Channel.addr v.objs a).getD (deadChannel a)

/-- Store through a channel pointer. -/
def setChan (v : Dev) (c : Channel) : Dev :=
  { v with objs := Heap.put Channel.addr v.objs c }

def log (v : Dev) (e : Ev) : Dev := { v with out := v.out ++ [e] }

/-- The fragment that is outstanding, if any. -/
def currentFrag (v : Dev) : Option Frag :=
  match v.currentTxBuf with
  | [] => none
  | src => some ⟨v.currentTxChannel, headLen src == v.currentTxLen,
      (content src).take v.currentTxLen⟩

end Dev

open Dev

/-! ## Helpers -/

/-- `calc_crc32`: the complement of the CRC over all buffers. -/
def calcCrc32 (c : Chain) (iv : BitVec 32) : BitVec 32 := ~~~crc32 iv (content c)

def flowBit (channel : Nat) : BitVec 16 := 1#16 <<< channel

/-- `vllp_gen_channel_crc` -/
def vllpGenChannelCrc (v : Dev) : Dev × BitVec 32 :=
  let v := { v with channelIvCnt := v.channelIvCnt + 1 }
  (v, crc32 v.crcIV (le32 v.channelIvCnt))

def vllpChannelFind (v : Dev) (channelId : Nat) : Option Nat :=
  v.channels.find? fun a => (v.chan a).id == channelId

def vllpChannelMake (v : Dev) (id : Nat) : Dev × Nat :=
  let a := Heap.fresh Channel.addr v.objs
  ({ v with objs := ⟨a, id, true, [], [], 0, 0, 0, false⟩ :: v.objs, channels := a :: v.channels }, a)

def vllpChannelDestroy (v : Dev) (a : Nat) : Dev :=
  { v with objs := Heap.free Channel.addr v.objs a }

def vllpChannelMaybeDestroy (v : Dev) (a : Nat) : Dev :=
  if (v.chan a).appClosed = 2 ∧ (v.chan a).netClosed = true then vllpChannelDestroy v a else v

def localFlow (i : Answers) (v : Dev) : BitVec 16 :=
  v.channels.foldl (fun bits a =>
    if a = cmc then bits
    else if (v.chan a).netClosed then bits
    else if i.mayPush (v.chan a).id then bits
    else bits &&& ~~~flowBit (v.chan a).id) 0xffff

/-- `vllp_refresh_local_flow_status`; the flag tells whether the status changed. -/
def vllpRefreshLocalFlowStatus (i : Answers) (v : Dev) : Dev × Bool :=
  let bits := localFlow i v
  if v.localFlowStatus = bits then (v, false) else ({ v with localFlowStatus := bits }, true)

/-! ## Transmission

A buffer argument of the source that is reused for the answer is the flag `buf`:
`true` while the caller still owns it. -/

def vllpTxAck (alloc : Bool) (v : Dev) (buf : Bool) : Dev :=
  if buf || alloc then
    { v with transmittedLocalFlowStatus := v.localFlowStatus }.log
      (.tx (ackFrame v.crcIV v.S v.E v.localFlowStatus))
  else v

def setFlow (status : BitVec 16) (channel : Nat) (flow : Bool) : BitVec 16 :=
  (status &&& ~~~flowBit channel) ||| (if flow then flowBit channel else 0)

def vllpTx (i : Answers) (v : Dev) (buf : Bool) : Except Halt (Dev × Bool) :=
  match v.currentTxBuf with
  | [] => .ok (v, buf)
  | src =>
      if buf || i.allocTx then
        let last := headLen src == v.currentTxLen
        match pbufPullup src v.currentTxLen with
        | .error h => .error h
        | .ok (src', missing) =>
            if missing ≠ 0 then .error (.panic "vllp_tx")
            else
              let channel := v.currentTxChannel
              let flow := v.localFlowStatus.getLsbD channel
              let payload := (src'.headD default).data.take v.currentTxLen
              .ok ({ v with
                  currentTxBuf := src'
                  transmittedLocalFlowStatus :=
                    setFlow v.transmittedLocalFlowStatus channel flow }.log
                (.tx (addPad i.fill (hdrByte v.S v.E flow last channel :: payload))), false)
      else .ok (v, false) -- Tx-Drop, no bufs

def vllpFragment (i : Answers) (v : Dev) (buf : Bool) : Except Halt (Dev × Bool) :=
  let v := { v with currentTxLen := min (v.mtu - 1) (headLen v.currentTxBuf), S := !v.S }
  let v := match v.currentFrag with
    | some f => v.log (.start f)
    | none => v
  vllpTx i v buf

def moveToTail (l : List Nat) (a : Nat) : List Nat := l.filter (· != a) ++ [a]

def vllpChannelTx (i : Answers) (v : Dev) (a : Nat) (pb : Chain) (buf : Bool) :
    Except Halt (Dev × Bool) :=
  let vc := v.chan a
  let crc := calcCrc32 pb vc.txCrcIV
  let v := v.setChan { vc with txCrcIV := vc.txCrcIV + 1 }
  match pbufAppend pb (le32 crc) with
  | .error h => .error h
  | .ok pb =>
      let v := { v with currentTxBuf := pb, currentTxChannel := vc.id }
      match vllpFragment i v buf with
      | .error h => .error h
      | .ok (v, buf) => .ok ({ v with established := moveToTail v.established a }, buf)

/-- `send_cmc_message`: queue a three byte message on the CMC. -/
def sendCmcMessage (v : Dev) (opcode target : Nat) (err : Int) : Dev :=
  let e : BitVec 16 := BitVec.ofInt 16 err
  let pb : Pbuf := { pbufReset 1 with
    data := [BitVec.ofNat 8 (opcode * 16 + target), e.setWidth 8, (e >>> 8).setWidth 8]
    pktlen := 3 }
  let c := v.chan cmc
  v.setChan { c with txq := c.txq ++ [pb] }

def opcodeOpen : Nat := 0
def opcodeOpenResponse : Nat := 2
def opcodeClose : Nat := 3

/-- `vllp_tx_close`. The channel leaves the list of established channels before the
buffer for the message is known to exist. -/
def vllpTxClose (i : Answers) (v : Dev) (a : Nat) : Except Halt (Dev × Int) :=
  let v := { v with established := v.established.filter (· != a) }
  if !v.connected then .ok (v, 0)
  else if !i.allocClose a then .ok (v, errNoBuffer)
  else
    let v := sendCmcMessage v opcodeClose (v.chan a).id 0
    let (pb, rest) := pbufSplice (v.chan cmc).txq
    let v := v.setChan { v.chan cmc with txq := rest }
    match vllpChannelTx i v cmc pb false with
    | .error h => .error h
    | .ok (v, _) => .ok (v, 0)

/-- The loop of `vllp_maybe_tx` over the established channels. -/
def maybeTxLoop (i : Answers) (buf : Bool) : Dev → List Nat → Except Halt (Dev × Bool)
  | v, [] =>
      if v.transmittedLocalFlowStatus ≠ v.localFlowStatus then
        .ok (vllpTxAck i.allocFlow v buf, false)
      else .ok (v, buf)
  | v, a :: rest =>
      let vc := v.chan a
      if vc.hasApp then
        if vc.appClosed = 1 then
          match vllpTxClose i v a with
          | .error h => .error h
          | .ok (v, err) =>
              if err ≠ 0 then maybeTxLoop i buf v rest
              else
                let v := v.setChan { v.chan a with appClosed := 2 }
                .ok (vllpChannelMaybeDestroy v a, buf)
        else if vc.netClosed then maybeTxLoop i buf v rest
        else
          match i.pull vc.id with
          | [] => maybeTxLoop i buf v rest
          | out => vllpChannelTx i v a out buf
      else
        let (out, txq) := pbufSplice vc.txq
        let v := v.setChan { vc with txq := txq }
        match out with
        | [] => maybeTxLoop i buf v rest
        | out => vllpChannelTx i v a out buf

def vllpMaybeTx (i : Answers) (v : Dev) (buf : Bool) : Except Halt (Dev × Bool) :=
  match v.currentTxBuf with
  | [] => maybeTxLoop i buf v v.established
  | _ => .ok (v, buf)

def vllpAckPayload (i : Answers) (v : Dev) (buf : Bool) : Except Halt (Dev × Bool) :=
  match pbufDrop v.currentTxBuf v.currentTxLen true with
  | .error h => .error h
  | .ok rest =>
      let v := match v.currentFrag with
        | some f => v.log (.discard f)
        | none => v
      let v := { v with currentTxBuf := rest }
      match rest with
      | [] => .ok (v, buf)
      | _ => vllpFragment i v buf

/-! ## Connection and channel management -/

def vllpChannelNetClose (v : Dev) (a : Nat) : Dev :=
  let vc := v.chan a
  if vc.netClosed then v
  else
    let v := (v.log (.close vc.id)).setChan { vc with netClosed := true }
    vllpChannelMaybeDestroy { v with channels := v.channels.filter (· != a) } a

/-- The loop of `vllp_disconnect` over the linked channels. -/
def closeAll (v : Dev) : List Nat → Dev
  | [] => v
  | a :: rest => closeAll (if a = cmc then v else vllpChannelNetClose v a) rest

def vllpDisconnect (v : Dev) : Dev :=
  if !v.connected then v
  else { closeAll v v.channels with
    currentTxBuf := [], currentTxLen := 0, currentTxChannel := 0, connected := false }

/-- `vllp_accept_syn`; the frame has lost its padding. -/
def vllpAcceptSyn (v : Dev) (frame : List Byte) : Dev :=
  if frame.length ≠ 7 then v
  else if frame.getD 1 0 ≠ vllpVersion then v
  else if (frame.getD 2 0).toNat ≠ v.mtu then v
  else
    let v := if v.connected then vllpDisconnect v else v
    let v := { v with connected := true, S := false, E := true,
                      crcIV := ofLe32 (frame.drop 3), channelIvCnt := 0 }
    let (v, cmcIV) := vllpGenChannelCrc v
    let v := v.setChan { v.chan cmc with txCrcIV := cmcIV, rxCrcIV := ~~~cmcIV }
    vllpTxAck false v true

/-- The channel of a service that could be opened. -/
def addChannel (v : Dev) (target : Nat) (iv : BitVec 32) : Dev :=
  let (v, a) := vllpChannelMake v target
  let v := v.setChan { v.chan a with txCrcIV := iv, rxCrcIV := ~~~iv }
  { v with established := v.established ++ [a] }

def handleCmcOpen (i : Answers) (v : Dev) (target : Nat) (name : List Byte) : Dev × Int :=
  let (v, iv) := vllpGenChannelCrc v
  if !i.serviceFind name then (v, errNotFound)
  else if (vllpChannelFind v target).isSome then (v, errExist)
  else if !i.allocChannel then (v, errNoMemory)
  else if i.openService ≠ 0 then (v, i.openService) -- made, refused and freed again
  else (addChannel v target iv, 0)

def handleCmcClose (v : Dev) (target : Nat) (data : List Byte) : Dev × Int :=
  match vllpChannelFind v target with
  | none => (v, 0)
  | some a =>
      if a ≠ cmc ∧ data.length = 2 then (vllpChannelNetClose v a, 0) else (v, errMalformed)

def handleCmc (i : Answers) (v : Dev) (pb : Chain) : Dev × Int :=
  match (pb.headD default).data with
  | [] => (v, errBadState)
  | u :: data =>
      let opcode := (u >>> 4).toNat
      let target := hdrChannel u
      if opcode = opcodeOpen then
        let (v, err) := handleCmcOpen i v target data
        (sendCmcMessage v opcodeOpenResponse target err, 0)
      else if opcode = opcodeClose then handleCmcClose v target data
      else (v, errBadState)

/-! ## Reception -/

/-- Put the payload of a fragment into the receive queue. `next` is allocated only if
`to_copy > len`. -/
def rxqStore (alloc : Bool) (rxq : Chain) (data : List Byte) : Except Halt (Option Chain) :=
  let fresh : Pbuf := { pbufMake 0 with flags := 0 }
  match rxq.getLast? with
  | some pb =>
      let toCopy := min (dataSize - pb.buflen) data.length
      let stored := rxq.dropLast ++ [{ pb with data := pb.data ++ data.take toCopy }]
      if data.length < toCopy then
        if alloc then .ok (some (stored ++ [{ fresh with data := data.drop toCopy }])) else .ok none
      else .ok (some stored)
  | none =>
      if !alloc then .ok none
      else if dataSize < data.length then .error (.assertion "vllp_channel_receive")
      else .ok (some [{ fresh with data := data }])

def setEop : Chain → Chain
  | [] => []
  | [p] => [{ p with flags := eop }]
  | p :: q :: rest => p :: setEop (q :: rest)

/-- Flag the ends of a packet: the last buffer first, then the head. -/
def markEnds (c : Chain) : Chain :=
  match setEop c with
  | [] => []
  | p :: rest => { p with flags := p.flags ||| sop } :: rest

/-- A complete message: check the CRC, remove it and hand the rest on. -/
def channelMessage (i : Answers) (v : Dev) (a : Nat) (pb : Chain) : Except Halt (Dev × Int) :=
  let vc := v.chan a
  if calcCrc32 pb vc.rxCrcIV ≠ 0 then .ok (v, errChecksumError)
  else
    let v := v.setChan { vc with rxCrcIV := vc.rxCrcIV + 1 }
    match pbufTrim (pb.length + 1) pb 4 with
    | none => .error (.hang "pbuf_trim")
    | some pb =>
        if a = cmc then .ok (handleCmc i v pb)
        else .ok (v.log (.push vc.id pb), 0)

/-- `vllp_channel_receive` on the header and payload of a fragment. -/
def vllpChannelReceive (i : Answers) (v : Dev) (hdr : Byte) (data : List Byte) :
    Except Halt (Dev × Int) :=
  match vllpChannelFind v (hdrChannel hdr) with
  | none => .ok (v, 0) -- We just ignore these errors
  | some a =>
      let vc := v.chan a
      if vc.netClosed then .ok (v, 0)
      else if hdrL hdr && !v.localFlowStatus.getLsbD (hdrChannel hdr) then .ok (v, errNoBuffer)
      else
        match rxqStore i.allocRx vc.rxq data with
        | .error h => .error h
        | .ok none => .ok (v, errNoBuffer)
        | .ok (some []) => .ok (v, 0) -- not reached, a store leaves a buffer
        | .ok (some (p :: rest)) =>
            let rxq := p.addLen data.length :: rest
            if hdrL hdr then channelMessage i (v.setChan { vc with rxq := [] }) a (markEnds rxq)
            else .ok (v.setChan { vc with rxq := rxq }, 0)

/-- The acknowledgement half of `vllp_rx`. -/
def rxAck (i : Answers) (v : Dev) (peerAccepted : Bool) : Except Halt Dev :=
  let r : Except Halt (Dev × Bool) := match v.currentTxBuf with
    | [] => .ok (v, true)
    | _ => if peerAccepted then vllpAckPayload i v true else .ok (v, true)
  match r with
  | .error h => .error h
  | .ok (v, buf) =>
      match vllpMaybeTx i v buf with
      | .error h => .error h
      | .ok (v, _) => .ok v

/-- The data half of `vllp_rx`, for a frame with the expected sequence bit. The
flag is `false` when the link was torn down. -/
def rxData (i : Answers) (v : Dev) (hdr : Byte) (data : List Byte) : Except Halt (Dev × Bool) :=
  match vllpChannelReceive i v hdr data with
  | .error h => .error h
  | .ok (v, err) =>
      if err = 0 then
        let v := { v with
          transmittedLocalFlowStatus :=
            v.transmittedLocalFlowStatus &&& ~~~flowBit (hdrChannel hdr)
          E := !v.E }
        .ok (v.log (.accept ⟨hdrChannel hdr, hdrL hdr, data⟩), true)
      else if err = errNoBuffer then .ok (v, true)
      else if err = errChecksumError then .ok (vllpDisconnect v, false)
      else if err = errBadState then .ok (vllpDisconnect v, false)
      else .error (.panic "vllp_channel_receive")

/-- `vllp_rx` behind the removal of the padding. -/
def rxFrame (i : Answers) (v : Dev) (frame : List Byte) : Except Halt Dev :=
  match frame with
  | [] => .ok v
  | hdr :: data =>
      if hdr = synByte then .ok (vllpAcceptSyn v frame)
      else if isAck hdr && crc32 v.crcIV frame != BitVec.allOnes 32 then .ok v
      else if isAck hdr && frame.length != 7 then .ok v
      else
        let peerAccepted := hdrE hdr != v.S
        let weCanAccept := hdrS hdr == v.E
        if !v.connected then .ok v
        else if hdrChannel hdr ≠ 15 && weCanAccept then
          match rxData i v hdr data with
          | .error h => .error h
          | .ok (v, false) => .ok v
          | .ok (v, true) => rxAck i v peerAccepted
        else rxAck i v peerAccepted

def vllpRx (i : Answers) (v : Dev) (frame : List Byte) : Except Halt Dev :=
  let (v, _) := vllpRefreshLocalFlowStatus i v
  match stripPad frame with
  | none => .ok (vllpDisconnect v) -- invalid pad
  | some frame => rxFrame i v frame

/-! ## Events -/

def vllpAckTimer (i : Answers) (v : Dev) : Dev :=
  vllpTxAck i.allocAck (vllpRefreshLocalFlowStatus i v).1 false

def vllpRtxTimer (i : Answers) (v : Dev) : Except Halt Dev :=
  (vllpTx i (vllpRefreshLocalFlowStatus i v).1 false).map (·.1)

/-- The part of `vllp_channel_task_cb` behind the close flag. -/
def taskTx (i : Answers) (v : Dev) : Except Halt Dev :=
  let (v, changed) := vllpRefreshLocalFlowStatus i v
  let v := if changed then vllpTxAck i.allocAck v false else v
  (vllpMaybeTx i v false).map (·.1)

def vllpChannelTaskCb (i : Answers) (v : Dev) (a : Nat) (close : Bool) : Except Halt Dev :=
  if close then
    if (v.chan a).appClosed ≠ 0 then .ok v
    else taskTx i (v.setChan { v.chan a with appClosed := 1 })
  else taskTx i v

/-- What happens to the device, with the answers of the surroundings. -/
inductive EventOf (ι : Type) where
  | rx (i : ι) (frame : List Byte)
  | ackTimer (i : ι)
  | rtxTimer (i : ι)
  | timeout
  | task (i : ι) (a : Nat) (close : Bool)

abbrev DevEvent := EventOf In

/-- One event. A task callback needs a live channel other than the CMC, which has no
application to raise it. -/
def Dev.stepOf {ι : Type} (answers : ι → Answers) (v : Dev) (e : EventOf ι) : Except Halt Dev :=
  let v := { v with out := [] }
  match e with
  | .rx i frame => vllpRx (answers i) v frame
  | .ackTimer i => .ok (vllpAckTimer (answers i) v)
  | .rtxTimer i => vllpRtxTimer (answers i) v
  | .timeout => .ok (vllpDisconnect v)
  | .task i a close =>
      if a ≠ cmc ∧ (v.objs.any (·.addr == a)) = true then vllpChannelTaskCb (answers i) v a close
      else .ok v

def Dev.step (v : Dev) (e : DevEvent) : Except Halt Dev := v.stepOf In.toAnswers e

/-- `vllp_server_create` with the MTU of the link. -/
def vllpServerCreate (mtu : Nat) : Dev :=
  { objs := [⟨cmc, cmcId, false, [], [], 0, 0, 0, false⟩]
    channels := [cmc], established := [cmc]
    currentTxBuf := [], currentTxLen := 0, currentTxChannel := 0
    crcIV := 0, channelIvCnt := 0
    localFlowStatus := 0, transmittedLocalFlowStatus := 0
    connected := false, S := false, E := false
    mtu := if 8 < mtu then mtu - 1 else mtu
    out := [] }

end Mios.Vllp
