import Mios.Vllp.DeviceRx
import Mios.Vllp.HostLink

/-! Isolation of sessions. An end that starts a session from a clean state shows from
then on what an end without a history would show: what it sends, starts, accepts and
discards, and what it tells its applications. -/

namespace Mios.Vllp

open Lib Crc32 HChannel

/-! ## The device -/

namespace Dev

/-- A server as it was created, for the MTU of `v`. -/
def renew (v : Dev) : Dev := { vllpServerCreate v.mtu with mtu := v.mtu }

/-- Nothing of an earlier session is left: all its channels are freed, the CMC neither
holds a part of a message nor waits to send one, and no fragment is outstanding that a
disconnect would not drop. -/
structure Clean (v : Dev) : Prop where
  objs : ∃ tx rx, v.objs = [⟨cmc, cmcId, false, [], [], tx, rx, 0, false⟩]
  channels : v.channels = [cmc]
  established : v.established = [cmc]
  idle : v.connected = true ∨
    v.currentTxBuf = [] ∧ v.currentTxLen = 0 ∧ v.currentTxChannel = 0

/-- The event is a link request that the device takes. -/
def StartsSession (v : Dev) : DevEvent → Prop
  | .rx _ frame => v.takesSyn ((stripPad frame).getD []) = true
  | _ => False

instance (v : Dev) (e : DevEvent) : Decidable (v.StartsSession e) :=
  match e with
  | .rx .. => inferInstanceAs (Decidable (_ = true))
  | .ackTimer _ | .rtxTimer _ | .timeout | .task .. => isFalse id

/-- A device that has just started a session. -/
def started (mtu : Nat) (cookie : BitVec 32) : Dev :=
  let iv := crc32 cookie (le32 1)
  { vllpServerCreate mtu with
    mtu := mtu
    objs := [⟨cmc, cmcId, false, [], [], iv, ~~~iv, 0, false⟩]
    crcIV := cookie, channelIvCnt := 1, connected := true, E := true
    localFlowStatus := 0xffff, transmittedLocalFlowStatus := 0xffff
    out := [.tx (ackFrame cookie false true 0xffff)] }

theorem renew_clean (v : Dev) : v.renew.Clean := ⟨⟨0, 0, rfl⟩, rfl, rfl, .inr ⟨rfl, rfl, rfl⟩⟩

theorem refresh_cmc (i : In) (v : Dev) (h : v.channels = [cmc]) :
    (vllpRefreshLocalFlowStatus i v).1 = { v with localFlowStatus := 0xffff } := by
  have hflow : localFlow i v = 0xffff := by simp [localFlow, h]
  unfold vllpRefreshLocalFlowStatus
  rw [hflow]
  dsimp only
  split
  · rename_i hsame
    rw [← hsame]
  · rfl

/-- Without open channels a disconnect drops the outstanding fragment and nothing else. -/
theorem disconnect_clean {v : Dev} (h : v.Clean) : (if v.connected then vllpDisconnect v else v) =
      { v with currentTxBuf := [], currentTxLen := 0, currentTxChannel := 0, connected := false } := by
  split
  · rename_i hconn
    simp [vllpDisconnect, hconn, h.channels, closeAll]
  rename_i hconn
  obtain ⟨hbuf, hlen, hchan⟩ := h.idle.resolve_left hconn
  cases v
  simp_all

theorem acceptSyn_clean {v : Dev} (h : v.Clean) (hflow : v.localFlowStatus = 0xffff)
    (hout : v.out = []) {f : List Byte} (ht : v.takesSyn f = true) :
    vllpAcceptSyn v f = started v.mtu (ofLe32 (f.drop 3)) := by
  simp only [takesSyn, Bool.and_eq_true, beq_iff_eq] at ht
  obtain ⟨⟨⟨-, hlen⟩, hver⟩, hmtu⟩ := ht
  obtain ⟨tx, rx, hobjs⟩ := h.objs
  unfold vllpAcceptSyn
  rw [if_neg (not_not_intro hlen), if_neg (not_not_intro hver), if_neg (not_not_intro hmtu),
    disconnect_clean h]
  simp [vllpGenChannelCrc, vllpTxAck, started, vllpServerCreate, setChan, Dev.chan, Dev.log, Heap.put,
    Heap.get, hobjs, h.channels, h.established, hflow, hout]

/-- The first step of a session leaves nothing of the state before it. -/
theorem Clean.step_started {v : Dev} (h : v.Clean) (i : In) {frame f : List Byte}
    (hf : stripPad frame = some f) (ht : v.takesSyn f = true) :
    v.step (.rx i frame) = .ok (started v.mtu (ofLe32 (f.drop 3))) := by
  have hrx : ∀ u : Dev, vllpRx i u frame = rxFrame i (vllpRefreshLocalFlowStatus i u).1 f := by
    intro u
    simp only [vllpRx, hf]
  have hclean : Clean { v with out := [], localFlowStatus := 0xffff } :=
    { h with }
  have hsyn : f.head? = some synByte := by
    simp only [takesSyn, Bool.and_eq_true, beq_iff_eq] at ht
    exact ht.1.1.1
  simp only [Dev.step, Dev.stepOf, hrx]
  rw [refresh_cmc i { v with out := [] } h.channels]
  cases f with
  | nil => simp at hsyn
  | cons hdr data =>
    have hhdr : hdr = synByte := by simpa using hsyn
    simp only [rxFrame, if_pos hhdr]
    exact congrArg _ (acceptSyn_clean hclean rfl rfl ht)

/-- A session that starts from a clean state is that of a new server. -/
theorem Clean.trace_eq {v : Dev} (h : v.Clean) {e : DevEvent} (he : v.StartsSession e)
    (es : List DevEvent) :
    trace Dev.step Dev.out v (e :: es) = trace Dev.step Dev.out v.renew (e :: es) := by
  cases e with
  | rx i frame =>
    cases hf : stripPad frame with
    | none => simp [StartsSession, hf, takesSyn] at he
    | some f =>
      have ht : v.takesSyn f = true := by simpa [StartsSession, hf] using he
      apply trace_congr
      rw [h.step_started i hf ht, v.renew_clean.step_started i hf ht]
      rfl
  | _ => cases he

end Dev

/-! ## The host -/

def HChannel.withIV (c : HChannel) (tx rx : BitVec 32) : HChannel :=
  { c with txCrcIV := tx, rxCrcIV := rx }

namespace Host

/-- A channel without a history: the CMC as created, a linked channel waiting to be opened,
any other one closed, unless its application gave it up before it was opened. Messages
for a channel that reconnects are gone, a new one keeps what its application sent. -/
def renewChan (v : Host) (c : HChannel) : HChannel :=
  if c.addr = cmc then newHChannel cmc cmcId .established
  else { c with
    state := if c.addr ∈ v.channels ∨ c.state = .pendingOpen then .pendingOpen else .closed
    txq := [], rxbuf := []
    mtxq := if c.reconnect then [] else c.mtxq }

/-- A host as it was created, with the channels its applications hold and with the frames
that wait in the receive queue. -/
def renew (v : Host) : Host :=
  { vllpCreate v.client v.fdcan v.mtu with
    mtu := v.mtu
    objs := v.objs.map v.renewChan
    channels := v.channels, pendingOpen := v.pendingOpen
    availableChannelIds := v.availableChannelIds
    rxq := v.rxq, localFlowStatus := v.localFlowStatus }

/-- Nothing of an earlier session is left: no packet is outstanding, no channel is active,
every channel is as without a history but for its IVs; for a server, also the flow bits of
the peer, and the CMC is the only channel. -/
structure Clean (v : Host) : Prop where
  idle : v.currentTx = none
  active : v.activeChannels = []
  chans : ∀ c ∈ v.objs, c = (v.renewChan c).withIV c.txCrcIV c.rxCrcIV
  bits : v.connected = false → v.S = false ∧ v.E = true
  server : v.client = false →
    v.channels = [cmc] ∧ v.pendingOpen = [] ∧ v.remoteFlowStatus = 0xffff

/-- The frame is a link request that a server takes. -/
def takesSyn (v : Host) (f : List Byte) : Bool :=
  f.head? == some synByte && f.length == 7 && f.getD 1 0 == vllpVersion &&
    (f.getD 2 0).toNat == v.mtu

/-- The event is a round of the thread in which a client asks for a session, or in which a
server takes a link request. -/
def StartsSession (v : Host) : HostEvent → Prop
  | .thread i => i.timedOut = false ∧
      (v.client = true ∧ v.connected = false ∧ v.rxq = [] ∧ i.ackDue = true ∧
          i.cookie.isSome = true ∨
        v.client = false ∧ ∃ f rest, v.rxq = f :: rest ∧ v.takesSyn f = true)
  | _ => False

/-! ### A client -/

/-- The flow bits of the peer replaced. -/
def withFlow (v : Host) (r : BitVec 16) : Host := { v with remoteFlowStatus := r }

/-- A client without a session, and the same client with other flow bits. -/
structure Idle (r : BitVec 16) (v w : Host) : Prop where
  client : v.client = true
  connected : v.connected = false
  eq : w = v.withFlow r

/-- The call `F` does not look at the flow bits and leaves the session alone. -/
structure FlowBlind (F : Host → Host) (v : Host) (r : BitVec 16) : Prop where
  comm : F (v.withFlow r) = (F v).withFlow r
  client : (F v).client = v.client
  connected : (F v).connected = v.connected

variable {r : BitVec 16} {i : HIn} {v w : Host}

theorem FlowBlind.comp {F G : Host → Host} (hF : FlowBlind F v r)
    (hG : FlowBlind G (F v) r) : FlowBlind (fun u => G (F u)) v r :=
  ⟨(congrArg G hF.comm).trans hG.comm, hG.client.trans hF.client, hG.connected.trans hF.connected⟩

theorem FlowBlind.ite {F G : Host → Host} {c : Host → Prop} [∀ u, Decidable (c u)]
    (hc : c (v.withFlow r) ↔ c v) (hF : FlowBlind F v r) (hG : FlowBlind G v r) :
    FlowBlind (fun u => if c u then F u else G u) v r := by
  by_cases h : c v
  · constructor <;> simp only [if_pos h, if_pos (hc.mpr h), hF.comm, hF.client, hF.connected]
  · constructor <;> simp only [if_neg h, if_neg (h ∘ hc.mp), hG.comm, hG.client, hG.connected]

theorem flowBlind_freeIdIfClient (a : Nat) : FlowBlind (freeIdIfClient · a) v r := by
  unfold freeIdIfClient
  exact .ite Iff.rfl ⟨rfl, rfl, rfl⟩ ⟨rfl, rfl, rfl⟩

theorem flowBlind_send (a : Nat) (vp : Pkt) : FlowBlind (channelSendVp · a vp) v r := by
  unfold channelSendVp
  exact .ite Iff.rfl ⟨rfl, rfl, rfl⟩ ⟨rfl, rfl, rfl⟩

theorem flowBlind_create (name : List Byte) (reconnect eof : Bool) :
    FlowBlind (vllpChannelCreate · name reconnect eof) v r := by
  unfold vllpChannelCreate
  refine .ite Iff.rfl ⟨rfl, rfl, rfl⟩ ?_
  cases hid : firstId v.availableChannelIds with
  | none | some id =>
    have hid' := (congrArg firstId (rfl : (v.withFlow r).availableChannelIds = _)).trans hid
    constructor <;> simp only [hid, hid'] <;> rfl

theorem flowBlind_closeTimeout (a : Nat) : FlowBlind (closeTimeout · a) v r := by
  unfold closeTimeout
  have hset : FlowBlind (setState · a .closed) v r := ⟨rfl, rfl, rfl⟩
  have hfree := hset.comp (flowBlind_freeIdIfClient a)
  exact .ite Iff.rfl (hfree.comp (G := (unlink · a)) ⟨rfl, rfl, rfl⟩) ⟨rfl, rfl, rfl⟩

theorem flowBlind_read (a : Nat) : FlowBlind (vllpChannelRead · a) v r := by
  unfold vllpChannelRead
  have hchan : (v.withFlow r).chan a = v.chan a := rfl
  refine .ite Iff.rfl ⟨rfl, rfl, rfl⟩ ?_
  cases hq : (v.chan a).rxq with
  | nil => constructor <;> simp only [hchan, hq]
  | cons vp rest =>
    by_cases heof : vp.type = .eof
    · constructor <;> simp only [hchan, hq, if_pos heof] <;> rfl
    · constructor <;> simp only [hchan, hq, if_neg heof] <;> rfl

theorem flowBlind_input (frame : List Byte) : FlowBlind (vllpInput · frame) v r := by
  have hfdcan : (v.withFlow r).fdcan = v.fdcan := rfl
  cases hf : (if v.fdcan then stripPad frame else some frame) with
  | none => constructor <;> simp only [vllpInput, hfdcan, hf]
  | some f =>
    cases f with
    | nil => constructor <;> simp only [vllpInput, hfdcan, hf]
    | cons =>
      constructor
      · simp only [vllpInput, hfdcan, hf]
        rfl
      · simp only [vllpInput, hf]
      · simp only [vllpInput, hf]

/-- Two states that take the event alike: they do the same or stay related. -/
def Alike (r : BitVec 16) (x y : Except Halt Host) : Prop :=
  x = y ∨ ∃ v w, x = .ok v ∧ y = .ok w ∧ v.out = w.out ∧ Idle r v w

theorem FlowBlind.alike {F : Host → Host} (hF : FlowBlind F v r) (h : Idle r v w) :
    Alike r (.ok (F v)) (.ok (F w)) :=
  .inr ⟨F v, (F v).withFlow r, rfl, by rw [h.eq, hF.comm], rfl, hF.client.trans h.client,
    hF.connected.trans h.connected, rfl⟩

theorem Idle.close (h : Idle r v w) (a : Nat) (err : Int) :
    Alike r (v.vllpChannelClose a err) (w.vllpChannelClose a err) := by
  have hchan : w.chan a = v.chan a := by rw [h.eq]; rfl
  unfold vllpChannelClose
  rw [hchan]
  split
  · exact .inl rfl
  · have hfree := FlowBlind.comp (v := v) (r := r)
      (F := fun u => { u with pendingOpen := u.pendingOpen.filter (· != a) }) ⟨rfl, rfl, rfl⟩
      (flowBlind_freeIdIfClient a)
    exact (hfree.comp (G := (unlink · a)) ⟨rfl, rfl, rfl⟩).alike h
  · exact (flowBlind_send a _).alike h
  · exact (flowBlind_send a _).alike h
  · exact (flowBlind_send a _).alike h
  · exact FlowBlind.alike (F := (unlink · a)) ⟨rfl, rfl, rfl⟩ h
  · exact FlowBlind.alike (F := id) ⟨rfl, rfl, rfl⟩ h

theorem disconnect_idle (hconn : v.connected = false) : v.vllpDisconnect = v := by
  simp [vllpDisconnect, hconn]

theorem Idle.alike (h : Idle r v w) : Alike r (.ok v) (.ok w) :=
  FlowBlind.alike (F := id) ⟨rfl, rfl, rfl⟩ h

theorem flowBlind_sendSyn (i : HIn) : FlowBlind (vllpSendSyn i) v r := by
  cases hc : i.cookie with
  | none | some cookie => constructor <;> simp only [vllpSendSyn, hc] <;> rfl

/-- How a round of the thread takes a frame. -/
def takeFrame (i : HIn) (v : Host) (f : List Byte) : Except Halt Host :=
  match v.vllpHandleRx i f with
  | .error h => .error h
  | .ok (v, err) => .ok (if err = 0 then v else v.vllpDisconnect)

/-- To a client without a session a frame is either of no use, or an acknowledgement, which
brings new flow bits. -/
theorem Idle.takeFrame (h : Idle r v w) (i : HIn) (f : List Byte) :
    Alike r (v.takeFrame i f) (w.takeFrame i f) := by
  obtain ⟨hclient, hconn, rfl⟩ := id h
  have hclient' : (v.withFlow r).client = true := hclient
  have hconn' : (v.withFlow r).connected = false := hconn
  -- whatever fails leaves a client without a session as it is
  have hfail : ∀ err : Int, err ≠ 0 → (v.vllpHandleRx i f = .ok (v, err)) →
      ((v.withFlow r).vllpHandleRx i f = .ok (v.withFlow r, err)) →
      Alike r (v.takeFrame i f) ((v.withFlow r).takeFrame i f) := by
    intro err herr hv hw
    simp only [Host.takeFrame, hv, hw, if_neg herr, disconnect_idle hconn, disconnect_idle hconn']
    exact h.alike
  cases f with
  | nil => exact hfail _ (by decide) rfl rfl
  | cons hdr payload =>
    have hrx : ∀ u : Host, u.vllpHandleRx i (hdr :: payload) =
        if hdr = synByte then .ok (u.vllpAcceptSyn (hdr :: payload))
        else if isAck hdr && crc32 u.crcIV (hdr :: payload) != BitVec.allOnes 32 then
          .ok (u, vllpErrChecksumError)
        else if isAck hdr && (hdr :: payload).length != 7 then .ok (u, vllpErrMalformed)
        else if (u.ackFlow hdr payload).connected then
          (u.ackFlow hdr payload).rxSession i hdr payload
        else if (u.ackFlow hdr payload).client then
          if hdr ≠ synResponse then .ok (u.ackFlow hdr payload, vllpErrBadState)
          else .ok ({ u.ackFlow hdr payload with connected := true }, vllpErrOk)
        else .ok (u.ackFlow hdr payload, vllpErrOk) := fun _ => rfl
    by_cases hsyn : hdr = synByte
    · refine hfail vllpErrMalformed (by decide) ?_ ?_
      · rw [hrx, if_pos hsyn, vllpAcceptSyn, if_pos hclient]
      · rw [hrx, if_pos hsyn, vllpAcceptSyn, if_pos hclient']
    by_cases hcrc : (isAck hdr && crc32 v.crcIV (hdr :: payload) != BitVec.allOnes 32) = true
    · refine hfail vllpErrChecksumError (by decide) ?_ ?_
      · rw [hrx, if_neg hsyn, if_pos hcrc]
      · rw [hrx, if_neg hsyn]
        exact if_pos hcrc
    by_cases hlen : (isAck hdr && (hdr :: payload).length != 7) = true
    · refine hfail vllpErrMalformed (by decide) ?_ ?_
      · rw [hrx, if_neg hsyn, if_neg hcrc, if_pos hlen]
      · rw [hrx, if_neg hsyn, if_pos hlen]
        exact if_neg hcrc
    by_cases hack : isAck hdr = true
    · left
      have hflow : (v.withFlow r).ackFlow hdr payload = v.ackFlow hdr payload := by
        simp only [ackFlow, if_pos hack]
        rfl
      have hrest : (v.withFlow r).vllpHandleRx i (hdr :: payload) =
          v.vllpHandleRx i (hdr :: payload) := by
        have hcrc' : ¬(isAck hdr && crc32 (v.withFlow r).crcIV (hdr :: payload) !=
            BitVec.allOnes 32) = true := hcrc
        simp only [hrx, hflow, if_neg hsyn, if_neg hcrc, if_neg hcrc', if_neg hlen]
      simp only [Host.takeFrame, hrest]
    · have hne : hdr ≠ synResponse := by
        rintro rfl
        exact hack (by decide)
      have hflow : ∀ u : Host, u.ackFlow hdr payload = u := fun u => if_neg hack
      refine hfail vllpErrBadState (by decide) ?_ ?_
      · simp [hrx, hsyn, hack, hflow, hconn, hclient, hne]
      · simp [hrx, hsyn, hack, hflow, hconn', hclient', hne]

/-- A round of the thread without a session. -/
def idleRound (i : HIn) (u : Host) : Except Halt Host :=
  if i.timedOut then .ok u.vllpDisconnect else match u.rxq with
    | f :: rest => { u with rxq := rest }.takeFrame i f
    | [] => .ok (if u.client && i.ackDue then u.vllpSendSyn i else u)

theorem Idle.thread (h : Idle r v w) (i : HIn) : Alike r (v.vllpThread i) (w.vllpThread i) := by
  have hround : ∀ u : Host, u.connected = false → u.vllpThread i = idleRound i u := by
    intro u hu
    simp only [vllpThread, idleRound, hu, Bool.false_eq_true, if_false, vllpTx, Bool.not_false,
      if_true]
    rfl
  obtain ⟨hclient, hconn, rfl⟩ := id h
  rw [hround v hconn, hround (v.withFlow r) hconn]
  unfold idleRound
  split
  · rw [disconnect_idle hconn, disconnect_idle (v := v.withFlow r) hconn]
    exact h.alike
  have hrxq : (v.withFlow r).rxq = v.rxq := rfl
  rw [hrxq]
  cases v.rxq with
  | nil =>
    have hask : FlowBlind (fun u => if u.client && i.ackDue then u.vllpSendSyn i else u) v r :=
      .ite Iff.rfl (flowBlind_sendSyn i) ⟨rfl, rfl, rfl⟩
    exact hask.alike h
  | cons f rest => exact Idle.takeFrame (v := { v with rxq := rest }) ⟨hclient, hconn, rfl⟩ i f

/-- Without a session the flow bits of the peer do not matter: the answer that starts one
brings new ones. -/
theorem Idle.step (h : Idle r v w) (e : HostEvent) : Alike r (v.step e) (w.step e) := by
  obtain ⟨hclient, hconn, rfl⟩ := h
  have h : Idle r { v with out := [] } (withFlow { v with out := [] } r) := ⟨hclient, hconn, rfl⟩
  -- a call that the application may not make does nothing
  have happ : ∀ (live : Prop) [Decidable live] (x y : Except Halt Host), Alike r x y →
      Alike r (if live then x else .ok { v with out := [] })
        (if live then y else .ok (withFlow { v with out := [] } r)) := by
    intro live _ x y hxy
    split
    · exact hxy
    · exact h.alike
  cases e with
  | thread i => exact h.thread i
  | input frame => exact (flowBlind_input frame).alike h
  | create name reconnect eof => exact (flowBlind_create name reconnect eof).alike h
  | send a data => exact happ _ _ _ ((flowBlind_send a _).alike h)
  | close a err => exact happ _ _ _ (h.close a err)
  | closeTimeout a => exact happ _ _ _ ((flowBlind_closeTimeout a).alike h)
  | read a => exact happ _ _ _ ((flowBlind_read a).alike h)
  | readTimeout a =>
    exact happ _ _ _ (FlowBlind.alike (F := (readTimeout · a)) ⟨rfl, rfl, rfl⟩ h)

theorem idle_trace (hclient : v.client = true) (hconn : v.connected = false) (es : List HostEvent) :
    trace Host.step Host.out v es = trace Host.step Host.out (v.withFlow r) es :=
  trace_eq_of_sim (R := Idle r) (fun _ _ e h => h.step e) ⟨hclient, hconn, rfl⟩ es

/-! ### Both roles -/

theorem renewChan_addr (v : Host) (c : HChannel) : (v.renewChan c).addr = c.addr := by
  unfold renewChan
  split
  · rename_i hc
    exact hc.symm
  · rfl

theorem renew_chan {c : HChannel} (hc : Heap.get addr v.objs cmc = some c) :
    v.renew.chan cmc = v.renewChan c := by
  have hget : Heap.get addr v.renew.objs cmc =
      (Heap.get addr v.objs cmc).map v.renewChan := by
    simp only [Heap.get, renew, List.find?_map]
    congr 2
    funext d
    simp [renewChan_addr]
  rw [Host.chan, hget, hc]
  rfl

section

variable (h : v.Clean)
include h

/-- A channel other than the CMC is the same with and without a history. -/
theorem Clean.renewChan_eq {c : HChannel} (hc : c ∈ v.objs)
    (hne : c.addr ≠ cmc) : v.renewChan c = c := by
  have hself := h.chans c hc
  simp only [renewChan, if_neg hne, withIV] at hself ⊢
  exact hself.symm

/-- With new IVs so is the CMC. -/
theorem Clean.put_cmc (tx rx : BitVec 32) :
    Heap.put addr v.renew.objs ((v.renew.chan cmc).withIV tx rx) =
      Heap.put addr v.objs ((v.chan cmc).withIV tx rx) := by
  have haddr : ∀ u : Host, ((u.chan cmc).withIV tx rx).addr = cmc := fun u => u.chan_addr cmc
  show ((v.objs.map v.renewChan).map _) = v.objs.map _
  rw [List.map_map]
  apply List.map_congr_left
  intro x hx
  simp only [Function.comp_apply, renewChan_addr, haddr]
  by_cases hxc : x.addr = cmc
  · cases hget : Heap.get addr v.objs cmc with
    | none => exact absurd (beq_iff_eq.mpr hxc) (List.find?_eq_none.mp hget x hx)
    | some c =>
      have hc : v.chan cmc = c := by rw [Host.chan, hget, Option.getD_some]
      have hself := h.chans c (Heap.mem_of_get hget)
      rw [if_pos (beq_iff_eq.mpr hxc), if_pos (beq_iff_eq.mpr hxc), renew_chan hget, hc]
      exact (congrArg (withIV · tx rx) hself).symm
  · have hne : ¬(x.addr == cmc) = true := fun hx => hxc (beq_iff_eq.mp hx)
    rw [if_neg hne, if_neg hne, h.renewChan_eq hx hxc]

omit h in
theorem vllpSendSyn_eq {cookie : BitVec 32} (hc : i.cookie = some cookie) (v : Host) :
    v.vllpSendSyn i =
      { v with
        crcIV := cookie, rxq := [], channelIvCnt := 1
        objs := Heap.put addr v.objs
          ((v.chan cmc).withIV (~~~crc32 cookie (le32 1)) (crc32 cookie (le32 1)))
        out := v.out ++ [.tx (synFrame v.mtu cookie)] } := by
  simp only [vllpSendSyn, hc]
  rfl

/-- A client that asks for a session: from a clean state only the flow bits of the peer tell
it from one without a history. -/
theorem Clean.ask (hclient : v.client = true)
    (hconn : v.connected = false) (hrxq : v.rxq = []) (hto : i.timedOut = false)
    (hdue : i.ackDue = true) (hcookie : i.cookie.isSome = true) :
    ∃ w : Host, v.step (.thread i) = .ok w ∧ w.client = true ∧ w.connected = false ∧
      v.renew.step (.thread i) = .ok (w.withFlow 0xffff) := by
  obtain ⟨cookie, hc⟩ := Option.isSome_iff_exists.mp hcookie
  have hround : ∀ u : Host, u.client = true → u.connected = false → u.rxq = [] →
      u.step (.thread i) = .ok (vllpSendSyn i { u with out := [] }) := by
    intro u hcl hco hq
    simp [Host.step, vllpThread, vllpTx, hto, hdue, hcl, hco, hq]
  refine ⟨_, hround v hclient hconn hrxq, ?_, ?_, ?_⟩
  · rw [vllpSendSyn_eq hc]
    exact hclient
  · rw [vllpSendSyn_eq hc]
    exact hconn
  obtain ⟨hS, hE⟩ := h.bits hconn
  rw [hround v.renew hclient rfl hrxq, vllpSendSyn_eq hc, vllpSendSyn_eq hc]
  have hobjs := h.put_cmc (~~~crc32 cookie (le32 1)) (crc32 cookie (le32 1))
  simp only [withFlow, Except.ok.injEq, Host.mk.injEq, h.idle, h.active, hS, hE, hconn]
  refine ⟨rfl, rfl, hobjs, ?_⟩
  repeat' constructor

/-- A server that has just taken a link request. -/
def served (v : Host) (cookie : BitVec 32) (rest : List (List Byte)) : Host :=
  { v with
    crcIV := cookie, rxq := rest, channelIvCnt := 1, connected := true, S := false, E := true
    currentTx := none, activeChannels := [], pendingOpen := []
    objs := Heap.put addr v.objs
      ((v.chan cmc).withIV (crc32 cookie (le32 1)) (~~~crc32 cookie (le32 1)))
    out := [.tx (ackFrame cookie false true v.localFlowStatus)] }

theorem Clean.disconnect (hclient : v.client = false) :
    v.vllpDisconnect = { v with connected := false, S := false, E := true } := by
  by_cases hconn : v.connected = true
  · simp [vllpDisconnect, hconn, (h.server hclient).1, disconnectLoop, callEof]
  have hoff := Bool.eq_false_iff.mpr hconn
  obtain ⟨hS, hE⟩ := h.bits hoff
  rw [disconnect_idle hoff]
  cases v
  simp_all

theorem Clean.serve {f : List Byte} {rest : List (List Byte)}
    (hclient : v.client = false) (hrxq : v.rxq = f :: rest) (hto : i.timedOut = false)
    (ht : v.takesSyn f = true) : v.step (.thread i) = .ok (v.served (ofLe32 (f.drop 3)) rest) := by
  simp only [takesSyn, Bool.and_eq_true, beq_iff_eq] at ht
  obtain ⟨⟨⟨hsyn, hlen⟩, hver⟩, hmtu⟩ := ht
  obtain ⟨hchans, hpend, -⟩ := h.server hclient
  have hclean : Clean { v with out := [], rxq := rest } :=
    { h with }
  have htake : takeFrame i { v with out := [], rxq := rest } f =
      .ok (v.served (ofLe32 (f.drop 3)) rest) := by
    cases f with
    | nil => simp at hsyn
    | cons hdr payload =>
      have hhdr : hdr = synByte := by simpa using hsyn
      have haccept : vllpAcceptSyn { v with out := [], rxq := rest } (hdr :: payload) =
          (v.served (ofLe32 ((hdr :: payload).drop 3)) rest, vllpErrOk) := by
        unfold vllpAcceptSyn
        rw [if_neg (by simp [hclient]), if_neg (not_not_intro hlen), if_neg (not_not_intro hver),
          if_neg (not_not_intro hmtu), hclean.disconnect hclient]
        simp only [served, h.idle, h.active, hpend]
        rfl
      simp only [takeFrame, vllpHandleRx, if_pos hhdr, haccept]
      rfl
  have hround : v.step (.thread i) = takeFrame i { v with out := [], rxq := rest } f := by
    by_cases hconn : v.connected = true
    · simp only [Host.step, vllpThread, hconn, if_true, handlePendingChannels, hpend,
        handlePendingLoop, hto, Bool.false_eq_true, if_false, hrxq]
      rfl
    · simp only [Host.step, vllpThread, if_neg hconn, hto, Bool.false_eq_true, if_false, hrxq]
      rfl
  exact hround.trans htake

theorem Clean.renew : v.renew.Clean := by
  refine ⟨rfl, rfl, ?_, fun _ => ⟨rfl, rfl⟩, fun hclient => ?_⟩
  · intro c' hc'
    obtain ⟨c, hc, rfl⟩ := List.mem_map.mp hc'
    by_cases hcmc : c.addr = cmc
    · simp only [renewChan, if_pos hcmc]
      rfl
    · rw [h.renewChan_eq hc hcmc]
      exact h.chans c hc
  · obtain ⟨hchans, hpend, -⟩ := h.server hclient
    exact ⟨hchans, hpend, rfl⟩

theorem Clean.served_renew (hclient : v.client = false)
    (cookie : BitVec 32) (rest : List (List Byte)) :
    v.renew.served cookie rest = v.served cookie rest := by
  have hobjs := h.put_cmc (crc32 cookie (le32 1)) (~~~crc32 cookie (le32 1))
  have hflow := (h.server hclient).2.2
  simp only [served, Host.mk.injEq, hflow]
  refine ⟨rfl, rfl, hobjs, ?_⟩
  repeat' constructor

/-- A session that starts from a clean state is that of a host without a history. -/
theorem Clean.trace_eq {e : HostEvent} (he : v.StartsSession e) (es : List HostEvent) :
    trace Host.step Host.out v (e :: es) = trace Host.step Host.out v.renew (e :: es) := by
  cases e with
  | thread i =>
    obtain ⟨hto, ⟨hclient, hconn, hrxq, hdue, hcookie⟩ | ⟨hclient, f, rest, hrxq, ht⟩⟩ := he
    · obtain ⟨w, hv, hwc, hwn, hr⟩ := h.ask hclient hconn hrxq hto hdue hcookie
      rw [trace_cons hv, trace_cons hr, idle_trace hwc hwn]
      rfl
    · apply trace_congr
      rw [h.serve hclient hrxq hto ht, h.renew.serve hclient hrxq hto ht, h.served_renew hclient]
  | _ => cases he

end

theorem chan_setChan_withIV (v : Host) (a : Nat) (tx rx tx' rx' : BitVec 32) :
    ((v.setChan ((v.chan a).withIV tx rx)).chan a).withIV tx' rx' = (v.chan a).withIV tx' rx' := by
  rcases @Heap.get_put_cases _ addr v.objs ((v.chan a).withIV tx rx) a with h | ⟨-, h⟩
  · simp only [Host.chan, setChan] at h ⊢
    rw [h]
  · simp only [Host.chan, setChan] at h ⊢
    rw [h]
    rfl

/-- A channel that is opened gets its IVs from the cookie and the number of channels opened
before it in the session, whatever IVs an earlier session left in it. -/
theorem enqueueChannelOpen_withIV (v : Host) (a : Nat) (tx rx : BitVec 32) :
    (v.setChan ((v.chan a).withIV tx rx)).enqueueChannelOpen a = v.enqueueChannelOpen a := by
  -- opening stores the channel with new IVs and sends its name
  have hdef : ∀ u : Host, ∃ iv, iv = crc32 u.crcIV (le32 (u.channelIvCnt + 1)) ∧
      u.enqueueChannelOpen a = channelSendMessage
        { u with
          channelIvCnt := u.channelIvCnt + 1
          objs := Heap.put addr u.objs ((u.chan a).withIV (~~~iv) iv) }
        cmc (BitVec.ofNat 8 (u.chan a).id :: (u.chan a).name) := fun u => ⟨_, rfl, rfl⟩
  obtain ⟨iv, hiv, hv⟩ := hdef v
  obtain ⟨iv', hiv', hu⟩ := hdef (v.setChan ((v.chan a).withIV tx rx))
  have hsame : iv' = iv := hiv'.trans hiv.symm
  have hchan := chan_setChan_withIV v a tx rx (~~~iv) iv
  have hid : ((v.setChan ((v.chan a).withIV tx rx)).chan a).id = (v.chan a).id :=
    (congrArg HChannel.id hchan :)
  have hname : ((v.setChan ((v.chan a).withIV tx rx)).chan a).name = (v.chan a).name :=
    (congrArg HChannel.name hchan :)
  have hput : Heap.put addr (v.setChan ((v.chan a).withIV tx rx)).objs
      ((v.chan a).withIV (~~~iv) iv) = Heap.put addr v.objs ((v.chan a).withIV (~~~iv) iv) :=
    Heap.put_put rfl
  rw [hu, hv, hsame, hchan, hput, hid, hname]
  rfl

end Host

/-! ## Isolation -/

/-- Both ends forget: a session that starts from a clean state runs as if there had been none
before it, and a channel opened in it has IVs of this session only. -/
theorem sessions_isolated (v : Dev) (e : DevEvent) (h : Host) (f : HostEvent) :
    (v.Clean → v.StartsSession e → ∀ es,
      trace Dev.step Dev.out v (e :: es) = trace Dev.step Dev.out v.renew (e :: es)) ∧
    (h.Clean → h.StartsSession f → ∀ es,
      trace Host.step Host.out h (f :: es) = trace Host.step Host.out h.renew (f :: es)) ∧
    ∀ (a : Nat) (tx rx : BitVec 32),
      (h.setChan ((h.chan a).withIV tx rx)).enqueueChannelOpen a = h.enqueueChannelOpen a :=
  ⟨fun hv he => hv.trace_eq he, fun hh hf => hh.trace_eq hf, h.enqueueChannelOpen_withIV⟩

def synOf (cookie : BitVec 32) : DevEvent := .rx .calm (Host.synFrame 8 cookie)

def askWith (cookie : BitVec 32) : HostEvent :=
  .thread ⟨false, false, true, some cookie, fun _ => 0, false⟩

/-- A client asks and gets its session. -/
def firstSession : List HostEvent :=
  [askWith 5, .input (ackFrame 5 false true 0xffff),
    .thread ⟨false, false, false, none, fun _ => 0, false⟩]

/-- The session times out. -/
def late : HostEvent := .thread ⟨true, false, false, none, fun _ => 0, false⟩

instance (v : Host) : Decidable v.Clean :=
  decidable_of_iff (v.currentTx = none ∧ v.activeChannels = [] ∧
      (∀ c ∈ v.objs, c = (v.renewChan c).withIV c.txCrcIV c.rxCrcIV) ∧
      (v.connected = false → v.S = false ∧ v.E = true) ∧ (v.client = false →
        v.channels = [Host.cmc] ∧ v.pendingOpen = [] ∧ v.remoteFlowStatus = 0xffff))
    ⟨fun h => ⟨h.1, h.2.1, h.2.2.1, h.2.2.2.1, h.2.2.2.2⟩,
      fun h => ⟨h.idle, h.active, h.chans, h.bits, h.server⟩⟩

/-- A request inside a session, and a second request of a host whose session has timed out. -/
theorem second_session : (∀ es, trace Dev.step Dev.out (Dev.started 8 5) (synOf 7 :: es) =
      trace Dev.step Dev.out (Dev.started 8 5).renew (synOf 7 :: es)) ∧
    ∃ u h, Run (fun u e v => (Host.step u e).toOption = some v) (vllpCreate true false 8) firstSession
        u ∧ u.connected = true ∧ (Host.step u late).toOption = some h ∧
      ∀ es, trace Host.step Host.out h (askWith 7 :: es) =
        trace Host.step Host.out h.renew (askWith 7 :: es) := by
  have hclean : (Dev.started 8 5).Clean := ⟨⟨_, _, rfl⟩, rfl, rfl, .inl rfl⟩
  obtain ⟨u, hrun, hconn, hlate⟩ := exists_run (P := fun u => u.connected = true ∧
    (Host.step u late).toOption.any fun h =>
      decide (h.Clean ∧ h.client = true ∧ h.connected = false ∧ h.rxq = []))
    (show ∃ u ∈ exec (fun u e => (Host.step u e).toOption) (vllpCreate true false 8) firstSession,
      _ from by decide +kernel)
  obtain ⟨h, hstep, hh⟩ := (Option.any_eq_true _ _).mp hlate
  obtain ⟨hclean', hclient, hconn', hrxq⟩ := of_decide_eq_true hh
  obtain ⟨hdev, hhost, -⟩ := sessions_isolated (Dev.started 8 5) (synOf 7) h (askWith 7)
  exact ⟨hdev hclean (by decide), u, h, hrun, hconn, hstep,
    hhost hclean' ⟨rfl, .inl ⟨hclient, hconn', hrxq, rfl, rfl⟩⟩⟩

/-- The host opens a channel, in one fragment. -/
def openMsg (cookie : BitVec 32) : DevEvent :=
  .rx .calm (hdrByte true false true true cmcId ::
    Host.vllpGenerateCrc (~~~crc32 cookie (le32 1)) [0, 0x65])

/-- A session that ends with a part of a CMC message received. -/
def cutOff : List DevEvent :=
  [synOf 5, .rx .calm [hdrByte true false true false cmcId, 0, 0x65], .timeout]

/-- The part is still there in the next session: its first message fails the CRC check and
ends it, where a device without a history accepts the message. -/
theorem cut_message_ends_next_session :
    ∃ v, Run (fun u e v => (Dev.step u e).toOption = some v) (vllpServerCreate 8) cutOff v ∧
      v.StartsSession (synOf 7) ∧
      trace Dev.step Dev.out v [synOf 7, openMsg 7] ≠
        trace Dev.step Dev.out v.renew [synOf 7, openMsg 7] := by
  obtain ⟨v, hrun, hstarts, hne⟩ := exists_run (P := fun v => v.StartsSession (synOf 7) ∧
    (trace Dev.step Dev.out v [synOf 7, openMsg 7]).map Except.toOption ≠
      (trace Dev.step Dev.out v.renew [synOf 7, openMsg 7]).map Except.toOption)
    (show ∃ v ∈ exec (fun u e => (Dev.step u e).toOption) (vllpServerCreate 8) cutOff, _ from by
      decide +kernel)
  exact ⟨v, hrun, hstarts, fun heq => hne (congrArg _ heq)⟩

end Mios.Vllp
