import Mios.Vllp.Host

/-! The host as an alternating-bit endpoint. Channel management leaves the link
alone; a round of the thread sends, handles one frame, asks for a session, enters
one or leaves one. -/

namespace Mios.Vllp

open Lib Crc32 List

/-! ## Well-formed states -/

/-- A transmit packet has a header with a data channel and fits the link. -/
def Pkt.Fits (mtu : Nat) (p : Pkt) : Prop :=
  ∃ h payload, p.data = h :: payload ∧ hdrChannel h < 15 ∧ payload.length < mtu

structure HChannel.Wf (mtu : Nat) (c : HChannel) : Prop where
  id : c.id < 15
  txq : ∀ p ∈ c.txq, p.type ≠ .eof → p.Fits mtu
  mtxq : ∀ p ∈ c.mtxq, p.type ≠ .rdy

/-- The packets that wait on a channel carry its number. -/
structure HChannel.Owns (c : HChannel) : Prop where
  id : c.id < 16
  txq : ∀ p ∈ c.txq, p.type ≠ .eof → p.frag.channel = c.id
  mtxq : ∀ p ∈ c.mtxq, p.type ≠ .rdy

/-- A client: channel 15 is never handed out, packets fit the link, frames above 8 bytes
are padded, and without a session the bits are those a session starts with. -/
structure Host.Wf (v : Host) : Prop where
  client : v.client = true
  mtu : 8 ≤ v.mtu ∧ v.mtu ≤ 63
  pad : v.fdcan = true ∨ v.mtu ≤ 8
  chans : ∀ c ∈ v.objs, c.Wf v.mtu
  ids : v.availableChannelIds.getLsbD 15 = false
  tx : ∀ p, v.currentTx = some p → p.Fits v.mtu
  reset : v.connected = false → v.S = false ∧ v.E = true

namespace Host

def Owned (v : Host) : Prop := ∀ c ∈ v.objs, c.Owns

def view (v : Host) : AltBit.View Frag := ⟨v.S, v.E, v.currentFrag⟩

def endpoint (v : Host) : Endpoint := ⟨v.view, v.out, v.connected, v.crcIV, v.mtu⟩

/-- The part of the state that belongs to the link. -/
def link (v : Host) : Bool × Bool × Option Pkt × Bool × BitVec 32 × List (List Byte) :=
  (v.S, v.E, v.currentTx, v.connected, v.crcIV, v.rxq)

def config (v : Host) : Bool × Bool × Nat := (v.client, v.fdcan, v.mtu)

/-- Nothing of the link part changed, the peer was sent nothing, and the state is
well-formed again. -/
structure Quiet (v v' : Host) : Prop where
  out : Emits v.mtu v.out [] v'.out
  link : v'.link = v.link
  config : v'.config = v.config
  wf : v'.Wf

variable {v v' v'' u : Host}

theorem Quiet.endpoint (h : v.Quiet v') : v.endpoint.Quiet v'.endpoint := by
  have hl := h.link
  have hc := h.config
  simp only [Host.link, Host.config, Prod.mk.injEq] at hl hc
  obtain ⟨hs, he, htx, hconn, hiv, -⟩ := hl
  refine ⟨h.out, ?_, hconn, hiv, hc.2.2⟩
  simp [Host.endpoint, Host.view, Host.currentFrag, hs, he, htx]

theorem Quiet.refl {v : Host} (h : v.Wf) : v.Quiet v := ⟨.refl _ _, rfl, rfl, h⟩

/-- No link request was sent between `v` and `v'`. -/
def Plain (v v' : Host) : Prop :=
  ∀ frame, .tx frame ∈ v'.out → .tx frame ∈ v.out ∨ frame.head? ≠ some synByte

theorem plain_of_emits {mtu : Nat} {as : List (AltBit.Act Frag)}
    (h : Emits mtu v.out as v'.out) (hsent : AltBit.sent as = []) : v.Plain v' := by
  obtain ⟨evs, hout, rfl, -⟩ := h
  intro frame hf
  rw [hout] at hf
  rcases mem_append.mp hf with hf | hf
  · exact .inl hf
  · have := mem_txs.mpr hf
    rw [sent_acts, map_eq_nil_iff] at hsent
    simp [hsent] at this

variable {hdr : Byte} {c : HChannel} {err : Int} {frame payload : List Byte}
  {rest : List Pkt} {vp : Pkt}

theorem Plain.trans (h : v.Plain v') (h' : v'.Plain v'') : v.Plain v'' := by
  intro frame hf
  rcases h' frame hf with hf | hf
  · exact h frame hf
  · exact .inr hf

theorem Quiet.mtu (h : v.Quiet v') : v'.mtu = v.mtu := h.endpoint.mtu

theorem Quiet.connected (h : v.Quiet v') : v'.connected = v.connected :=
  h.endpoint.connected

theorem Quiet.currentTx (h : v.Quiet v') : v'.currentTx = v.currentTx :=
  congrArg (·.2.2.1) h.link

theorem Quiet.rxq (h : v.Quiet v') : v'.rxq = v.rxq := congrArg (·.2.2.2.2.2) h.link

theorem Quiet.trans (h : v.Quiet v') (h' : v'.Quiet v'') : v.Quiet v'' :=
  ⟨h.out.trans (h.mtu ▸ h'.out), h'.link.trans h.link, h'.config.trans h.config, h'.wf⟩

@[simp] theorem chan_addr (v : Host) (a : Nat) : (v.chan a).addr = a := by
  unfold Host.chan
  cases hf : Heap.get HChannel.addr v.objs a with
  | none => rfl
  | some c => exact Heap.addr_of_get hf

theorem Wf.chan (h : v.Wf) (a : Nat) : (v.chan a).Wf v.mtu := by
  unfold Host.chan
  cases hf : Heap.get HChannel.addr v.objs a with
  | none => exact ⟨by simp [newHChannel], by simp [newHChannel], by simp [newHChannel]⟩
  | some c => exact h.chans c (Heap.mem_of_get hf)

/-! ## Channel management -/

/-- Channel management: the link part and the flow bits stay, the peer is sent nothing, and
the channels stay in order. -/
structure Upkeep (v v' : Host) : Prop where
  out : Emits v.mtu v.out [] v'.out
  link : v'.link = v.link
  config : v'.config = v.config
  flow : v'.remoteFlowStatus = v.remoteFlowStatus
  owned : v.Owned → v'.Owned
  wf : v.Wf → v'.Wf

variable {i : HIn} {a : Nat}

theorem Upkeep.quiet (h : v.Upkeep v') (hw : v.Wf) : v.Quiet v' :=
  ⟨h.out, h.link, h.config, h.wf hw⟩

theorem Upkeep.refl (v : Host) : v.Upkeep v := ⟨.refl _ _, rfl, rfl, rfl, id, id⟩

theorem Upkeep.trans (h : v.Upkeep u) (h' : u.Upkeep v') : v.Upkeep v' := by
  have hm : u.mtu = v.mtu := congrArg (·.2.2) h.config
  exact ⟨h.out.trans (hm ▸ h'.out), h'.link.trans h.link, h'.config.trans h.config,
    h'.flow.trans h.flow, fun ho => h'.owned (h.owned ho), fun hw => h'.wf (h.wf hw)⟩

/-- An update of the channel lists, the id pool or the counters alone. -/
theorem upkeep_of {channels pendingOpen active : List Nat} {cnt : BitVec 32} {ids flow : BitVec 16}
    (hids : v.Wf → ids.getLsbD 15 = false) : v.Upkeep { v with
      channels := channels, pendingOpen := pendingOpen, activeChannels := active,
      channelIvCnt := cnt, availableChannelIds := ids, localFlowStatus := flow } :=
  ⟨.refl _ _, rfl, rfl, rfl, id, fun hw => { hw with ids := hids hw }⟩

theorem Owned.chan (h : v.Owned) (a : Nat) : (v.chan a).Owns := by
  unfold Host.chan
  cases hf : Heap.get HChannel.addr v.objs a with
  | none => exact ⟨by simp [newHChannel], by simp [newHChannel], by simp [newHChannel]⟩
  | some c => exact h c (Heap.mem_of_get hf)

theorem Owned.setChan (h : v.Owned) (hc : c.Owns) : (v.setChan c).Owned := by
  intro d hd
  rcases Heap.mem_put hd with hd | rfl
  · exact h d hd
  · exact hc

theorem upkeep_setChan (ho : v.Owned → c.Owns) (hw : v.Wf → c.Wf v.mtu) :
    v.Upkeep (v.setChan c) := by
  refine ⟨.refl _ _, rfl, rfl, rfl, fun hv => hv.setChan (ho hv),
    fun hv => { hv with chans := fun d hd => ?_ }⟩
  rcases Heap.mem_put hd with hd | rfl
  · exact hv.chans d hd
  · exact hw hv

/-- A store that adds nothing to the transmit queue, and no ready packet to the other one. -/
theorem upkeep_store (hid : c.id = (v.chan a).id) (htxq : ∀ p ∈ c.txq, p ∈ (v.chan a).txq)
    (hmtxq : ∀ p ∈ c.mtxq, p ∈ (v.chan a).mtxq ∨ p.type ≠ .rdy) : v.Upkeep (v.setChan c) := by
  refine upkeep_setChan (fun ho => ⟨hid ▸ (ho.chan a).id, fun p hp => ?_, fun p hp => ?_⟩)
    (fun hw => ⟨hid ▸ (hw.chan a).id, fun p hp => (hw.chan a).txq p (htxq p hp), fun p hp => ?_⟩)
  · rw [hid]
    exact (ho.chan a).txq p (htxq p hp)
  · exact (hmtxq p hp).elim ((ho.chan a).mtxq p) id
  · exact (hmtxq p hp).elim ((hw.chan a).mtxq p) id

/-- A store that leaves the transmit queues of the channel in place. -/
theorem upkeep_keep (hid : c.id = (v.chan a).id) (htxq : c.txq = (v.chan a).txq)
    (hmtxq : c.mtxq = (v.chan a).mtxq) : v.Upkeep (v.setChan c) :=
  upkeep_store hid (fun _ hp => htxq ▸ hp) (fun _ hp => .inl (hmtxq ▸ hp))

/-- The same behind other management. -/
theorem Upkeep.keep (h : v.Upkeep u) (a : Nat) (hid : c.id = (u.chan a).id)
    (htxq : c.txq = (u.chan a).txq) (hmtxq : c.mtxq = (u.chan a).mtxq) : v.Upkeep (u.setChan c) :=
  h.trans (upkeep_keep hid htxq hmtxq)

variable (v)

theorem upkeep_setState (a : Nat) (s : HChanState) : v.Upkeep (v.setState a s) :=
  upkeep_keep rfl rfl rfl

/-- What is left of a channel that sends. -/
theorem upkeep_next (a : Nat) (rest : List Pkt) :
    v.Upkeep (if rest = [] then v.setState a .established
      else { v with activeChannels := v.activeChannels ++ [a] }) := by
  split
  · exact upkeep_setState v a .established
  · exact upkeep_of Wf.ids

theorem upkeep_unlink (a : Nat) : v.Upkeep (v.unlink a) :=
  upkeep_of Wf.ids

/-- Ids go back to the pool, and none of them is 15. -/
theorem upkeep_freeId (a : Nat) : v.Upkeep (v.freeId a) := by
  refine upkeep_of fun hw => ?_
  have hid := (hw.chan a).id
  simp only [BitVec.getLsbD_or, hw.ids, Bool.false_or, BitVec.getLsbD_shiftLeft,
    BitVec.getLsbD_one]
  simp
  omega

theorem upkeep_freeIdIfClient (a : Nat) : v.Upkeep (v.freeIdIfClient a) := by
  unfold freeIdIfClient
  split
  · exact upkeep_freeId v a
  · exact .refl v

theorem upkeep_log (e : Ev) (he : acts [e] = []) (htx : ∀ f, e ≠ .tx f) :
    v.Upkeep (v.log e) :=
  ⟨he ▸ .one v.mtu v.out e (fun f hf => absurd hf (htx f)), rfl, rfl, rfl, id,
    fun hw => { hw with }⟩

theorem upkeep_channelEnqRxMeta (a : Nat) (err : Int) (type : PktType) :
    v.Upkeep (v.channelEnqRxMeta a err type) :=
  upkeep_keep rfl rfl rfl

theorem upkeep_dropChannel (tmp : List Nat) (a : Nat) :
    v.Upkeep (v.dropChannel tmp a).1 :=
  (upkeep_unlink v a).trans (upkeep_freeIdIfClient _ a)

theorem upkeep_dropOrReconnect (tmp : List Nat) (a : Nat) :
    v.Upkeep (v.dropOrReconnect tmp a).1 := by
  unfold dropOrReconnect
  split
  · exact ((upkeep_channelEnqRxMeta v a 0 .eof).trans (upkeep_setState _ a .pendingOpen)).trans
      (upkeep_of Wf.ids)
  · exact upkeep_dropChannel v tmp a

theorem upkeep_disconnectLoop (tmp l : List Nat) :
    v.Upkeep (v.disconnectLoop tmp l).1 := by
  induction l generalizing v tmp with
  | nil => exact .refl v
  | cons a rest ih =>
    simp only [disconnectLoop]
    refine Upkeep.trans ?_ (ih _ _)
    split
    · exact .refl v
    split
    · split
      · exact .refl v
      · have hp : v.Upkeep { v with pendingOpen := v.pendingOpen.filter (· != a) } :=
          upkeep_of Wf.ids
        exact hp.trans (upkeep_dropChannel _ tmp a)
    · have hp : v.Upkeep { v with activeChannels := v.activeChannels.filter (· != a) } :=
        upkeep_of Wf.ids
      exact hp.trans (upkeep_dropOrReconnect _ tmp a)
    · exact upkeep_dropOrReconnect v tmp a
    · exact (upkeep_setState v a .closed).trans (upkeep_dropChannel _ tmp a)
    · exact upkeep_dropChannel v tmp a

theorem upkeep_callEof (l : List Nat) : v.Upkeep (v.callEof l) := by
  induction l generalizing v with
  | nil => exact .refl v
  | cons a rest ih =>
    rw [callEof]
    refine Upkeep.trans ?_ (ih _)
    split
    · exact upkeep_log v _ rfl (by simp)
    · exact .refl v

theorem upkeep_channelSendVp (a : Nat) (vp : Pkt) (hvp : vp.type ≠ .rdy) :
    v.Upkeep (v.channelSendVp a vp) := by
  have hq : v.Upkeep (v.setChan { v.chan a with mtxq := (v.chan a).mtxq ++ [vp] }) := by
    refine upkeep_store rfl (fun _ hp => hp) fun p hp => ?_
    rcases mem_append.mp hp with hp | hp
    · exact .inl hp
    · rw [mem_singleton.mp hp]
      exact .inr hvp
  simp only [channelSendVp]
  split
  · exact (hq.trans (upkeep_setState _ a .active)).trans (upkeep_of Wf.ids)
  · exact hq

theorem upkeep_channelMake (id : Nat) (state : HChanState) (hid : id < 16)
    (hdata : v.Wf → id < 15) : v.Upkeep (v.channelMake id state).1 := by
  refine ⟨.refl _ _, rfl, rfl, rfl, fun ho c hc => ?_,
    fun hw => { hw with chans := fun c hc => ?_ }⟩
  · rcases mem_cons.mp hc with rfl | hc
    · exact ⟨hid, by simp [newHChannel], by simp [newHChannel]⟩
    · exact ho c hc
  · rcases mem_cons.mp hc with rfl | hc
    · exact ⟨hdata hw, by simp [newHChannel], by simp [newHChannel]⟩
    · exact hw.chans c hc

theorem upkeep_gen : v.Upkeep v.vllpGenChannelCrc.1 :=
  upkeep_of Wf.ids

/-- Only a server opens channels for its peer. -/
theorem upkeep_cmcHandleOpen (target : Nat) (data : List Byte) (ht : target < 16)
    (hserver : v.client = false) : v.Upkeep (v.cmcHandleOpen i target data).1 := by
  simp only [cmcHandleOpen]
  split
  · exact .refl v
  split
  · exact .refl v
  have hmade := (upkeep_channelMake v target .created ht fun hw =>
    absurd (hserver.symm.trans hw.client) (by simp)).trans (upkeep_gen _)
  refine Upkeep.trans ?_ (upkeep_channelSendVp _ cmc _ (by simp))
  have hiv : v.Upkeep ((v.channelMake target .created).1.vllpGenChannelCrc.1.setChan
      { (v.channelMake target .created).1.vllpGenChannelCrc.1.chan
          (v.channelMake target .created).2 with
        txCrcIV := (v.channelMake target .created).1.vllpGenChannelCrc.2
        rxCrcIV := ~~~(v.channelMake target .created).1.vllpGenChannelCrc.2 }) :=
    hmade.keep (v.channelMake target .created).2 rfl rfl rfl
  split
  · exact hiv.keep (v.channelMake target .created).2 rfl rfl rfl
  · exact (hiv.trans (upkeep_unlink _ _)).trans (upkeep_setState _ _ .closed)

theorem upkeep_dropStale (a : Nat) : v.Upkeep (v.dropStale a) := by
  unfold dropStale
  split
  · exact upkeep_keep rfl rfl rfl
  · exact .refl v

theorem upkeep_cmcHandleOpenResponse (target : Nat) (data : List Byte) :
    v.Upkeep (v.cmcHandleOpenResponse target data).1 := by
  unfold cmcHandleOpenResponse
  split
  · exact .refl v
  rename_i a _
  split
  · exact .refl v
  split
  · exact .refl v
  split
  · have hrdy := (upkeep_dropStale v a).trans (upkeep_channelEnqRxMeta _ a 0 .rdy)
    simp only
    split
    · exact (hrdy.trans (upkeep_setState _ a .active)).trans (upkeep_of Wf.ids)
    · exact hrdy.trans (upkeep_setState _ a .established)
  · exact (((upkeep_setState v a .closed).trans (upkeep_freeId _ a)).trans
      (upkeep_unlink _ a)).trans (upkeep_channelEnqRxMeta _ a _ .eof)

theorem upkeep_cmcHandleClose (target : Nat) (data : List Byte) :
    v.Upkeep (v.cmcHandleClose target data).1 := by
  have hboth : ∀ a, v.Upkeep ((v.channelSendClose a (readErr data)).channelEnqRxMeta a
      (readErr data) .eof) := fun a =>
    (upkeep_channelSendVp v a _ (by simp)).trans (upkeep_channelEnqRxMeta _ a _ .eof)
  unfold cmcHandleClose
  split
  · exact .refl v
  split
  · exact .refl v
  rename_i a _
  split
  · exact .refl v
  split
  · exact hboth a
  · exact hboth a
  · exact (((upkeep_setState v a .closed).trans (upkeep_freeIdIfClient _ a)).trans
      (upkeep_unlink _ a)).trans (upkeep_channelEnqRxMeta _ a _ .eof)
  · exact .refl v

theorem upkeep_cmcRx (data : List Byte) : v.Upkeep (v.cmcRx i data).1 := by
  unfold cmcRx
  split
  · exact .refl v
  rename_i b rest
  simp only
  split
  · split
    · exact upkeep_cmcHandleOpenResponse v _ _
    split
    · exact upkeep_cmcHandleClose v _ _
    · exact .refl v
  · rename_i hclient
    split
    · exact upkeep_cmcHandleOpen v _ _ (hdrChannel_lt b) (by simpa using hclient)
    split
    · exact upkeep_cmcHandleClose v _ _
    · exact .refl v

/-- A message is queued for its reader. -/
theorem upkeep_deliver (a : Nat) (body : List Byte) :
    v.Upkeep ((v.setChan { v.chan a with rxq := (v.chan a).rxq ++ [⟨.msg, body⟩] }).log
      (.deliver (v.chan a).id body)) := by
  have hq : v.Upkeep (v.setChan { v.chan a with rxq := (v.chan a).rxq ++ [⟨.msg, body⟩] }) :=
    upkeep_keep rfl rfl rfl
  exact hq.trans (upkeep_log _ _ rfl (by simp))

variable {v}

theorem upkeep_channelComplete {msg : List Byte}
    (h : v.channelComplete i a msg = .ok (v', err)) : v.Upkeep v' := by
  have hset : ∀ iv, v.Upkeep (v.setChan { v.chan a with rxCrcIV := iv, rxbuf := [] }) := fun iv =>
    upkeep_keep rfl rfl rfl
  simp only [channelComplete] at h
  split at h
  · cases h
    exact hset (v.chan a).rxCrcIV
  split at h
  · cases h
  split at h
  · obtain rfl : _ = v' := congrArg Prod.fst (Except.ok.inj h)
    exact (hset _).trans (upkeep_cmcRx _ _)
  · cases h
    exact (hset _).trans (upkeep_deliver _ a _)

theorem upkeep_channelReceive
    (h : v.vllpChannelReceive i hdr payload = .ok (v', err)) : v.Upkeep v' := by
  unfold vllpChannelReceive at h
  split at h
  · cases h
    exact .refl v
  simp only at h
  split at h
  · exact upkeep_channelComplete h
  · cases h
    exact upkeep_keep rfl rfl rfl

/-! ## Channels in service -/

theorem chan_setChan_id (hid : c.id = (v.chan c.addr).id) (b : Nat) :
    ((v.setChan c).chan b).id = (v.chan b).id := by
  have hput : Heap.get HChannel.addr (Heap.put HChannel.addr v.objs c) b =
      Heap.get HChannel.addr v.objs b ∨ b = c.addr ∧
        Heap.get HChannel.addr (Heap.put HChannel.addr v.objs c) b = some c :=
    Heap.get_put_cases v.objs c b
  unfold Host.chan Host.setChan at *
  rcases hput with h | ⟨rfl, h⟩
  · rw [h]
  · rw [h, Option.getD_some, hid]

/-- Channels keep their ids, and only the CMC may become active. -/
structure Serves (v v' : Host) : Prop extends Upkeep v v' where
  ids : ∀ b, (v'.chan b).id = (v.chan b).id
  active : ∀ b ∈ v'.activeChannels, b = cmc ∨ b ∈ v.activeChannels

theorem Serves.refl (v : Host) : v.Serves v := ⟨.refl v, fun _ => rfl, fun _ hb => .inr hb⟩

theorem Serves.trans (h : v.Serves u) (h' : u.Serves v') : v.Serves v' :=
  ⟨h.toUpkeep.trans h'.toUpkeep, fun b => (h'.ids b).trans (h.ids b), fun b hb => by
    rcases h'.active b hb with hb | hb
    · exact .inl hb
    · exact h.active b hb⟩

theorem Upkeep.serves (h : v.Upkeep (v.setChan c)) (hid : c.id = (v.chan c.addr).id) :
    v.Serves (v.setChan c) :=
  ⟨h, chan_setChan_id hid, fun _ hb => .inr hb⟩

theorem serves_setState (v : Host) (a : Nat) (s : HChanState) : v.Serves (v.setState a s) :=
  (upkeep_setState v a s).serves (by simp)

theorem serves_sendCmc (v : Host) (data : List Byte) :
    v.Serves (v.channelSendMessage cmc data) := by
  have hid : ∀ b, ((v.setChan { v.chan cmc with
      mtxq := (v.chan cmc).mtxq ++ [⟨.msg, data⟩] }).chan b).id = (v.chan b).id :=
    chan_setChan_id (by simp)
  refine ⟨upkeep_channelSendVp v cmc _ (by simp), ?_, ?_⟩
  · simp only [channelSendMessage, channelSendVp]
    split
    · exact fun b => ((serves_setState _ cmc .active).ids b).trans (hid b)
    · exact hid
  · simp only [channelSendMessage, channelSendVp]
    split
    · intro b hb
      rcases mem_append.mp hb with hb | hb
      · exact .inr hb
      · exact .inl (mem_singleton.mp hb)
    · exact fun _ hb => .inr hb

theorem hdrByte_fits (l : Bool) (id : Nat) (hid : id < 15) (mtu : Nat) (payload : List Byte)
    (hlen : payload.length < mtu) (type : PktType) :
    (Pkt.mk type (hdrByte false false false l id :: payload)).Fits mtu :=
  ⟨_, _, rfl, by rw [(hdrByte_read false false false l id (by omega)).2.2.2.2]; exact hid, hlen⟩

/-- The packets a message is split into carry the number of the channel and fit the link. -/
theorem splitMsg_spec (id mtu fuel : Nat) (data : List Byte) (hid : id < 16) :
    ∀ p ∈ splitMsg id mtu fuel data,
      p.frag.channel = id ∧ (id < 15 → 8 ≤ mtu → p.Fits mtu) := by
  induction fuel generalizing data with
  | zero => simp [splitMsg]
  | succ fuel ih =>
    intro p hp
    simp only [splitMsg] at hp
    rcases mem_cons.mp hp with rfl | hp
    · refine ⟨(hdrByte_read false false false _ id hid).2.2.2.2, fun hid hmtu => ?_⟩
      refine hdrByte_fits _ id hid mtu _ ?_ _
      rw [length_take]
      omega
    · split at hp
      · cases hp
      · exact ih _ p hp

/-- What holds of the packets in the transmit queue and of those a message is split into
holds after `fragment`, by induction over the messages. -/
theorem fragmentLoop_spec {P : Pkt → Prop} {vc : HChannel} {mtu : Nat} {l : List Pkt}
    (htxq : ∀ p ∈ vc.txq, p.type ≠ .eof → P p)
    (hsplit : ∀ fuel data, ∀ p ∈ splitMsg vc.id mtu fuel data, P p) (hl : ∀ p ∈ l, p.type ≠ .rdy) :
    (∀ p ∈ (fragmentLoop mtu vc l).txq, p.type ≠ .eof → P p) ∧
      (fragmentLoop mtu vc l).mtxq = [] := by
  induction l generalizing vc with
  | nil => exact ⟨htxq, rfl⟩
  | cons m rest ih =>
    have hrest : ∀ p ∈ rest, p.type ≠ .rdy := fun p hp => hl p (mem_cons_of_mem m hp)
    simp only [fragmentLoop]
    split
    · rename_i htype
      refine @ih { vc with txq := vc.txq ++ [m] } (fun p hp heof => ?_) hsplit hrest
      rcases mem_append.mp hp with hp | hp
      · exact htxq p hp heof
      · rw [mem_singleton.mp hp] at heof
        cases htm : m.type <;> simp_all
    · refine @ih { vc with
        txCrcIV := vc.txCrcIV + 1
        txq := vc.txq ++ splitMsg vc.id mtu _ _ } (fun p hp hmsg => ?_) hsplit hrest
      rcases mem_append.mp hp with hp | hp
      · exact htxq p hp hmsg
      · exact hsplit _ _ p hp

theorem fragmentLoop_addr (mtu : Nat) (vc : HChannel) (l : List Pkt) :
    (fragmentLoop mtu vc l).id = vc.id ∧ (fragmentLoop mtu vc l).addr = vc.addr := by
  induction l generalizing vc with
  | nil => exact ⟨rfl, rfl⟩
  | cons m rest ih =>
    simp only [fragmentLoop]
    split
    · exact ih _
    · exact ih _

theorem serves_fragment (v : Host) (a : Nat) : v.Serves (v.fragment a) := by
  obtain ⟨hid, haddr⟩ := fragmentLoop_addr v.mtu (v.chan a) (v.chan a).mtxq
  have hup : v.Upkeep (v.fragment a) := by
    refine upkeep_setChan (fun ho => ?_) (fun hw => ?_)
    · have hc := ho.chan a
      obtain ⟨htxq, hmtxq⟩ := fragmentLoop_spec hc.txq
        (fun fuel data p hp => (splitMsg_spec _ v.mtu fuel data hc.id p hp).1) hc.mtxq
      exact ⟨hid ▸ hc.id, hid ▸ htxq, by simp [hmtxq]⟩
    · have hc := hw.chan a
      obtain ⟨htxq, hmtxq⟩ := fragmentLoop_spec hc.txq (fun fuel data p hp =>
        (splitMsg_spec _ v.mtu fuel data (by have := hc.id; omega) p hp).2 hc.id hw.mtu.1) hc.mtxq
      exact ⟨hid ▸ hc.id, htxq, by simp [hmtxq]⟩
  exact hup.serves (by rw [haddr, chan_addr, hid])

theorem serves_setTxq (htxq : (v.chan a).txq = vp :: rest) :
    v.Serves (v.setChan { v.chan a with txq := rest }) :=
  Upkeep.serves (upkeep_store rfl (fun _ hp => htxq ▸ mem_cons_of_mem vp hp)
    fun _ hp => .inl hp) (by simp)

theorem serves_txClose (htxq : (v.chan a).txq = vp :: rest) : v.Serves (v.txClose a vp rest) := by
  have h₁ := serves_setTxq htxq
  unfold txClose
  generalize v.setChan { v.chan a with txq := rest } = u at h₁ ⊢
  have hfilter : u.Serves { u with activeChannels := u.activeChannels.filter (· != a) } :=
    ⟨upkeep_of Wf.ids, fun _ => rfl, fun _ hb => .inr (mem_filter.mp hb).1⟩
  exact ((h₁.trans hfilter).trans (serves_sendCmc _ _)).trans (serves_setState _ a .closeSent)

theorem serves_enqueueChannelOpen (v : Host) (a : Nat) : v.Serves (v.enqueueChannelOpen a) := by
  have hgen : v.Serves v.vllpGenChannelCrc.1 := ⟨upkeep_gen v, fun _ => rfl, fun _ hb => .inr hb⟩
  have hiv : v.Serves (v.vllpGenChannelCrc.1.setChan { v.vllpGenChannelCrc.1.chan a with
      txCrcIV := ~~~v.vllpGenChannelCrc.2, rxCrcIV := v.vllpGenChannelCrc.2 }) :=
    hgen.trans (Upkeep.serves (upkeep_keep rfl rfl rfl) (by simp))
  exact hiv.trans (serves_sendCmc _ _)

theorem serves_handlePendingLoop {l : List Nat} (h : v.handlePendingLoop l = .ok v') :
    v.Serves v' := by
  induction l generalizing v with
  | nil =>
    cases h
    exact .refl _
  | cons a rest ih =>
    simp only [handlePendingLoop] at h
    split at h
    · cases h
    · have hp : v.Serves { v with pendingOpen := v.pendingOpen.filter (· != a) } :=
        ⟨upkeep_of Wf.ids, fun _ => rfl, fun _ hb => .inr hb⟩
      exact ((hp.trans (serves_setState _ a .openSent)).trans
        (serves_enqueueChannelOpen _ a)).trans (ih h)

/-! ## Calls of the application -/

theorem firstId_lt {ids : BitVec 16} {id : Nat} (h15 : ids.getLsbD 15 = false)
    (h : firstId ids = some id) : id < 15 := by
  have hmem := mem_of_find?_eq_some h
  have hbit := List.find?_some h
  rw [mem_range] at hmem
  have hne : id ≠ 15 := by
    rintro rfl
    rw [h15] at hbit
    cases hbit
  omega

theorem upkeep_create (v : Host) (name : List Byte) (reconnect eof : Bool) :
    v.Upkeep (v.vllpChannelCreate name reconnect eof) := by
  unfold vllpChannelCreate
  split
  · exact .refl v
  split
  · exact .refl v
  rename_i id hid
  have hlt : id < 16 := mem_range.mp (mem_of_find?_eq_some hid)
  have hmade := upkeep_channelMake v id .pendingOpen hlt fun hw => firstId_lt hw.ids hid
  have hset : v.Upkeep ((v.channelMake id .pendingOpen).1.setChan
      { (v.channelMake id .pendingOpen).1.chan (v.channelMake id .pendingOpen).2 with
        name := name, reconnect := reconnect, eof := eof }) :=
    hmade.keep (v.channelMake id .pendingOpen).2 rfl rfl rfl
  refine hset.trans (upkeep_of fun hw => ?_)
  rw [BitVec.getLsbD_and, Bool.and_eq_false_iff]
  exact .inl hw.ids

theorem upkeep_close (h : v.vllpChannelClose a err = .ok v') : v.Upkeep v' := by
  have hclose : v.Upkeep (v.channelSendClose a err) := upkeep_channelSendVp v a _ (by simp)
  unfold vllpChannelClose at h
  split at h
  · cases h
  · cases h
    have hp : v.Upkeep { v with pendingOpen := v.pendingOpen.filter (· != a) } :=
      upkeep_of Wf.ids
    exact (hp.trans (upkeep_freeIdIfClient _ a)).trans (upkeep_unlink _ a)
  · cases h
    exact hclose
  · cases h
    exact hclose
  · cases h
    exact hclose
  · cases h
    exact upkeep_unlink v a
  · cases h
    exact .refl _

theorem upkeep_closeTimeout (v : Host) (a : Nat) : v.Upkeep (v.closeTimeout a) := by
  unfold closeTimeout
  split
  · exact ((upkeep_setState v a .closed).trans (upkeep_freeIdIfClient _ a)).trans
      (upkeep_unlink _ a)
  · exact .refl v

theorem upkeep_read (v : Host) (a : Nat) : v.Upkeep (v.vllpChannelRead a) := by
  unfold vllpChannelRead
  simp only
  split
  · exact .refl v
  split
  · exact .refl v
  split
  all_goals exact upkeep_keep rfl rfl rfl

/-- An application call is channel management. -/
theorem step_upkeep {e : HostEvent} (he : ∀ f, e ≠ .input f) (ht : ∀ i, e ≠ .thread i)
    (hr : v.step e = .ok v') : Upkeep { v with out := [] } v' := by
  generalize hu : ({ v with out := [] } : Host) = u
  have happ : ∀ (live : Prop) [Decidable live] (r : Except Halt Host),
      (∀ w, r = .ok w → u.Upkeep w) → (if live then r else .ok u) = .ok v' → u.Upkeep v' := by
    intro live _ r hr happly
    split at happly
    · exact hr v' happly
    · cases happly
      exact .refl _
  simp only [Host.step, hu] at hr
  cases e with
  | thread i => exact absurd rfl (ht i)
  | input f => exact absurd rfl (he f)
  | create name reconnect eof =>
    cases hr
    exact upkeep_create _ name reconnect eof
  | send a data =>
    refine happ _ _ ?_ hr
    rintro w ⟨⟩
    exact upkeep_channelSendVp _ a _ (by simp)
  | close a err => exact happ _ _ (fun w hw => upkeep_close hw) hr
  | closeTimeout a =>
    refine happ _ _ ?_ hr
    rintro w ⟨⟩
    exact upkeep_closeTimeout _ a
  | read a =>
    refine happ _ _ ?_ hr
    rintro w ⟨⟩
    exact upkeep_read _ a
  | readTimeout a =>
    refine happ _ _ ?_ hr
    rintro w ⟨⟩
    exact upkeep_keep rfl rfl rfl

/-! ## Leaving a session -/

/-- Leaving a session resets the bits and keeps the outstanding packet. -/
structure Ends (v v' : Host) : Prop extends v.endpoint.Ends v'.endpoint where
  tx : v'.currentTx = v.currentTx
  rxq : v'.rxq = v.rxq
  config : v'.config = v.config
  wf : v'.Wf

theorem vllpDisconnect_spec (h : v.Wf) : v.Ends v.vllpDisconnect := by
  unfold vllpDisconnect
  by_cases hconn : v.connected
  · simp only [hconn, Bool.not_true, Bool.false_eq_true, if_false]
    have h₂ := ((upkeep_disconnectLoop v [] v.channels).trans
      (upkeep_callEof _ (v.disconnectLoop [] v.channels).2)).quiet h
    exact ⟨⟨h₂.out, rfl, h₂.endpoint.crcIV, h₂.mtu⟩, h₂.currentTx, h₂.rxq, h₂.config,
      { h₂.wf with reset := fun _ => ⟨rfl, rfl⟩ }⟩
  · simp only [hconn, Bool.not_false, if_true]
    exact ⟨⟨.refl _ _, Bool.eq_false_iff.mpr hconn, rfl, rfl⟩, rfl, rfl, rfl, h⟩

/-! ## Reception -/

/-- The acknowledgement half drops the outstanding packet at most. -/
theorem rxAck_spec (h : v.Wf) (fr : AltBit.Frame Frag) (peerAccepted : Bool)
    (hpa : peerAccepted = true → fr.e ≠ v.S) :
    ∃ ds, Emits v.mtu v.out ds (v.rxAck peerAccepted).out ∧
      AltBit.Discard fr v.view ds (v.rxAck peerAccepted).view ∧ (v.rxAck peerAccepted).Wf ∧
      (v.rxAck peerAccepted).connected = v.connected ∧ (v.rxAck peerAccepted).crcIV = v.crcIV ∧
      (v.rxAck peerAccepted).rxq = v.rxq ∧ (v.rxAck peerAccepted).config = v.config := by
  unfold rxAck
  split
  · exact ⟨[], .refl _ _, .keep _, h, rfl, rfl, rfl, rfl⟩
  rename_i p htx
  split
  · rename_i hacc
    refine ⟨[.discard p.frag], .one v.mtu v.out (.discard p.frag) (by simp), ?_, ?_, rfl, rfl, rfl,
      rfl⟩
    · exact .drop v.view p.frag (by simp [view, currentFrag, htx]) (hpa hacc)
    · exact { h with tx := by simp [log] }
  · exact ⟨[], .refl _ _, .keep _, h, rfl, rfl, rfl, rfl⟩

/-- A frame of the session is handled, or it ends the session because of an error. -/
structure Handled (v : Host) (frame : List Byte) (v' : Host) : Prop
    extends v.endpoint.Handles frame v'.endpoint where
  plain : v.Plain v'
  rxq : v'.rxq = v.rxq
  config : v'.config = v.config
  wf : v'.Wf

theorem rxAck_handled
    {as : List (AltBit.Act Frag)} (hu : u.Wf) (hS : u.S = v.S) (hconn : u.connected = v.connected)
    (hiv : u.crcIV = v.crcIV) (hrxq : u.rxq = v.rxq) (hconfig : u.config = v.config)
    (hacts : Emits v.mtu v.out as u.out)
    (hacc : AltBit.Accept (readFrame (hdr :: payload)) v.view as u.view) :
    v.Handled (hdr :: payload) (u.rxAck (hdrE hdr != v.S)) := by
  obtain ⟨ds, hout, hd, hw, hconn', hiv', hrxq', hconfig'⟩ :=
    rxAck_spec hu (readFrame (hdr :: payload)) (hdrE hdr != v.S) (by
      intro hne
      rw [hS]
      simpa [readFrame] using hne)
  have hm : u.mtu = v.mtu := congrArg (·.2.2) hconfig
  have hm' : (u.rxAck (hdrE hdr != v.S)).mtu = v.mtu := congrArg (·.2.2) (hconfig'.trans hconfig)
  have hemits := hacts.trans (hm ▸ hout)
  have hsent : AltBit.sent (as ++ ds) = [] := by
    simpa [AltBit.sent] using AltBit.sent_accept_discard hacc hd []
  exact ⟨⟨⟨as ++ ds, hemits, u.view, _, as, ds, [], by simp, hacc, hd, .nil _⟩,
    hconn'.trans hconn, hiv'.trans hiv, hm'⟩, plain_of_emits hemits hsent, hrxq'.trans hrxq,
    hconfig'.trans hconfig, hw⟩

theorem rxSession_cases
    (h : v.Wf) (hconn : v.connected = true) (hr : v.rxSession i hdr payload = .ok (v', err)) :
    err = 0 ∧ v.Handled (hdr :: payload) v' ∨ err ≠ 0 ∧ v.Quiet v' := by
  simp only [rxSession] at hr
  split at hr
  · cases hr
    exact .inl ⟨rfl, rxAck_handled h rfl rfl rfl rfl rfl (.refl _ _) (.skip _)⟩
  rename_i hch
  split at hr
  · rename_i hacc
    split at hr
    · cases hr
    rename_i u err' hrecv
    have hq := (upkeep_channelReceive hrecv).quiet h
    split at hr
    · rename_i herr
      cases hr
      exact .inr ⟨herr, hq⟩
    · cases hr
      have hview : u.view = v.view := hq.endpoint.view
      have hemits := hq.out.trans
        (.one v.mtu u.out (.accept ⟨hdrChannel hdr, hdrL hdr, payload⟩) (by simp))
      refine .inl ⟨rfl, rxAck_handled ?_ (congrArg (·.s) hview) hq.connected
        hq.endpoint.crcIV hq.rxq hq.config hemits ?_⟩
      · exact ⟨hq.wf.client, hq.wf.mtu, hq.wf.pad, hq.wf.chans, hq.wf.ids, hq.wf.tx,
          fun hcn => absurd ((hq.connected.trans hconn).symm.trans hcn) (by simp)⟩
      · rw [← hview]
        exact .take u.view _ (by simp [readFrame, hch])
          ((beq_iff_eq.mp hacc).trans (congrArg (·.e) hview).symm)
  · cases hr
    refine .inl ⟨rfl, rxAck_handled ?_ rfl rfl rfl rfl rfl (.refl _ _) (.skip _)⟩
    exact { h with }

/-- The answer to the SYN: the client is in the session, nothing else changes. -/
structure Enters (v v' : Host) : Prop where
  out : Emits v.mtu v.out [] v'.out
  view : v'.view = v.view
  connected : v.connected = false ∧ v'.connected = true
  crcIV : v'.crcIV = v.crcIV
  rxq : v'.rxq = v.rxq
  config : v'.config = v.config
  wf : v'.Wf

theorem quiet_ackFlow (h : v.Wf) (hdr : Byte) (payload : List Byte) :
    v.Quiet (v.ackFlow hdr payload) := by
  unfold ackFlow
  split
  · exact ⟨.refl _ _, rfl, rfl, { h with }⟩
  · exact .refl h

theorem Quiet.handled (hq : v.Quiet u) (h : u.Handled frame v') : v.Handled frame v' :=
  ⟨hq.endpoint.handles h.toHandles, (plain_of_emits hq.out rfl).trans h.plain,
    h.rxq.trans hq.rxq, h.config.trans hq.config, h.wf⟩

theorem vllpHandleRx_cases (h : v.Wf) (hr : v.vllpHandleRx i frame = .ok (v', err)) :
    err ≠ 0 ∧ v.Quiet v' ∨ err = 0 ∧ v.connected = true ∧ v.Handled frame v' ∨
      err = 0 ∧ frame.head? = some synResponse ∧ crc32 v.crcIV frame = BitVec.allOnes 32 ∧
        v.Enters v' := by
  unfold vllpHandleRx at hr
  cases frame with
  | nil =>
    cases hr
    exact .inl ⟨by decide, .refl h⟩
  | cons hdr payload =>
    simp only [vllpAcceptSyn, h.client, if_true] at hr
    split at hr
    · cases hr
      exact .inl ⟨by decide, .refl h⟩
    split at hr
    · cases hr
      exact .inl ⟨by decide, .refl h⟩
    rename_i hcrc
    split at hr
    · cases hr
      exact .inl ⟨by decide, .refl h⟩
    have hq := quiet_ackFlow h hdr payload
    generalize v.ackFlow hdr payload = u at hq hr
    have hconn := hq.connected
    split at hr
    · rename_i hc
      rcases rxSession_cases hq.wf hc hr with ⟨herr, hh⟩ | ⟨herr, hq'⟩
      · exact .inr (.inl ⟨herr, hconn.symm.trans hc, hq.handled hh⟩)
      · exact .inl ⟨herr, hq.trans hq'⟩
    · rename_i hc
      rw [if_pos hq.wf.client] at hr
      split at hr
      · cases hr
        exact .inl ⟨by decide, hq⟩
      rename_i hsyn
      cases hr
      have hresp : hdr = synResponse := by simpa using hsyn
      subst hresp
      refine .inr (.inr ⟨rfl, rfl, by simpa [synResponse, isAck] using hcrc, ⟨hq.out, hq.endpoint.view,
        ⟨by rw [← hconn]; simpa using hc, rfl⟩, hq.endpoint.crcIV, hq.rxq, hq.config, ?_⟩⟩)
      exact ⟨hq.wf.client, hq.wf.mtu, hq.wf.pad, hq.wf.chans, hq.wf.ids, hq.wf.tx,
        fun hcn => by simp at hcn⟩

/-! ## Transmission -/

/-- One frame that is not a link request. -/
theorem plain_log (hout : v'.out = v.out ++ [.tx frame])
    (hf : frame.head? ≠ some synByte) : v.Plain v' := by
  intro g hg
  rw [hout] at hg
  rcases mem_append.mp hg with hg | hg
  · exact .inl hg
  · cases mem_singleton.mp hg
    exact .inr hf

/-- A step that only sends, with the rest of the link part in place. -/
structure Sent (v v' : Host) : Prop extends v.endpoint.Sends v'.endpoint where
  plain : v.Plain v'
  rxq : v'.rxq = v.rxq
  config : v'.config = v.config
  wf : v'.Wf

theorem Quiet.sent (h : v.Quiet v') : v.Sent v' :=
  ⟨h.endpoint.sends, plain_of_emits h.out rfl, h.rxq, h.config, h.wf⟩

theorem Sent.trans (h : v.Sent v') (h' : v'.Sent v'') : v.Sent v'' :=
  ⟨h.toSendsFrom.trans h'.toSendsFrom, h.plain.trans h'.plain, h'.rxq.trans h.rxq, h'.config.trans h.config, h'.wf⟩

theorem vllpSendAck_spec (h : v.Wf) : v.Sent v.vllpSendAck := by
  refine ⟨Endpoint.sends_frame (ackFrame v.crcIV v.S v.E v.localFlowStatus) rfl rfl rfl rfl rfl
    ?_ ?_ ?_ ?_, plain_log rfl ?_, rfl, rfl, { h with }⟩
  · rw [ackFrame_read]
    rfl
  · rw [ackFrame_read]
    rfl
  · simp [ackFrame_read]
  · simp [ackFrame_length]
  · simp [ackFrame, (ackByte_read v.S v.E).2.1]

/-- The padding of the host is the one the device removes. -/
theorem hostPad (h : v.Wf) (pkt : List Byte) (hlen : pkt.length ≤ v.mtu) :
    (if v.fdcan then addPad [] pkt else pkt) = addPad [] pkt := by
  split
  · rfl
  · rename_i hfd
    have h8 := h.pad.resolve_left hfd
    exact (addPad_short [] pkt (by omega)).symm

/-- `vllp_send_pkt` puts the outstanding packet on the wire; only the bits in the stored
header change. -/
theorem vllpSendPkt_spec (h : v.Wf) (vp : Pkt) (htx : v.currentTx = some vp) :
    v.Sent (v.vllpSendPkt vp) := by
  obtain ⟨hd, payload, hdata, hch, hlen⟩ := h.tx vp htx
  have hm := h.mtu
  obtain ⟨-, -, -, hl, hc⟩ := hdrByte_read v.S v.E
    (hdrChannel hd != 15 && v.localFlowStatus.getLsbD (hdrChannel hd)) (hdrL hd) (hdrChannel hd)
    (by omega)
  have hpad := hostPad h (v.sendHdr hd :: payload) (by rw [length_cons]; omega)
  have hread := dataFrame_read [] v.S v.E
    (hdrChannel hd != 15 && v.localFlowStatus.getLsbD (hdrChannel hd)) (hdrL hd) (hdrChannel hd)
    payload (by omega) (by omega)
  rw [if_neg (by omega)] at hread
  have hcur : v.view.cur = some ⟨hdrChannel hd, hdrL hd, payload⟩ := by
    simp [view, currentFrag, htx, Pkt.frag, hdata]
  unfold vllpSendPkt
  simp only [hdata, hpad]
  refine ⟨Endpoint.sends_frame _ rfl ?_ rfl rfl rfl ?_ ?_ ?_ ?_, plain_log rfl ?_, rfl, rfl, ?_⟩
  · simp [endpoint, view, currentFrag, htx, Pkt.frag, hdata, log, sendHdr, hl, hc]
  · rw [sendHdr, hread]
    rfl
  · rw [sendHdr, hread]
    rfl
  · intro f hf
    rw [sendHdr, hread] at hf
    exact hcur.trans hf
  · intro h8
    replace h8 : v.mtu ≤ 8 := h8
    have hle : (v.sendHdr hd :: payload).length ≤ 8 := by rw [length_cons]; omega
    rw [addPad_short _ _ hle]
    exact hle
  · simp [addPad_head, sendHdr, (hdrByte_data v.S v.E _ (hdrL hd) (hdrChannel hd) hch).2]
  · refine { h with tx := ?_ }
    intro p hp
    cases hp
    exact ⟨_, _, rfl, by rw [sendHdr, hc]; exact hch, hlen⟩

/-- With nothing outstanding the next packet of a channel becomes the outstanding one. -/
theorem txStart_spec (h : v.Wf) (a : Nat) (hconn : v.connected = true) (hidle : v.currentTx = none)
    (htxq : (v.chan a).txq = vp :: rest) (hmsg : vp.type ≠ .eof) :
    v.Sent (v.txStart a vp rest) := by
  have hfits := (h.chan a).txq vp (htxq ▸ mem_cons_self) hmsg
  have h₁ := (serves_setTxq htxq).quiet h
  unfold txStart
  generalize v.setChan { v.chan a with txq := rest } = u at h₁ ⊢
  let w : Host := { u with
    activeChannels := u.activeChannels.filter (· != a)
    remoteFlowStatus := u.remoteFlowStatus &&& ~~~(1#16 <<< (u.chan a).id)
    currentTx := some vp
    S := !u.S }
  have hw : (w.log (.start vp.frag)).Wf := by
    refine ⟨h₁.wf.client, h₁.wf.mtu, h₁.wf.pad, h₁.wf.chans, h₁.wf.ids, ?_, ?_⟩
    · rintro p ⟨⟩
      exact h₁.mtu.symm ▸ hfits
    · exact fun hcn => absurd ((h₁.connected.trans hconn).symm.trans hcn) (by simp)
  have hstart : u.Sent (w.log (.start vp.frag)) := by
    have hemits : Emits u.mtu u.out [.start vp.frag] (w.log (.start vp.frag)).out :=
      .one u.mtu u.out (.start vp.frag) (by simp)
    refine ⟨⟨⟨[.start vp.frag], hemits, ?_⟩, rfl, rfl, rfl⟩, plain_of_emits hemits rfl,
      rfl, rfl, hw⟩
    refine .start vp.frag ?_ (.nil _)
    simp [endpoint, view, currentFrag, h₁.currentTx, hidle]
  have hstate := (upkeep_next _ a rest).quiet hw
  exact ((h₁.sent.trans hstart).trans hstate.sent).trans
    (vllpSendPkt_spec hstate.wf vp hstate.currentTx)

theorem txLoop_spec {again : Host → Except Halt Host} {l : List Nat}
    (hagain : ∀ u u' : Host, u.Wf → u.connected = true → again u = .ok u' → u.Sent u')
    (h : v.Wf) (hconn : v.connected = true) (hidle : v.currentTx = none)
    (hr : txLoop i again v l = .ok v') : v.Sent v' := by
  induction l generalizing v with
  | nil =>
    simp only [txLoop, Except.ok.injEq] at hr
    subst hr
    split
    · exact vllpSendAck_spec h
    · exact (Quiet.refl h).sent
  | cons a rest ih =>
    simp only [txLoop] at hr
    split at hr
    · cases hr
    have h₁ := (serves_fragment v a).quiet h
    generalize v.fragment a = u at h₁ hr
    have hconn' := h₁.connected.trans hconn
    have hidle' := h₁.currentTx.trans hidle
    split at hr
    · cases hr
    rename_i vp txq htxq
    by_cases heof : vp.type = .eof
    · rw [if_pos heof] at hr
      have h₂ := h₁.trans ((serves_txClose htxq).quiet h₁.wf)
      exact h₂.sent.trans (hagain _ _ h₂.wf (h₂.connected.trans hconn) hr)
    rw [if_neg heof] at hr
    split at hr
    · exact h₁.sent.trans (ih h₁.wf hconn' hidle' hr)
    · cases hr
      exact h₁.sent.trans (txStart_spec h₁.wf a hconn' hidle' htxq heof)

theorem vllpTx_connected (fuel : Nat) (h : v.Wf)
    (hconn : v.connected = true) (hr : vllpTx i fuel v = .ok v') : v.Sent v' := by
  induction fuel generalizing v v' with
  | zero => cases hr
  | succ fuel ih =>
    simp only [vllpTx, hconn, Bool.not_true, Bool.false_eq_true, if_false] at hr
    split at hr
    · rename_i vp htx
      cases hr
      split
      · exact vllpSendPkt_spec h vp htx
      · exact (Quiet.refl h).sent
    · rename_i hidle
      exact txLoop_spec (fun u u' hu hc hr' => ih hu hc hr') h hconn hidle hr

/-- A client without a session asks for one: new cookie, empty receive queue. An
outstanding packet stays. -/
structure Asks (v v' : Host) (cookie : BitVec 32) : Prop where
  out : v'.out = v.out ++ [.tx (synFrame v.mtu cookie)]
  connected : v.connected = false ∧ v'.connected = false
  crcIV : v'.crcIV = cookie
  rxq : v'.rxq = []
  config : v'.config = v.config
  wf : v'.Wf

theorem vllpSendSyn_spec (h : v.Wf) (hconn : v.connected = false)
    (cookie : BitVec 32) (hc : i.cookie = some cookie) : v.Asks (v.vllpSendSyn i) cookie := by
  unfold vllpSendSyn
  simp only [hc, vllpGenChannelCrc]
  refine ⟨rfl, ⟨hconn, hconn⟩, rfl, rfl, rfl, { h with chans := ?_ }⟩
  intro c hc'
  rcases Heap.mem_put hc' with hc' | rfl
  · exact h.chans c hc'
  · exact ⟨(h.chan cmc).id, (h.chan cmc).txq, (h.chan cmc).mtxq⟩

theorem vllpTx_cases (fuel : Nat) (h : v.Wf) (hr : vllpTx i fuel v = .ok v') :
    v.connected = true ∧ v.Sent v' ∨ v.Quiet v' ∨
      ∃ cookie, i.cookie = some cookie ∧ v.Asks v' cookie := by
  by_cases hconn : v.connected
  · exact .inl ⟨hconn, vllpTx_connected fuel h hconn hr⟩
  cases fuel with
  | zero => cases hr
  | succ fuel =>
    simp only [vllpTx, hconn, Bool.not_false, if_true, Except.ok.injEq] at hr
    subst hr
    split
    · cases hc : i.cookie with
      | none => exact .inr (.inl (by simpa [vllpSendSyn, hc] using Quiet.refl h))
      | some cookie =>
        exact .inr (.inr ⟨cookie, rfl, vllpSendSyn_spec h (by simpa using hconn) cookie hc⟩)
    · exact .inr (.inl (Quiet.refl h))

/-! ## Events -/

/-- All that one event can be, seen from the link; `ask` is the cookie it may use. -/
inductive Moves (ask : Option (BitVec 32)) (v v' : Host) : Prop
  | quiet (h : v.Quiet v')
  | sent (hconn : v.connected = true) (h : v.Sent v')
  | ended (h : v.Ends v')
  | failed (f : List Byte) (rest : List (List Byte)) (hq : v.rxq = f :: rest)
      (h : Ends { v with rxq := rest } v')
  | handled (f : List Byte) (rest : List (List Byte)) (hq : v.rxq = f :: rest)
      (hconn : v.connected = true) (h : Handled { v with rxq := rest } f v')
  | entered (f : List Byte) (rest : List (List Byte)) (hq : v.rxq = f :: rest)
      (hf : f.head? = some synResponse) (hcrc : crc32 v.crcIV f = BitVec.allOnes 32)
      (h : Enters { v with rxq := rest } v')
  | asked (cookie : BitVec 32) (hc : ask = some cookie) (h : v.Asks v' cookie)

theorem Quiet.ends (hq : v.Quiet u) (h : u.Ends v') : v.Ends v' :=
  ⟨hq.endpoint.ends h.toEnds, h.tx.trans hq.currentTx, h.rxq.trans hq.rxq,
    h.config.trans hq.config, h.wf⟩

/-- Taking a frame off the receive queue commutes with what the link does not see. -/
theorem Quiet.withRxq (hq : v.Quiet u) (rest : List (List Byte)) :
    Quiet { v with rxq := rest } { u with rxq := rest } := by
  have hlink : Host.link { u with rxq := rest } = Host.link { v with rxq := rest } :=
    congrArg (fun l => (l.1, l.2.1, l.2.2.1, l.2.2.2.1, l.2.2.2.2.1, rest)) hq.link
  have hw := hq.wf
  exact ⟨hq.out, hlink, hq.config,
    { hw with }⟩

theorem vllpThread_moves (h : v.Wf) (hr : v.vllpThread i = .ok v') : v.Moves i.cookie v' := by
  -- channels are only opened in a session, so without one the round starts in `v`
  have hpend : ∀ u, (if v.connected then v.handlePendingChannels else .ok v) = .ok u →
      v.Quiet u ∧ (v.connected = false → u = v) := by
    intro u hu
    by_cases hconn : v.connected
    · rw [if_pos hconn] at hu
      exact ⟨(serves_handlePendingLoop hu).quiet h, fun hc => absurd hconn (by simp [hc])⟩
    · rw [if_neg hconn] at hu
      cases hu
      exact ⟨.refl h, fun _ => rfl⟩
  unfold vllpThread at hr
  split at hr
  · cases hr
  rename_i u hu
  obtain ⟨hq, hsame⟩ := hpend u hu
  have hconn := hq.connected
  split at hr
  · cases hr
    exact .ended (hq.ends (vllpDisconnect_spec hq.wf))
  split at hr
  · rename_i f rest hqueue
    have hq' := hq.withRxq rest
    have hvq : v.rxq = f :: rest := hq.rxq.symm.trans hqueue
    split at hr
    · cases hr
    rename_i w err hrx
    cases hr
    rcases vllpHandleRx_cases hq'.wf hrx with ⟨herr, hw⟩ | ⟨herr, hc, hh⟩ | ⟨herr, hf, hcrc, hent⟩
    · rw [if_neg herr]
      exact .failed f rest hvq ((hq'.trans hw).ends (vllpDisconnect_spec hw.wf))
    · rw [if_pos herr]
      exact .handled f rest hvq (hconn.symm.trans hc) (hq'.handled hh)
    · rw [if_pos herr]
      have huv : u = v := hsame (hconn.symm.trans hent.connected.1)
      exact .entered f rest hvq hf (huv ▸ hcrc) (huv ▸ hent)
  · rcases vllpTx_cases _ hq.wf hr with ⟨hc, hs⟩ | hqt | ⟨cookie, hc, hask⟩
    · exact .sent (hconn.symm.trans hc) (hq.sent.trans hs)
    · exact .quiet (hq.trans hqt)
    · have huv : u = v := hsame (hconn.symm.trans hask.connected.1)
      exact .asked cookie hc (huv ▸ hask)

end Host

/-- An application call does not touch the link. -/
theorem Host.step_quiet {v v' : Host} {e : HostEvent} (h : v.Wf) (he : ∀ f, e ≠ .input f)
    (ht : ∀ i, e ≠ .thread i) (hr : v.step e = .ok v') : Host.Quiet { v with out := [] } v' :=
  (Host.step_upkeep he ht hr).quiet ({ h with })

theorem vllpCreate_wf (mtu : Nat) (h : 8 ≤ mtu ∧ mtu ≤ 64) :
    (vllpCreate true (decide (8 < mtu)) mtu).Wf := by
  have hids : (0x3fff : BitVec 16).getLsbD 15 = false := by decide
  refine ⟨rfl, ?_, ?_, ?_, hids, by simp [vllpCreate], fun _ => ⟨rfl, rfl⟩⟩
  · simp only [vllpCreate]
    split <;> simp_all <;> omega
  · by_cases h8 : 8 < mtu
    · exact .inl (by simp [vllpCreate, h8])
    · exact .inr (by simp [vllpCreate, h8]; omega)
  · intro c hc
    rw [mem_singleton.mp hc]
    exact ⟨by decide, by simp [newHChannel], by simp [newHChannel]⟩

end Mios.Vllp
