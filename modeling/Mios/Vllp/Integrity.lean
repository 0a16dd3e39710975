import Mios.Vllp.HostLink
import Mios.Vllp.Transmit

/-! From the bytes an application gives to `vllp_channel_send` on the host to the
packet the device pushes to its application: CRC, fragmentation and padding on one
side, reassembly in a single buffer and the CRC check on the other. -/

namespace Mios.Vllp

open Lib Crc32 Pbuf Dev List Host

variable {iv : BitVec 32} {v v' : Dev} {i : In} {bytes d frame : List Byte} {a id : Nat}

/-! ## Reassembly -/

/-- The buffer a message is collected in. What does not fit is not stored; the packet
length counts it all the same. -/
def assembled (bytes : List Byte) : Pbuf :=
  { pbufMake 0 with flags := 0, data := bytes.take dataSize, pktlen := bytes.length % 65536 }

/-- The receive queue after `bytes` of a message. -/
def collecting (bytes : List Byte) : Chain := if bytes = [] then [] else [assembled bytes]

theorem rxqStore_collecting (bytes d : List Byte) (hlen : d.length ≤ dataSize) :
    ∃ p, rxqStore true (collecting bytes) d = .ok (some [p]) ∧
      p.addLen d.length = assembled (bytes ++ d) := by
  by_cases hb : bytes = []
  · subst hb
    refine ⟨firstBuf d, ?_, ?_⟩
    · simp only [collecting, if_true, rxqStore_nil, Bool.not_true, Bool.false_eq_true, if_false,
        if_neg (Nat.not_lt.mpr hlen)]
    · simp [firstBuf, assembled, addLen, pbufMake, take_of_length_le hlen]
  · refine ⟨fillBuf (assembled bytes) d, ?_, ?_⟩
    · rw [collecting, if_neg hb, rxqStore_single]
    have htake : bytes.take dataSize ++ d.take (dataSize - min dataSize bytes.length) =
        (bytes ++ d).take dataSize := by
      rw [take_append]
      congr 2
      omega
    simp [fillBuf, assembled, addLen, buflen, htake]

/-- What the application is given for the bytes of a message: nothing if the CRC over what
was stored is wrong. -/
def verdict (id : Nat) (iv : BitVec 32) (bytes : List Byte) : List (Nat × Chain) :=
  if ~~~crc32 iv (bytes.take dataSize) ≠ 0 then []
  else [(id, [{ assembled bytes with
    flags := eop ||| sop
    data := (bytes.take dataSize).take ((bytes.take dataSize).length - 4)
    pktlen := (bytes.length % 65536 + 65536 - 4) % 65536 }])]

/-- The device is in a session and the open channel `a` has received `bytes` of a message. -/
structure Dev.Listens (v : Dev) (a id : Nat) (iv : BitVec 32) (bytes : List Byte) : Prop where
  wf : v.Wf
  linked : v.Linked
  connected : v.connected = true
  find : vllpChannelFind v id = some a
  notCmc : a ≠ cmc
  live : Heap.Live Channel.addr v.objs a
  rxq : (v.chan a).rxq = collecting bytes
  iv : (v.chan a).rxCrcIV = iv

theorem find_congr (id : Nat) (hch : v'.channels = v.channels)
    (hid : ∀ b ∈ v.channels, (v'.chan b).id = (v.chan b).id) :
    vllpChannelFind v' id = vllpChannelFind v id := by
  unfold vllpChannelFind
  rw [hch]
  generalize v.channels = l at hid
  induction l with
  | nil => rfl
  | cons b l ih =>
    simp only [List.find?_cons, hid b (.head _), ih fun b' hb => hid b' (mem_cons_of_mem b hb)]

theorem Dev.KeepsRx.listens (h : v.KeepsRx v') (hv : v.Listens a id iv bytes) (hw : v'.Wf)
    (hconn : v'.connected = true) : v'.Listens a id iv bytes := by
  have ha := (vllpChannelFind_spec hv.find).2
  have hrx := h.rx a ha
  simp only [Channel.rx, Prod.mk.injEq] at hrx
  have hid : ∀ b ∈ v.channels, (v'.chan b).id = (v.chan b).id := fun b hb =>
    congrArg Prod.fst (h.rx b hb)
  exact ⟨hw, h.linked hv.linked, hconn, (find_congr id h.channels hid).trans hv.find, hv.notCmc,
    h.live a ha hv.live, hrx.2.1.trans hv.rxq, hrx.2.2.1.trans hv.iv⟩

theorem collecting_le (bytes : List Byte) : collecting bytes = [] ∨
    ∃ p, collecting bytes = [p] ∧ p.buflen ≤ dataSize := by
  by_cases hb : bytes = []
  · exact .inl (if_pos hb)
  · refine .inr ⟨assembled bytes, if_neg hb, ?_⟩
    simp only [assembled, buflen, length_take]
    omega

section

variable (hv : v.Listens a id iv bytes)
include hv

/-- Store the next part of the message, or start a new one. -/
theorem Dev.Listens.setRx (iv' : BitVec 32) (bytes' : List Byte) :
    (v.setChan { v.chan a with rxq := collecting bytes', rxCrcIV := iv' }).Listens a id iv' bytes' := by
  have hw := hv.wf.chan a
  let c : Channel := { v.chan a with rxq := collecting bytes', rxCrcIV := iv' }
  have hself : (v.setChan c).chan a = c := chan_setChan_self (chan_addr v a) hv.live
  have hsame : ∀ b ∈ v.channels, ((v.setChan c).chan b).id = (v.chan b).id ∧
      ((v.setChan c).chan b).netClosed = (v.chan b).netClosed := by
    intro b _
    rcases chan_setChan v c b with h | ⟨hb, h⟩
    · rw [h]
      exact ⟨rfl, rfl⟩
    · rw [show c.addr = a from chan_addr v a] at hb
      subst hb
      rw [h]
      exact ⟨rfl, rfl⟩
  have hfind : vllpChannelFind (v.setChan c) id = vllpChannelFind v id :=
    find_congr id rfl fun b hb => (hsame b hb).1
  exact ⟨hv.wf.setChan ⟨hw.id, hw.txq, collecting_le bytes', hw.app⟩,
    fun b hb => (hsame b hb).2.trans (hv.linked b hb), hv.connected, hfind.trans hv.find, hv.notCmc,
    hv.live.put c, by rw [show v.setChan _ = v.setChan c from rfl, hself],
    by rw [show v.setChan _ = v.setChan c from rfl, hself]⟩

/-! ## One fragment -/

/-- `vllp_channel_receive` in the middle of a message. -/
theorem receive_middle {hdr : Byte} (hch : hdrChannel hdr = id) (hl : hdrL hdr = false)
    (halloc : i.allocRx = true) (hd : d ≠ []) (hlen : d.length ≤ dataSize) :
    vllpChannelReceive i v hdr d =
      .ok (v.setChan { v.chan a with rxq := collecting (bytes ++ d), rxCrcIV := iv }, 0) := by
  obtain ⟨p, hp, hadd⟩ := rxqStore_collecting bytes d hlen
  have hopen := hv.linked a (vllpChannelFind_spec hv.find).2
  have hq : collecting (bytes ++ d) = [assembled (bytes ++ d)] := if_neg (by simp [hd])
  simp only [vllpChannelReceive, hch, hv.find, hopen, hl, halloc, hv.rxq, hp, hadd, hq, Bool.false_and,
    Bool.false_eq_true, if_false]
  rw [← hv.iv]

/-- The last fragment completes the message. -/
theorem receive_last {hdr : Byte} (hch : hdrChannel hdr = id) (hl : hdrL hdr = true)
    (halloc : i.allocRx = true) (hflow : v.localFlowStatus.getLsbD id = true)
    (hlen : d.length ≤ dataSize) : vllpChannelReceive i v hdr d =
      channelMessage i (v.setChan { v.chan a with rxq := [] }) a
        [{ assembled (bytes ++ d) with flags := eop ||| sop }] := by
  obtain ⟨p, hp, hadd⟩ := rxqStore_collecting bytes d hlen
  have hopen := hv.linked a (vllpChannelFind_spec hv.find).2
  simp only [vllpChannelReceive, hch, hv.find, hopen, hl, halloc, hv.rxq, hp, hadd, hflow,
    Bool.not_true, Bool.and_false, Bool.false_eq_true, if_false, if_true, markEnds, setEop]

/-- The frame carries the next fragment `d` for channel `id`. -/
structure Carries (frame : List Byte) (s : Bool) (id : Nat) (last : Bool) (d : List Byte) : Prop where
  read : ∃ hdr, stripPad frame = some (hdr :: d) ∧ hdrChannel hdr = id ∧ hdrS hdr = s ∧
    hdrL hdr = last ∧ isAck hdr = false ∧ hdr ≠ synByte
  data : id < 15
  ne : d ≠ []
  len : d.length ≤ dataSize

/-- The acknowledgement half, seen from reception. -/
theorem rxAck_listens (e : Bool) :
    ∃ v', rxAck i v (e != v.S) = .ok v' ∧ v'.Listens a id iv bytes ∧ v'.E = v.E ∧
      pushes v'.out = pushes v.out := by
  obtain ⟨v', w, ds, ls, hok, -, hd, hl, hconn, -, -, hw⟩ :=
    rxAck_spec i v ⟨false, e, none⟩ (e != v.S) hv.wf (by simp)
  have hk := rxAck_keepsRx hv.linked hok
  exact ⟨v', hok, hk.listens hv hw (hconn.trans hv.connected), hl.e_eq.trans hd.e_eq, hk.pushes⟩

/-- The two halves of `vllp_rx` for a frame with data. -/
def Dev.rxHalves (i : In) (u : Dev) (hdr : Byte) (d : List Byte) : Except Halt Dev :=
  match rxData i u hdr d with
  | .error h => .error h
  | .ok (w, false) => .ok w
  | .ok (w, true) => rxAck i w (hdrE hdr != u.S)

/-- `vllp_rx` up to the two halves. -/
theorem step_rx {last : Bool} (hf : Carries frame v.E id last d) (hpush : i.mayPush id = true) :
    ∃ hdr u, hdrChannel hdr = id ∧ hdrL hdr = last ∧ hdrS hdr = u.E ∧ u.Listens a id iv bytes ∧
      u.E = v.E ∧ u.localFlowStatus.getLsbD id = true ∧ pushes u.out = [] ∧
      v.step (.rx i frame) = Dev.rxHalves i u hdr d := by
  obtain ⟨hdr, hstrip, hch, hs, hl, hack, hsyn⟩ := hf.read
  have hlt := hf.data
  have hw : ({ v with out := [] } : Dev).Wf := { hv.wf with }
  have h0 : ({ v with out := [] } : Dev).Listens a id iv bytes :=
    { hv with wf := hw }
  obtain ⟨hq, hwu⟩ := refresh_spec i { v with out := [] } hw
  obtain ⟨hflow, hk⟩ := refresh_flow i { v with out := [] }
  generalize hu : (vllpRefreshLocalFlowStatus i { v with out := [] }).1 = u at hq hwu hflow hk
  have hlink := hq.link
  simp only [Dev.link, Prod.mk.injEq] at hlink
  obtain ⟨-, hE, -, -, -, hconn, -, -⟩ := hlink
  refine ⟨hdr, u, hch, hl, hs.trans hE.symm, hk.listens h0 hwu (hconn.trans hv.connected), hE, ?_,
    hk.pushes, ?_⟩
  · rw [hflow]
    exact (getLsbD_localFlow i v (by omega)).mpr fun _ _ _ _ _ => hpush
  have hstep : v.step (.rx i frame) = rxFrame i u (hdr :: d) := hu ▸ vllpRx_good hstrip
  rw [hstep]
  have hacc : (hdrS hdr == u.E) = true := by rw [hs, hE]; exact beq_self_eq_true _
  have hdata : (hdrChannel hdr ≠ 15 && hdrS hdr == u.E) = true := by
    rw [hacc]
    simp
    omega
  have hin : ¬(!u.connected) = true := by simp [hconn.trans hv.connected]
  have hnone : ∀ b : Bool, ¬(isAck hdr && b) = true := by simp [hack]
  exact (if_neg hsyn).trans <| (if_neg (hnone _)).trans <| (if_neg (hnone _)).trans <|
    (if_neg hin).trans <| if_pos hdata

omit hv in
/-- A fragment was taken: the sequence bit turns, and the acknowledgement half follows. -/
theorem rx_accepted {u x : Dev} {hdr : Byte} (hu : u.Wf) (hch : hdrChannel hdr = id) (hid : id < 15)
    (hs : hdrS hdr = u.E) (hdata : rxData i u hdr d = .ok (x.accepts hdr d, true))
    (hx : x.Listens a id iv bytes) (hS : x.S = u.S) :
    ∃ v', Dev.rxHalves i u hdr d = .ok v' ∧ v'.Listens a id iv bytes ∧ v'.E = (!x.E) ∧
      pushes v'.out = pushes x.out := by
  have hyw := (rxData_spec hu (by omega) hs hdata).1
  have hk : x.Still (x.accepts hdr d) := still_of rfl rfl (.snoc _ rfl rfl)
  obtain ⟨v', hok, hv', hE', hpush'⟩ :=
    rxAck_listens (hk.listens hx hyw hx.connected) (hdrE hdr)
  refine ⟨v', ?_, hv', hE', hpush'.trans hk.pushes⟩
  rw [Dev.rxHalves, hdata, ← hS]
  exact hok

theorem rx_middle (hf : Carries frame v.E id false d)
    (halloc : i.allocRx = true) (hpush : i.mayPush id = true) :
    ∃ v', v.step (.rx i frame) = .ok v' ∧ v'.Listens a id iv (bytes ++ d) ∧ v'.E = (!v.E) ∧
      pushes v'.out = [] := by
  obtain ⟨hdr, u, hch, hl, hs, hu, hE, -, hout, hstep⟩ := step_rx hv hf hpush
  have hrecv := receive_middle hu hch hl halloc hf.ne hf.len
  have hdata : rxData i u hdr d = .ok ((u.setChan
      { u.chan a with rxq := collecting (bytes ++ d), rxCrcIV := iv }).accepts hdr d, true) := by
    simp only [rxData, hrecv, if_true]
    rfl
  obtain ⟨v', hok, hv', hE', hpush'⟩ :=
    rx_accepted hu.wf hch hf.data hs hdata (hu.setRx iv (bytes ++ d)) rfl
  refine ⟨v', hstep.trans hok, hv', ?_, hpush'.trans hout⟩
  rw [hE', ← hE]
  rfl

omit hv in
/-- The message is checked over what was stored and, without its last four bytes, pushed. -/
theorem channelMessage_assembled (hv : v.Listens a id iv []) (hlen : 4 ≤ bytes.length) :
    ∃ w err, channelMessage i v a [{ assembled bytes with flags := eop ||| sop }] = .ok (w, err) ∧
      (err = errChecksumError ∧ w = v ∧ verdict id iv bytes = [] ∨
        err = 0 ∧ w.Listens a id (iv + 1) [] ∧ w.S = v.S ∧
          pushes w.out = pushes v.out ++ verdict id iv bytes) := by
  have hiv := hv.iv
  have hid := (vllpChannelFind_spec hv.find).1
  have hcalc : calcCrc32 [{ assembled bytes with flags := eop ||| sop }] iv =
      ~~~crc32 iv (bytes.take dataSize) := by
    simp [calcCrc32, assembled]
  simp only [channelMessage, hiv, hcalc]
  by_cases hcrc : ~~~crc32 iv (bytes.take dataSize) ≠ 0
  · rw [if_pos hcrc]
    exact ⟨v, errChecksumError, rfl, .inl ⟨rfl, rfl, if_pos hcrc⟩⟩
  have htrim := pbufTrim_one { assembled bytes with flags := eop ||| sop } 1 4 (by decide) (by
    simp only [assembled, buflen, length_take, dataSize]
    omega)
  simp only [if_neg hcrc, length_singleton, htrim, if_neg hv.notCmc]
  have hset := hv.setRx (iv + 1) []
  have hsame : v.setChan { v.chan a with rxCrcIV := iv + 1 } =
      v.setChan { v.chan a with rxq := collecting [], rxCrcIV := iv + 1 } := by
    rw [← hv.rxq]
  rw [← hsame] at hset
  refine ⟨_, 0, rfl, .inr ⟨rfl, ?_, rfl, ?_⟩⟩
  · exact { hset with wf := { hset.wf with } }
  · rw [verdict, if_neg hcrc, Dev.log, pushes_append, hid]
    rfl

theorem rx_last (hf : Carries frame v.E id true d)
    (halloc : i.allocRx = true) (hpush : i.mayPush id = true) (hlen : 4 ≤ (bytes ++ d).length) :
    ∃ v', v.step (.rx i frame) = .ok v' ∧ pushes v'.out = verdict id iv (bytes ++ d) := by
  obtain ⟨hdr, u, hch, hl, hs, hu, -, hflow, hout, hstep⟩ := step_rx hv hf hpush
  have hset : (u.setChan { u.chan a with rxq := [] }).Listens a id iv [] := by
    have hsame : ({ u.chan a with rxq := [] } : Channel) =
        { u.chan a with rxq := collecting [], rxCrcIV := iv } := by
      rw [← hu.iv]
      rfl
    rw [hsame]
    exact hu.setRx iv []
  have hrecv := receive_last hu hch hl halloc hflow hf.len
  obtain ⟨w, err, hmsg, hcases⟩ := channelMessage_assembled hset hlen
  rw [hmsg] at hrecv
  rcases hcases with ⟨herr, hw, hnone⟩ | ⟨herr, hw, hwS, hpushed⟩
  · have hdata : rxData i u hdr d = .ok (vllpDisconnect w, false) := by
      simp only [rxData, hrecv, herr]
      rfl
    refine ⟨vllpDisconnect w, by rw [hstep, Dev.rxHalves, hdata], ?_⟩
    rw [(disconnect_mute w).pushes, hw, hnone]
    exact hout
  · have hdata : rxData i u hdr d = .ok (w.accepts hdr d, true) := by
      simp only [rxData, hrecv, herr, if_true]
      rfl
    obtain ⟨v', hok, -, -, hpush'⟩ := rx_accepted hu.wf hch hf.data hs hdata hw hwS
    refine ⟨v', hstep.trans hok, ?_⟩
    rw [hpush', hpushed, show pushes (u.setChan _).out = [] from hout, nil_append]

end

/-! ## A whole message -/

/-- The fragments `fragment` makes of one message. -/
def fragments (mtu : Nat) (vc : HChannel) (data : List Byte) : List Pkt :=
  (fragmentLoop mtu { vc with txq := [] } [⟨.msg, data⟩]).txq

/-- Each packet is put on the wire by `vllp_send_pkt` in the state the host is then in. -/
def sendAll : List Host → List Pkt → List (List Byte)
  | v :: vs, p :: ps => txs (vllpSendPkt { v with out := [] } p).out ++ sendAll vs ps
  | _, _ => []

/-- States of a host on a link with frames of `mtu` bytes, each with the next sequence bit. -/
def InTurn (mtu : Nat) (s : Bool) : List Host → Prop
  | [] => True
  | v :: vs =>
      v.config = (vllpCreate true (decide (8 < mtu)) mtu).config ∧ v.S = s ∧ InTurn mtu (!s) vs

/-- The device receives one frame after the other. -/
def rxAll : Dev → List In → List (List Byte) → Except Halt (Dev × List Ev)
  | v, i :: is, f :: fs =>
      match v.step (.rx i f) with
      | .error h => .error h
      | .ok v' => (rxAll v' is fs).map fun (w, evs) => (w, v'.out ++ evs)
  | v, _, _ => .ok (v, [])

/-- The surroundings find a buffer and the application takes the message. -/
def Ready (id : Nat) (i : In) : Prop := i.allocRx = true ∧ i.mayPush id = true

theorem linkMtu (mtu : Nat) (h : 8 ≤ mtu ∧ mtu ≤ 64) :
    (vllpCreate true (decide (8 < mtu)) mtu).mtu = (vllpServerCreate mtu).mtu ∧
      8 ≤ (vllpServerCreate mtu).mtu ∧ (vllpServerCreate mtu).mtu ≤ 63 ∧
      (8 < mtu ∨ (vllpServerCreate mtu).mtu ≤ 8) := by
  by_cases h8 : 8 < mtu
  · refine ⟨?_, ?_, ?_, .inl h8⟩ <;> simp [vllpCreate, vllpServerCreate, h8] <;> omega
  · refine ⟨?_, ?_, ?_, .inr ?_⟩ <;> simp [vllpCreate, vllpServerCreate, h8] <;> omega

/-- What the host sends for a packet of a channel is what the device takes for it. -/
theorem sendPkt_carries {mtu : Nat} (hmtu : 8 ≤ mtu ∧ mtu ≤ 64) {v : Host} {last : Bool}
    (hv : v.config = (vllpCreate true (decide (8 < mtu)) mtu).config) (hid : id < 15)
    (hd : d ≠ []) (hlen : d.length < (vllpServerCreate mtu).mtu) :
    ∃ frame, txs (Host.vllpSendPkt { v with out := [] }
      ⟨.msg, hdrByte false false false last id :: d⟩).out = [frame] ∧ Carries frame v.S id last d := by
  obtain ⟨hm, -, h63, hpad⟩ := linkMtu mtu hmtu
  simp only [Host.config, Prod.mk.injEq] at hv
  obtain ⟨-, -, -, hl0, hc0⟩ := hdrByte_read false false false last id (by omega)
  let hdr := hdrByte v.S v.E (id != 15 && v.localFlowStatus.getLsbD id) last id
  obtain ⟨hs, -, -, hl, hc⟩ := hdrByte_read v.S v.E
    (id != 15 && v.localFlowStatus.getLsbD id) last id (by omega)
  obtain ⟨hack, hsyn⟩ := hdrByte_data v.S v.E (id != 15 && v.localFlowStatus.getLsbD id) last id hid
  have hsend : sendHdr { v with out := [] } (hdrByte false false false last id) = hdr := by
    simp only [sendHdr, hl0, hc0]
    rfl
  have hstrip : stripPad (if v.fdcan then addPad [] (hdr :: d) else hdr :: d) = some (hdr :: d) := by
    by_cases h8 : 8 < mtu
    · rw [show v.fdcan = true by rw [hv.2.1]; simp [vllpCreate, h8], if_pos rfl]
      exact stripPad_addPad _ _ (by rw [length_cons]; omega)
    · have hlow := hpad.resolve_left h8
      rw [show v.fdcan = false by rw [hv.2.1]; simp [vllpCreate, h8], if_neg (by simp)]
      simp only [stripPad, length_cons]
      rw [if_neg (by omega)]
  refine ⟨if v.fdcan then addPad [] (hdr :: d) else hdr :: d, ?_,
    ⟨hdr, hstrip, hc, hs, hl, hack, hsyn⟩, hid, hd, by unfold dataSize; omega⟩
  simp only [Host.vllpSendPkt, Host.log, nil_append, txs, hsend]

/-- The fragments by induction over what is left of the message. -/
theorem rxAll_split {mtu : Nat} (hmtu : 8 ≤ mtu ∧ mtu ≤ 64)
    (hid : id < 15) (fuel : Nat) {rest : List Byte} {hosts : List Host}
    {is : List In} (hv : v.Listens a id iv bytes) (hne : rest ≠ []) (hfuel : rest.length ≤ fuel)
    (hturn : InTurn mtu v.E hosts)
    (hhosts : hosts.length = (splitMsg id (vllpServerCreate mtu).mtu fuel rest).length)
    (his : is.length = hosts.length) (hready : ∀ i ∈ is, Ready id i)
    (h4 : 4 ≤ (bytes ++ rest).length) :
    ∃ w evs, rxAll v is (sendAll hosts (splitMsg id (vllpServerCreate mtu).mtu fuel rest)) =
      .ok (w, evs) ∧ pushes evs = verdict id iv (bytes ++ rest) := by
  obtain ⟨-, h8, h63, -⟩ := linkMtu mtu hmtu
  induction fuel generalizing rest bytes v hosts is with
  | zero => exact absurd (length_eq_zero_iff.mp (by omega)) hne
  | succ fuel ih =>
    have hpos := length_pos_iff.mpr hne
    generalize hn : min (rest.length + 1) (vllpServerCreate mtu).mtu - 1 = n
    have hsplit : splitMsg id (vllpServerCreate mtu).mtu (fuel + 1) rest =
        ⟨.msg, hdrByte false false false (rest.drop n).isEmpty id :: rest.take n⟩ ::
          (if (rest.drop n).isEmpty then []
            else splitMsg id (vllpServerCreate mtu).mtu fuel (rest.drop n)) := by
      simp only [splitMsg, hn]
    rw [hsplit] at hhosts ⊢
    rcases hosts with _ | ⟨h, hosts⟩
    · simp at hhosts
    rcases is with _ | ⟨i, is⟩
    · simp at his
    obtain ⟨hconf, hS, hturn'⟩ := hturn
    obtain ⟨halloc, hpush⟩ := hready i (.head _)
    have htake : rest.take n ≠ [] := by
      intro hnil
      have := congrArg List.length hnil
      rw [length_take, length_nil] at this
      omega
    obtain ⟨frame, hframe, hcar⟩ : ∃ frame, txs (vllpSendPkt { h with out := [] }
        ⟨.msg, hdrByte false false false (rest.drop n).isEmpty id :: rest.take n⟩).out = [frame] ∧
        Carries frame h.S id (rest.drop n).isEmpty (rest.take n) :=
      sendPkt_carries hmtu hconf hid htake (by rw [length_take]; omega)
    rw [hS] at hcar
    simp only [sendAll, hframe, singleton_append, rxAll]
    cases hlast : (rest.drop n).isEmpty with
    | true =>
      have hall : rest.take n = rest := by
        have := take_append_drop n rest
        rwa [isEmpty_iff.mp hlast, append_nil] at this
      rw [hlast, hall] at hcar
      obtain ⟨v', hstep, hpushed⟩ := rx_last hv hcar halloc hpush h4
      have hnil : sendAll hosts ([] : List Pkt) = [] := by cases hosts <;> rfl
      have hrx : ∀ js, rxAll v' js [] = .ok (v', []) := by intro js; cases js <;> rfl
      simp only [hstep, if_true, hnil, hrx]
      exact ⟨v', v'.out ++ [], rfl, by rw [append_nil]; exact hpushed⟩
    | false =>
      rw [hlast] at hcar
      obtain ⟨v', hstep, hv', hE, hnone⟩ := rx_middle hv hcar halloc hpush
      have hdrop : rest.drop n ≠ [] := fun hnil => by simp [hnil] at hlast
      have happ : bytes ++ rest.take n ++ rest.drop n = bytes ++ rest := by
        rw [append_assoc, take_append_drop]
      have hturn'' : InTurn mtu v'.E hosts := by rw [hE]; exact hturn'
      have his' : is.length = hosts.length := by simpa using his
      obtain ⟨w, evs, hrun, hpushed⟩ := ih hv' hdrop (by rw [length_drop]; omega) hturn''
        (by simpa [hlast] using hhosts) his'
        (fun j hj => hready j (mem_cons_of_mem i hj)) (by rw [happ]; exact h4)
      simp only [hstep, Bool.false_eq_true, if_false, hrun]
      exact ⟨w, v'.out ++ evs, rfl, by rw [pushes_append, hnone, hpushed, happ]; rfl⟩

/-- The setting of one message: a channel that is open on both ends with the same CRC
state, and its fragments delivered once and in order. -/
structure Transfer (mtu : Nat) (vc : HChannel) (data : List Byte) (v : Dev) (a : Nat)
    (hosts : List Host) (is : List In) : Prop where
  range : 8 ≤ mtu ∧ mtu ≤ 64
  id : vc.id < 15
  listens : v.Listens a vc.id vc.txCrcIV []
  turn : InTurn mtu v.E hosts
  sends : hosts.length = (fragments (vllpServerCreate mtu).mtu vc data).length
  ins : is.length = hosts.length
  ready : ∀ i ∈ is, Ready vc.id i

/-- The application is given the message, once, with the right length. -/
def Delivered (mtu : Nat) (vc : HChannel) (data : List Byte) (v : Dev) (hosts : List Host)
    (is : List In) : Prop :=
  ∃ w evs pb, rxAll v is (sendAll hosts (fragments (vllpServerCreate mtu).mtu vc data)) =
    .ok (w, evs) ∧ pushes evs = [(vc.id, pb)] ∧ content pb = data ∧ headLen pb = data.length

section Message

variable {mtu : Nat} {vc : HChannel} {data : List Byte} {v : Dev} {a : Nat} {hosts : List Host}
  {is : List In}

theorem Transfer.run (h : Transfer mtu vc data v a hosts is) :
    ∃ w evs, rxAll v is (sendAll hosts (fragments (vllpServerCreate mtu).mtu vc data)) =
      .ok (w, evs) ∧
      pushes evs = verdict vc.id vc.txCrcIV (vllpGenerateCrc vc.txCrcIV data) := by
  have hfrag : fragments (vllpServerCreate mtu).mtu vc data = splitMsg vc.id
      (vllpServerCreate mtu).mtu (vllpGenerateCrc vc.txCrcIV data).length
      (vllpGenerateCrc vc.txCrcIV data) := by
    simp [fragments, fragmentLoop]
  have hlen : 4 ≤ (vllpGenerateCrc vc.txCrcIV data).length := by
    simp [vllpGenerateCrc]
  have hhosts := h.sends
  rw [hfrag] at hhosts ⊢
  have hne : vllpGenerateCrc vc.txCrcIV data ≠ [] := fun hnil => by simp [hnil] at hlen
  simpa using rxAll_split h.range h.id _ h.listens hne (Nat.le_refl _) h.turn hhosts h.ins h.ready
    (by simpa using hlen)

/-- A message that fits one buffer with its CRC passes the check and comes out as it went in. -/
theorem verdict_fits (id : Nat) (iv : BitVec 32) (hfit : data.length + 4 ≤ dataSize) :
    ∃ pb, verdict id iv (vllpGenerateCrc iv data) = [(id, pb)] ∧ content pb = data ∧
      headLen pb = data.length := by
  have hlen : (vllpGenerateCrc iv data).length = data.length + 4 := by
    simp [vllpGenerateCrc]
  have htake : (vllpGenerateCrc iv data).take dataSize = vllpGenerateCrc iv data :=
    take_of_length_le (by omega)
  have hcrc : ¬ ~~~crc32 iv (vllpGenerateCrc iv data) ≠ 0 := by
    rw [vllpGenerateCrc, crc32_append_crc]
    simp
  have hbody : (vllpGenerateCrc iv data).take data.length = data := by
    simp [vllpGenerateCrc]
  rw [verdict, htake, if_neg hcrc, hlen, Nat.add_sub_cancel, hbody]
  have hpkt : ((data.length + 4) % 65536 + 65536 - 4) % 65536 = data.length := by
    unfold dataSize at hfit
    omega
  refine ⟨_, rfl, by simp, ?_⟩
  rw [headLen_cons]
  exact hpkt

/-- A longer message loses bytes, so whatever is handed over is shorter. -/
theorem verdict_long (id : Nat) (iv : BitVec 32) (hlong : dataSize < data.length + 4) {pb : Chain}
    (h : verdict id iv (vllpGenerateCrc iv data) = [(id, pb)]) : content pb ≠ data := by
  intro heq
  unfold verdict at h
  split at h
  · cases h
  simp only [List.cons.injEq, Prod.mk.injEq, and_true, true_and] at h
  rw [← h] at heq
  have hlen := congrArg List.length heq
  have hcrc : (vllpGenerateCrc iv data).length = data.length + 4 := by
    simp [vllpGenerateCrc]
  simp only [content_cons, content_nil, append_nil, length_take, hcrc] at hlen
  unfold dataSize at hlen hlong
  omega

theorem Transfer.not_delivered (h : Transfer mtu vc data v a hosts is)
    (hlong : dataSize < data.length + 4) : ¬Delivered mtu vc data v hosts is := by
  rintro ⟨w', evs', pb, hrun', hpb, hcont, -⟩
  obtain ⟨w, evs, hrun, hpushed⟩ := h.run
  obtain ⟨-, rfl⟩ := Prod.mk.inj (Except.ok.inj (hrun.symm.trans hrun'))
  exact verdict_long vc.id vc.txCrcIV hlong (hpushed.symm.trans hpb) hcont

/-- A message is delivered just if it fits one buffer together with its CRC. -/
theorem message_delivered_iff (h : Transfer mtu vc data v a hosts is) :
    Delivered mtu vc data v hosts is ↔ data.length + 4 ≤ dataSize := by
  constructor
  · exact fun hd => Nat.le_of_not_lt fun hlong => h.not_delivered hlong hd
  · intro hfit
    obtain ⟨w, evs, hrun, hpushed⟩ := h.run
    obtain ⟨pb, hv, hcont, hlen⟩ := verdict_fits vc.id vc.txCrcIV hfit
    exact ⟨w, evs, pb, hrun, hpushed.trans hv, hcont, hlen⟩

end Message

/-- A device with an open channel 3, and the channel on the host. -/
def listening : Dev := { addChannel (vllpServerCreate 64) 3 0 with connected := true, E := true }

def talking : HChannel := { newHChannel 1 3 .active with txCrcIV := ~~~0 }

/-- A host that sends one fragment after the other. -/
def turns : Bool → Nat → List Host
  | _, 0 => []
  | s, n + 1 => { vllpCreate true true 64 with connected := true, S := s } :: turns (!s) n

theorem turns_spec (s : Bool) (n : Nat) : InTurn 64 s (turns s n) ∧ (turns s n).length = n := by
  induction n generalizing s with
  | zero => exact ⟨trivial, rfl⟩
  | succ n ih => exact ⟨⟨rfl, rfl, (ih (!s)).1⟩, by simp [turns, (ih (!s)).2]⟩

theorem listening_listens : listening.Listens 1 3 (~~~0) [] := by
  have hw := (addChannel_spec (vllpServerCreate 64) 3 0 (vllpServerCreate_wf 64 (by decide))
    (by decide)).2
  refine ⟨{ hw with }, ?_, rfl, ?_, by decide, ?_, ?_, ?_⟩
  · unfold Dev.Linked
    decide
  · decide
  · exact ⟨_, mem_cons_self, rfl⟩
  · decide
  · decide

def inputs (data : List Byte) : List In :=
  List.replicate (fragments (vllpServerCreate 64).mtu talking data).length .calm

def senders (data : List Byte) : List Host :=
  turns true (fragments (vllpServerCreate 64).mtu talking data).length

theorem transfer_any (data : List Byte) :
    Transfer 64 talking data listening 1 (senders data) (inputs data) where
  range := by decide
  id := by decide
  listens := listening_listens
  turn := (turns_spec true _).1
  sends := (turns_spec true _).2
  ins := by rw [inputs, length_replicate, senders, (turns_spec true _).2]
  ready := by
    intro i hi
    rw [eq_of_mem_replicate hi]
    exact ⟨rfl, rfl⟩

/-- With its CRC it has 134 bytes, which are two full frames and one that is padded. -/
def threeFrames : List Byte := List.replicate 130 7

theorem delivered_three : (senders threeFrames).length = 3 ∧
    Transfer 64 talking threeFrames listening 1 (senders threeFrames) (inputs threeFrames) ∧
      Delivered 64 talking threeFrames listening (senders threeFrames) (inputs threeFrames) :=
  ⟨by decide +kernel, transfer_any threeFrames,
    (message_delivered_iff (transfer_any threeFrames)).mpr (by decide +kernel)⟩

/-- 509 bytes are one too many. -/
theorem long_message_lost : ∃ data hosts is, Transfer 64 talking data listening 1 hosts is ∧
    ¬ Delivered 64 talking data listening hosts is := by
  have hlong : ∃ data : List Byte, data.length = 509 := ⟨_, length_replicate (a := 0)⟩
  obtain ⟨data, hdata⟩ := hlong
  exact ⟨data, senders data, inputs data, transfer_any data,
    (transfer_any data).not_delivered (by rw [hdata]; decide)⟩

end Mios.Vllp
