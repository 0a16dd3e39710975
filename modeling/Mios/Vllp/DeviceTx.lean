import Mios.Pbuf.View
import Mios.Vllp.Device

/-! Transmission on the device. In a well-formed state every transmit function
returns, keeps the state well-formed, and does to the sequence bits, the outstanding
fragment and the wire only what the alternating-bit protocol allows. -/

namespace Mios.Vllp

open Lib Crc32 Pbuf Dev List

/-! ## Well-formed states -/

/-- A channel number fits the header, queued messages are single buffers a CRC can be
added to, at most one buffer of a message is being filled, and the CMC has no
application and stays open. -/
structure Channel.Wf (c : Channel) : Prop where
  id : c.id < 16
  txq : ∀ p ∈ c.txq, p.flags &&& eop ≠ 0 ∧ Offered [p]
  rxq : c.rxq = [] ∨ ∃ p, c.rxq = [p] ∧ p.buflen ≤ dataSize
  app : c.addr = cmc → c.hasApp = false ∧ c.netClosed = false

/-- Well-formed, up to the length of the outstanding fragment. -/
structure Dev.Ready (v : Dev) : Prop where
  mtu : 8 ≤ v.mtu ∧ v.mtu ≤ 63
  chans : ∀ c ∈ v.objs, c.Wf
  live : Heap.Live Channel.addr v.objs cmc
  sized : Sized v.currentTxBuf
  small : headLen v.currentTxBuf < 65536
  channel : v.currentTxChannel < 16

structure Dev.Wf (v : Dev) : Prop extends Dev.Ready v where
  fits : v.currentTxBuf ≠ [] → 0 < v.currentTxLen ∧
    v.currentTxLen ≤ (content v.currentTxBuf).length ∧ v.currentTxLen < v.mtu

@[simp] theorem chan_addr (v : Dev) (a : Nat) : (v.chan a).addr = a := by
  unfold Dev.chan
  cases hf : Heap.get Channel.addr v.objs a with
  | none => rfl
  | some c => exact Heap.addr_of_get hf

theorem deadChannel_wf (a : Nat) : (deadChannel a).Wf :=
  ⟨by simp [deadChannel], by simp [deadChannel], .inl rfl, fun _ => ⟨rfl, rfl⟩⟩

variable {c : Channel} {v : Dev}

theorem Dev.Ready.chan (h : v.Ready) (a : Nat) : (v.chan a).Wf := by
  unfold Dev.chan
  cases hf : Heap.get Channel.addr v.objs a with
  | none => exact deadChannel_wf a
  | some c => exact h.chans c (Heap.mem_of_get hf)

theorem chan_setChan_self {a : Nat} (hc : c.addr = a)
    (h : Heap.Live Channel.addr v.objs a) : (v.setChan c).chan a = c := by
  subst hc
  simp [Dev.chan, Dev.setChan, Heap.get_put_self h]

theorem chan_setChan (v : Dev) (c : Channel) (a : Nat) :
    (v.setChan c).chan a = v.chan a ∨ a = c.addr ∧ (v.setChan c).chan a = c := by
  have hput : Heap.get Channel.addr (Heap.put Channel.addr v.objs c) a =
      Heap.get Channel.addr v.objs a ∨ a = c.addr ∧
        Heap.get Channel.addr (Heap.put Channel.addr v.objs c) a = some c :=
    Heap.get_put_cases v.objs c a
  unfold Dev.chan Dev.setChan
  rcases hput with h | ⟨ha, h⟩
  · exact .inl (by rw [h])
  · exact .inr ⟨ha, by rw [h, Option.getD_some]⟩

theorem chan_setChan_id (hid : c.id = (v.chan c.addr).id) (b : Nat) :
    ((v.setChan c).chan b).id = (v.chan b).id := by
  rcases chan_setChan v c b with heq | ⟨rfl, heq⟩
  · rw [heq]
  · rw [heq, hid]

theorem Dev.Ready.setChan (h : v.Ready) (hc : c.Wf) : (v.setChan c).Ready where
  mtu := h.mtu
  chans := by
    intro d hd
    rcases Heap.mem_put hd with hd | rfl
    · exact h.chans d hd
    · exact hc
  live := h.live.put c
  sized := h.sized
  small := h.small
  channel := h.channel

theorem Dev.Wf.setChan (h : v.Wf) (hc : c.Wf) : (v.setChan c).Wf :=
  ⟨h.toReady.setChan hc, h.fits⟩

/-- A flow bit is set unless an open channel of that number says no. -/
theorem getLsbD_localFlow (i : In) (v : Dev) {id : Nat} (hid : id < 16) :
    (localFlow i v).getLsbD id = true ↔ ∀ a ∈ v.channels, a ≠ cmc →
      (v.chan a).netClosed = false → (v.chan a).id = id → i.mayPush id = true := by
  have hones : ∀ k : Fin 16, (0xffff : BitVec 16).getLsbD k = true := by decide
  have hone : (0xffff : BitVec 16).getLsbD id = true := hones ⟨id, hid⟩
  refine Iff.trans ?_ (and_iff_right hone)
  unfold localFlow
  generalize (0xffff : BitVec 16) = bits
  induction v.channels generalizing bits with
  | nil => simp
  | cons a l ih =>
    rw [foldl_cons, ih, forall_mem_cons, ← and_assoc]
    refine and_congr_left fun _ => ?_
    by_cases hne : a = cmc
    · simp [hne]
    by_cases hopen : (v.chan a).netClosed = true
    · simp [hne, hopen]
    by_cases hmay : i.mayPush (v.chan a).id = true
    · simp only [hne, hopen, hmay, if_true, if_false]
      exact (and_iff_left fun _ _ heq => heq ▸ hmay).symm
    · simp [hne, hopen, hmay, flowBit, hid]
      grind

/-! ## The device as an alternating-bit endpoint -/

def Dev.view (v : Dev) : AltBit.View Frag := ⟨v.S, v.E, v.currentFrag⟩

def Dev.endpoint (v : Dev) : Endpoint := ⟨v.view, v.out, v.connected, v.crcIV, v.mtu⟩

abbrev Dev.SendsFrom (w : AltBit.View Frag) (v v' : Dev) : Prop :=
  Endpoint.SendsFrom w v.endpoint v'.endpoint

abbrev Dev.Sends (v v' : Dev) : Prop := v.endpoint.Sends v'.endpoint

theorem Dev.Sends.refl (v : Dev) : v.Sends v := (Endpoint.Quiet.refl _).sends

theorem Dev.sends_setChan (v : Dev) (c : Channel) : v.Sends (v.setChan c) :=
  (Endpoint.Quiet.refl v.endpoint).sends

theorem currentFrag_eq_none (h : v.currentTxBuf = []) : v.currentFrag = none := by
  simp [Dev.currentFrag, h]

theorem currentFrag_ne_nil (h : v.currentTxBuf ≠ []) :
    v.currentFrag = some ⟨v.currentTxChannel, headLen v.currentTxBuf == v.currentTxLen,
      (content v.currentTxBuf).take v.currentTxLen⟩ := by
  unfold Dev.currentFrag
  split
  · contradiction
  · rfl

/-! ## One lemma for each transmit function -/

theorem vllpTxAck_spec (alloc : Bool) (v : Dev) (buf : Bool) (h : v.Wf) :
    v.Sends (vllpTxAck alloc v buf) ∧ (vllpTxAck alloc v buf).Wf := by
  unfold vllpTxAck
  split
  · refine ⟨Endpoint.sends_frame (ackFrame v.crcIV v.S v.E v.localFlowStatus) rfl rfl rfl rfl rfl ?_ ?_ ?_ ?_,
      { h with }⟩
    · rw [ackFrame_read]
      rfl
    · rw [ackFrame_read]
      rfl
    · simp [ackFrame_read]
    · simp [ackFrame_length]
  · exact ⟨Dev.Sends.refl v, h⟩

theorem vllpTx_spec (i : In) (v : Dev) (buf : Bool) (h : v.Wf) :
    ∃ v' buf', vllpTx i v buf = .ok (v', buf') ∧ v.Sends v' ∧ v'.Wf := by
  unfold vllpTx
  split
  · exact ⟨v, buf, rfl, Dev.Sends.refl v, h⟩
  rename_i src hne
  have hne' : v.currentTxBuf ≠ [] := fun hnil => hne hnil
  split
  · obtain ⟨hpos, hfits, hmtu⟩ := h.fits hne'
    obtain ⟨p, rest, hp, hcont, htake, hsized⟩ := pbufPullup_spec hne' h.sized h.small hfits
      (by have := h.mtu; unfold dataSize; omega)
    have hhead : headLen (p :: rest) = headLen v.currentTxBuf := by
      rw [hsized.len, h.sized.len, hcont]
    have hfrag := currentFrag_ne_nil hne'
    have hlen : ((content v.currentTxBuf).take v.currentTxLen).length < 63 := by
      have := h.mtu
      rw [length_take]
      omega
    simp only [hp, ne_eq, not_true_eq_false, if_false, headD_cons, htake]
    refine ⟨_, _, rfl, Endpoint.sends_frame _ rfl ?_ rfl rfl rfl ?_ ?_ ?_ ?_, 
      { h with sized := hsized, small := hhead ▸ h.small, fits := ?_ }⟩
    -- the pull-up moves bytes between buffers and leaves the fragment as it is
    · simp only [Dev.endpoint, Dev.view, hfrag]
      simp only [Dev.log, Dev.currentFrag, hhead, hcont]
    · rw [dataFrame_read _ _ _ _ _ _ _ h.channel hlen]
      rfl
    · rw [dataFrame_read _ _ _ _ _ _ _ h.channel hlen]
      rfl
    · intro f hf
      rw [dataFrame_read _ _ _ _ _ _ _ h.channel hlen] at hf
      by_cases h15 : v.currentTxChannel = 15
      · simp [h15] at hf
      · simp only [h15, if_false] at hf
        exact hfrag.trans hf
    · intro h8
      replace h8 : v.mtu ≤ 8 := h8
      have hle : (hdrByte v.S v.E (v.localFlowStatus.getLsbD v.currentTxChannel)
          (headLen v.currentTxBuf == v.currentTxLen) v.currentTxChannel ::
          (content v.currentTxBuf).take v.currentTxLen).length ≤ 8 := by
        rw [length_cons, length_take]
        omega
      rw [addPad_short _ _ hle]
      exact hle
    · intro _
      simp only [Dev.log, hcont]
      exact ⟨hpos, hfits, hmtu⟩
  · exact ⟨v, false, rfl, Dev.Sends.refl v, h⟩

/-- The outstanding fragment starts its way. -/
def Dev.logStart (v : Dev) : Dev := match v.currentFrag with
  | some f => v.log (.start f)
  | none => v

theorem Dev.logStart_some {f : Frag} (h : v.currentFrag = some f) :
    v.logStart = v.log (.start f) := by
  simp only [Dev.logStart, h]

theorem vllpFragment_eq (i : In) (v : Dev) (buf : Bool) : vllpFragment i v buf = vllpTx i
    { v with currentTxLen := min (v.mtu - 1) (headLen v.currentTxBuf), S := !v.S }.logStart buf := rfl

/-- `vllp_fragment` turns the front of a packet that has bytes left into the next
outstanding fragment. -/
theorem vllpFragment_spec (i : In) (v : Dev) (buf : Bool) (h : v.Ready)
    (hne : v.currentTxBuf ≠ []) (hcont : content v.currentTxBuf ≠ []) :
    ∃ v' buf', vllpFragment i v buf = .ok (v', buf') ∧
      Dev.SendsFrom ⟨v.S, v.E, none⟩ v v' ∧ v'.Wf := by
  let u : Dev := { v with currentTxLen := min (v.mtu - 1) (headLen v.currentTxBuf), S := !v.S }
  have hlen : headLen v.currentTxBuf = (content v.currentTxBuf).length := h.sized.len
  have hpos : 0 < (content v.currentTxBuf).length := length_pos_iff.mpr hcont
  have hmtu := h.mtu
  obtain ⟨f, hfrag⟩ : ∃ f, u.currentFrag = some f := ⟨_, currentFrag_ne_nil hne⟩
  have hu : (u.log (.start f)).Wf := ⟨{ h with }, fun _ => by
    simp only [Dev.log, u, hlen]
    omega⟩
  obtain ⟨v', buf', htx, hsend, hwf⟩ := vllpTx_spec i _ buf hu
  refine ⟨v', buf', ?_, ?_, hwf⟩
  · rw [vllpFragment_eq, Dev.logStart_some hfrag]
    exact htx
  obtain ⟨⟨as, has, hl⟩, hconn, hiv, hm⟩ := hsend
  refine ⟨⟨.start f :: as, ?_, .start f rfl ?_⟩, hconn, hiv, hm⟩
  · exact Emits.trans (.one v.mtu v.out (.start f) (by simp)) has
  · have hview : (u.log (.start f)).endpoint.view = ⟨!v.S, v.E, u.currentFrag⟩ := rfl
    rw [hview, hfrag] at hl
    exact hl

/-- `vllp_channel_tx` with nothing outstanding: the packet and its CRC become the
outstanding packet. -/
theorem vllpChannelTx_spec (i : In) (v : Dev) (a : Nat) (pb : Chain) (buf : Bool) (h : v.Wf)
    (hidle : v.currentTxBuf = []) (hne : pb ≠ []) (hpb : Offered pb) :
    ∃ v' buf', vllpChannelTx i v a pb buf = .ok (v', buf') ∧ v.Sends v' ∧ v'.Wf := by
  have hvc := h.chan a
  obtain ⟨pb', happ, hcont, hsized, hne'⟩ := pbufAppend_spec pb
    (le32 (calcCrc32 pb (v.chan a).txCrcIV)) hne hpb.sized
    (by rw [le32_length]; exact hpb.room hne) (by rw [le32_length]; exact hpb.max)
  have hsmall : headLen pb' < 65536 := by
    rw [hsized.len, hcont, length_append, le32_length]
    exact hpb.max
  have hw : (v.setChan { v.chan a with txCrcIV := (v.chan a).txCrcIV + 1 }).Ready :=
    h.toReady.setChan { hvc with }
  have hu : ({ v.setChan { v.chan a with txCrcIV := (v.chan a).txCrcIV + 1 } with
      currentTxBuf := pb', currentTxChannel := (v.chan a).id } : Dev).Ready :=
    { hw with sized := hsized, small := hsmall, channel := hvc.id }
  have hnil : content pb' ≠ [] := by
    rw [hcont]
    simp [le32]
  obtain ⟨v', buf', hfr, hsend, hwf⟩ := vllpFragment_spec i _ buf hu hne' hnil
  obtain ⟨hacts, hconn, hiv, hmtu⟩ := hsend
  refine ⟨{ v' with established := moveToTail v'.established a }, buf', ?_, ?_, ?_⟩
  · simp only [vllpChannelTx, happ, hfr]
  · have hview : v.endpoint.view = ⟨v.S, v.E, none⟩ := by
      simp [Dev.endpoint, Dev.view, currentFrag_eq_none hidle]
    unfold Dev.Sends Endpoint.Sends
    rw [hview]
    exact ⟨hacts, hconn, hiv, hmtu⟩
  · exact { hwf with }

/-- A queue of single-buffer messages gives up its first one. -/
theorem pbufSplice_single (p : Pbuf) (q : List Pbuf) (hp : p.flags &&& eop ≠ 0) :
    pbufSplice (p :: q) = ([p], q) := by
  simp only [pbufSplice, spliceAt, if_pos hp, Option.getD_some]

/-- The message `send_cmc_message` builds. -/
theorem cmcMessage_offered (b c d : Byte) :
    Offered [{ pbufReset 1 with data := [b, c, d], pktlen := 3 }] := by
  refine ⟨?_, fun _ => ?_, ?_⟩
  · rw [sized_cons]
    simp [pbufReset, buflen, dataSize]
  · simp [room, pbufReset, buflen, dataSize]
  · simp

theorem sendCmcMessage_spec (v : Dev) (opcode target : Nat) (err : Int) (h : v.Wf) :
    v.Sends (sendCmcMessage v opcode target err) ∧ (sendCmcMessage v opcode target err).Wf := by
  have hc := h.chan cmc
  refine ⟨Dev.sends_setChan _ _, h.setChan ⟨hc.id, ?_, hc.rxq, hc.app⟩⟩
  intro p hp
  rcases mem_append.mp hp with hp | hp
  · exact hc.txq p hp
  · rw [mem_singleton] at hp
    subst hp
    exact ⟨by simp [pbufReset, sop, eop], cmcMessage_offered _ _ _⟩

theorem sendCmcMessage_txq (v : Dev) (opcode target : Nat) (err : Int)
    (h : Heap.Live Channel.addr v.objs cmc) :
    ((sendCmcMessage v opcode target err).chan cmc).txq ≠ [] := by
  simp only [sendCmcMessage]
  rw [chan_setChan_self (by simp) h]
  simp

/-- A channel after its next message was taken off the queue. -/
abbrev Dev.popTxq (v : Dev) (a : Nat) : Dev :=
  v.setChan { v.chan a with txq := (pbufSplice (v.chan a).txq).2 }

theorem splice_spec (v : Dev) (a : Nat) (h : v.Wf) : (pbufSplice (v.chan a).txq).1 = [] ∨
      ∃ p, (pbufSplice (v.chan a).txq).1 = [p] ∧ Offered [p] := by
  have hq := (h.chan a).txq
  cases htx : (v.chan a).txq with
  | nil => exact .inl rfl
  | cons p q =>
    obtain ⟨hp, hoff⟩ := hq p (by simp [htx])
    rw [pbufSplice_single p q hp]
    exact .inr ⟨p, rfl, hoff⟩

theorem popTxq_wf (v : Dev) (a : Nat) (h : v.Wf) : (v.popTxq a).Wf := by
  have hc := h.chan a
  refine h.setChan ⟨hc.id, ?_, hc.rxq, hc.app⟩
  intro p hp
  apply hc.txq p
  cases htx : (v.chan a).txq with
  | nil => simp [htx, pbufSplice, spliceAt] at hp
  | cons x q =>
    have hx := (hc.txq x (by simp [htx])).1
    simp only [htx, pbufSplice_single x q hx] at hp
    exact mem_cons_of_mem x hp

theorem vllpChannelMaybeDestroy_spec (v : Dev) (a : Nat) (h : v.Wf) :
    v.Sends (vllpChannelMaybeDestroy v a) ∧ (vllpChannelMaybeDestroy v a).Wf := by
  unfold vllpChannelMaybeDestroy
  split
  · rename_i hdead
    -- the CMC is never closed by the network, so it survives
    have hcmc : cmc ≠ a := by
      rintro rfl
      have := ((h.chan cmc).app (chan_addr v cmc)).2
      simp [this] at hdead
    exact ⟨Dev.Sends.refl v,
      ⟨⟨h.mtu, fun c hc => h.chans c (Heap.mem_of_mem_free hc), h.live.free hcmc, h.sized, h.small,
        h.channel⟩, h.fits⟩⟩
  · exact ⟨Dev.Sends.refl v, h⟩

/-- `vllp_tx_close` with the CLOSE message as the only thing sent. -/
theorem vllpTxClose_eq (i : In) (v u w : Dev) (a : Nat)
    (hu : u = { v with established := v.established.filter (· != a) })
    (hw : w = sendCmcMessage u opcodeClose (u.chan a).id 0) : vllpTxClose i v a =
      if !u.connected then .ok (u, 0)
      else if !i.allocClose a then .ok (u, errNoBuffer)
      else (vllpChannelTx i (w.popTxq cmc) cmc (pbufSplice (w.chan cmc).txq).1 false).map
        fun p => (p.1, 0) := by
  subst hu hw
  simp only [vllpTxClose]
  congr 2
  generalize vllpChannelTx i _ cmc _ false = r
  cases r <;> rfl

theorem vllpTxClose_spec (i : In) (v : Dev) (a : Nat) (h : v.Wf) (hidle : v.currentTxBuf = []) :
    ∃ v' err, vllpTxClose i v a = .ok (v', err) ∧ v.Sends v' ∧ v'.Wf ∧
      (err ≠ 0 → v'.currentTxBuf = []) := by
  let u : Dev := { v with established := v.established.filter (· != a) }
  have hu : u.Wf := { h with }
  have hvu : v.Sends u := Dev.Sends.refl v
  let w := sendCmcMessage u opcodeClose (u.chan a).id 0
  rw [vllpTxClose_eq i v u w a rfl rfl]
  by_cases hconn : u.connected
  · by_cases halloc : i.allocClose a
    · simp only [hconn, halloc, Bool.not_true, Bool.false_eq_true, if_false]
      obtain ⟨hsend, hw⟩ := sendCmcMessage_spec u opcodeClose (u.chan a).id 0 hu
      rcases splice_spec w cmc hw with hnil | ⟨p, hp, hoff⟩
      -- the queue holds at least the message just put there
      · cases htx : (w.chan cmc).txq with
        | nil => exact absurd htx (sendCmcMessage_txq u _ _ _ h.live)
        | cons x q =>
          have hmem : x ∈ (w.chan cmc).txq := htx ▸ mem_cons_self
          rw [htx, pbufSplice_single x q ((hw.chan cmc).txq x hmem).1] at hnil
          cases hnil
      · obtain ⟨v', buf', htx, hs, hwf⟩ := vllpChannelTx_spec i (w.popTxq cmc) cmc [p] false
          (popTxq_wf w cmc hw) hidle (by simp) hoff
        rw [hp, htx]
        exact ⟨v', 0, rfl, ((hvu.trans hsend).trans (Dev.sends_setChan _ _)).trans hs, hwf,
          fun hc => absurd rfl hc⟩
    · simp only [hconn, halloc, Bool.not_true, Bool.false_eq_true, if_false, Bool.not_false, if_true]
      exact ⟨u, errNoBuffer, rfl, hvu, hu, fun _ => hidle⟩
  · simp only [hconn, Bool.not_false, if_true]
    exact ⟨u, 0, rfl, hvu, hu, fun _ => hidle⟩

/-- The scheduling loop by induction over the channels left to look at; nothing is
outstanding until one of them has something to send. -/
theorem maybeTxLoop_spec (i : In) (buf : Bool) (l : List Nat) (v : Dev) (h : v.Wf)
    (hidle : v.currentTxBuf = []) :
    ∃ v' buf', maybeTxLoop i buf v l = .ok (v', buf') ∧ v.Sends v' ∧ v'.Wf := by
  induction l generalizing v with
  | nil =>
    unfold maybeTxLoop
    split
    · obtain ⟨hs, hw⟩ := vllpTxAck_spec i.allocFlow v buf h
      exact ⟨_, _, rfl, hs, hw⟩
    · exact ⟨v, buf, rfl, Dev.Sends.refl v, h⟩
  | cons a rest ih =>
    simp only [maybeTxLoop]
    by_cases happ : (v.chan a).hasApp
    · simp only [happ, if_true]
      by_cases hclosed : (v.chan a).appClosed = 1
      · obtain ⟨w, err, hclose, hsend, hw, hidle'⟩ := vllpTxClose_spec i v a h hidle
        simp only [hclosed, if_true, hclose]
        by_cases herr : err = 0
        · have hca := hw.chan a
          have hw' := hw.setChan (c := { w.chan a with appClosed := 2 })
            { hca with }
          obtain ⟨hd, hwd⟩ := vllpChannelMaybeDestroy_spec _ a hw'
          simp only [herr, ne_eq, not_true_eq_false, if_false]
          exact ⟨_, buf, rfl, (hsend.trans (Dev.sends_setChan _ _)).trans hd, hwd⟩
        · obtain ⟨v', buf', hloop, hs, hwf⟩ := ih w hw (hidle' herr)
          simp only [ne_eq, herr, not_false_eq_true, if_true]
          exact ⟨v', buf', hloop, hsend.trans hs, hwf⟩
      · simp only [hclosed, if_false]
        by_cases hnet : (v.chan a).netClosed
        · simp only [hnet, if_true]
          exact ih v h hidle
        simp only [hnet, Bool.false_eq_true, if_false]
        split
        · exact ih v h hidle
        · rename_i out hne
          exact vllpChannelTx_spec i v a _ buf h hidle (fun hnil => hne hnil) (i.pullOffered _)
    · rw [if_neg happ]
      have hw := popTxq_wf v a h
      have hsend : v.Sends (v.popTxq a) := Dev.sends_setChan _ _
      rcases splice_spec v a h with hnil | ⟨p, hp, hoff⟩
      · obtain ⟨v', buf', hloop, hs, hwf⟩ := ih (v.popTxq a) hw hidle
        simp only [hnil]
        exact ⟨v', buf', hloop, hsend.trans hs, hwf⟩
      · obtain ⟨v', buf', htx, hs, hwf⟩ :=
          vllpChannelTx_spec i (v.popTxq a) a [p] buf hw hidle (by simp) hoff
        simp only [hp]
        exact ⟨v', buf', htx, hsend.trans hs, hwf⟩

theorem vllpMaybeTx_spec (i : In) (v : Dev) (buf : Bool) (h : v.Wf) :
    ∃ v' buf', vllpMaybeTx i v buf = .ok (v', buf') ∧ v.Sends v' ∧ v'.Wf := by
  unfold vllpMaybeTx
  split
  · rename_i hidle
    exact maybeTxLoop_spec i buf v.established v h hidle
  · exact ⟨v, buf, rfl, Dev.Sends.refl v, h⟩

/-- `vllp_ack_payload` drops exactly the outstanding fragment and goes on with the rest
of the packet. -/
theorem vllpAckPayload_spec (i : In) (v : Dev) (buf : Bool) (h : v.Wf) (hne : v.currentTxBuf ≠ []) :
    ∃ f u v' buf', vllpAckPayload i v buf = .ok (v', buf') ∧ v.currentFrag = some f ∧
      Emits v.mtu v.out [.discard f] u.out ∧ u.connected = v.connected ∧ u.crcIV = v.crcIV ∧
      u.mtu = v.mtu ∧ Dev.SendsFrom ⟨v.S, v.E, none⟩ u v' ∧ v'.Wf := by
  obtain ⟨hpos, hfits, hmtu⟩ := h.fits hne
  obtain ⟨rest, hdrop, hcont, hsized, hnil⟩ :=
    pbufDrop_spec hne h.sized h.small hfits
  obtain ⟨f, hfrag⟩ : ∃ f, v.currentFrag = some f := ⟨_, currentFrag_ne_nil hne⟩
  let u : Dev := { v.log (.discard f) with currentTxBuf := rest }
  have hsmall : headLen rest < 65536 := by
    rw [hsized.len, hcont, length_drop, ← h.sized.len]
    exact Nat.lt_of_le_of_lt (Nat.sub_le _ _) h.small
  have hu : u.Ready := { h with sized := hsized, small := hsmall }
  have hacts : Emits v.mtu v.out [.discard f] u.out := .one v.mtu v.out (.discard f) (by simp)
  have hdone (hr : rest = []) : vllpAckPayload i v buf = .ok (u, buf) := by
    simp only [vllpAckPayload, hdrop, hfrag, hr, u]
  have hmore (hr : rest ≠ []) : vllpAckPayload i v buf = vllpFragment i u buf := by
    simp only [vllpAckPayload, hdrop, hfrag]
    rfl
  cases hrest : rest with
  | nil =>
    rw [hdone hrest]
    refine ⟨f, u, u, buf, rfl, hfrag, hacts, rfl, rfl, rfl, ⟨⟨[], .refl _ _, ?_⟩, rfl, rfl, rfl⟩,
      ⟨hu, fun hc => absurd hrest hc⟩⟩
    have hview : u.endpoint.view = ⟨v.S, v.E, u.currentFrag⟩ := rfl
    rw [hview, currentFrag_eq_none hrest]
    exact .nil _
  | cons p q =>
    have hne' : u.currentTxBuf ≠ [] := by simp [u, hrest]
    rw [hmore hne']
    obtain ⟨v', buf', hfr, hs, hwf⟩ := vllpFragment_spec i u buf hu hne'
      (fun hc => hne' (hnil.mpr hc))
    exact ⟨f, u, v', buf', hfr, hfrag, hacts, rfl, rfl, rfl, hs, hwf⟩

end Mios.Vllp
