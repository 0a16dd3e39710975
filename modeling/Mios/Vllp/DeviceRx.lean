import Mios.Vllp.DeviceTx

/-! Reception on the device. Channel management and message assembly do not touch
the sequence bits or the outstanding fragment; what `vllp_rx` does to them is one
`Receive` of the alternating-bit protocol, the end of the session, or the start of
a new one. -/

namespace Mios.Vllp

open Lib Crc32 Pbuf Dev List

/-! ## Steps the link does not see -/

/-- The part of the state that belongs to the link. -/
def Dev.link (v : Dev) : Bool × Bool × Chain × Nat × Nat × Bool × BitVec 32 × Nat :=
  (v.S, v.E, v.currentTxBuf, v.currentTxLen, v.currentTxChannel, v.connected, v.crcIV, v.mtu)

/-- Nothing of that part changed, and the peer was sent nothing. -/
structure Dev.Quiet (v v' : Dev) : Prop where
  out : Emits v.mtu v.out [] v'.out
  link : v'.link = v.link

theorem Dev.Quiet.refl (v : Dev) : v.Quiet v := ⟨.refl _ _, rfl⟩

variable {hdr : Byte} {u v v' : Dev} {i : In} {data frame : List Byte}

theorem Dev.Quiet.endpoint (h : v.Quiet v') : v.endpoint.Quiet v'.endpoint := by
  have hl := h.link
  simp only [Dev.link, Prod.mk.injEq] at hl
  obtain ⟨hs, he, hbuf, hlen, hch, hconn, hiv, hmtu⟩ := hl
  refine ⟨h.out, ?_, hconn, hiv, hmtu⟩
  simp [Dev.endpoint, Dev.view, Dev.currentFrag, hs, he, hbuf, hlen, hch]

theorem Dev.Quiet.mtu (h : v.Quiet v') : v'.mtu = v.mtu := h.endpoint.mtu

theorem Dev.Quiet.trans {v'' : Dev} (h : v.Quiet v') (h' : v'.Quiet v'') : v.Quiet v'' :=
  ⟨h.out.trans (h.mtu ▸ h'.out), h'.link.trans h.link⟩

/-- Tell the application something. -/
theorem Dev.quiet_log (v : Dev) (e : Ev) (he : acts [e] = []) (htx : ∀ frame, e ≠ .tx frame) :
    v.Quiet (v.log e) :=
  ⟨he ▸ .one v.mtu v.out e (fun frame h => absurd h (htx frame)), rfl⟩

theorem Dev.quiet_setChan (v : Dev) (c : Channel) : v.Quiet (v.setChan c) := ⟨.refl _ _, rfl⟩

theorem refresh_spec (i : In) (v : Dev) (h : v.Wf) :
    v.Quiet (vllpRefreshLocalFlowStatus i v).1 ∧ (vllpRefreshLocalFlowStatus i v).1.Wf := by
  by_cases hb : v.localFlowStatus = localFlow i v
  · simp only [vllpRefreshLocalFlowStatus, if_pos hb]
    exact ⟨.refl v, h⟩
  · simp only [vllpRefreshLocalFlowStatus, if_neg hb]
    exact ⟨⟨.refl _ _, rfl⟩, { h with }⟩

/-! ## Channels -/

theorem maybeDestroy_quiet (v : Dev) (a : Nat) : v.Quiet (vllpChannelMaybeDestroy v a) := by
  unfold vllpChannelMaybeDestroy
  split
  · exact ⟨.refl _ _, rfl⟩
  · exact .refl v

theorem vllpChannelNetClose_spec (v : Dev) (a : Nat) (h : v.Wf) (ha : a ≠ cmc) :
    v.Quiet (vllpChannelNetClose v a) ∧ (vllpChannelNetClose v a).Wf := by
  unfold vllpChannelNetClose
  simp only
  split
  · exact ⟨.refl v, h⟩
  have hc := h.chan a
  have hlog : (v.log (.close (v.chan a).id)).Wf := { h with }
  have hw := hlog.setChan (c := { v.chan a with netClosed := true })
    ⟨hc.id, hc.txq, hc.rxq, fun hcmc => absurd ((chan_addr v a).symm.trans hcmc) ha⟩
  have hquiet : v.Quiet ((v.log (.close (v.chan a).id)).setChan
      { v.chan a with netClosed := true }) :=
    (Dev.quiet_log v _ rfl (by simp)).trans (Dev.quiet_setChan _ _)
  generalize (v.log (.close (v.chan a).id)).setChan { v.chan a with netClosed := true } = w
    at hw hquiet ⊢
  have hw' : ({ w with channels := w.channels.filter (· != a) } : Dev).Wf := { hw with }
  have hq' : w.Quiet { w with channels := w.channels.filter (· != a) } := ⟨.refl _ _, rfl⟩
  exact ⟨(hquiet.trans hq').trans (maybeDestroy_quiet _ a),
    (vllpChannelMaybeDestroy_spec _ a hw').2⟩

theorem closeAll_spec (v : Dev) (l : List Nat) (h : v.Wf) :
    v.Quiet (closeAll v l) ∧ (closeAll v l).Wf := by
  induction l generalizing v with
  | nil => exact ⟨.refl v, h⟩
  | cons a rest ih =>
    unfold closeAll
    by_cases ha : a = cmc
    · simp only [ha, if_true]
      exact ih v h
    · simp only [ha, if_false]
      obtain ⟨hq, hw⟩ := vllpChannelNetClose_spec v a h ha
      obtain ⟨hq', hw'⟩ := ih _ hw
      exact ⟨hq.trans hq', hw'⟩

/-- The end of a session on the device: nothing is outstanding any more. -/
structure Dev.Ends (v v' : Dev) : Prop extends v.endpoint.Ends v'.endpoint where
  idle : v.connected = true → v'.currentTxBuf = []

theorem vllpDisconnect_spec (v : Dev) (h : v.Wf) :
    v.Ends (vllpDisconnect v) ∧ (vllpDisconnect v).Wf := by
  unfold vllpDisconnect
  by_cases hconn : v.connected
  · simp only [hconn, Bool.not_true, Bool.false_eq_true, if_false]
    obtain ⟨hq, hw⟩ := closeAll_spec v v.channels h
    have hl := hq.link
    simp only [Dev.link, Prod.mk.injEq] at hl
    exact ⟨⟨⟨hq.out, rfl, hl.2.2.2.2.2.2.1, hl.2.2.2.2.2.2.2⟩, fun _ => rfl⟩,
      ⟨⟨hw.mtu, hw.chans, hw.live, ⟨rfl, by simp⟩, Nat.zero_lt_succ _, by simp⟩, fun hc => absurd rfl hc⟩⟩
  · simp only [hconn, Bool.not_false, if_true]
    exact ⟨⟨⟨.refl _ _, Bool.eq_false_iff.mpr hconn, rfl, rfl⟩, fun hc => absurd hc hconn⟩, h⟩

theorem addChannel_spec (v : Dev) (target : Nat) (iv : BitVec 32) (h : v.Wf) (ht : target < 16) :
    v.Quiet (addChannel v target iv) ∧ (addChannel v target iv).Wf := by
  have hmade : (vllpChannelMake v target).1.Wf := by
    obtain ⟨d, hd, hda⟩ := h.live
    refine { h with live := ⟨d, .tail _ hd, hda⟩, chans := fun c hc => ?_ }
    rcases mem_cons.mp hc with rfl | hc
    · refine ⟨ht, by simp, .inl rfl, fun hcmc => ?_⟩
      exact absurd (hda.trans hcmc.symm) (Nat.ne_of_lt (Heap.lt_fresh hd))
    · exact h.chans c hc
  have hc := hmade.chan (vllpChannelMake v target).2
  have hset := hmade.setChan (c := { (vllpChannelMake v target).1.chan (vllpChannelMake v target).2
    with txCrcIV := iv, rxCrcIV := ~~~iv }) { hc with }
  exact ⟨⟨.refl _ _, rfl⟩, { hset with }⟩

theorem vllpChannelFind_spec {id a : Nat} (h : vllpChannelFind v id = some a) :
    (v.chan a).id = id ∧ a ∈ v.channels :=
  ⟨by simpa using List.find?_some h, mem_of_find?_eq_some h⟩

/-! ## Message assembly -/

/-- The buffer a message starts in. -/
def firstBuf (data : List Byte) : Pbuf := { pbufMake 0 with flags := 0, data := data }

/-- A buffer takes what fits; the rest of the fragment is not stored anywhere. -/
def fillBuf (p : Pbuf) (data : List Byte) : Pbuf :=
  { p with data := p.data ++ data.take (dataSize - p.buflen) }

theorem fillBuf_le (p : Pbuf) (data : List Byte) (h : p.buflen ≤ dataSize) :
    (fillBuf p data).buflen ≤ dataSize := by
  simp only [fillBuf, buflen, length_append, length_take] at h ⊢
  omega

theorem rxqStore_nil (alloc : Bool) (data : List Byte) : rxqStore alloc [] data =
      if !alloc then .ok none
      else if dataSize < data.length then .error (.assertion "vllp_channel_receive")
      else .ok (some [firstBuf data]) := rfl

/-- `to_copy > len` is never true, so no second buffer is ever allocated. -/
theorem rxqStore_single (alloc : Bool) (p : Pbuf) (data : List Byte) :
    rxqStore alloc [p] data = .ok (some [fillBuf p data]) := by
  have hcopy : ¬ data.length < min (dataSize - p.buflen) data.length := by omega
  have htake : data.take (min (dataSize - p.buflen) data.length) =
      data.take (dataSize - p.buflen) := by
    rw [← take_take, take_length]
  simp only [rxqStore, List.getLast?_singleton, if_neg hcopy, htake]
  rfl

theorem rxqStore_spec {alloc : Bool} {rxq q : Chain}
    (hrxq : rxq = [] ∨ ∃ p, rxq = [p] ∧ p.buflen ≤ dataSize)
    (h : rxqStore alloc rxq data = .ok (some q)) : ∃ p, q = [p] ∧ p.buflen ≤ dataSize := by
  rcases hrxq with rfl | ⟨p, rfl, hp⟩
  · rw [rxqStore_nil] at h
    split at h
    · cases h
    split at h
    · cases h
    · rename_i hle
      cases h
      exact ⟨_, rfl, Nat.le_of_not_lt hle⟩
  · rw [rxqStore_single] at h
    cases h
    exact ⟨_, rfl, fillBuf_le p data hp⟩

/-! ## What a fragment does -/

/-- What reception does to the channels, a store at a time. Channels are opened and closed, and
answers queued, if the CMC was `asked`. -/
inductive Dev.Manages (asked : Prop) : Dev → Dev → Prop
  | refl (v : Dev) : Manages asked v v
  | trans {v u w : Dev} (h : Manages asked v u) (h' : Manages asked u w) : Manages asked v w
  | count (v : Dev) : Manages asked v (vllpGenChannelCrc v).1
  | store (v : Dev) (a : Nat) {q : Chain} (iv : BitVec 32)
      (hq : v.Wf → q = [] ∨ ∃ p, q = [p] ∧ p.buflen ≤ dataSize) :
      Manages asked v (v.setChan { v.chan a with rxq := q, rxCrcIV := iv })
  | close (v : Dev) {a : Nat} (ha : a ≠ cmc) : Manages asked v (vllpChannelNetClose v a)
  | add {v : Dev} {target : Nat} (h : asked) (iv : BitVec 32) (hlt : target < 16)
      (hnew : vllpChannelFind v target = none) : Manages asked v (addChannel v target iv)
  | answer (h : asked) (v : Dev) (opcode target : Nat) (err : Int) :
      Manages asked v (sendCmcMessage v opcode target err)

/-- A fragment for the channel `id` can complete a packet. -/
inductive Dev.Receives (v : Dev) (id : Nat) : Dev → Prop
  | manages {w : Dev} (h : v.Manages (vllpChannelFind v id = some cmc) w) : Receives v id w
  | pushes {w : Dev} {a : Nat} (pb : Chain) (h : v.Manages (vllpChannelFind v id = some cmc) w)
      (hfind : vllpChannelFind v id = some a) (ha : a ≠ cmc)
      (hflow : v.localFlowStatus.getLsbD id = true) : Receives v id (w.log (.push id pb))

theorem handleCmcOpen_manages {asked : Prop} (h : asked) (i : In) (v : Dev) {target : Nat}
    (name : List Byte) (hlt : target < 16) : v.Manages asked (handleCmcOpen i v target name).1 := by
  simp only [handleCmcOpen]
  repeat' split
  all_goals try exact .count v
  rename_i hfind _ _
  exact .trans (.count v) (.add h _ hlt (by simpa using hfind))

theorem handleCmc_manages {asked : Prop} (h : asked) (i : In) (v : Dev) (pb : Chain) :
    v.Manages asked (handleCmc i v pb).1 := by
  unfold handleCmc
  split
  · exact .refl v
  rename_i u data _
  simp only
  split
  · exact (handleCmcOpen_manages h i v data (hdrChannel_lt u)).trans (.answer h _ _ _ _)
  split
  · unfold handleCmcClose
    cases vllpChannelFind v (hdrChannel u) with
    | none => exact .refl v
    | some a =>
      simp only
      split
      · rename_i hok
        exact .close v hok.1
      · exact .refl v
  · exact .refl v

theorem channelMessage_receives {a id : Nat} {pb : Chain} {err : Int}
    (hfind : vllpChannelFind v id = some a) (hflow : v.localFlowStatus.getLsbD id = true)
    (h : channelMessage i (v.setChan { v.chan a with rxq := [] }) a pb = .ok (v', err)) :
    v.Receives id v' := by
  have hempty : v.Manages (vllpChannelFind v id = some cmc)
      (v.setChan { v.chan a with rxq := [] }) := .store v a (v.chan a).rxCrcIV fun _ => .inl rfl
  have hid : ((v.setChan { v.chan a with rxq := [] }).chan a).id = id :=
    (chan_setChan_id (by simp) a).trans (vllpChannelFind_spec hfind).1
  generalize v.setChan { v.chan a with rxq := [] } = u at h hempty hid
  have hstore := hempty.trans (.store u a ((u.chan a).rxCrcIV + 1) fun hw => (hw.chan a).rxq)
  simp only [channelMessage] at h
  split at h
  · cases h
    exact .manages hempty
  split at h
  · cases h
  split at h
  · rename_i hcmc
    obtain rfl : _ = v' := congrArg Prod.fst (Except.ok.inj h)
    exact .manages (hstore.trans (handleCmc_manages (hcmc ▸ hfind) i _ _))
  · rename_i hne
    cases h
    exact (congrArg (fun n => v.Receives id (Dev.log _ (.push n _))) hid).mpr
      (.pushes _ hstore hfind hne hflow)

theorem receive_receives {err : Int} (h : vllpChannelReceive i v hdr data = .ok (v', err)) :
    v.Receives (hdrChannel hdr) v' := by
  have hsame : v.Receives (hdrChannel hdr) v := .manages (.refl v)
  unfold vllpChannelReceive at h
  cases hf : vllpChannelFind v (hdrChannel hdr) with
  | none =>
    rw [hf] at h
    cases h
    exact hsame
  | some a =>
    simp only [hf] at h
    split at h
    · cases h
      exact hsame
    split at h
    · cases h
      exact hsame
    rename_i hflow
    split at h
    · cases h
    · cases h
      exact hsame
    · cases h
      exact hsame
    rename_i p rest hstore
    split at h
    · rename_i hlast
      exact channelMessage_receives hf (by simpa [hlast] using hflow) h
    cases h
    refine .manages (.store v a _ fun hw => ?_)
    obtain ⟨p', hp', hle⟩ := rxqStore_spec (hw.chan a).rxq hstore
    cases hp'
    exact .inr ⟨_, rfl, hle⟩

theorem Dev.Manages.spec {asked : Prop} (hm : v.Manages asked v') (h : v.Wf) :
    v.Quiet v' ∧ v'.Wf := by
  induction hm with
  | refl v => exact ⟨.refl v, h⟩
  | trans _ _ ih ih' =>
    obtain ⟨hq, hw⟩ := ih h
    obtain ⟨hq', hw'⟩ := ih' hw
    exact ⟨hq.trans hq', hw'⟩
  | count v => exact ⟨⟨.refl _ _, rfl⟩, { h with }⟩
  | store v a iv hq =>
    have hc := h.chan a
    exact ⟨Dev.quiet_setChan v _, h.setChan ⟨hc.id, hc.txq, hq h, hc.app⟩⟩
  | close v ha => exact vllpChannelNetClose_spec v _ h ha
  | add _ iv hlt _ => exact addChannel_spec _ _ iv h hlt
  | answer _ v opcode target err =>
    exact ⟨⟨.refl _ _, rfl⟩, (sendCmcMessage_spec v opcode target err h).2⟩

theorem vllpChannelReceive_spec {err : Int}
    (h : v.Wf) (hr : vllpChannelReceive i v hdr data = .ok (v', err)) : v.Quiet v' ∧ v'.Wf := by
  cases receive_receives hr with
  | manages hm => exact hm.spec h
  | pushes pb hm _ _ _ =>
    obtain ⟨hq, hw⟩ := hm.spec h
    exact ⟨hq.trans (Dev.quiet_log _ _ rfl (by simp)), { hw with }⟩

/-! ## Frames -/

/-- The acknowledgement half drops the outstanding fragment at most, then sends. -/
theorem rxAck_spec (i : In) (v : Dev) (fr : AltBit.Frame Frag) (peerAccepted : Bool) (h : v.Wf)
    (hpa : peerAccepted = true → fr.e ≠ v.S) :
    ∃ v' w ds ls, rxAck i v peerAccepted = .ok v' ∧ Emits v.mtu v.out (ds ++ ls) v'.out ∧
      AltBit.Discard fr v.view ds w ∧ AltBit.Local w ls v'.view ∧ v'.connected = v.connected ∧
      v'.crcIV = v.crcIV ∧ v'.mtu = v.mtu ∧ v'.Wf := by
  unfold rxAck
  by_cases hkeep : v.currentTxBuf = [] ∨ peerAccepted = false
  · -- without a discard only `vllp_maybe_tx` acts
    obtain ⟨v', buf', htx, ⟨⟨ls, hls, hl⟩, hconn, hiv, hmtu⟩, hw⟩ := vllpMaybeTx_spec i v true h
    refine ⟨v', v.view, [], ls, ?_, hls, .keep _, hl, hconn, hiv, hmtu, hw⟩
    rcases hkeep with hidle | rfl
    · simp only [hidle, htx]
    · cases v.currentTxBuf <;> simp [htx]
  obtain ⟨hbusy, hacc⟩ := not_or.mp hkeep
  rw [Bool.not_eq_false] at hacc
  obtain ⟨f, u, v₁, buf₁, hack, hfrag, hacts, huconn, huiv, humtu, hsend, hw₁⟩ :=
    vllpAckPayload_spec i v true h hbusy
  obtain ⟨⟨as, has, hl⟩, hconn, hiv, hmtu⟩ := hsend
  obtain ⟨v', buf', htx, ⟨⟨bs, hbs, hl'⟩, hconn', hiv', hmtu'⟩, hw⟩ :=
    vllpMaybeTx_spec i v₁ buf₁ hw₁
  have hdrop : AltBit.Discard fr v.view [.discard f] ⟨v.S, v.E, none⟩ :=
    .drop v.view f hfrag (hpa hacc)
  refine ⟨v', ⟨v.S, v.E, none⟩, [.discard f], as ++ bs, ?_, ?_, hdrop, hl.trans hl',
    hconn'.trans (hconn.trans huconn), hiv'.trans (hiv.trans huiv),
    hmtu'.trans (hmtu.trans humtu), hw⟩
  · simp only [hacc, if_true, hack, htx]
  have hm₁ : v₁.endpoint.mtu = v.mtu := hmtu.trans humtu
  have hm₂ : u.endpoint.mtu = v.mtu := humtu
  rw [hm₁] at hbs
  rw [hm₂] at has
  exact hacts.trans (has.trans hbs)

/-- The state behind a fragment that is accepted. -/
def Dev.accepts (v : Dev) (hdr : Byte) (data : List Byte) : Dev :=
  { v with
    transmittedLocalFlowStatus := v.transmittedLocalFlowStatus &&& ~~~flowBit (hdrChannel hdr)
    E := !v.E }.log (.accept ⟨hdrChannel hdr, hdrL hdr, data⟩)

/-- The fragment is accepted, refused, or the end of the session. -/
theorem rxData_cases {more : Bool} (h : rxData i v hdr data = .ok (v', more)) :
    ∃ w err, vllpChannelReceive i v hdr data = .ok (w, err) ∧
      (more = true ∧ (v' = w.accepts hdr data ∨ v' = w) ∨
        more = false ∧ v' = vllpDisconnect w) := by
  unfold rxData at h
  split at h
  · cases h
  rename_i w err hr
  refine ⟨w, err, hr, ?_⟩
  split at h
  · cases h
    exact .inl ⟨rfl, .inl rfl⟩
  split at h
  · cases h
    exact .inl ⟨rfl, .inr rfl⟩
  split at h
  · cases h
    exact .inr ⟨rfl, rfl⟩
  split at h
  · cases h
    exact .inr ⟨rfl, rfl⟩
  · cases h

theorem rxData_spec {more : Bool} (h : v.Wf) (hch : hdrChannel hdr ≠ 15) (hs : hdrS hdr = v.E)
    (hr : rxData i v hdr data = .ok (v', more)) : v'.Wf ∧ v'.crcIV = v.crcIV ∧ v'.mtu = v.mtu ∧
      (more = false → v.Ends v') ∧
      (more = true → v'.connected = v.connected ∧ v'.S = v.S ∧
        ∃ as, Emits v.mtu v.out as v'.out ∧
          AltBit.Accept (readFrame (hdr :: data)) v.view as v'.view) := by
  obtain ⟨u, err, hrecv, hcase⟩ := rxData_cases hr
  obtain ⟨hq, hw⟩ := vllpChannelReceive_spec h hrecv
  have hview : u.view = v.view := hq.endpoint.view
  have hl := hq.link
  simp only [Dev.link, Prod.mk.injEq] at hl
  obtain ⟨hS, hE, hbuf, -, -, hconn, hiv, hmtu⟩ := hl
  rcases hcase with ⟨rfl, rfl | rfl⟩ | ⟨rfl, rfl⟩
  · refine ⟨{ hw with }, hiv, hmtu, by simp, fun _ => ?_⟩
    refine ⟨hconn, hS, [.accept ⟨hdrChannel hdr, hdrL hdr, data⟩], ?_, ?_⟩
    · exact hq.out.trans (.one v.mtu u.out (.accept _) (by simp))
    · rw [← hview]
      exact .take u.view _ (by simp [readFrame, hch]) (hs.trans hE.symm)
  · exact ⟨hw, hiv, hmtu, by simp, fun _ => ⟨hconn, hS, [], hq.out, hview ▸ .skip _⟩⟩
  · obtain ⟨hends, hwd⟩ := vllpDisconnect_spec u hw
    have hends' : v.Ends (vllpDisconnect u) :=
      ⟨hq.endpoint.ends hends.toEnds, fun hc => hends.idle (hconn.trans hc)⟩
    exact ⟨hwd, hends'.crcIV, hends'.mtu, fun _ => hends', by simp⟩

/-- The frame is a link request this device takes. -/
def Dev.takesSyn (v : Dev) (frame : List Byte) : Bool :=
  frame.head? == some synByte && frame.length == 7 && frame.getD 1 0 == vllpVersion &&
    (frame.getD 2 0).toNat == v.mtu

/-- A session starts with fresh bits and the peer's cookie, and with an acknowledgement. A
fragment that was outstanding while there was no session stays outstanding. -/
structure Dev.Starts (v v' : Dev) (cookie : BitVec 32) : Prop where
  out : Emits v.mtu v.out [.send ⟨false, true, none⟩] v'.out
  bits : v'.S = false ∧ v'.E = true
  connected : v'.connected = true
  crcIV : v'.crcIV = cookie
  mtu : v'.mtu = v.mtu
  idle : v.connected = true ∨ v.currentTxBuf = [] → v'.currentTxBuf = []

theorem vllpAcceptSyn_spec (v : Dev) (frame : List Byte) (h : v.Wf)
    (hhead : frame.head? = some synByte) : (vllpAcceptSyn v frame).Wf ∧
      (v.takesSyn frame = false ∧ vllpAcceptSyn v frame = v ∨
        v.takesSyn frame = true ∧ v.Starts (vllpAcceptSyn v frame) (ofLe32 (frame.drop 3))) := by
  unfold vllpAcceptSyn
  by_cases hlen : frame.length ≠ 7
  · rw [if_pos hlen]
    exact ⟨h, .inl ⟨by simp [Dev.takesSyn, hlen], rfl⟩⟩
  rw [if_neg hlen]
  by_cases hver : frame.getD 1 0 ≠ vllpVersion
  · rw [if_pos hver]
    exact ⟨h, .inl ⟨by simp only [Dev.takesSyn, beq_eq_false_iff_ne.mpr hver]; simp, rfl⟩⟩
  rw [if_neg hver]
  by_cases hmtu : (frame.getD 2 0).toNat ≠ v.mtu
  · rw [if_pos hmtu]
    exact ⟨h, .inl ⟨by simp only [Dev.takesSyn, beq_eq_false_iff_ne.mpr hmtu]; simp, rfl⟩⟩
  rw [if_neg hmtu]
  have htakes : v.takesSyn frame = true := by
    rw [Decidable.not_not] at hlen hver hmtu
    simp only [Dev.takesSyn, hhead, hlen, hver, hmtu, beq_self_eq_true, Bool.and_self]
  -- the old session ends first
  have hold : ∃ u : Dev, (if v.connected then vllpDisconnect v else v) = u ∧ u.Wf ∧
      Emits v.mtu v.out [] u.out ∧ u.mtu = v.mtu ∧
      (v.connected = true ∨ v.currentTxBuf = [] → u.currentTxBuf = []) := by
    obtain ⟨hends, hw⟩ := vllpDisconnect_spec v h
    by_cases hconn : v.connected
    · exact ⟨_, if_pos hconn, hw, hends.out, hends.mtu, fun _ => hends.idle hconn⟩
    · exact ⟨_, if_neg hconn, h, .refl _ _, rfl, fun hc => hc.resolve_left hconn⟩
  obtain ⟨u, hu, hw, hout, hm, hidle⟩ := hold
  rw [hu]
  have hc := hw.chan cmc
  let n : Dev := { u with connected := true, S := false, E := true,
                          crcIV := ofLe32 (frame.drop 3), channelIvCnt := 0 + 1 }
  have hn : n.Wf := { hw with }
  let iv := crc32 n.crcIV (le32 n.channelIvCnt)
  have hset := hn.setChan (c := { n.chan cmc with txCrcIV := iv, rxCrcIV := ~~~iv })
    { hc with }
  refine ⟨(vllpTxAck_spec false _ true hset).2, .inr ⟨htakes, ?_, ⟨rfl, rfl⟩, rfl, rfl, hm, hidle⟩⟩
  have hack := Emits.one v.mtu u.out (.tx (ackFrame n.crcIV false true u.localFlowStatus))
    (by rintro _ ⟨⟩; simp [ackFrame_length])
  simp only [acts, ackFrame_read] at hack
  exact hout.trans hack

abbrev Dev.Handles (v : Dev) (frame : List Byte) (v' : Dev) : Prop :=
  v.endpoint.Handles frame v'.endpoint

theorem rxAck_handles
    {as : List (AltBit.Act Frag)} (hu : u.Wf) (hS : u.S = v.S) (hconn : u.connected = v.connected)
    (hiv : u.crcIV = v.crcIV) (hmtu : u.mtu = v.mtu) (hacts : Emits v.mtu v.out as u.out)
    (hacc : AltBit.Accept (readFrame (hdr :: data)) v.view as u.view)
    (hr : rxAck i u (hdrE hdr != v.S) = .ok v') : v'.Wf ∧ v.Handles (hdr :: data) v' := by
  obtain ⟨w', w, ds, ls, hok, hout, hd, hl, hconn', hiv', hmtu', hw⟩ :=
    rxAck_spec i u (readFrame (hdr :: data)) (hdrE hdr != v.S) hu (by
      intro hne
      rw [hS]
      simpa [readFrame] using hne)
  rw [hok] at hr
  cases hr
  refine ⟨hw, ⟨as ++ ds ++ ls, ?_, u.view, w, as, ds, ls, rfl, hacc, hd, hl⟩, hconn'.trans hconn,
    hiv'.trans hiv, hmtu'.trans hmtu⟩
  rw [append_assoc]
  exact hacts.trans (hmtu ▸ hout)

/-- A frame that comes to `vllp_channel_receive`. -/
def Dev.takesData (v : Dev) (hdr : Byte) : Bool :=
  v.connected && hdrChannel hdr != 15 && hdrS hdr == v.E

theorem Dev.of_takesData (h : v.takesData hdr = true) : hdrChannel hdr ≠ 15 ∧ hdrS hdr = v.E := by
  simp only [Dev.takesData, Bool.and_eq_true, bne_iff_ne, beq_iff_eq] at h
  exact ⟨h.1.2, h.2⟩

theorem hdrChannel_of_isAck (h : isAck hdr = true) : hdrChannel hdr = 15 := by
  have hall : ∀ b : Byte, isAck b = true → hdrChannel b = 15 := by decide
  exact hall hdr h

/-- The ways of a frame with a header through `vllp_rx`. -/
inductive FrameCase (i : In) (v : Dev) (hdr : Byte) (data : List Byte) (v' : Dev) : Prop
  | syn (hsyn : hdr = synByte) (h : v' = vllpAcceptSyn v (hdr :: data))
  | refused (hsyn : hdr ≠ synByte) (hno : v.takesData hdr = false) (h : v' = v)
  | ended (hsyn : hdr ≠ synByte) (htake : v.takesData hdr = true)
      (h : rxData i v hdr data = .ok (v', false))
  | taken {u : Dev} (hsyn : hdr ≠ synByte) (htake : v.takesData hdr = true)
      (h : rxData i v hdr data = .ok (u, true)) (hack : rxAck i u (hdrE hdr != v.S) = .ok v')
  | acked (hsyn : hdr ≠ synByte) (hno : v.takesData hdr = false)
      (h : rxAck i v (hdrE hdr != v.S) = .ok v')

theorem frameCase_of_rxFrame (h : rxFrame i v (hdr :: data) = .ok v') :
    FrameCase i v hdr data v' := by
  simp only [rxFrame] at h
  split at h
  · rename_i hsyn
    cases h
    exact .syn hsyn rfl
  rename_i hsyn
  have hbad : ∀ b : Bool, (isAck hdr && b) = true → v.takesData hdr = false := fun b hb => by
    simp [Dev.takesData, hdrChannel_of_isAck (Bool.and_eq_true_iff.mp hb).1]
  split at h
  · rename_i hack
    cases h
    exact .refused hsyn (hbad _ hack) rfl
  split at h
  · rename_i hack
    cases h
    exact .refused hsyn (hbad _ hack) rfl
  split at h
  · rename_i hconn
    cases h
    exact .refused hsyn (by simp_all [Dev.takesData]) rfl
  rename_i hconn
  have htake : v.takesData hdr = (decide (hdrChannel hdr ≠ 15) && hdrS hdr == v.E) := by
    rw [Dev.takesData, show v.connected = true by simpa using hconn, Bool.true_and]
    congr 1
    rw [Bool.eq_iff_iff]
    simp
  split at h
  · rename_i hyes
    split at h
    · cases h
    · rename_i hr
      cases h
      exact .ended hsyn (htake.trans hyes) hr
    · rename_i hr
      exact .taken hsyn (htake.trans hyes) hr h
  · rename_i hno
    exact .acked hsyn (htake.trans (Bool.eq_false_iff.mpr hno)) h

/-- All that `vllp_rx` can do to the link with a frame that lost its padding. -/
theorem rxFrame_cases (h : v.Wf) (hr : rxFrame i v frame = .ok v') :
    v'.Wf ∧ (v.takesSyn frame = false ∧ (v.Handles frame v' ∨ v.Ends v') ∨
      v.takesSyn frame = true ∧ v.Starts v' (ofLe32 (frame.drop 3))) := by
  cases frame with
  | nil =>
    cases hr
    exact ⟨h, .inl ⟨rfl, .inl ((Dev.Sends.refl v).handles [])⟩⟩
  | cons hdr data =>
    have ht : hdr ≠ synByte → v.takesSyn (hdr :: data) = false := fun hsyn => by
      simp [Dev.takesSyn, hsyn]
    have hstay : v.Handles (hdr :: data) v := (Dev.Sends.refl v).handles _
    cases frameCase_of_rxFrame hr with
    | syn hsyn heq =>
      subst heq
      obtain ⟨hw, ⟨ht, heq⟩ | hstart⟩ := vllpAcceptSyn_spec v (hdr :: data) h (by simp [hsyn])
      · exact ⟨hw, .inl ⟨ht, .inl (heq.symm ▸ hstay)⟩⟩
      · exact ⟨hw, .inr hstart⟩
    | refused hsyn _ heq =>
      subst heq
      exact ⟨h, .inl ⟨ht hsyn, .inl hstay⟩⟩
    | ended hsyn htake hrx =>
      obtain ⟨hch, hs⟩ := of_takesData htake
      obtain ⟨hw, -, -, hends, -⟩ := rxData_spec h hch hs hrx
      exact ⟨hw, .inl ⟨ht hsyn, .inr (hends rfl)⟩⟩
    | taken hsyn htake hrx hack =>
      obtain ⟨hch, hs⟩ := of_takesData htake
      obtain ⟨hw, hiv, hmtu, -, hmore⟩ := rxData_spec h hch hs hrx
      obtain ⟨hconn, hS, as, hacts, hacc⟩ := hmore rfl
      obtain ⟨hw', hh⟩ := rxAck_handles hw hS hconn hiv hmtu hacts hacc hack
      exact ⟨hw', .inl ⟨ht hsyn, .inl hh⟩⟩
    | acked hsyn _ hack =>
      obtain ⟨hw', hh⟩ := rxAck_handles h rfl rfl rfl rfl (.refl _ _) (.skip _) hack
      exact ⟨hw', .inl ⟨ht hsyn, .inl hh⟩⟩

/-! ## Events -/

theorem Dev.Quiet.ends (hq : v.Quiet u) (h : u.Ends v') : v.Ends v' :=
  ⟨hq.endpoint.ends h.toEnds, fun hc => h.idle (hq.endpoint.connected.trans hc)⟩

theorem Dev.Quiet.starts {cookie : BitVec 32} (hq : v.Quiet u)
    (h : u.Starts v' cookie) : v.Starts v' cookie := by
  have hl := hq.link
  simp only [Dev.link, Prod.mk.injEq] at hl
  obtain ⟨-, -, hbuf, -, -, hconn, -, hmtu⟩ := hl
  exact ⟨hq.out.trans (hmtu ▸ h.out), h.bits, h.connected, h.crcIV, h.mtu.trans hmtu,
    fun hc => h.idle (by rw [hconn, hbuf]; exact hc)⟩

/-- What receiving a frame can be, seen from the link. -/
inductive Dev.Received (v : Dev) (frame : List Byte) (v' : Dev) : Prop
  | ended (ht : v.takesSyn ((stripPad frame).getD []) = false) (h : v.Ends v')
  | handled (f : List Byte) (hf : stripPad frame = some f) (ht : v.takesSyn f = false)
      (h : v.Handles f v')
  | started (f : List Byte) (hf : stripPad frame = some f) (ht : v.takesSyn f = true)
      (h : v.Starts v' (ofLe32 (f.drop 3)))

/-- A frame with an invalid pad ends the session, another one is looked at. -/
theorem vllpRx_bad (h : stripPad frame = none) :
    vllpRx i v frame = .ok (vllpDisconnect (vllpRefreshLocalFlowStatus i v).1) := by
  simp only [vllpRx, h]

theorem vllpRx_good {f : List Byte} (h : stripPad frame = some f) :
    vllpRx i v frame = rxFrame i (vllpRefreshLocalFlowStatus i v).1 f := by
  simp only [vllpRx, h]

theorem vllpRx_cases (h : v.Wf) (hr : vllpRx i v frame = .ok v') : v'.Wf ∧ v.Received frame v' := by
  obtain ⟨hq, hw⟩ := refresh_spec i v h
  have hbad := @vllpRx_bad v i frame
  have hgood := @vllpRx_good v i frame
  generalize (vllpRefreshLocalFlowStatus i v).1 = u at hq hw hbad hgood
  have htakes : ∀ f, u.takesSyn f = v.takesSyn f := by
    intro f
    simp only [Dev.takesSyn, hq.mtu]
  cases hf : stripPad frame with
  | none =>
    rw [hbad hf, Except.ok.injEq] at hr
    obtain ⟨hends, hwd⟩ := vllpDisconnect_spec u hw
    exact hr ▸ ⟨hwd, .ended (by rw [hf]; rfl) (hq.ends hends)⟩
  | some f =>
    rw [hgood hf] at hr
    obtain ⟨hw', ⟨ht, hh | he⟩ | ⟨ht, hs⟩⟩ := rxFrame_cases hw hr
    · exact ⟨hw', .handled f hf (htakes f ▸ ht) (hq.endpoint.handles hh)⟩
    · exact ⟨hw', .ended (by rw [hf, Option.getD_some, ← htakes f]; exact ht) (hq.ends he)⟩
    · exact ⟨hw', .started f hf (htakes f ▸ ht) (hq.starts hs)⟩

theorem taskTx_spec (i : In) (v : Dev) (h : v.Wf) :
    ∃ v', taskTx i v = .ok v' ∧ v.Sends v' ∧ v'.Wf := by
  obtain ⟨hq, hw⟩ := refresh_spec i v h
  generalize hu : vllpRefreshLocalFlowStatus i v = u at hq hw
  obtain ⟨u, changed⟩ := u
  have hack : u.Sends (if changed then vllpTxAck i.allocAck u false else u) ∧
      (if changed then vllpTxAck i.allocAck u false else u).Wf := by
    split
    · exact vllpTxAck_spec _ _ _ hw
    · exact ⟨Dev.Sends.refl u, hw⟩
  obtain ⟨v', buf', htx, hs, hw'⟩ := vllpMaybeTx_spec i _ false hack.2
  refine ⟨v', ?_, (hq.endpoint.sends.trans hack.1).trans hs, hw'⟩
  simp only [taskTx, hu, htx, Except.map]

/-- In a well-formed state every event but a received frame returns, and it sends or
ends the session. -/
theorem Dev.step_local (v : Dev) (e : DevEvent) (h : v.Wf) (he : ∀ i frame, e ≠ .rx i frame) :
    ∃ v', v.step e = .ok v' ∧ v'.Wf ∧
      (Dev.Sends { v with out := [] } v' ∨ Dev.Ends { v with out := [] } v') := by
  have hv : ({ v with out := [] } : Dev).Wf := { h with }
  cases e with
  | rx i frame => exact absurd rfl (he i frame)
  | ackTimer i =>
    obtain ⟨hq, hw⟩ := refresh_spec i _ hv
    obtain ⟨hs, hw'⟩ := vllpTxAck_spec i.allocAck _ false hw
    exact ⟨_, rfl, hw', .inl (hq.endpoint.sends.trans hs)⟩
  | rtxTimer i =>
    obtain ⟨hq, hw⟩ := refresh_spec i _ hv
    obtain ⟨v', buf', htx, hs, hw'⟩ := vllpTx_spec i _ false hw
    exact ⟨v', by simp [Dev.step, Dev.stepOf, vllpRtxTimer, htx, Except.map], hw', .inl (hq.endpoint.sends.trans hs)⟩
  | timeout =>
    obtain ⟨hends, hw⟩ := vllpDisconnect_spec _ hv
    exact ⟨_, rfl, hw, .inr hends⟩
  | task i a close =>
    simp only [Dev.step, Dev.stepOf]
    split
    · rename_i hlive
      unfold vllpChannelTaskCb
      split
      · split
        · exact ⟨_, rfl, hv, .inl (Dev.Sends.refl _)⟩
        have hc := hv.chan a
        have hw := hv.setChan (c := { ({ v with out := [] } : Dev).chan a with appClosed := 1 })
          { hc with }
        obtain ⟨v', htx, hs, hw'⟩ := taskTx_spec i _ hw
        exact ⟨v', htx, hw', .inl ((Dev.sends_setChan _ _).trans hs)⟩
      · obtain ⟨v', htx, hs, hw'⟩ := taskTx_spec i _ hv
        exact ⟨v', htx, hw', .inl hs⟩
    · exact ⟨_, rfl, hv, .inl (Dev.Sends.refl _)⟩

theorem vllpServerCreate_wf (mtu : Nat) (h : 8 ≤ mtu ∧ mtu ≤ 64) : (vllpServerCreate mtu).Wf := by
  refine ⟨⟨?_, ?_, ⟨_, mem_singleton.mpr rfl, rfl⟩, ⟨rfl, by simp [vllpServerCreate]⟩,
    Nat.zero_lt_succ _, by simp [vllpServerCreate]⟩, fun hc => absurd rfl hc⟩
  · simp only [vllpServerCreate]
    split <;> omega
  · intro c hc
    rw [mem_singleton.mp hc]
    exact ⟨by decide, by simp, .inl rfl, fun _ => ⟨rfl, rfl⟩⟩

end Mios.Vllp
