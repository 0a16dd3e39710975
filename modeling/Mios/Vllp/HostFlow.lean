import Mios.Vllp.Flow

/-! Flow control of the host, which does keep the flow bits it received. A client gets all
of them with the answer to its SYN; a server starts a session with the bits of the one
before. -/

namespace Mios.Vllp

open Lib Crc32 List

namespace Host

/-- What the rest of the library leaves alone. -/
def session (v : Host) : BitVec 32 × Nat × Bool × Bool × List (List Byte) × BitVec 16 :=
  (v.crcIV, v.mtu, v.client, v.connected, v.rxq, v.remoteFlowStatus)

/-- Channel management: the session stays, nothing is sent. -/
structure Manages (v v' : Host) : Prop where
  session : v'.session = v.session
  starts : starts v'.out = starts v.out
  owned : v.Owned → v'.Owned

variable {v v' u : Host} {i : HIn} {a : Nat}

theorem Manages.refl (v : Host) : v.Manages v := ⟨rfl, rfl, id⟩

theorem Manages.client (h : v.Manages v') : v'.client = v.client := congrArg (·.2.2.1) h.session

theorem Manages.connected (h : v.Manages v') : v'.connected = v.connected :=
  congrArg (·.2.2.2.1) h.session

theorem Manages.flow (h : v.Manages v') : v'.remoteFlowStatus = v.remoteFlowStatus :=
  congrArg (·.2.2.2.2.2) h.session

variable {flow : BitVec 16}

theorem Manages.trans {v'' : Host} (h : v.Manages v') (h' : v'.Manages v'') : v.Manages v'' :=
  ⟨h'.session.trans h.session, h'.starts.trans h.starts, fun ho => h'.owned (h.owned ho)⟩

theorem manages_of (hs : v'.session = v.session) (hout : v'.out = v.out)
    (hobjs : v'.objs = v.objs) : v.Manages v' :=
  ⟨hs, by rw [hout], fun ho c hc => ho c (hobjs ▸ hc)⟩

theorem manages_log (v : Host) {e : Ev} (h : Vllp.starts [e] = []) : v.Manages (v.log e) :=
  ⟨rfl, by rw [log, starts_append, h, append_nil], id⟩

/-- Channel management is all of that. -/
theorem Upkeep.manages (h : v.Upkeep v') : v.Manages v' := by
  obtain ⟨⟨evs, hout, hacts, -⟩, hlink, hconfig, hflow, howned, -⟩ := h
  simp only [Host.link, Host.config, Prod.mk.injEq] at hlink hconfig
  refine ⟨?_, ?_, howned⟩
  · simp [Host.session, hlink, hconfig, hflow]
  · rw [hout, starts_append, starts_of_acts hacts, append_nil]

/-- Without a session afterwards, and nothing sent. -/
theorem vllpDisconnect_starts (v : Host) : starts v.vllpDisconnect.out = starts v.out ∧
    (v.Owned → v.vllpDisconnect.Owned) ∧ v.vllpDisconnect.client = v.client ∧
    v.vllpDisconnect.connected = false := by
  unfold vllpDisconnect
  split
  · rename_i h
    exact ⟨rfl, id, rfl, by simpa using h⟩
  · have h := ((upkeep_disconnectLoop v [] v.channels).trans
      (upkeep_callEof _ (v.disconnectLoop [] v.channels).2)).manages
    exact ⟨h.starts, h.owned, h.client, rfl⟩

/-! ## Frames -/

/-- The host's word for a channel's bit. -/
theorem setRemoteFlow_eq (v : Host) (hdr : Byte) :
    (v.setRemoteFlow hdr).remoteFlowStatus = setFlow v.remoteFlowStatus (hdrChannel hdr) (hdrF hdr) :=
  rfl

/-- The acknowledgement half ends an outstanding packet and starts none. -/
theorem rxAck_keeps (v : Host) (accepted : Bool) :
    starts (v.rxAck accepted).out = starts v.out ∧ (v.rxAck accepted).objs = v.objs ∧
      (v.rxAck accepted).client = v.client ∧ (v.rxAck accepted).remoteFlowStatus =
        v.remoteFlowStatus := by
  unfold rxAck
  split
  · exact ⟨rfl, rfl, rfl, rfl⟩
  split
  · exact ⟨by rw [log, starts_append]; exact append_nil _, rfl, rfl, rfl⟩
  · exact ⟨rfl, rfl, rfl, rfl⟩

/-- What a frame does to the flow bits of a client in a session. -/
structure Hears (v : Host) (flow : BitVec 16) (v' : Host) (err : Int) : Prop where
  starts : starts v'.out = starts v.out
  owned : v'.Owned
  client : v'.client = v.client
  flow : v.client = true → err = 0 → v'.connected = true → v'.remoteFlowStatus = flow

theorem rxSession_hears {hdr : Byte} {payload : List Byte} {err : Int}
    (ho : v.Owned) (hflow : v.client = true → flow = if hdrChannel hdr = 15 then v.remoteFlowStatus
      else setFlow v.remoteFlowStatus (hdrChannel hdr) (hdrF hdr))
    (h : v.rxSession i hdr payload = .ok (v', err)) : v.Hears flow v' err := by
  -- behind the receive half the bit of the channel is stored
  have hack : ∀ u : Host, u.Owned → u.client = v.client → Vllp.starts u.out = Vllp.starts v.out →
      (v.client = true → u.remoteFlowStatus = flow) → ∀ b, v.Hears flow (u.rxAck b) vllpErrOk := by
    intro u hu hc hs hf b
    obtain ⟨hs', hobjs, hc', hr⟩ := rxAck_keeps u b
    exact ⟨hs'.trans hs, fun c hc => hu c (hobjs ▸ hc), hc'.trans hc,
      fun hcl _ _ => hr.trans (hf hcl)⟩
  simp only [rxSession] at h
  split at h
  · rename_i h15
    cases h
    exact hack v ho rfl rfl (fun hcl => by rw [hflow hcl, if_pos h15]) _
  rename_i h15
  split at h
  · split at h
    · cases h
    rename_i u err' hrecv
    have hm := (upkeep_channelReceive hrecv).manages
    split at h
    · rename_i hne
      cases h
      exact ⟨hm.starts, hm.owned ho, hm.client, fun _ h0 => absurd h0 hne⟩
    · cases h
      refine hack _ ?_ ?_ ?_ (fun hcl => ?_) _
      · exact hm.owned ho
      · exact hm.client
      · exact (manages_log _ rfl).starts.trans hm.starts
      · rw [setRemoteFlow_eq, hflow hcl, if_neg h15]
        show setFlow u.remoteFlowStatus _ _ = _
        rw [hm.flow]
  · cases h
    refine hack (v.setRemoteFlow hdr) ?_ rfl rfl (fun hcl => ?_) _
    · exact ho
    · rw [setRemoteFlow_eq, hflow hcl, if_neg h15]

theorem acceptSyn_hears {frame : List Byte} (ho : v.Owned) :
    v.Hears flow (v.vllpAcceptSyn frame).1 (v.vllpAcceptSyn frame).2 := by
  have hbad : v.Hears flow v vllpErrMalformed := ⟨rfl, ho, rfl, fun _ h0 => absurd h0 (by decide)⟩
  simp only [vllpAcceptSyn]
  split
  · exact hbad
  rename_i hserver
  split
  · exact hbad
  split
  · exact hbad
  split
  · exact hbad
  · obtain ⟨hs, hown, hc, -⟩ := vllpDisconnect_starts v
    refine ⟨?_, ?_, hc, fun hcl => absurd hcl hserver⟩
    · exact (manages_log _ rfl).starts.trans hs
    · exact (hown ho).setChan ((hown ho).chan cmc |> fun hcmc => ⟨hcmc.id, hcmc.txq, hcmc.mtxq⟩)

/-- The bits after a frame that passed the checks. -/
theorem heardFrame_data (crcIV : BitVec 32) (mtu : Nat) (flow : BitVec 16) {hdr : Byte}
    {payload : List Byte} (hsyn : hdr ≠ synByte)
    (hcrc : ¬(isAck hdr && crc32 crcIV (hdr :: payload) != BitVec.allOnes 32) = true)
    (hlen : ¬(isAck hdr && (hdr :: payload).length != 7) = true) :
    heardFrame crcIV mtu flow (hdr :: payload) =
      if isAck hdr then (payload.getD 1 0) ++ (payload.getD 0 0)
      else if hdrChannel hdr = 15 then flow
      else setFlow flow (hdrChannel hdr) (hdrF hdr) := by
  simp only [heardFrame, if_neg hsyn]
  by_cases hack : isAck hdr = true
  · have hok : crc32 crcIV (hdr :: payload) = BitVec.allOnes 32 ∧ payload.length = 6 := by
      simpa [hack] using And.intro hcrc hlen
    rw [if_pos hack, if_pos hack, if_pos hok]
  · rw [if_neg hack, if_neg hack]

theorem ackFlow_keeps (v : Host) (hdr : Byte) (payload : List Byte) :
    (v.ackFlow hdr payload).out = v.out ∧ (v.ackFlow hdr payload).objs = v.objs ∧
      (v.ackFlow hdr payload).client = v.client ∧
      (v.ackFlow hdr payload).connected = v.connected := by
  unfold ackFlow
  split <;> exact ⟨rfl, rfl, rfl, rfl⟩

theorem vllpHandleRx_hears {frame : List Byte} {err : Int} (ho : v.Owned)
    (hflow : v.client = true → v.connected = true → v.remoteFlowStatus = flow)
    (h : v.vllpHandleRx i frame = .ok (v', err)) :
    v.Hears (heardFrame v.crcIV v.mtu flow frame) v' err := by
  have hbad : ∀ (e : Int) (g : BitVec 16), e ≠ 0 → v.Hears g v e := fun e g hne =>
    ⟨rfl, ho, rfl, fun _ h0 => absurd h0 hne⟩
  unfold vllpHandleRx at h
  split at h
  · cases h
    exact hbad _ _ (by decide)
  rename_i hdr payload
  split at h
  · obtain ⟨rfl, rfl⟩ := Prod.mk.inj (Except.ok.inj h)
    exact acceptSyn_hears ho
  rename_i hsyn
  split at h
  · cases h
    exact hbad _ _ (by decide)
  rename_i hcrc
  split at h
  · cases h
    exact hbad _ _ (by decide)
  rename_i hlen
  have hheard := heardFrame_data v.crcIV v.mtu flow hsyn hcrc hlen
  obtain ⟨hout, hobjs, hclient, hconn⟩ := ackFlow_keeps v hdr payload
  have ho' : (v.ackFlow hdr payload).Owned := fun c hc => ho c (hobjs ▸ hc)
  -- what a client in a session knows once the frame was looked at
  have hknown : v.client = true → v.connected = true →
      (v.ackFlow hdr payload).remoteFlowStatus =
        if isAck hdr then (payload.getD 1 0) ++ (payload.getD 0 0) else flow := by
    intro hcl hc
    unfold ackFlow
    split
    · rfl
    · exact hflow hcl hc
  simp only at h
  split at h
  · rename_i hc
    rw [hconn] at hc
    obtain ⟨hs, hown, hcl, hf⟩ := rxSession_hears ho' (fun _ => rfl) h
    refine ⟨hs.trans (by rw [hout]), hown, hcl.trans hclient, fun hcl' h0 hc' => ?_⟩
    rw [hf (hclient.trans hcl') h0 hc', hheard, hknown hcl' hc]
    by_cases hack : isAck hdr = true
    · simp [hack, hdrChannel_of_isAck hack]
    · simp [hack]
  rename_i hc
  rw [hconn] at hc
  split at h
  · split at h
    · cases h
      exact ⟨by rw [hout], ho', hclient, fun _ h0 => absurd h0 (by decide)⟩
    rename_i hresp
    cases h
    refine ⟨by rw [hout], ho', hclient, fun _ _ _ => ?_⟩
    have hack : isAck hdr = true := by
      rw [Decidable.not_not.mp hresp]
      decide
    rw [hheard, if_pos hack]
    rw [ackFlow, if_pos hack]
  · cases h
    exact ⟨by rw [hout], ho', hclient, fun _ _ hc' => absurd (hconn.symm.trans hc') hc⟩

/-! ## Transmission -/

/-- The flow bits the host holds for the channels it could send on are in `flow`. -/
def Informed (flow : BitVec 16) (v : Host) : Prop :=
  ∀ a ∈ cmc :: v.activeChannels, v.remoteFlowStatus.getLsbD (v.chan a).id = true →
    flow.getLsbD (v.chan a).id = true

instance (flow : BitVec 16) (v : Host) : Decidable (v.Informed flow) :=
  inferInstanceAs (Decidable (∀ a ∈ cmc :: v.activeChannels, _ → _))

theorem Serves.informed (h : v.Serves v') (hi : v.Informed flow) : v'.Informed flow := by
  intro b hb
  rw [h.ids, h.flow]
  refine hi b ?_
  rcases mem_cons.mp hb with rfl | hb
  · exact (.head _)
  · rcases h.active b hb with rfl | hb
    · exact (.head _)
    · exact .tail _ hb

/-- What a transmission does: at most one fragment starts, on a channel whose bit the host
holds, and the bit goes with it. -/
structure Spends (flow : BitVec 16) (v v' : Host) : Prop where
  client : v'.client = v.client
  connected : v'.connected = v.connected
  owned : v'.Owned
  starts : starts v'.out = starts v.out ∧ v'.remoteFlowStatus = v.remoteFlowStatus ∨
    ∃ f, Vllp.starts v'.out = Vllp.starts v.out ++ [f] ∧ flow.getLsbD f.channel = true ∧
      v'.remoteFlowStatus = v.remoteFlowStatus &&& ~~~flowBit f.channel

theorem Manages.spends (h : v.Manages v') (ho : v.Owned) : v.Spends flow v' :=
  ⟨h.client, h.connected, h.owned ho, .inl ⟨h.starts, h.flow⟩⟩

theorem Manages.then_spends (h : v.Manages u) (h' : u.Spends flow v') : v.Spends flow v' := by
  refine ⟨h'.client.trans h.client, h'.connected.trans h.connected, h'.owned, ?_⟩
  have hst := h'.starts
  rwa [h.starts, h.flow] at hst

theorem Spends.then_manages (h : v.Spends flow u) (h' : u.Manages v') : v.Spends flow v' := by
  refine ⟨h'.client.trans h.client, h'.connected.trans h.connected, h'.owned h.owned, ?_⟩
  rw [h'.starts, h'.flow]
  exact h.starts

theorem vllpSendPkt_manages (v : Host) (vp : Pkt) : v.Manages (v.vllpSendPkt vp) := by
  unfold vllpSendPkt
  split
  · exact .refl v
  · rename_i h payload _
    have hcur : v.Manages { v with currentTx := some { vp with data := v.sendHdr h :: payload } } :=
      manages_of rfl rfl rfl
    exact hcur.trans (manages_log _ rfl)

theorem txStart_spends {vp : Pkt} {rest : List Pkt} (ho : v.Owned)
    (htxq : (v.chan a).txq = vp :: rest) (hmsg : vp.type ≠ .eof)
    (hbit : flow.getLsbD (v.chan a).id = true) : v.Spends flow (v.txStart a vp rest) := by
  have hch : vp.frag.channel = (v.chan a).id := (ho.chan a).txq vp (htxq ▸ mem_cons_self) hmsg
  have h₁ := serves_setTxq htxq
  have hid := h₁.ids a
  unfold txStart
  generalize v.setChan { v.chan a with txq := rest } = u at h₁ hid ⊢
  have hm := h₁.manages
  let w : Host := { u with
    activeChannels := u.activeChannels.filter (· != a)
    remoteFlowStatus := u.remoteFlowStatus &&& ~~~(1#16 <<< (u.chan a).id)
    currentTx := some vp
    S := !u.S }
  have hstart : v.Spends flow (w.log (.start vp.frag)) := by
    refine ⟨hm.client, hm.connected, h₁.owned ho, .inr ⟨vp.frag, ?_, hch ▸ hbit, ?_⟩⟩
    · show Vllp.starts (u.out ++ [.start vp.frag]) = _
      rw [starts_append, hm.starts]
      rfl
    · show u.remoteFlowStatus &&& ~~~(1#16 <<< (u.chan a).id) = _
      rw [hm.flow, hid, hch]
      rfl
  exact hstart.then_manages ((upkeep_next _ a rest).manages.trans (vllpSendPkt_manages _ vp))

theorem txLoop_spends {again : Host → Except Halt Host} {l : List Nat}
    (hagain : ∀ u u' : Host, u.Owned → u.connected = true → u.Informed flow → again u = .ok u' →
      u.Spends flow u') (ho : v.Owned) (hconn : v.connected = true) (hi : v.Informed flow)
    (hl : ∀ b ∈ l, b ∈ v.activeChannels) (h : txLoop i again v l = .ok v') : v.Spends flow v' := by
  induction l generalizing v with
  | nil =>
    simp only [txLoop, Except.ok.injEq] at h
    subst h
    split
    · exact (manages_log v rfl).spends ho
    · exact (Manages.refl v).spends ho
  | cons a rest ih =>
    simp only [txLoop] at h
    split at h
    · cases h
    have h₁ := serves_fragment v a
    have hact : (v.fragment a).activeChannels = v.activeChannels := rfl
    generalize v.fragment a = u at h₁ hact h
    have hi' := h₁.informed hi
    have hconn' : u.connected = true := h₁.manages.connected.trans hconn
    split at h
    · cases h
    rename_i vp txq htxq
    by_cases heof : vp.type = .eof
    · rw [if_pos heof] at h
      have h₂ := serves_txClose htxq
      exact (h₁.trans h₂).manages.then_spends (hagain _ _ (h₂.owned (h₁.owned ho))
        (h₂.manages.connected.trans hconn') (h₂.informed hi') h)
    rw [if_neg heof] at h
    split at h
    · exact h₁.manages.then_spends (ih (h₁.owned ho) hconn' hi'
        (fun b hb => hact ▸ hl b (mem_cons_of_mem a hb)) h)
    rename_i hbit
    cases h
    have hmem : a ∈ cmc :: u.activeChannels := .tail _ (hact ▸ hl a (.head _))
    exact h₁.manages.then_spends (txStart_spends (h₁.owned ho) htxq heof
      (hi' a hmem (by simpa using hbit)))

theorem vllpTx_spends (fuel : Nat) (ho : v.Owned) (hconn : v.connected = true)
    (hi : v.currentTx = none → v.Informed flow) (h : vllpTx i fuel v = .ok v') :
    v.Spends flow v' := by
  induction fuel generalizing v v' with
  | zero => cases h
  | succ fuel ih =>
    simp only [vllpTx, hconn, Bool.not_true, Bool.false_eq_true, if_false] at h
    split at h
    · cases h
      split
      · exact (vllpSendPkt_manages v _).spends ho
      · exact (Manages.refl v).spends ho
    · rename_i hidle
      exact txLoop_spends (fun u u' hu hc hiu hr => ih hu hc (fun _ => hiu) hr) ho hconn (hi hidle)
        (fun _ hb => hb) h

theorem vllpSendSyn_starts (i : HIn) (v : Host) : starts (v.vllpSendSyn i).out = starts v.out ∧
    (v.Owned → (v.vllpSendSyn i).Owned) ∧ (v.vllpSendSyn i).connected = v.connected := by
  unfold vllpSendSyn
  split
  · exact ⟨rfl, id, rfl⟩
  · refine ⟨(manages_log _ rfl).starts, fun ho => ?_, rfl⟩
    exact ho.setChan ⟨(ho.chan cmc).id, (ho.chan cmc).txq, (ho.chan cmc).mtxq⟩

/-! ## Rounds of the thread -/

/-- The flow bits the host knows when the event lets it send: a round of the thread takes a
frame before it sends. -/
def heard (v : Host) (flow : BitVec 16) : HostEvent → BitVec 16
  | .thread i => if i.timedOut then flow else heardFrame v.crcIV v.mtu flow (v.rxq.headD [])
  | _ => flow

end Host

def Tracked.hostStep (s : Tracked Host) (e : HostEvent) : Option (Tracked Host) :=
  (s.v.step e).toOption.map fun v' =>
    .after v' v'.connected v'.out (s.v.heard s.txFlow e)

def Tracked.HostStep (s : Tracked Host) (e : HostEvent) (s' : Tracked Host) : Prop :=
  s.hostStep e = some s'

/-- The condition on a server: when a round can send, the flow bits it holds for the channels
with something to send are of this session. A client needs none. -/
def Tracked.HostOk (s : Tracked Host) : HostEvent → Prop
  | .thread _ => s.v.client = false → s.v.connected = true → s.v.rxq = [] → s.v.currentTx = none →
      s.v.Informed s.txFlow
  | _ => True

/-- What holds of a host along a run. -/
structure Tracked.HostInv (s : Tracked Host) : Prop where
  owned : s.v.Owned
  flow : s.v.client = true → s.v.connected = true → s.v.remoteFlowStatus = s.txFlow
  obeys : Obeys s.known (starts s.v.out)

namespace Host

variable {v v' u : Host} {i : HIn} {a : Nat}

/-- A step that sends no new fragment, and the bits afterwards. -/
theorem hostInv_quiet {known : BitVec 16} (ho : v'.Owned) (hs : starts v'.out = [])
    (hf : v'.client = true → v'.connected = true → v'.remoteFlowStatus = known) :
    (Tracked.after v' v'.connected v'.out known).HostInv := by
  refine ⟨ho, fun hcl hc => ?_, ?_⟩
  · simp only [Tracked.after] at hc ⊢
    rw [if_pos hc, hs]
    exact hf hcl hc
  · simp only [Tracked.after, hs, Obeys]

theorem hostInv_spends {flow : BitVec 16} (h : v.Spends flow v') (hs : starts v.out = [])
    (hf : v.client = true → v.connected = true → v.remoteFlowStatus = flow) :
    (Tracked.after v' v'.connected v'.out flow).HostInv := by
  rcases h.starts with ⟨hst, hr⟩ | ⟨f, hst, hbit, hr⟩
  · exact hostInv_quiet h.owned (hst.trans hs) fun hcl hc =>
      hr.trans (hf (h.client.symm.trans hcl) (h.connected.symm.trans hc))
  rw [hs, nil_append] at hst
  refine ⟨h.owned, fun hcl hc => ?_, ?_⟩
  · simp only [Tracked.after] at hcl hc ⊢
    rw [if_pos hc, hst, hr, hf (h.client.symm.trans hcl) (h.connected.symm.trans hc)]
    rfl
  · simp only [Tracked.after, hst]
    exact ⟨hbit, trivial⟩

theorem thread_hostInv {flow : BitVec 16} (ho : v.Owned) (hs : starts v.out = [])
    (hf : v.client = true → v.connected = true → v.remoteFlowStatus = flow)
    (hi : v.client = false → v.connected = true → v.rxq = [] → v.currentTx = none →
      v.Informed flow) (h : v.vllpThread i = .ok v') :
    (Tracked.after v' v'.connected v'.out (v.heard flow (.thread i))).HostInv := by
  unfold vllpThread at h
  split at h
  · cases h
  rename_i u hpend
  have hserve : v.Serves u := by
    split at hpend
    · exact serves_handlePendingLoop hpend
    · cases hpend
      exact .refl v
  have hsess := hserve.manages.session
  simp only [session, Prod.mk.injEq] at hsess
  obtain ⟨hcrc, hmtu, hcl, hconn, hrxq, hr⟩ := hsess
  have htx : u.currentTx = v.currentTx := congrArg (·.2.2.1) hserve.link
  have ho' := hserve.owned ho
  have hs' := hserve.manages.starts.trans hs
  have hf' : u.client = true → u.connected = true → u.remoteFlowStatus = flow :=
    fun hc hcn => hr.trans (hf (hcl.symm.trans hc) (hconn.symm.trans hcn))
  split at h
  · cases h
    obtain ⟨hst, hown, -, hoff⟩ := vllpDisconnect_starts u
    exact hostInv_quiet (hown ho') (hst.trans hs') fun _ hc => absurd (hoff.symm.trans hc) (by simp)
  rename_i htime
  split at h
  · rename_i frame rest hq
    have hheard : v.heard flow (.thread i) = heardFrame u.crcIV u.mtu flow frame := by
      simp only [heard, if_neg htime, ← hrxq, hq, headD_cons, hcrc, hmtu]
    rw [hheard]
    split at h
    · cases h
    rename_i w err hrx
    obtain ⟨hst, hown, hcw, hfw⟩ := vllpHandleRx_hears (v := { u with rxq := rest }) ho' hf' hrx
    cases h
    split
    · rename_i h0
      exact hostInv_quiet hown (hst.trans hs') fun hc hcn => hfw (hcw.symm.trans hc) h0 hcn
    · obtain ⟨hst', hown', -, hoff⟩ := vllpDisconnect_starts w
      exact hostInv_quiet (hown' hown) ((hst'.trans hst).trans hs') fun _ hc =>
        absurd (hoff.symm.trans hc) (by simp)
  · rename_i hq
    have hheard : v.heard flow (.thread i) = flow := by
      simp only [heard, if_neg htime, ← hrxq, hq, headD_nil, heardFrame]
    rw [hheard]
    by_cases hcn : u.connected = true
    · refine hostInv_spends (vllpTx_spends _ ho' hcn (fun hidle => ?_) h) hs' hf'
      by_cases hclient : u.client = true
      -- a client holds just the bits it was told in this session
      · intro b _
        rw [hf' hclient hcn]
        exact id
      · refine hserve.informed (hi ?_ ?_ ?_ ?_)
        · rw [← hcl]
          simpa using hclient
        · rw [← hconn, hcn]
        · rw [← hrxq, hq]
        · exact htx.symm.trans hidle
    · simp only [vllpTx, hcn, Bool.not_false, if_true, Except.ok.injEq] at h
      subst h
      obtain ⟨hst, hown, hoff⟩ := vllpSendSyn_starts i u
      split
      · exact hostInv_quiet (hown ho') (hst.trans hs') fun _ hc => absurd (hoff.symm.trans hc) hcn
      · exact hostInv_quiet ho' hs' fun _ hc => absurd hc hcn

/-- An event that is no round of the thread starts nothing and leaves the flow bits. -/
theorem step_call {e : HostEvent} (he : ∀ i, e ≠ .thread i) (h : v.step e = .ok v') :
    starts v'.out = [] ∧ (v.Owned → v'.Owned) ∧ v'.client = v.client ∧
      v'.connected = v.connected ∧ v'.remoteFlowStatus = v.remoteFlowStatus := by
  by_cases hin : ∃ frame, e = .input frame
  · obtain ⟨frame, rfl⟩ := hin
    cases h
    unfold vllpInput
    split <;> exact ⟨rfl, id, rfl, rfl, rfl⟩
  · have hm := (step_upkeep (fun f hf => hin ⟨f, hf⟩) he h).manages
    exact ⟨hm.starts, hm.owned, hm.client, hm.connected, hm.flow⟩

end Host

/-! ## Both ends -/

/-- A host that has seen nothing yet. -/
def Tracked.host (client fdcan : Bool) (mtu : Nat) : Tracked Host := ⟨vllpCreate client fdcan mtu, 0, 0⟩

theorem hostStep_cases {s s' : Tracked Host} {e : HostEvent} (h : s.HostStep e s') :
    ∃ v', s.v.step e = .ok v' ∧ s' = .after v' v'.connected v'.out (s.v.heard s.txFlow e) :=
  ok_of_toOption_map h

theorem hostStep_inv {s s' : Tracked Host} {e : HostEvent} (hi : s.HostInv)
    (hok : s.HostOk e) (h : s.HostStep e s') : s'.HostInv := by
  obtain ⟨v', hs, rfl⟩ := hostStep_cases h
  by_cases ht : ∃ i, e = .thread i
  · obtain ⟨i, rfl⟩ := ht
    exact Host.thread_hostInv (v := { s.v with out := [] }) hi.owned rfl hi.flow hok hs
  have hno : ∀ i, e ≠ .thread i := fun i he => ht ⟨i, he⟩
  obtain ⟨hst, hown, hcl, hconn, hr⟩ := Host.step_call hno hs
  have hheard : s.v.heard s.txFlow e = s.txFlow := by
    cases e with
    | thread i => exact absurd rfl (hno i)
    | _ => rfl
  rw [hheard]
  exact Host.hostInv_quiet (hown hi.owned) hst fun hc hcn =>
    hr.trans (hi.flow (hcl.symm.trans hc) (hconn.symm.trans hcn))

theorem vllpCreate_hostInv (client fdcan : Bool) (mtu : Nat) :
    (Tracked.host client fdcan mtu).HostInv := by
  refine ⟨fun c hc => ?_, fun _ hc => ?_, trivial⟩
  · rw [mem_singleton.mp hc]
    exact ⟨by decide, by simp [newHChannel], by simp [newHChannel]⟩
  · cases hc

/-- In every run of a device, and in every run of a host, whose steps all meet the condition
on them, each new fragment is on a channel whose most recent flow bit of this session
says that the peer can receive, and the bit is used up with it. -/
theorem flow_obeyed (mtu hostMtu : Nat) (client fdcan : Bool) (es : List DevEvent)
    (hs : List HostEvent) (d : Tracked Dev) (h : Tracked Host) :
    (Run (Guarded Tracked.DevOk Tracked.DevStep) (.dev mtu) es d → Obeys d.known (starts d.v.out)) ∧
    (Run (Guarded Tracked.HostOk Tracked.HostStep) (.host client fdcan hostMtu) hs h →
      Obeys h.known (starts h.v.out)) := by
  refine ⟨fun hrun => dev_obeys hrun, fun hrun => ?_⟩
  have hinv : h.HostInv := hrun.invariant (vllpCreate_hostInv client fdcan hostMtu)
    fun _ _ _ hi hstep => hostStep_inv hi hstep.1 hstep.2
  exact hinv.obeys

/-! ## Runs -/

instance decidableObeys : (flow : BitVec 16) → (fs : List Frag) → Decidable (Obeys flow fs)
  | _, [] => inferInstanceAs (Decidable True)
  | flow, f :: fs =>
      have := decidableObeys (flow &&& ~~~flowBit f.channel) fs
      inferInstanceAs (Decidable (_ ∧ _))

instance (m : Nat → Prop) [DecidablePred m] (v : Dev) (l : List Nat) : Decidable (v.Marked m l) :=
  decidable_of_iff' _ (Dev.marked_iff m v l)

/-- The condition on a device whose applications offer packets on channels below 16 only. -/
def Dev.flowOkBelow (v : Dev) (flow : BitVec 16) (e : DevEvent) : Prop :=
  (v.acked e = true → v.hasMore = true → flow.getLsbD v.currentTxChannel = true) ∧
    (v.idle e = true → (∀ id < 16, e.pull id ≠ [] → flow.getLsbD id = true) ∧
      v.Marked (fun id => flow.getLsbD id = true) v.established ∧
      (v.asksCmc e = true → flow.getLsbD (v.chan Dev.cmc).id = true))

instance (v : Dev) (flow : BitVec 16) (e : DevEvent) : Decidable (v.flowOkBelow flow e) :=
  inferInstanceAs (Decidable (_ ∧ (_ → _)))

theorem flowOk_of_below {v : Dev} {flow : BitVec 16} {e : DevEvent}
    (he : ∀ id, e.pull id ≠ [] → id < 16) (h : v.flowOkBelow flow e) : v.FlowOk flow e :=
  ⟨h.1, fun hi id hp => (h.2 hi).1 id (he id hp) hp, fun hi => (h.2 hi).2.1, fun hi => (h.2 hi).2.2⟩

instance (s : Tracked Host) (e : HostEvent) : Decidable (s.HostOk e) :=
  match e with
  | .thread _ => inferInstanceAs (Decidable (_ → _ → _ → _ → _))
  | .input _ | .create .. | .send .. | .close .. | .closeTimeout _ | .read _ | .readTimeout _ =>
      isTrue trivial

/-- Three bytes wait on channel 0. -/
def offering : In :=
  { In.calm with
    pull := fun id => if id = 0 then [{ Pbuf.pbufReset 1 with data := [1, 2, 3], pktlen := 3 }] else []
    pullOffered := fun id => by
      split
      · exact cmcMessage_offered 1 2 3
      · exact In.calm.pullOffered id }

/-- Channel 0 is opened, and the answer acknowledged with flow bits; data waits for it. -/
def offered (flow : BitVec 16) : List DevEvent :=
  [synOf 5, openMsg 5, .rx offering (ackFrame 5 true false flow)]

theorem offered_below (flow : BitVec 16) : ∀ e ∈ offered flow, ∀ id, e.pull id ≠ [] → id < 16 := by
  intro e he id hp
  simp only [offered, mem_cons, not_mem_nil, or_false] at he
  rcases he with rfl | rfl | rfl
  · exact absurd rfl hp
  · exact absurd rfl hp
  · by_cases h0 : id = 0
    · omega
    · simp [DevEvent.pull, offering, h0] at hp

/-- One round of the thread. -/
def threadRound (ackDue : Bool) : HostEvent :=
  .thread ⟨false, false, ackDue, some 5, fun _ => 0, false⟩

/-- A client gets its session and opens a channel. -/
def opening : List HostEvent :=
  [threadRound true, .input (ackFrame 5 false true 0xffff), threadRound false,
    .create [0x65] false false, threadRound false]

/-- Both ends send in sessions in which the peer marked the channels. -/
theorem marked_channels_served : ∃ d h,
    Run (Guarded Tracked.DevOk Tracked.DevStep) (.dev 8) (offered 0xffff) d ∧
    Run (Guarded Tracked.HostOk Tracked.HostStep) (.host true false 8) opening h ∧
    (starts d.v.out ≠ [] ∧ starts h.v.out ≠ []) ∧
    Obeys d.known (starts d.v.out) ∧ Obeys h.known (starts h.v.out) := by
  obtain ⟨d, hd, hstart⟩ := exists_guarded_run (P := fun s : Tracked Dev => starts s.v.out ≠ [])
    (show ∃ s ∈ exec (guardStep (fun s e => s.v.flowOkBelow (s.v.heard s.txFlow e) e)
      Tracked.devStep) (.dev 8) (offered 0xffff), _ from by decide +kernel)
  have hd : Run (Guarded Tracked.DevOk Tracked.DevStep) (.dev 8) (offered 0xffff) d :=
    hd.mono_mem fun u e w he hw => ⟨flowOk_of_below (offered_below _ e he) hw.1, hw.2⟩
  obtain ⟨h, hh, hstart'⟩ := exists_guarded_run (P := fun s : Tracked Host => starts s.v.out ≠ [])
    (show ∃ s ∈ exec (guardStep Tracked.HostOk Tracked.hostStep) (.host true false 8) opening,
      _ from by decide +kernel)
  have hobeys := flow_obeyed 8 8 true false (offered 0xffff) opening d h
  exact ⟨d, h, hd, hh, ⟨hstart, hstart'⟩, hobeys.1 hd, hobeys.2 hh⟩

/-- A server accepts a session and a channel; the OPEN says that the CMC cannot receive, and
nothing was said about the channel the server sends on. -/
def serving : List HostEvent :=
  [.input (Host.synFrame 8 5), threadRound false,
    .input (hdrByte true false false true cmcId ::
      Host.vllpGenerateCrc (~~~crc32 5 (le32 1)) [0, 0x65]),
    threadRound false, .send 1 [7], threadRound false]

/-- The device sends on a channel the peer has just marked as unable to receive. A server sends
on a channel it has no flow information for in this session. -/
theorem flow_ignored :
    (∃ s, Run Tracked.DevStep (.dev 8) (offered 0xfffe) s ∧ ¬Obeys s.known (starts s.v.out)) ∧
    ∃ s, Run Tracked.HostStep (.host false false 8) serving s ∧ ¬Obeys s.known (starts s.v.out) := by
  constructor
  · exact exists_run (show ∃ s ∈ exec Tracked.devStep (.dev 8) (offered 0xfffe), _ from by
      decide +kernel)
  · exact exists_run (show ∃ s ∈ exec Tracked.hostStep (.host false false 8) serving, _ from by
      decide +kernel)

end Mios.Vllp
