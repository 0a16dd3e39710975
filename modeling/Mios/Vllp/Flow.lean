import Mios.Vllp.Channels

/-! Flow control of the sender. The protocol document has each end keep the flow bits it
received: a channel's bit goes out with each fragment and comes back with an
acknowledgement or a fragment of the same channel. The device keeps no such bits when it
sends, so the bits are followed here beside it. -/

namespace Mios.Vllp

open Lib Crc32 Pbuf

/-! ## The bits of the document -/

theorem starts_of_acts {evs : List Ev} (h : acts evs = []) : starts evs = [] := by
  induction evs with
  | nil => rfl
  | cons e evs ih => cases e <;> simp_all [acts, starts]

/-- A SYN that opens a session. -/
def synOpens (mtu : Nat) (frame : List Byte) : Bool :=
  frame.length == 7 && frame.getD 1 0 == vllpVersion && (frame.getD 2 0).toNat == mtu

/-- The flow bits after a frame, without its padding: a new session knows nothing, an
acknowledgement brings all bits, a fragment the bit of its channel. -/
def heardFrame (crcIV : BitVec 32) (mtu : Nat) (flow : BitVec 16) : List Byte → BitVec 16
  | [] => flow
  | hdr :: data =>
      if hdr = synByte then if synOpens mtu (hdr :: data) then 0 else flow
      else if isAck hdr then
        if crc32 crcIV (hdr :: data) = BitVec.allOnes 32 ∧ data.length = 6 then
          (data.getD 1 0) ++ (data.getD 0 0)
        else flow
      else if hdrChannel hdr = 15 then flow
      else setFlow flow (hdrChannel hdr) (hdrF hdr)

/-- Each fragment starts while the bit of its channel is set, and clears it. -/
def Obeys : BitVec 16 → List Frag → Prop
  | _, [] => True
  | flow, f :: fs => flow.getLsbD f.channel = true ∧ Obeys (flow &&& ~~~flowBit f.channel) fs

def spend (flow : BitVec 16) (fs : List Frag) : BitVec 16 :=
  fs.foldl (fun bits f => bits &&& ~~~flowBit f.channel) flow

/-- An end with the bits of the document: `known` when its last step could send, and
`txFlow` after it. -/
structure Tracked (σ : Type) where
  v : σ
  known : BitVec 16
  txFlow : BitVec 16

/-- The bits after a step; without a session there are none. -/
def Tracked.after {σ : Type} (v : σ) (connected : Bool) (out : List Ev) (known : BitVec 16) :
    Tracked σ :=
  ⟨v, known, if connected then spend known (starts out) else 0⟩

/-- The flow bits a device knows when the event lets it send. -/
def Dev.heard (v : Dev) (flow : BitVec 16) : DevEvent → BitVec 16
  | .rx _ frame => heardFrame v.crcIV v.mtu flow ((stripPad frame).getD [])
  | _ => flow

def Tracked.devStep (s : Tracked Dev) (e : DevEvent) : Option (Tracked Dev) :=
  (s.v.step e).toOption.map fun v' =>
    .after v' v'.connected v'.out (s.v.heard s.txFlow e)

def Tracked.DevStep (s : Tracked Dev) (e : DevEvent) (s' : Tracked Dev) : Prop :=
  s.devStep e = some s'

/-! ## What a device may have to send -/

section Device

open Dev

variable {i : In} {v v' u w : Dev} {a : Nat} {m : Nat → Prop}

/-- The frame acknowledges the outstanding fragment. -/
def Dev.acked (v : Dev) : DevEvent → Bool
  | .rx _ frame => match stripPad frame with
      | some (hdr :: _) => hdrE hdr != v.S
      | _ => false
  | _ => false

/-- The event can find the device without an outstanding message. -/
def Dev.idle (v : Dev) (e : DevEvent) : Bool :=
  v.currentTxBuf.isEmpty || v.acked e && !v.hasMore

/-- What the applications offer during an event. -/
def DevEvent.pull : DevEvent → Nat → Chain
  | .rx i _ => i.pull
  | .task i _ _ => i.pull
  | _ => fun _ => []

/-- The event can put a message on the CMC: a fragment for the CMC, or a close. -/
def Dev.asksCmc (v : Dev) : DevEvent → Bool
  | .rx _ frame => match stripPad frame with
      | some (hdr :: _) => hdrChannel hdr == (v.chan cmc).id
      | _ => false
  | .task _ _ close => close
  | _ => false

/-- All that the event could start a fragment on is on channels the peer marked: the rest of
the outstanding message, and, when that is done, what applications offer and what the
CMC has to send. -/
structure Dev.FlowOk (v : Dev) (flow : BitVec 16) (e : DevEvent) : Prop where
  rest : v.acked e = true → v.hasMore = true → flow.getLsbD v.currentTxChannel = true
  offered : v.idle e = true → ∀ id, e.pull id ≠ [] → flow.getLsbD id = true
  waiting : v.idle e = true → v.Marked (fun id => flow.getLsbD id = true) v.established
  answers : v.idle e = true → v.asksCmc e = true → flow.getLsbD (v.chan cmc).id = true

/-- The condition on a device: what it could send is marked by the bits it knows. -/
def Tracked.DevOk (s : Tracked Dev) (e : DevEvent) : Prop :=
  s.v.FlowOk (s.v.heard s.txFlow e) e

variable {hdr : Byte} {c : Channel} {err : Int} {data : List Byte} {out : List Ev}

/-! ## Reception -/

/-- A store into the receive half of a channel. -/
theorem Dev.keepsTx_setChan (v : Dev) (hid : c.id = (v.chan c.addr).id)
    (happ : c.hasApp = (v.chan c.addr).hasApp) (htxq : c.txq = (v.chan c.addr).txq)
    (hclosed : c.appClosed = (v.chan c.addr).appClosed) : v.KeepsTx m (v.setChan c) :=
  ⟨rfl, rfl, rfl, rfl, chan_setChan_id hid cmc, fun hm =>
    hm.setChan hid happ (fun hq => htxq ▸ hq) (fun hc => hclosed ▸ hc)⟩

theorem maybeDestroy_keepsTx (v : Dev) (ha : a ≠ cmc) :
    v.KeepsTx m (vllpChannelMaybeDestroy v a) := by
  unfold vllpChannelMaybeDestroy
  split
  · have hdead : (vllpChannelDestroy v a).chan a = deadChannel a := by
      rw [Dev.chan, vllpChannelDestroy, Heap.get_free_self]
      rfl
    have hcmc : (vllpChannelDestroy v a).chan cmc = v.chan cmc := chan_destroy_ne ha.symm
    refine ⟨rfl, rfl, rfl, rfl, congrArg Channel.id hcmc,
      fun hm => ⟨fun b hb => ?_, fun b hb => ?_⟩⟩
    · by_cases hba : b = a
      · subst hba
        rw [hdead]
        exact fun _ hq => absurd rfl hq
      · rw [chan_destroy_ne hba]
        exact hm.queued b hb
    · by_cases hba : b = a
      · subst hba
        rw [hdead]
        exact fun hc => absurd hc (show (0 : Nat) ≠ 1 by decide)
      · rw [chan_destroy_ne hba, hcmc]
        exact hm.closing b hb
  · exact .refl v

theorem netClose_keepsTx (v : Dev) (ha : a ≠ cmc) : v.KeepsTx m (vllpChannelNetClose v a) := by
  simp only [vllpChannelNetClose]
  split
  · exact .refl v
  have hclose : v.KeepsTx m ((v.log (.close (v.chan a).id)).setChan
      { v.chan a with netClosed := true }) := by
    have hlog : v.KeepsTx m (v.log (.close (v.chan a).id)) :=
      keepsTx_of rfl rfl rfl (Mute.snoc _ rfl rfl).starts rfl rfl
    have haddr : (v.log (.close (v.chan a).id)).chan (v.chan a).addr = v.chan a := by
      rw [chan_addr]
      rfl
    refine hlog.trans (Dev.keepsTx_setChan _ ?_ ?_ ?_ ?_) <;> rw [haddr]
  have hunlink : v.KeepsTx m { (v.log (.close (v.chan a).id)).setChan
      { v.chan a with netClosed := true } with channels := v.channels.filter (· != a) } :=
    hclose.trans (keepsTx_of rfl rfl rfl rfl rfl rfl)
  exact hunlink.trans (maybeDestroy_keepsTx _ ha)

/-- A message for the CMC's queue needs its channel in `m`. -/
theorem sendCmcMessage_keepsTx (v : Dev) (opcode target : Nat) (err : Int)
    (hm : m (v.chan cmc).id) : v.KeepsTx m (sendCmcMessage v opcode target err) := by
  have hid := sendCmcMessage_id v opcode target err
  refine ⟨rfl, rfl, rfl, rfl, hid, fun hv => ⟨fun b hb => ?_, fun _ _ _ => hid ▸ hm⟩⟩
  by_cases hb0 : b = cmc
  · subst hb0
    exact fun _ _ => hid ▸ hm
  · have hsame : (sendCmcMessage v opcode target err).chan b = v.chan b :=
      chan_setChan_ne (by simpa using hb0)
    rw [hsame]
    exact hv.queued b hb

theorem addChannel_keepsTx (target : Nat) (iv : BitVec 32)
    (hl : Heap.Live Channel.addr v.objs cmc) : v.KeepsTx m (addChannel v target iv) := by
  obtain ⟨hself, -, hother⟩ := addChannel_chan v target iv
  have hcmc : cmc ≠ Heap.fresh Channel.addr v.objs := by
    obtain ⟨c, hc, haddr⟩ := hl
    exact fun h => Nat.ne_of_lt (Heap.lt_fresh hc) (haddr.trans h)
  have hmem : ∀ b ∈ (addChannel v target iv).established, b ≠ Heap.fresh Channel.addr v.objs →
      b ∈ v.established := fun b hb hne =>
    (List.mem_append.mp hb).resolve_right (by simpa using hne)
  refine ⟨rfl, rfl, rfl, rfl, by rw [hother _ hcmc], fun hv => ⟨fun b hb => ?_, fun b hb => ?_⟩⟩
  · by_cases hba : b = Heap.fresh Channel.addr v.objs
    · rw [hba, hself]
      exact fun happ => absurd happ (show true ≠ false by decide)
    · rw [hother b hba]
      exact hv.queued b (hmem b hb hba)
  · by_cases hba : b = Heap.fresh Channel.addr v.objs
    · rw [hba, hself]
      exact fun hc => absurd hc (show (0 : Nat) ≠ 1 by decide)
    · rw [hother b hba, hother _ hcmc]
      exact hv.closing b (hmem b hb hba)

/-- A store into the receive half of a channel. -/
theorem Dev.keepsTx_setRx (v : Dev) (a : Nat) (q : Chain) (iv : BitVec 32) :
    v.KeepsTx m (v.setChan { v.chan a with rxq := q, rxCrcIV := iv }) := by
  refine v.keepsTx_setChan ?_ ?_ ?_ ?_ <;> simp only [chan_addr]

theorem netClose_live (v : Dev) (ha : a ≠ cmc) (h : Heap.Live Channel.addr v.objs cmc) :
    Heap.Live Channel.addr (vllpChannelNetClose v a).objs cmc := by
  simp only [vllpChannelNetClose, vllpChannelMaybeDestroy]
  split
  · exact h
  split
  · exact (h.put _).free ha.symm
  · exact h.put _

theorem addChannel_live (target : Nat) (iv : BitVec 32) (h : Heap.Live Channel.addr v.objs cmc) :
    Heap.Live Channel.addr (addChannel v target iv).objs cmc := by
  obtain ⟨c, hc, haddr⟩ := h
  have hmade : Heap.Live Channel.addr (vllpChannelMake v target).1.objs cmc :=
    ⟨c, .tail _ hc, haddr⟩
  exact hmade.put _

/-- The CMC is there when it was asked, and its channel is then in `m`. -/
theorem Dev.Manages.keepsTx {asked : Prop} (h : v.Manages asked v')
    (hasked : asked → m (v.chan cmc).id ∧ Heap.Live Channel.addr v.objs cmc) :
    v.KeepsTx m v' ∧ (asked → Heap.Live Channel.addr v'.objs cmc) := by
  induction h with
  | refl v => exact ⟨.refl v, fun h => (hasked h).2⟩
  | trans _ _ ih ih' =>
    obtain ⟨hk, hl⟩ := ih hasked
    obtain ⟨hk', hl'⟩ := ih' fun h => ⟨hk.cmcId.symm ▸ (hasked h).1, hl h⟩
    exact ⟨hk.trans hk', hl'⟩
  | count v => exact ⟨keepsTx_of rfl rfl rfl rfl rfl rfl, fun h => (hasked h).2⟩
  | store v a iv _ => exact ⟨v.keepsTx_setRx a _ iv, fun h => (hasked h).2.put _⟩
  | close v ha => exact ⟨netClose_keepsTx v ha, fun h => netClose_live v ha (hasked h).2⟩
  | add h iv _ _ =>
    exact ⟨addChannel_keepsTx _ iv (hasked h).2, fun h => addChannel_live _ iv (hasked h).2⟩
  | answer h v opcode target err =>
    exact ⟨sendCmcMessage_keepsTx v opcode target err (hasked h).1, fun h => (hasked h).2.put _⟩

theorem receive_keepsTx (ht : v.Table) (hm : hdrChannel hdr = (v.chan cmc).id → m (v.chan cmc).id)
    (h : vllpChannelReceive i v hdr data = .ok (v', err)) : v.KeepsTx m v' := by
  have hasked : vllpChannelFind v (hdrChannel hdr) = some cmc →
      m (v.chan cmc).id ∧ Heap.Live Channel.addr v.objs cmc := fun hf =>
    ⟨hm (vllpChannelFind_spec hf).1.symm, ht.live cmc (vllpChannelFind_spec hf).2⟩
  cases receive_receives h with
  | manages hman => exact (hman.keepsTx hasked).1
  | pushes pb hman _ _ _ =>
    refine (hman.keepsTx hasked).1.trans (keepsTx_of rfl rfl rfl ?_ rfl rfl)
    rw [Dev.log, starts_append]
    exact List.append_nil _

theorem rxData_keepsTx {more : Bool} (ht : v.Table)
    (hm : hdrChannel hdr = (v.chan cmc).id → m (v.chan cmc).id)
    (h : rxData i v hdr data = .ok (v', more)) :
    starts v'.out = starts v.out ∧ (more = true → v.KeepsTx m v') := by
  obtain ⟨w, err, hrecv, hcase⟩ := rxData_cases h
  have hw : v.KeepsTx m w := receive_keepsTx ht hm hrecv
  rcases hcase with ⟨-, rfl | rfl⟩ | ⟨rfl, rfl⟩
  · have hall : v.KeepsTx m (w.accepts hdr data) :=
      hw.trans (keepsTx_of rfl rfl rfl (Mute.snoc _ rfl rfl).starts rfl rfl)
    exact ⟨hall.starts, fun _ => hall⟩
  · exact ⟨hw.starts, fun _ => hw⟩
  · exact ⟨(disconnect_mute w).starts.trans hw.starts, by simp⟩

/-! ## Frames and other events -/

theorem Dev.KeepsTx.hasMore (h : v.KeepsTx m v') : v'.hasMore = v.hasMore := by
  unfold Dev.hasMore
  rw [h.buf, h.len]

/-- The acknowledgement half behind the receive half. -/
theorem rxAck_after {m' : Nat → Prop} {accepted : Bool} (hk : v.KeepsTx m' u) (hl : u.Linked)
    (hrest : accepted = true → v.hasMore = true → m v.currentTxChannel)
    (hidle : v.currentTxBuf = [] ∨ accepted = true ∧ v.hasMore = false →
      u.Marked m u.established ∧ ∀ id, i.pull id ≠ [] → m id)
    (h : rxAck i u accepted = .ok v') : AddsOne m v.out v'.out := by
  refine (rxAck_transmits hl ?_ ?_ h).one.after hk.starts
  · rw [hk.hasMore, hk.channel]
    exact hrest
  · rw [hk.hasMore, hk.buf]
    exact hidle

section Frame

variable (ht : v.Table)
  (hrest : (hdrE hdr != v.S) = true → v.hasMore = true → m v.currentTxChannel)
  (hidle : v.currentTxBuf = [] ∨ (hdrE hdr != v.S) = true ∧ v.hasMore = false →
    v.Marked m v.established ∧ (∀ id, i.pull id ≠ [] → m id) ∧
      (hdrChannel hdr = (v.chan cmc).id → m (v.chan cmc).id))

include ht hrest hidle

/-- A frame in a session: by cases on whether it leaves nothing outstanding, since only then
the channels matter. -/
theorem rxSession_starts (hrx : rxData i v hdr data = .ok (u, true))
    (h : rxAck i u (hdrE hdr != v.S) = .ok v') : AddsOne m v.out v'.out := by
  have hl := (rxData_frame ht hrx).1.linked
  by_cases hi : v.currentTxBuf = [] ∨ (hdrE hdr != v.S) = true ∧ v.hasMore = false
  · obtain ⟨hmark, hpull, hcmc⟩ := hidle hi
    have hk := (rxData_keepsTx ht hcmc hrx).2 rfl
    exact rxAck_after hk hl hrest (fun _ => ⟨hk.marked hmark, hpull⟩) h
  · have hk := (rxData_keepsTx (m := fun _ => True) ht (fun _ => trivial) hrx).2 rfl
    exact rxAck_after hk hl hrest (fun hi' => absurd hi' hi) h

theorem rxFrame_starts (h : rxFrame i v (hdr :: data) = .ok v') : AddsOne m v.out v'.out := by
  cases frameCase_of_rxFrame h with
  | syn _ heq => exact .inl (heq ▸ (acceptSyn_keeps v _).2.starts)
  | refused _ _ heq => exact .inl (heq ▸ rfl)
  | ended _ _ hrx => exact .inl (rxData_keepsTx (m := fun _ => True) ht (fun _ => trivial) hrx).1
  | taken _ _ hrx hack => exact rxSession_starts ht hrest hidle hrx hack
  | acked _ _ hack =>
    exact (rxAck_transmits ht.linked hrest (fun hi => ⟨(hidle hi).1, (hidle hi).2.1⟩) hack).one

end Frame

theorem refresh_S (i : In) (v : Dev) : (vllpRefreshLocalFlowStatus i v).1.S = v.S := by
  simp only [vllpRefreshLocalFlowStatus]
  split <;> rfl

theorem vllpRx_starts {frame : List Byte} (ht : v.Table)
    (hrest : v.acked (.rx i frame) = true → v.hasMore = true → m v.currentTxChannel)
    (hidle : v.idle (.rx i frame) = true → v.Marked m v.established ∧
      (∀ id, i.pull id ≠ [] → m id) ∧ (v.asksCmc (.rx i frame) = true → m (v.chan cmc).id))
    (h : vllpRx i v frame = .ok v') : AddsOne m v.out v'.out := by
  have hk : v.KeepsTx m (vllpRefreshLocalFlowStatus i v).1 := refresh_keepsTx i v
  have hS := refresh_S i v
  cases hf : stripPad frame with
  | none =>
    rw [vllpRx_bad hf] at h
    cases h
    exact .inl ((disconnect_mute _).starts.trans hk.starts)
  | some f =>
    rw [vllpRx_good hf] at h
    cases f with
    | nil =>
      cases h
      exact .inl hk.starts
    | cons hdr data =>
      have hacked : v.acked (.rx i frame) = (hdrE hdr != v.S) := by simp only [Dev.acked, hf]
      have hasks : v.asksCmc (.rx i frame) = (hdrChannel hdr == (v.chan cmc).id) := by
        simp only [Dev.asksCmc, hf]
      rw [hacked] at hrest
      refine (rxFrame_starts (ht.shrinks (refresh_shrinks i v)) ?_ ?_ h).after hk.starts
      · rw [hS, hk.hasMore, hk.channel]
        exact hrest
      rw [hS, hk.hasMore, hk.buf, hk.cmcId]
      intro hi
      have hidle' : v.idle (.rx i frame) = true := by
        rcases hi with hi | hi
        · simp [Dev.idle, hi]
        · simp [Dev.idle, hacked, hi]
      obtain ⟨hmark, hpull, hcmc⟩ := hidle hidle'
      exact ⟨hk.marked hmark, hpull, fun hch => hcmc (by rw [hasks, hch, beq_self_eq_true])⟩

theorem vllpChannelTaskCb_starts {close : Bool} (hl : v.Linked)
    (hidle : v.currentTxBuf = [] → v.Marked m v.established ∧
      (∀ id, i.pull id ≠ [] → m id) ∧ (close = true → m (v.chan cmc).id))
    (h : vllpChannelTaskCb i v a close = .ok v') : AddsOne m v.out v'.out := by
  unfold vllpChannelTaskCb at h
  split at h
  · rename_i hclose
    split at h
    · cases h
      exact .inl rfl
    have hstill := still_setChan v { v.chan a with appClosed := 1 } (by rw [chan_addr]; rfl)
    refine (taskTx_transmits (hstill.linked hl) (fun hb => ?_) h).one.after rfl
    obtain ⟨hmark, hpull, hcmc⟩ := hidle hb
    -- the close that now waits goes out on the CMC
    have hid : ∀ b, ((v.setChan { v.chan a with appClosed := 1 }).chan b).id = (v.chan b).id :=
      chan_setChan_id (by simp)
    refine ⟨⟨fun b hb => ?_, fun b _ _ => by rw [hid]; exact hcmc hclose⟩, hpull⟩
    rw [hid]
    rcases chan_setChan v { v.chan a with appClosed := 1 } b with heq | ⟨rfl, heq⟩
    · rw [heq]
      exact hmark.queued b hb
    · rw [heq]
      have hq := hmark.queued _ hb
      simp only [chan_addr] at hq ⊢
      exact hq
  · exact (taskTx_transmits hl (fun hb => ⟨(hidle hb).1, (hidle hb).2.1⟩) h).one

/-- One event of a device whose possible fragments are on marked channels. -/
theorem step_addsOne {e : DevEvent} {flow : BitVec 16} (ht : v.Table) (hok : v.FlowOk flow e)
    (h : v.step e = .ok v') : AddsOne (fun id => flow.getLsbD id = true) [] v'.out := by
  have hv : Dev.Table { v with out := [] } := ht.shrinks (shrinks_of rfl rfl)
  cases e with
  | rx i frame =>
    exact vllpRx_starts hv hok.rest
      (fun hi => ⟨(hok.waiting hi).of_objs rfl, hok.offered hi, hok.answers hi⟩) h
  | ackTimer i =>
    cases h
    have hk := refresh_keepsTx (m := fun _ => True) i { v with out := [] }
    exact .inl ((vllpTxAck_still _ _ _).starts.trans hk.starts)
  | rtxTimer i =>
    obtain ⟨⟨w, buf⟩, htx, rfl⟩ := except_map_ok h
    have hk := refresh_keepsTx (m := fun _ => True) i { v with out := [] }
    exact .inl ((vllpTx_still htx).1.starts.trans hk.starts)
  | timeout =>
    cases h
    exact .inl (disconnect_mute _).starts
  | task i a close =>
    simp only [Dev.step, Dev.stepOf] at h
    split at h
    · have hidle : v.currentTxBuf = [] → v.idle (.task i a close) = true := fun hb => by
        simp [Dev.idle, hb]
      exact vllpChannelTaskCb_starts (v := { v with out := [] }) ht.linked (fun hb =>
        ⟨(hok.waiting (hidle hb)).of_objs rfl, hok.offered (hidle hb), hok.answers (hidle hb)⟩) h
    · cases h
      exact .inl rfl

theorem AddsOne.obeys {flow : BitVec 16}
    (h : AddsOne (fun id => flow.getLsbD id = true) [] out) : Obeys flow (starts out) := by
  rcases h with h | ⟨f, hf, h⟩
  · rw [h]
    trivial
  · rw [h]
    exact ⟨hf, trivial⟩

end Device

/-- A device that has seen nothing yet. -/
def Tracked.dev (mtu : Nat) : Tracked Dev := ⟨vllpServerCreate mtu, 0, 0⟩

theorem devStep_cases {s s' : Tracked Dev} {e : DevEvent} (h : s.DevStep e s') :
    ∃ v', s.v.step e = .ok v' ∧ s' = .after v' v'.connected v'.out (s.v.heard s.txFlow e) :=
  ok_of_toOption_map h

/-- A device whose steps all meet the condition obeys the flow control. -/
theorem dev_obeys {mtu : Nat} {es : List DevEvent} {s : Tracked Dev}
    (h : Run (Guarded Tracked.DevOk Tracked.DevStep) (.dev mtu) es s) :
    Obeys s.known (starts s.v.out) := by
  have hinv : s.v.Table ∧ Obeys s.known (starts s.v.out) := by
    refine h.invariant (I := fun s : Tracked Dev => s.v.Table ∧ Obeys s.known (starts s.v.out))
      ⟨vllpServerCreate_table mtu, trivial⟩ ?_
    intro u e w hu hstep
    obtain ⟨v', hs, rfl⟩ := devStep_cases hstep.2
    exact ⟨(step_table hu.1 hs).1, (step_addsOne hu.1 hstep.1 hs).obeys⟩
  exact hinv.2

end Mios.Vllp
