import Mios.Vllp.DeviceRx

/-! What else transmission does on the device: it leaves reception alone, and starts one fragment
at most, on a channel that had something to send. -/

namespace Mios.Vllp

open Lib Crc32 Pbuf Dev

/-! ## Events of a step -/

/-- The packets among some events that went to an application. -/
def pushes : List Ev → List (Nat × Chain)
  | [] => []
  | .push channel pkt :: evs => (channel, pkt) :: pushes evs
  | _ :: evs => pushes evs

theorem pushes_append (a b : List Ev) : pushes (a ++ b) = pushes a ++ pushes b := by
  induction a with
  | nil => rfl
  | cons e a ih => cases e <;> simp [pushes, ih]

/-- The fragments that become outstanding, in order. -/
def starts : List Ev → List Frag
  | [] => []
  | .start f :: evs => f :: starts evs
  | _ :: evs => starts evs

theorem starts_append (a b : List Ev) : starts (a ++ b) = starts a ++ starts b := by
  induction a with
  | nil => rfl
  | cons e a ih => cases e <;> simp [starts, ih]

/-- Nothing was pushed and nothing started. -/
structure Mute (out out' : List Ev) : Prop where
  pushes : pushes out' = pushes out
  starts : starts out' = starts out

/-- At most one fragment started, on a channel in `m`. -/
def AddsOne (m : Nat → Prop) (out out' : List Ev) : Prop :=
  starts out' = starts out ∨ ∃ f, m f.channel ∧ starts out' = starts out ++ [f]

variable {v v' u w : Dev} {i : In} {buf buf' : Bool} {a : Nat} {m : Nat → Prop} {c : Channel}
  {err : Int} {out out' : List Ev} {l : List Nat}

theorem Mute.refl (out : List Ev) : Mute out out := ⟨rfl, rfl⟩

theorem Mute.trans {out'' : List Ev} (h : Mute out out') (h' : Mute out' out'') : Mute out out'' :=
  ⟨h'.pushes.trans h.pushes, h'.starts.trans h.starts⟩

theorem Mute.snoc (out : List Ev) {e : Ev} (hp : Vllp.pushes [e] = []) (hs : Vllp.starts [e] = []) :
    Mute out (out ++ [e]) :=
  ⟨by rw [pushes_append, hp, List.append_nil], by rw [starts_append, hs, List.append_nil]⟩

theorem AddsOne.mono {m' : Nat → Prop} (h : AddsOne m out out')
    (hm : ∀ c, m c → m' c) : AddsOne m' out out' := by
  rcases h with h | ⟨f, hf, h⟩
  · exact .inl h
  · exact .inr ⟨f, hm _ hf, h⟩

theorem AddsOne.after {out'' : List Ev} (h : AddsOne m out' out'')
    (hsame : starts out' = starts out) : AddsOne m out out'' := by
  unfold AddsOne at h ⊢
  rwa [hsame] at h

theorem AddsOne.before {out'' : List Ev} (h : AddsOne m out out')
    (hsame : starts out'' = starts out') : AddsOne m out out'' := by
  unfold AddsOne at h ⊢
  rwa [hsame]

/-! ## The receive half -/

/-- The fields of a channel reception works with. -/
def Channel.rx (c : Channel) : Nat × Chain × BitVec 32 × Bool :=
  (c.id, c.rxq, c.rxCrcIV, c.netClosed)

/-- Linked channels are open. -/
def Dev.Linked (v : Dev) : Prop := ∀ a ∈ v.channels, (v.chan a).netClosed = false

structure Dev.KeepsRx (v v' : Dev) : Prop where
  channels : v'.channels = v.channels
  rx : ∀ a ∈ v.channels, (v'.chan a).rx = (v.chan a).rx
  live : ∀ a ∈ v.channels, Heap.Live Channel.addr v.objs a → Heap.Live Channel.addr v'.objs a
  pushes : pushes v'.out = pushes v.out

theorem Dev.KeepsRx.trans (h : v.KeepsRx v') (h' : v'.KeepsRx w) : v.KeepsRx w :=
  ⟨h'.channels.trans h.channels,
    fun a ha => (h'.rx a (h.channels ▸ ha)).trans (h.rx a ha),
    fun a ha hl => h'.live a (h.channels ▸ ha) (h.live a ha hl), h'.pushes.trans h.pushes⟩

theorem Dev.KeepsRx.linked (h : v.KeepsRx v') (hl : v.Linked) : v'.Linked := by
  intro a ha
  rw [h.channels] at ha
  have hrx := h.rx a ha
  simp only [Channel.rx, Prod.mk.injEq] at hrx
  exact hrx.2.2.2.trans (hl a ha)

/-- Nothing is started either. -/
structure Dev.Still (v v' : Dev) : Prop extends v.KeepsRx v' where
  starts : starts v'.out = starts v.out

theorem Dev.Still.mute (h : v.Still v') : Mute v.out v'.out := ⟨h.pushes, h.starts⟩

theorem Dev.Still.trans (h : v.Still v') (h' : v'.Still w) : v.Still w :=
  ⟨h.toKeepsRx.trans h'.toKeepsRx, h'.starts.trans h.starts⟩

/-- No channel object changed. -/
theorem Dev.still_of (hobjs : v'.objs = v.objs) (hch : v'.channels = v.channels)
    (hout : Mute v.out v'.out) : v.Still v' :=
  ⟨⟨hch, fun a _ => by simp [Dev.chan, hobjs], fun a _ hl => hobjs ▸ hl, hout.pushes⟩, hout.starts⟩

theorem Dev.Still.refl (v : Dev) : v.Still v := still_of rfl rfl (.refl _)

/-- A store that leaves the receive half of the channel in place. -/
theorem Dev.still_setChan (v : Dev) (c : Channel) (hc : c.rx = (v.chan c.addr).rx) :
    v.Still (v.setChan c) := by
  refine ⟨⟨rfl, fun a _ => ?_, fun a _ hl => hl.put c, rfl⟩, rfl⟩
  rcases chan_setChan v c a with h | ⟨rfl, h⟩
  · rw [h]
  · rw [h, hc]

theorem popTxq_still (v : Dev) (a : Nat) : v.Still (v.popTxq a) :=
  still_setChan v _ (by rw [chan_addr]; rfl)

theorem sendCmcMessage_still (v : Dev) (opcode target : Nat) (err : Int) :
    v.Still (sendCmcMessage v opcode target err) :=
  still_setChan v _ (by rw [chan_addr]; rfl)

/-- A channel that is not linked may go. -/
theorem vllpChannelMaybeDestroy_still (hl : v.Linked) : v.Still (vllpChannelMaybeDestroy v a) := by
  unfold vllpChannelMaybeDestroy
  split
  · rename_i hdead
    have hne : ∀ b ∈ v.channels, b ≠ a := by
      rintro b hb rfl
      exact absurd (hdead.2.symm.trans (hl b hb)) (by simp)
    refine ⟨⟨rfl, fun b hb => ?_, fun b hb hlive => hlive.free (hne b hb), rfl⟩, rfl⟩
    simp only [vllpChannelDestroy, Dev.chan, Heap.get_free_ne v.objs (hne b hb)]
  · exact .refl v

theorem refresh_flow (i : In) (v : Dev) :
    (vllpRefreshLocalFlowStatus i v).1.localFlowStatus = localFlow i v ∧
      v.Still (vllpRefreshLocalFlowStatus i v).1 := by
  by_cases hb : v.localFlowStatus = localFlow i v
  · simp only [vllpRefreshLocalFlowStatus, if_pos hb]
    exact ⟨hb, .refl v⟩
  · simp only [vllpRefreshLocalFlowStatus, if_neg hb, true_and]
    exact still_of rfl rfl (.refl _)

/-! ## The end of a session -/

theorem netClose_mute (v : Dev) (a : Nat) : Mute v.out (vllpChannelNetClose v a).out := by
  simp only [vllpChannelNetClose, vllpChannelMaybeDestroy]
  split
  · exact .refl _
  · split <;> exact .snoc _ rfl rfl

theorem closeAll_mute (v : Dev) (l : List Nat) : Mute v.out (closeAll v l).out := by
  induction l generalizing v with
  | nil => exact .refl _
  | cons a rest ih =>
    rw [closeAll]
    split
    · exact ih v
    · exact (netClose_mute v a).trans (ih _)

theorem disconnect_mute (v : Dev) : Mute v.out (vllpDisconnect v).out := by
  unfold vllpDisconnect
  split
  · exact .refl _
  · exact closeAll_mute v v.channels

/-! ## Fragments -/

/-- Reception is left alone, and at most one fragment starts, on a channel in `m`. -/
structure Dev.Transmits (m : Nat → Prop) (v v' : Dev) : Prop extends v.KeepsRx v' where
  one : AddsOne m v.out v'.out

theorem Dev.Still.transmits (h : v.Still v') : v.Transmits m v' := ⟨h.toKeepsRx, .inl h.starts⟩

theorem Dev.Transmits.after (h : v'.Transmits m w) (hs : v.Still v') : v.Transmits m w :=
  ⟨hs.toKeepsRx.trans h.toKeepsRx, h.one.after hs.starts⟩

theorem Dev.Transmits.before (h : v.Transmits m v') (hs : v'.Still w) : v.Transmits m w :=
  ⟨h.toKeepsRx.trans hs.toKeepsRx, h.one.before hs.starts⟩

theorem vllpTxAck_still (alloc : Bool) (v : Dev) (buf : Bool) :
    v.Still (vllpTxAck alloc v buf) := by
  unfold vllpTxAck
  split
  · exact still_of rfl rfl (.snoc _ rfl rfl)
  · exact .refl v

theorem pullupLoop_ne_nil (p : Pbuf) (rest : Chain) (bytes : Nat) :
    (pullupLoop p rest bytes).1 ≠ [] := by
  fun_induction pullupLoop p rest bytes with
  | case1 | case2 | case4 => simp
  | case3 => assumption

theorem pbufPullup_ne_nil {c c' : Chain} {bytes missing : Nat} (hne : c ≠ [])
    (h : pbufPullup c bytes = .ok (c', missing)) : c' ≠ [] := by
  cases c with
  | nil => exact absurd rfl hne
  | cons p rest =>
    simp only [pbufPullup] at h
    split at h
    · cases h
      exact hne
    split at h
    · split at h
      · obtain ⟨rfl, -⟩ := Prod.mk.inj (Except.ok.inj h)
        exact pullupLoop_ne_nil _ _ _
      · cases h
    · obtain ⟨rfl, -⟩ := Prod.mk.inj (Except.ok.inj h)
      exact pullupLoop_ne_nil _ _ _

theorem vllpTx_still (h : vllpTx i v buf = .ok (v', buf')) :
    v.Still v' ∧ (v.currentTxBuf ≠ [] → v'.currentTxBuf ≠ []) := by
  unfold vllpTx at h
  split at h
  · cases h
    exact ⟨.refl v, id⟩
  split at h
  · split at h
    · cases h
    rename_i hpull
    split at h
    · cases h
    · cases h
      exact ⟨still_of rfl rfl (.snoc _ rfl rfl), fun hne => pbufPullup_ne_nil hne hpull⟩
  · cases h
    exact ⟨.refl v, id⟩

theorem logStart_transmits (v : Dev) : v.Transmits (· = v.currentTxChannel) v.logStart ∧
    v.logStart.currentTxBuf = v.currentTxBuf := by
  cases hb : v.currentTxBuf with
  | nil =>
    rw [Dev.logStart, currentFrag_eq_none hb]
    exact ⟨(Dev.Still.refl v).transmits, hb⟩
  | cons p rest =>
    obtain ⟨f, hfrag, hch⟩ : ∃ f, v.currentFrag = some f ∧ f.channel = v.currentTxChannel :=
      ⟨_, currentFrag_ne_nil (by simp [hb]), rfl⟩
    rw [Dev.logStart_some hfrag]
    refine ⟨⟨⟨rfl, fun _ _ => rfl, fun _ _ hl => hl, ?_⟩, .inr ⟨f, hch, ?_⟩⟩, hb⟩
    · rw [Dev.log, pushes_append]
      exact List.append_nil _
    · rw [Dev.log, starts_append]
      rfl

theorem vllpFragment_transmits (h : vllpFragment i v buf = .ok (v', buf')) :
    v.Transmits (· = v.currentTxChannel) v' ∧ (v.currentTxBuf ≠ [] → v'.currentTxBuf ≠ []) := by
  rw [vllpFragment_eq] at h
  obtain ⟨hs, hne⟩ := vllpTx_still h
  obtain ⟨hstart, hbuf⟩ := logStart_transmits
    { v with currentTxLen := min (v.mtu - 1) (headLen v.currentTxBuf), S := !v.S }
  refine ⟨(hstart.before hs).after (still_of rfl rfl (.refl _)), fun hv => hne ?_⟩
  rw [hbuf]
  exact hv

theorem vllpChannelTx_transmits {pb : Chain} (hm : m (v.chan a).id)
    (h : vllpChannelTx i v a pb buf = .ok (v', buf')) : v.Transmits m v' := by
  simp only [vllpChannelTx] at h
  split at h
  · cases h
  split at h
  · cases h
  rename_i hfr
  cases h
  have htx := (vllpFragment_transmits hfr).1
  have hset := still_setChan v { v.chan a with txCrcIV := (v.chan a).txCrcIV + 1 } (by
    rw [chan_addr]
    rfl)
  have hone : v.Transmits m _ := .after ⟨htx.toKeepsRx, htx.one.mono fun c hc => hc ▸ hm⟩
    (hset.trans (still_of rfl rfl (.refl _)))
  exact hone.before (still_of rfl rfl (.refl _))

/-! ## Scheduling -/

/-- The queues of channels without an application, and the closes that wait, are on channels
in `m`. -/
@[mk_iff] structure Dev.Marked (m : Nat → Prop) (v : Dev) (l : List Nat) : Prop where
  queued : ∀ a ∈ l, (v.chan a).hasApp = false → (v.chan a).txq ≠ [] → m (v.chan a).id
  closing : ∀ a ∈ l, (v.chan a).appClosed = 1 → m (v.chan cmc).id

/-- A store that adds nothing to send, on a channel that keeps its id. -/
theorem Dev.Marked.setChan (h : v.Marked m l)
    (hid : c.id = (v.chan c.addr).id) (happ : c.hasApp = (v.chan c.addr).hasApp)
    (htxq : c.txq ≠ [] → (v.chan c.addr).txq ≠ [])
    (hclosed : c.appClosed = 1 → (v.chan c.addr).appClosed = 1) : (v.setChan c).Marked m l := by
  refine ⟨fun b hb => ?_, fun b hb => ?_⟩
  · rw [chan_setChan_id hid]
    rcases chan_setChan v c b with heq | ⟨rfl, heq⟩
    · rw [heq]
      exact h.queued b hb
    · rw [heq, happ]
      exact fun hno hq => h.queued _ hb hno (htxq hq)
  · rw [chan_setChan_id hid]
    rcases chan_setChan v c b with heq | ⟨rfl, heq⟩
    · rw [heq]
      exact h.closing b hb
    · rw [heq]
      exact fun hc => h.closing _ hb (hclosed hc)

/-- The objects are the same. -/
theorem Dev.Marked.of_objs (h : v.Marked m l) (hobjs : v'.objs = v.objs) : v'.Marked m l := by
  have hchan : ∀ b, v'.chan b = v.chan b := fun b => by rw [Dev.chan, Dev.chan, hobjs]
  exact ⟨fun b hb => hchan b ▸ h.queued b hb, fun b hb => hchan b ▸ hchan cmc ▸ h.closing b hb⟩

theorem marked_all (v : Dev) (l : List Nat) : v.Marked (fun _ => True) l :=
  ⟨fun _ _ _ _ => trivial, fun _ _ _ => trivial⟩

theorem Dev.Marked.sub {l' : List Nat} (h : v.Marked m l) (hl : ∀ b ∈ l', b ∈ l) : v.Marked m l' :=
  ⟨fun b hb => h.queued b (hl b hb), fun b hb => h.closing b (hl b hb)⟩

theorem pbufSplice_nil : pbufSplice [] = ([], []) := rfl

theorem sendCmcMessage_id (v : Dev) (opcode target : Nat) (err : Int) :
    ((sendCmcMessage v opcode target err).chan cmc).id = (v.chan cmc).id :=
  chan_setChan_id (by simp) cmc

theorem popTxq_id (v : Dev) (a b : Nat) : ((v.popTxq a).chan b).id = (v.chan b).id :=
  chan_setChan_id (by simp) b

theorem except_map_ok {α β : Type} {f : α → β} {r : Except Halt α} {b : β}
    (h : r.map f = .ok b) : ∃ a, r = .ok a ∧ f a = b := by
  cases r with
  | error e => cases h
  | ok a => exact ⟨a, rfl, Except.ok.inj h⟩

theorem vllpTxClose_transmits (hm : m (v.chan cmc).id) (h : vllpTxClose i v a = .ok (v', err)) :
    v.Transmits m v' ∧
      (err ≠ 0 → v' = { v with established := v.established.filter (· != a) }) := by
  have hu : v.Still { v with established := v.established.filter (· != a) } :=
    still_of rfl rfl (.refl _)
  rw [vllpTxClose_eq i v _ _ a rfl rfl] at h
  split at h
  · cases h
    exact ⟨hu.transmits, fun hne => absurd rfl hne⟩
  split at h
  · cases h
    exact ⟨hu.transmits, fun _ => rfl⟩
  obtain ⟨⟨w, buf⟩, htx, heq⟩ := except_map_ok h
  cases heq
  refine ⟨(vllpChannelTx_transmits ?_ htx).after
    ((hu.trans (sendCmcMessage_still _ _ _ _)).trans (popTxq_still _ _)), fun hne => absurd rfl hne⟩
  rw [popTxq_id, sendCmcMessage_id]
  exact hm

/-- The loop of the scheduler, by induction over the channels left to look at: only the first
that has something to send starts a fragment. -/
theorem maybeTxLoop_transmits (hl : v.Linked) (hm : v.Marked m l)
    (hpull : ∀ id, i.pull id ≠ [] → m id) (h : maybeTxLoop i buf v l = .ok (v', buf')) :
    v.Transmits m v' := by
  induction l generalizing v with
  | nil =>
    simp only [maybeTxLoop] at h
    split at h
    · cases h
      exact (vllpTxAck_still _ _ _).transmits
    · cases h
      exact (Dev.Still.refl _).transmits
  | cons a rest ih =>
    have hrest : v.Marked m rest := hm.sub fun b hb => List.mem_cons_of_mem a hb
    simp only [maybeTxLoop] at h
    split at h
    · split at h
      · rename_i hclosed
        split at h
        · cases h
        rename_i u err hclose
        obtain ⟨htx, hu⟩ := vllpTxClose_transmits (hm.closing a (.head _) hclosed) hclose
        split at h
        · rename_i herr
          obtain rfl := hu herr
          refine (ih ?_ ?_ h).after (still_of rfl rfl (.refl _))
          · exact hl
          · exact hrest.of_objs rfl
        · cases h
          have hset := htx.before (still_setChan u { u.chan a with appClosed := 2 }
            (by rw [chan_addr]; rfl))
          exact hset.before (vllpChannelMaybeDestroy_still (hset.linked hl))
      split at h
      · exact ih hl hrest h
      split at h
      · exact ih hl hrest h
      · rename_i hne
        exact vllpChannelTx_transmits (hpull _ fun hnil => hne hnil) h
    · rename_i happ
      have hstill := popTxq_still v a
      have hpop : (v.popTxq a).Marked m rest := by
        refine hrest.setChan ?_ ?_ ?_ ?_ <;> simp only [chan_addr]
        · exact fun hq htx => hq (by rw [htx, pbufSplice_nil])
        · exact id
      split at h
      · exact (ih (hstill.linked hl) hpop h).after hstill
      rename_i hne
      refine (vllpChannelTx_transmits ?_ h).after hstill
      rw [popTxq_id]
      refine hm.queued a (.head _) (by simpa using happ) fun htx => hne ?_
      rw [htx, pbufSplice_nil]

theorem vllpMaybeTx_transmits (hl : v.Linked)
    (hidle : v.currentTxBuf = [] → v.Marked m v.established ∧ ∀ id, i.pull id ≠ [] → m id)
    (h : vllpMaybeTx i v buf = .ok (v', buf')) : v.Transmits m v' := by
  unfold vllpMaybeTx at h
  split at h
  · rename_i hnil
    exact maybeTxLoop_transmits hl (hidle hnil).1 (hidle hnil).2 h
  · cases h
    exact (Dev.Still.refl v).transmits

/-- What the receive half of the device leaves to the transmit half. -/
structure Dev.KeepsTx (m : Nat → Prop) (v v' : Dev) : Prop where
  buf : v'.currentTxBuf = v.currentTxBuf
  len : v'.currentTxLen = v.currentTxLen
  channel : v'.currentTxChannel = v.currentTxChannel
  starts : starts v'.out = starts v.out
  cmcId : (v'.chan cmc).id = (v.chan cmc).id
  marked : v.Marked m v.established → v'.Marked m v'.established

theorem Dev.KeepsTx.refl (v : Dev) : v.KeepsTx m v := ⟨rfl, rfl, rfl, rfl, rfl, id⟩

/-- The objects and the channels to serve are the same. -/
theorem Dev.keepsTx_of (hbuf : v'.currentTxBuf = v.currentTxBuf)
    (hlen : v'.currentTxLen = v.currentTxLen) (hch : v'.currentTxChannel = v.currentTxChannel)
    (hout : Vllp.starts v'.out = Vllp.starts v.out) (hobjs : v'.objs = v.objs)
    (hest : v'.established = v.established) : v.KeepsTx m v' :=
  ⟨hbuf, hlen, hch, hout, by rw [Dev.chan, Dev.chan, hobjs], fun hm => hest ▸ hm.of_objs hobjs⟩

theorem Dev.KeepsTx.trans (h : v.KeepsTx m v') (h' : v'.KeepsTx m w) : v.KeepsTx m w :=
  ⟨h'.buf.trans h.buf, h'.len.trans h.len, h'.channel.trans h.channel, h'.starts.trans h.starts,
    h'.cmcId.trans h.cmcId, fun hm => h'.marked (h.marked hm)⟩

theorem refresh_keepsTx (i : In) (v : Dev) : v.KeepsTx m (vllpRefreshLocalFlowStatus i v).1 := by
  simp only [vllpRefreshLocalFlowStatus]
  split
  · exact .refl v
  · exact keepsTx_of rfl rfl rfl rfl rfl rfl

theorem vllpTxAck_keepsTx (alloc : Bool) (v : Dev) (buf : Bool) :
    v.KeepsTx m (vllpTxAck alloc v buf) := by
  unfold vllpTxAck
  split
  · exact keepsTx_of rfl rfl rfl (Mute.snoc _ rfl rfl).starts rfl rfl
  · exact .refl v

theorem taskTx_transmits (hl : v.Linked)
    (hidle : v.currentTxBuf = [] → v.Marked m v.established ∧ ∀ id, i.pull id ≠ [] → m id)
    (h : taskTx i v = .ok v') : v.Transmits m v' := by
  have hs := (refresh_flow i v).2
  have hk : v.KeepsTx m (vllpRefreshLocalFlowStatus i v).1 := refresh_keepsTx i v
  unfold taskTx at h
  generalize vllpRefreshLocalFlowStatus i v = r at hs hk h
  obtain ⟨u, changed⟩ := r
  obtain ⟨⟨w, buf⟩, hmt, rfl⟩ := except_map_ok h
  have hack : v.Still (if changed then vllpTxAck i.allocAck u false else u) ∧
      v.KeepsTx m (if changed then vllpTxAck i.allocAck u false else u) := by
    split
    · exact ⟨hs.trans (vllpTxAck_still _ _ _), hk.trans (vllpTxAck_keepsTx _ _ _)⟩
    · exact ⟨hs, hk⟩
  refine (vllpMaybeTx_transmits (hack.1.linked hl) ?_ hmt).after hack.1
  rw [hack.2.buf]
  exact fun hb => ⟨hack.2.marked (hidle hb).1, (hidle hb).2⟩

/-! ## Acknowledgements -/

/-- The outstanding message goes on behind the outstanding fragment. -/
def Dev.hasMore (v : Dev) : Bool :=
  match pbufDrop v.currentTxBuf v.currentTxLen true with
  | .ok (_ :: _) => true
  | _ => false

/-- The state of `vllp_ack_payload` behind its drop. -/
def Dev.dropped (v : Dev) (rest : Chain) : Dev :=
  { (match v.currentFrag with
      | some f => v.log (.discard f)
      | none => v) with currentTxBuf := rest }

theorem dropped_keeps (v : Dev) (rest : Chain) : v.Still (v.dropped rest) ∧
    (v.dropped rest).objs = v.objs ∧ (v.dropped rest).established = v.established ∧
      (v.dropped rest).currentTxChannel = v.currentTxChannel := by
  unfold Dev.dropped
  cases v.currentFrag with
  | none => exact ⟨still_of rfl rfl (.refl _), rfl, rfl, rfl⟩
  | some f => exact ⟨still_of rfl rfl (.snoc _ rfl rfl), rfl, rfl, rfl⟩

theorem vllpAckPayload_eq (i : In) (v : Dev) (buf : Bool) : vllpAckPayload i v buf =
    (pbufDrop v.currentTxBuf v.currentTxLen true).bind fun rest =>
      if rest = [] then .ok (v.dropped rest, buf) else vllpFragment i (v.dropped rest) buf := by
  unfold vllpAckPayload
  cases pbufDrop v.currentTxBuf v.currentTxLen true with
  | error h => rfl
  | ok rest => cases rest <;> rfl

/-- `vllp_ack_payload` starts the next fragment of a message that goes on, and nothing
otherwise. -/
theorem vllpAckPayload_transmits (h : vllpAckPayload i v buf = .ok (v', buf')) :
    v.hasMore = true ∧ v.Transmits (· = v.currentTxChannel) v' ∧ v'.currentTxBuf ≠ [] ∨
      v.hasMore = false ∧ v' = v.dropped [] := by
  rw [vllpAckPayload_eq] at h
  cases hdrop : pbufDrop v.currentTxBuf v.currentTxLen true with
  | error e => simp [hdrop, Except.bind] at h
  | ok rest =>
    simp only [hdrop, Except.bind] at h
    obtain ⟨hs, -, -, hch⟩ := dropped_keeps v rest
    cases rest with
    | nil =>
      rw [if_pos rfl] at h
      cases h
      exact .inr ⟨by simp [Dev.hasMore, hdrop], rfl⟩
    | cons p q =>
      rw [if_neg (by simp)] at h
      obtain ⟨htx, hne⟩ := vllpFragment_transmits h
      rw [hch] at htx
      exact .inl ⟨by simp [Dev.hasMore, hdrop], htx.after hs, hne (by simp [Dev.dropped])⟩

/-- The acknowledgement half of a frame. -/
theorem rxAck_transmits {accepted : Bool} (hl : v.Linked)
    (hrest : accepted = true → v.hasMore = true → m v.currentTxChannel)
    (hidle : v.currentTxBuf = [] ∨ accepted = true ∧ v.hasMore = false →
      v.Marked m v.established ∧ ∀ id, i.pull id ≠ [] → m id)
    (h : rxAck i v accepted = .ok v') : v.Transmits m v' := by
  unfold rxAck at h
  cases hbuf : v.currentTxBuf with
  | nil =>
    simp only [hbuf] at h
    split at h
    · cases h
    · rename_i hmt
      cases h
      exact vllpMaybeTx_transmits hl (fun _ => hidle (.inl hbuf)) hmt
  | cons p q =>
    simp only [hbuf] at h
    cases accepted with
    | false =>
      simp only [Bool.false_eq_true, if_false, vllpMaybeTx, hbuf] at h
      cases h
      exact (Dev.Still.refl v).transmits
    | true =>
      simp only [if_true] at h
      split at h
      · cases h
      rename_i u buf hack
      split at h
      · cases h
      rename_i hmt
      cases h
      rcases vllpAckPayload_transmits hack with ⟨hmore, htx, hne⟩ | ⟨hmore, rfl⟩
      -- the next fragment is outstanding, so the scheduler does nothing
      · have hmaybe : u.Transmits (fun _ => False) v' :=
          vllpMaybeTx_transmits (htx.linked hl) (fun hnil => absurd hnil hne) hmt
        have hsame : starts v'.out = starts u.out := by
          rcases hmaybe.one with hs | ⟨_, hf, -⟩
          · exact hs
          · exact hf.elim
        exact ⟨htx.toKeepsRx.trans hmaybe.toKeepsRx,
          (htx.one.mono fun c hc => hc ▸ hrest rfl hmore).before hsame⟩
      · obtain ⟨hmark, hpull⟩ := hidle (.inr ⟨rfl, hmore⟩)
        obtain ⟨hs, hobjs, hest, -⟩ := dropped_keeps v []
        refine (vllpMaybeTx_transmits (hs.linked hl) (fun _ => ⟨?_, hpull⟩) hmt).after hs
        rw [hest]
        exact hmark.of_objs hobjs

/-- Whatever the channels are marked with. -/
theorem rxAck_keepsRx {peerAccepted : Bool} (hl : v.Linked)
    (h : rxAck i v peerAccepted = .ok v') : v.KeepsRx v' :=
  (rxAck_transmits hl (fun _ _ => trivial)
    (fun _ => ⟨marked_all _ _, fun _ _ => trivial⟩) h).toKeepsRx

end Mios.Vllp
