import Mathlib.Data.List.Perm.Subperm
import Mios.Vllp.Safety

/-! The table of linked channels of a device: what an event can do to it, that no id is in it
twice, and which packet an event pushes. -/

namespace Mios.Vllp

open Lib Crc32 Pbuf Dev List Channel

variable {i : In} {v v' w : Dev} {a : Nat}

/-! ## The table -/

/-- Linked channels are live, open and have different ids. -/
structure Dev.Table (v : Dev) : Prop where
  linked : v.Linked
  live : ∀ a ∈ v.channels, Heap.Live addr v.objs a
  ids : (v.channels.map fun a => (v.chan a).id).Nodup

/-- Channels may leave the table; the others stay as they are. -/
structure Dev.Shrinks (v v' : Dev) : Prop where
  channels : v'.channels.Sublist v.channels
  id : ∀ a ∈ v'.channels, (v'.chan a).id = (v.chan a).id
  netClosed : ∀ a ∈ v'.channels, (v'.chan a).netClosed = (v.chan a).netClosed
  live : ∀ a ∈ v'.channels, Heap.Live addr v.objs a → Heap.Live addr v'.objs a

theorem Dev.Shrinks.refl (v : Dev) : v.Shrinks v :=
  ⟨.refl _, fun _ _ => rfl, fun _ _ => rfl, fun _ _ h => h⟩

theorem Dev.Shrinks.trans (h : v.Shrinks v') (h' : v'.Shrinks w) : v.Shrinks w :=
  ⟨h'.channels.trans h.channels,
    fun a ha => (h'.id a ha).trans (h.id a (h'.channels.subset ha)),
    fun a ha => (h'.netClosed a ha).trans (h.netClosed a (h'.channels.subset ha)),
    fun a ha hl => h'.live a ha (h.live a (h'.channels.subset ha) hl)⟩

/-- Nothing of the table changed. -/
theorem Dev.shrinks_of (hobjs : v'.objs = v.objs) (hch : v'.channels = v.channels) : v.Shrinks v' :=
  ⟨hch ▸ .refl _, fun a _ => by simp [Dev.chan, hobjs], fun a _ => by simp [Dev.chan, hobjs],
    fun a _ hl => hobjs ▸ hl⟩

theorem Dev.KeepsRx.shrinks (h : v.KeepsRx v') : v.Shrinks v' := by
  have hrx : ∀ a ∈ v'.channels, (v'.chan a).rx = (v.chan a).rx := fun a ha =>
    h.rx a (h.channels ▸ ha)
  refine ⟨h.channels ▸ .refl _, fun a ha => congrArg (·.1) (hrx a ha),
    fun a ha => congrArg (·.2.2.2) (hrx a ha), fun a ha => h.live a (h.channels ▸ ha)⟩

theorem Dev.shrinks_setChan (v : Dev) (c : Channel) (hid : c.id = (v.chan c.addr).id)
    (hclosed : c.netClosed = (v.chan c.addr).netClosed) : v.Shrinks (v.setChan c) := by
  refine ⟨.refl _, fun a _ => ?_, fun a _ => ?_, fun a _ hl => hl.put c⟩
  · rcases chan_setChan v c a with h | ⟨rfl, h⟩
    · rw [h]
    · rw [h, hid]
  · rcases chan_setChan v c a with h | ⟨rfl, h⟩
    · rw [h]
    · rw [h, hclosed]

theorem Dev.Table.shrinks (ht : v.Table) (h : v.Shrinks v') : v'.Table := by
  have hids : (v'.channels.map fun a => (v'.chan a).id) = v'.channels.map fun a => (v.chan a).id :=
    map_congr_left h.id
  refine ⟨fun a ha => ?_, fun a ha => ?_, ?_⟩
  · rw [h.netClosed a ha]
    exact ht.linked a (h.channels.subset ha)
  · exact h.live a ha (ht.live a (h.channels.subset ha))
  · rw [hids]
    exact ht.ids.sublist (h.channels.map _)

/-! ## Channels leave -/

theorem chan_setChan_ne {c : Channel} (h : a ≠ c.addr) : (v.setChan c).chan a = v.chan a := by
  rcases chan_setChan v c a with heq | ⟨rfl, -⟩
  · exact heq
  · exact absurd rfl h

theorem chan_destroy_ne {b : Nat} (h : a ≠ b) : (vllpChannelDestroy v b).chan a = v.chan a := by
  unfold vllpChannelDestroy Dev.chan
  rw [Heap.get_free_ne v.objs h]

theorem maybeDestroy_shrinks (h : a ∉ v.channels) : v.Shrinks (vllpChannelMaybeDestroy v a) := by
  unfold vllpChannelMaybeDestroy
  split
  · have hne : ∀ b ∈ v.channels, b ≠ a := fun b hb hba => h (hba ▸ hb)
    exact ⟨.refl _, fun b hb => by rw [chan_destroy_ne (hne b hb)],
      fun b hb => by rw [chan_destroy_ne (hne b hb)], fun b hb hl => hl.free (hne b hb)⟩
  · exact .refl v

theorem netClose_shrinks (v : Dev) (a : Nat) : v.Shrinks (vllpChannelNetClose v a) := by
  simp only [vllpChannelNetClose]
  split
  · exact .refl v
  have hne : ∀ b ∈ v.channels.filter (· != a), b ≠ a := fun b hb => by
    simpa using (mem_filter.mp hb).2
  have hsame : ∀ b ∈ v.channels.filter (· != a), ((v.log (.close (v.chan a).id)).setChan
      { v.chan a with netClosed := true }).chan b = v.chan b := by
    intro b hb
    refine chan_setChan_ne ?_
    rw [show ({ v.chan a with netClosed := true } : Channel).addr = a from chan_addr v a]
    exact hne b hb
  have hunlink : v.Shrinks { (v.log (.close (v.chan a).id)).setChan
      { v.chan a with netClosed := true } with channels := v.channels.filter (· != a) } :=
    ⟨filter_sublist, fun b hb => congrArg Channel.id (hsame b hb),
      fun b hb => congrArg Channel.netClosed (hsame b hb), fun b _ hl => hl.put _⟩
  exact hunlink.trans (maybeDestroy_shrinks (by simp))

theorem closeAll_shrinks (v : Dev) (l : List Nat) : v.Shrinks (closeAll v l) := by
  induction l generalizing v with
  | nil => exact .refl v
  | cons a rest ih =>
    rw [closeAll]
    split
    · exact ih v
    · exact (netClose_shrinks v a).trans (ih _)

theorem disconnect_shrinks (v : Dev) : v.Shrinks (vllpDisconnect v) := by
  unfold vllpDisconnect
  split
  · exact .refl v
  · exact (closeAll_shrinks v v.channels).trans (shrinks_of rfl rfl)

theorem refresh_shrinks (i : In) (v : Dev) : v.Shrinks (vllpRefreshLocalFlowStatus i v).1 :=
  (refresh_flow i v).2.shrinks

theorem acceptSyn_keeps (v : Dev) (frame : List Byte) :
    v.Shrinks (vllpAcceptSyn v frame) ∧ Mute v.out (vllpAcceptSyn v frame).out := by
  have hreset : ∀ (w u : Dev) (iv : BitVec 32), w.Shrinks u →
      w.Shrinks (u.setChan { u.chan cmc with txCrcIV := iv, rxCrcIV := ~~~iv }) := by
    intro w u iv hu
    refine hu.trans (u.shrinks_setChan _ ?_ ?_) <;> simp only [chan_addr]
  have hclosed : v.Shrinks (if v.connected then vllpDisconnect v else v) ∧
      Mute v.out (if v.connected then vllpDisconnect v else v).out := by
    split
    · exact ⟨disconnect_shrinks v, disconnect_mute v⟩
    · exact ⟨.refl v, .refl _⟩
  simp only [vllpAcceptSyn]
  split
  · exact ⟨.refl v, .refl _⟩
  split
  · exact ⟨.refl v, .refl _⟩
  split
  · exact ⟨.refl v, .refl _⟩
  · refine ⟨hclosed.1.trans (.trans ?_ (vllpTxAck_still _ _ _).shrinks),
      .trans ?_ (vllpTxAck_still false _ true).mute⟩
    · exact hreset _ _ _ (shrinks_of rfl rfl)
    · exact hclosed.2

/-! ## A channel is opened -/

/-- A channel with a new id at a new address joins the table. -/
structure Dev.Grows (v v' : Dev) : Prop where
  channels : ∃ a id, v'.channels = a :: v.channels ∧ vllpChannelFind v id = none ∧
    (v'.chan a).id = id ∧ (v'.chan a).netClosed = false ∧ Heap.Live addr v'.objs a
  chan : ∀ b ∈ v.channels, v'.chan b = v.chan b
  live : ∀ b ∈ v.channels, Heap.Live addr v.objs b → Heap.Live addr v'.objs b

theorem Dev.Table.grows (ht : v.Table) (h : v.Grows v') : v'.Table := by
  obtain ⟨a, id, hch, hnew, hid, hopen, hlive⟩ := h.channels
  have hids : (v.channels.map fun b => (v'.chan b).id) = v.channels.map fun b => (v.chan b).id :=
    map_congr_left fun b hb => by rw [h.chan b hb]
  refine ⟨fun b hb => ?_, fun b hb => ?_, ?_⟩
  · rw [hch] at hb
    rcases mem_cons.mp hb with rfl | hb
    · exact hopen
    · rw [h.chan b hb]
      exact ht.linked b hb
  · rw [hch] at hb
    rcases mem_cons.mp hb with rfl | hb
    · exact hlive
    · exact h.live b hb (ht.live b hb)
  · rw [hch, map_cons, hids, nodup_cons]
    refine ⟨fun hmem => ?_, ht.ids⟩
    obtain ⟨b, hb, hbid⟩ := mem_map.mp hmem
    have hno := List.find?_eq_none.mp hnew b hb
    exact hno (by simpa using hbid.trans hid)

/-- The channel that `vllp_channel_make` allocates. -/
def newChannel (v : Dev) (id : Nat) (iv : BitVec 32) : Channel :=
  ⟨Heap.fresh addr v.objs, id, true, [], [], iv, ~~~iv, 0, false⟩

theorem addChannel_chan (v : Dev) (target : Nat) (iv : BitVec 32) :
    (addChannel v target iv).chan (Heap.fresh addr v.objs) = newChannel v target iv ∧
      Heap.Live addr (addChannel v target iv).objs (Heap.fresh addr v.objs) ∧
      ∀ b, b ≠ Heap.fresh addr v.objs → (addChannel v target iv).chan b = v.chan b := by
  let m : Dev := (vllpChannelMake v target).1
  have hlive : Heap.Live addr m.objs (Heap.fresh addr v.objs) :=
    ⟨_, mem_cons_self, rfl⟩
  have hmade : m.chan (Heap.fresh addr v.objs) =
      ⟨Heap.fresh addr v.objs, target, true, [], [], 0, 0, 0, false⟩ := by
    simp [m, Dev.chan, vllpChannelMake, Heap.get]
  have hset : (addChannel v target iv).objs = (m.setChan (newChannel v target iv)).objs := by
    show (m.setChan { m.chan (Heap.fresh addr v.objs) with
      txCrcIV := iv, rxCrcIV := ~~~iv }).objs = _
    rw [hmade]
    rfl
  have hchan : ∀ b, (addChannel v target iv).chan b =
      (m.setChan (newChannel v target iv)).chan b := fun b => by
    rw [Dev.chan, Dev.chan, hset]
  refine ⟨?_, ?_, fun b hb => ?_⟩
  · rw [hchan]
    exact chan_setChan_self rfl hlive
  · rw [hset]
    exact hlive.put _
  · rw [hchan, chan_setChan_ne hb]
    have hne : Heap.fresh addr v.objs ≠ b := fun h => hb h.symm
    simp [m, Dev.chan, vllpChannelMake, Heap.get, hne]

theorem addChannel_grows (ht : v.Table) {target : Nat} (iv : BitVec 32)
    (hnew : vllpChannelFind v target = none) : v.Grows (addChannel v target iv) := by
  obtain ⟨hself, hlive, hother⟩ := addChannel_chan v target iv
  have hne : ∀ b ∈ v.channels, b ≠ Heap.fresh addr v.objs := by
    rintro b hb rfl
    obtain ⟨c, hc, haddr⟩ := ht.live _ hb
    exact absurd haddr (Nat.ne_of_lt (Heap.lt_fresh hc))
  refine ⟨⟨_, target, rfl, hnew, ?_, ?_, hlive⟩, fun b hb => hother b (hne b hb), fun b _ hl => ?_⟩
  · rw [hself]
    rfl
  · rw [hself]
    rfl
  · obtain ⟨c, hc, rfl⟩ := hl
    have hmade : Heap.Live addr (vllpChannelMake v target).1.objs c.addr :=
      ⟨c, .tail _ hc, rfl⟩
    exact hmade.put _

/-! ## Events -/

/-- A store into the receive half of a linked channel. -/
theorem Dev.shrinks_setRx (v : Dev) (a : Nat) (q : Chain) (iv : BitVec 32) :
    v.Shrinks (v.setChan { v.chan a with rxq := q, rxCrcIV := iv }) := by
  refine v.shrinks_setChan _ ?_ ?_ <;> simp only [chan_addr]

theorem Dev.Manages.table {asked : Prop} (h : v.Manages asked v') (ht : v.Table) : v'.Table := by
  induction h with
  | refl v => exact ht
  | trans _ _ ih ih' => exact ih' (ih ht)
  | count v => exact ht.shrinks (shrinks_of rfl rfl)
  | store v a iv _ => exact ht.shrinks (v.shrinks_setRx a _ iv)
  | close v _ => exact ht.shrinks (netClose_shrinks v _)
  | add _ iv _ hnew => exact ht.grows (addChannel_grows ht iv hnew)
  | answer _ v opcode target err =>
    exact ht.shrinks (sendCmcMessage_still v opcode target err).shrinks

theorem Dev.Manages.mute {asked : Prop} (h : v.Manages asked v') : Mute v.out v'.out := by
  induction h with
  | trans _ _ ih ih' => exact ih.trans ih'
  | close v _ => exact netClose_mute v _
  | _ => exact .refl _

variable {hdr : Byte} {data : List Byte}

theorem Dev.Receives.table {id : Nat} (h : v.Receives id v') (ht : v.Table) : v'.Table := by
  cases h with
  | manages hm => exact hm.table ht
  | pushes pb hm _ _ _ => exact (hm.table ht).shrinks (shrinks_of rfl rfl)

/-- What a frame does to the table, and what it pushes: what `vllp_channel_receive` pushes, if it
comes to it. -/
structure RxFrame (i : In) (u : Dev) (hdr : Byte) (data : List Byte) (v' : Dev) : Prop where
  table : v'.Table
  receives : u.takesData hdr = true → ∃ w err, vllpChannelReceive i u hdr data = .ok (w, err) ∧
    pushes v'.out = pushes w.out
  others : u.takesData hdr = false → pushes v'.out = pushes u.out

theorem rxData_frame {more : Bool} (ht : v.Table) (h : rxData i v hdr data = .ok (v', more)) :
    v'.Table ∧ ∃ w err, vllpChannelReceive i v hdr data = .ok (w, err) ∧
      pushes v'.out = pushes w.out := by
  obtain ⟨w, err, hr, hcase⟩ := rxData_cases h
  have hw := (receive_receives hr).table ht
  rcases hcase with ⟨-, rfl | rfl⟩ | ⟨-, rfl⟩
  · have hout : Mute w.out (w.accepts hdr data).out := .snoc _ rfl rfl
    exact ⟨hw.shrinks (shrinks_of rfl rfl), w, err, hr, hout.pushes⟩
  · exact ⟨hw, _, err, hr, rfl⟩
  · exact ⟨hw.shrinks (disconnect_shrinks w), w, err, hr, (disconnect_mute w).pushes⟩

theorem rxFrame_frame (ht : v.Table)
    (h : rxFrame i v (hdr :: data) = .ok v') : RxFrame i v hdr data v' := by
  -- the branches that do not come to the data
  have hskip : v'.Table → pushes v'.out = pushes v.out → v.takesData hdr = false →
      RxFrame i v hdr data v' :=
    fun htab hp hno => ⟨htab, fun hyes => absurd (hno.symm.trans hyes) (by decide), fun _ => hp⟩
  have hno (hyes : v.takesData hdr = true) : v.takesData hdr ≠ false := by
    rw [hyes]
    decide
  have hack : ∀ u : Dev, u.Table → ∀ b, rxAck i u b = .ok v' →
      v'.Table ∧ pushes v'.out = pushes u.out := fun u hu b hr =>
    have hk := rxAck_keepsRx hu.linked hr
    ⟨hu.shrinks hk.shrinks, hk.pushes⟩
  cases frameCase_of_rxFrame h with
  | syn hsyn heq =>
    subst heq
    obtain ⟨hs, hm⟩ := acceptSyn_keeps v (hdr :: data)
    refine hskip (ht.shrinks hs) hm.pushes ?_
    rw [hsyn, Dev.takesData]
    simp [show hdrChannel synByte = 15 from by decide]
  | refused _ hno heq =>
    subst heq
    exact hskip ht rfl hno
  | ended _ htake hr =>
    obtain ⟨htab, hw⟩ := rxData_frame ht hr
    exact ⟨htab, fun _ => hw, fun h => absurd h (hno htake)⟩
  | taken _ htake hr hrest =>
    obtain ⟨hu, w, err, hrecv, hp⟩ := rxData_frame ht hr
    obtain ⟨htab, hp'⟩ := hack _ hu _ hrest
    exact ⟨htab, fun _ => ⟨w, err, hrecv, hp'.trans hp⟩, fun h => absurd h (hno htake)⟩
  | acked _ hno hrest =>
    obtain ⟨htab, hp⟩ := hack v ht _ hrest
    exact hskip htab hp hno

/-- The packets that an event pushes. -/
def Dev.pushed (v : Dev) : DevEvent → List (Nat × Chain)
  | .rx i frame =>
    let v := (vllpRefreshLocalFlowStatus i { v with out := [] }).1
    match stripPad frame with
    | some (hdr :: data) =>
      if v.takesData hdr then
        match vllpChannelReceive i v hdr data with
        | .error _ => []
        | .ok (w, _) => pushes w.out
      else []
    | _ => []
  | _ => []

theorem vllpRx_table {frame : List Byte} (ht : v.Table) (hout : v.out = [])
    (h : vllpRx i v frame = .ok v') : v'.Table ∧ pushes v'.out = v.pushed (.rx i frame) := by
  have hv : { v with out := [] } = v := by
    cases v
    cases hout
    rfl
  have hu := ht.shrinks (refresh_shrinks i v)
  have hnone : pushes (vllpRefreshLocalFlowStatus i v).1.out = [] := by
    rw [(refresh_flow i v).2.pushes, hout]
    rfl
  simp only [vllpRx] at h
  simp only [Dev.pushed, hv]
  cases hf : stripPad frame with
  | none =>
    rw [hf] at h
    cases h
    exact ⟨hu.shrinks (disconnect_shrinks _), (disconnect_mute _).pushes.trans hnone⟩
  | some f =>
    rw [hf] at h
    cases f with
    | nil =>
      cases h
      exact ⟨hu, hnone⟩
    | cons hdr data =>
      have hframe := rxFrame_frame hu h
      refine ⟨hframe.table, ?_⟩
      cases htake : (vllpRefreshLocalFlowStatus i v).1.takesData hdr with
      | false => simpa [htake] using (hframe.others htake).trans hnone
      | true =>
        obtain ⟨w, err, hr, hp⟩ := hframe.receives htake
        simp only [htake, hr, hp, if_true]

theorem taskTx_table (ht : v.Table) (h : taskTx i v = .ok v') :
    v'.Table ∧ pushes v'.out = pushes v.out := by
  have hk := (taskTx_transmits ht.linked
    (fun _ => ⟨marked_all _ _, fun _ _ => trivial⟩) h).toKeepsRx
  exact ⟨ht.shrinks hk.shrinks, hk.pushes⟩

theorem step_table {e : DevEvent} (ht : v.Table) (h : v.step e = .ok v') :
    v'.Table ∧ pushes v'.out = v.pushed e := by
  have hv : ({ v with out := [] } : Dev).Table := ht.shrinks (shrinks_of rfl rfl)
  cases e with
  | rx i frame => exact vllpRx_table (v := { v with out := [] }) hv rfl h
  | ackTimer i =>
    cases h
    have hk := (refresh_flow i { v with out := [] }).2.trans (vllpTxAck_still i.allocAck _ false)
    exact ⟨hv.shrinks hk.shrinks, hk.pushes⟩
  | rtxTimer i =>
    obtain ⟨⟨w, buf⟩, htx, rfl⟩ := except_map_ok h
    have hk := (refresh_flow i { v with out := [] }).2.trans (vllpTx_still htx).1
    exact ⟨hv.shrinks hk.shrinks, hk.pushes⟩
  | timeout =>
    cases h
    exact ⟨hv.shrinks (disconnect_shrinks _), (disconnect_mute _).pushes⟩
  | task i a close =>
    simp only [Dev.step, Dev.stepOf] at h
    split at h
    · unfold vllpChannelTaskCb at h
      split at h
      · split at h
        · cases h
          exact ⟨hv, rfl⟩
        have hk := Dev.still_setChan { v with out := [] }
          { ({ v with out := [] } : Dev).chan a with appClosed := 1 } (by
            rw [show ({ ({ v with out := [] } : Dev).chan a with appClosed := 1 } : Channel).addr =
              a from chan_addr _ a]
            rfl)
        obtain ⟨htab, hp⟩ := taskTx_table (hv.shrinks hk.shrinks) h
        exact ⟨htab, hp.trans hk.pushes⟩
      · exact taskTx_table hv h
    · cases h
      exact ⟨hv, rfl⟩

theorem vllpServerCreate_table (mtu : Nat) : (vllpServerCreate mtu).Table := by
  refine ⟨fun a ha => ?_, fun a ha => ?_, pairwise_singleton _ _⟩
  · rw [mem_singleton.mp ha]
    rfl
  · rw [mem_singleton.mp ha]
    exact ⟨_, mem_singleton.mpr rfl, rfl⟩

/-- Whatever frames come in, and whatever the surroundings answer as long as the services keep
their promise: the state is well-formed, the linked channels are live and have different numbers,
and there are at most sixteen of them. -/
theorem device_bounded (mtu : Nat) (hmtu : 8 ≤ mtu ∧ mtu ≤ 64) (es : List (EventOf Answers))
    (v : Dev) (hrun : Run (Guarded (fun _ e => e.Offers) fun u e u' => u.stepOf id e = .ok u')
      (vllpServerCreate mtu) es v) :
    v.Wf ∧ v.Table ∧ v.channels.length ≤ 16 := by
  have h : v.Wf ∧ v.Table := by
    refine hrun.invariant (I := fun v => v.Wf ∧ v.Table)
      ⟨vllpServerCreate_wf mtu hmtu, vllpServerCreate_table mtu⟩ fun u e u' hu hs => ?_
    obtain ⟨e', heq⟩ := hs.1.event
    have hstep := (heq u).1.trans hs.2
    exact ⟨step_wf hu.1 hstep, (step_table hu.2 hstep).1⟩
  refine ⟨h.1, h.2, ?_⟩
  have hids : (v.channels.map fun a => (v.chan a).id) ⊆ range 16 := by
    intro id hid
    obtain ⟨a, -, rfl⟩ := mem_map.mp hid
    exact mem_range.mpr (h.1.chan a).id
  simpa using (subperm_of_subset h.2.ids hids).length_le

/-- The peer opens a channel. -/
theorem device_bounded_opened : ∃ v, Run (Guarded (fun _ e => e.Offers)
      fun u e u' => u.stepOf id e = .ok u') (vllpServerCreate 8) ([synOf 5, openMsg 5].map (·.raw)) v ∧
    v.channels.length = 2 ∧ v.Wf ∧ v.Table := by
  obtain ⟨v, hrun, hopen⟩ := exists_run (P := fun v : Dev => v.channels.length = 2)
    (show ∃ v ∈ exec (fun u e => (Dev.stepOf id u e).toOption) (vllpServerCreate 8)
      ([synOf 5, openMsg 5].map (·.raw)), _ from by decide +kernel)
  have hrun : Run (Guarded (fun _ e => e.Offers) fun u e u' => u.stepOf id e = .ok u')
      (vllpServerCreate 8) ([synOf 5, openMsg 5].map (·.raw)) v := by
    refine hrun.mono_mem fun u e u' he hs => ?_
    obtain ⟨e', -, rfl⟩ := mem_map.mp he
    exact ⟨e'.raw_offers, ok_of_toOption hs⟩
  have hbounded := device_bounded 8 (by decide) _ v hrun
  exact ⟨v, hrun, hopen, hbounded.1, hbounded.2.1⟩

end Mios.Vllp
