import Mios.Tcp.Moves

/-! The task, the timers, writes and the data of a segment as sequences of moves. -/

namespace Mios.Tcp

open Lib

variable {L : List Irregular} {e : Event} {t t' : Tcb} {g : Seg} {out : List Sent}

/-- The pointers of the sender are in order. -/
structure SndInv (t : Tcb) : Prop where
  nxt_le : (t.snd.nxt - t.snd.una).toNat ≤ (t.snd.wrptr - t.snd.una).toNat
  wrptr_le : (t.snd.wrptr - t.snd.una).toNat ≤ t.txfifoSize.val + 1

/-- The pointers are in order, and all that is in flight is in one half of the sequence space. -/
def Tame (t : Tcb) : Prop := SndInv t ∧ t.txfifoSize.val ≤ 1073741824

/-! ## Task and timers -/

variable {force : Bool} {o : InputSupply} {iov : List (List Byte)} {r : Tcb × List Sent}

/-- One round of the loop: it ends, it ends with an error, or it goes on. -/
theorem emitLoop_cons {b : Option Supply} {rest : List (Option Supply)}
    (h : emitLoop force t (b :: rest) = some r) : r = (t, []) ∨
    r = ((tcpEmit t b t.snd.nxt false).tcb, (tcpEmit t b t.snd.nxt false).out) ∨
    ∃ r', emitLoop force (tcpEmit t b t.snd.nxt false).tcb rest = some r' ∧
      r = (r'.1, (tcpEmit t b t.snd.nxt false).out ++ r'.2) := by
  rw [emitLoop] at h
  by_cases hstop : emitStops force t = true
  · rw [if_pos hstop] at h
    exact .inl (Option.some.inj h).symm
  rw [if_neg hstop] at h
  by_cases herr : (tcpEmit t b t.snd.nxt false).err = true
  · have h' := (if_pos herr).symm.trans h
    exact .inr (.inl (Option.some.inj h').symm)
  · have h' := (if_neg herr).symm.trans h
    obtain ⟨r', hr', rfl⟩ := Option.map_eq_some_iff.mp h'
    exact .inr (.inr ⟨r', hr', rfl⟩)

theorem emitLoop_nil (h : emitLoop force t [] = some r) : r = (t, []) := by
  obtain ⟨-, h⟩ := Option.ite_none_right_eq_some.mp h
  exact (Option.some.inj h).symm

theorem emitLoop_emits {bs : List (Option Supply)} (h : emitLoop force t bs = some r) :
    Emits t r.1 := by
  induction bs generalizing t r with
  | nil =>
    rw [emitLoop_nil h]
    exact .refl t
  | cons b rest ih =>
    have hemit := tcpEmit_emits t b t.snd.nxt false
    rcases emitLoop_cons h with rfl | rfl | ⟨r', hr', rfl⟩
    · exact .refl t
    · exact hemit
    · have hrest := ih hr'
      exact hemit.trans hrest

theorem emitLoop_moves {bs : List (Option Supply)}
    (hconn : t.signals.connect = false) (h : emitLoop force t bs = some r) : Moves L e t r.2 r.1 := by
  induction bs generalizing t r with
  | nil =>
    rw [emitLoop_nil h]
    exact .refl t
  | cons b rest ih =>
    have hemit : Moves L e t (tcpEmit t b t.snd.nxt false).out (tcpEmit t b t.snd.nxt false).tcb :=
      tcpEmit_nxt_moves b false hconn rfl
    rcases emitLoop_cons h with rfl | rfl | ⟨r', hr', rfl⟩
    · exact .refl t
    · exact hemit
    · refine hemit.trans (ih ?_ hr')
      rw [(tcpEmit_onlyNxt t b t.snd.nxt false).signals]
      exact hconn

/-- `tcp_send_syn` before the segment is built. -/
def synQueued (t : Tcb) (flags : BitVec 8) : Tcb :=
  { t with
    rtxTimer := t.rtxTimer || t.snd.una == t.snd.nxt
    pendingSyn := flags
    snd := { t.snd with nxt := t.snd.nxt + 1 } }

theorem taskConnect_of_not (o : TaskSupply) (h : t.signals.connect = false) :
    taskConnect { t with signals := noSignals } t.signals o =
      ⟨{ t with signals := noSignals }, [], false⟩ := by
  rw [taskConnect, h]
  rfl

/-- `arm_rtx`, if nothing is in flight. -/
theorem arm_move {x : Bool} : Move L e t [] { t with rtxTimer := t.rtxTimer || x } :=
  .other (.arm fun h => by rw [h, Bool.true_or])

theorem taskConnect_moves (o : TaskSupply) :
    Moves L e t (taskConnect { t with signals := noSignals } t.signals o).out
      (taskConnect { t with signals := noSignals } t.signals o).tcb := by
  cases hc : t.signals.connect with
  | false =>
    rw [taskConnect_of_not o hc]
    exact .quiet ⟨rfl, rfl, rfl, rfl, rfl, rfl, rfl, rfl, rfl, rfl, rfl, rfl, hc.symm, rfl⟩
  | true =>
    have heq : taskConnect { t with signals := noSignals } t.signals o =
        tcpDoConnect { t with signals := noSignals } o.syn := by
      rw [taskConnect, hc]
      rfl
    have hemit : Moves L e (synQueued { t with signals := noSignals } flagSyn) _ _ :=
      tcpEmit_nxt_moves o.syn false rfl rfl
    have hquiet : Same { t with
        rtxTimer := t.rtxTimer || t.snd.una == t.snd.nxt
        pendingSyn := flagSyn
        snd := { t.snd with nxt := t.snd.nxt + 1 }
        signals := { t.signals with connect := false } }
        (synQueued { t with signals := noSignals } flagSyn) := by
      constructor <;> rfl
    rw [heq]
    refine .cons (.connect hc) (.cons arm_move (.cons (.quiet hquiet) (hemit.snoc (.quiet ?_))))
    constructor <;> rfl

theorem taskConnect_state (signals : Signals) (o : TaskSupply) :
    (taskConnect t signals o).tcb.state = t.state := by
  unfold taskConnect
  split
  · exact (tcpEmit_onlyNxt (synQueued t flagSyn) o.syn _ false).state
  · rfl

theorem taskWndOpen_emits (signals : Signals) (o : TaskSupply) :
    Emits t (taskWndOpen t signals o).tcb := by
  unfold taskWndOpen
  split
  · exact tcpEmit_emits _ _ _ _
  · exact .refl t

theorem taskWndOpen_moves (signals : Signals) (o : TaskSupply) (hconn : t.signals.connect = false) :
    Moves L e t (taskWndOpen t signals o).out (taskWndOpen t signals o).tcb := by
  unfold taskWndOpen
  split
  · exact tcpEmit_nxt_moves _ _ hconn rfl
  · exact .refl t

theorem taskEmit_spec {signals : Signals} {o : TaskSupply}
    (hconn : t.signals.connect = false) (h : taskEmit t signals o = some r) :
    OnlyNxt t r.1 ∧ Moves L e t r.2 r.1 := by
  unfold taskEmit at h
  split at h
  · have hloop := (emitLoop_emits h).onlyNxt
    exact ⟨{ hloop with }, .cons arm_move (emitLoop_moves hconn h)⟩
  · cases h
    exact ⟨(Emits.refl t).onlyNxt, .refl t⟩

/-- `tcp_send_fin` in a new state. -/
theorem sendFin_moves (b : Option Supply) {s : State} (hconn : t.signals.connect = false)
    (h : Move L e t [] (finQueued t s)) :
    Moves L e t (tcpSendFin { t with state := s } (flagFin ||| flagAck) b).out
      (tcpSendFin { t with state := s } (flagFin ||| flagAck) b).tcb := by
  exact .cons h (.cons arm_move (tcpEmit_nxt_moves b false hconn rfl))

theorem taskClose_moves (signals : Signals) (o : TaskSupply) (he : ∃ o, e = .task o)
    (hconn : t.signals.connect = false)
    (hsyn : .closeInSynReceived ∈ L → signals.close = true → t.state ≠ .synReceived)
    (hwnd : .windowShort ∈ L → signals.close = true → ¬ clipped (finQueued t .finWait1)) :
    Moves L e t (taskClose t signals o).out (taskClose t signals o).tcb := by
  cases hc : signals.close with
  | false =>
    have heq : taskClose t signals o = ⟨t, [], false⟩ := by rw [taskClose, hc]; rfl
    rw [heq]
    exact .refl t
  | true =>
    have hquiet : Same t { t with appClosed := true } := by
      constructor <;> rfl
    have hqueue : ∀ s, ((t.state = .established ∨ t.state = .synReceived) ∧ s = .finWait1 ∨
        t.state = .closeWait ∧ s = .lastAck) →
        Move L e { t with appClosed := true } [] (finQueued { t with appClosed := true } s) := by
      intro s hs
      exact .queueFin he hs (fun hL => hsyn hL hc) fun hL => hwnd hL hc
    refine .cons (.quiet hquiet) ?_
    by_cases hopen : t.state = .established ∨ t.state = .synReceived
    · have heq : taskClose t signals o = tcpSendFin { t with appClosed := true, state := .finWait1 }
          (flagFin ||| flagAck) o.fin := by
        rcases hopen with hs | hs <;> simp [taskClose, hc, hs]
      rw [heq]
      exact sendFin_moves o.fin hconn (hqueue _ (.inl ⟨hopen, rfl⟩))
    by_cases hwait : t.state = .closeWait
    · have heq : taskClose t signals o = tcpSendFin { t with appClosed := true, state := .lastAck }
          (flagFin ||| flagAck) o.fin := by
        simp [taskClose, hc, hwait]
      rw [heq]
      exact sendFin_moves o.fin hconn (hqueue _ (.inr ⟨hwait, rfl⟩))
    · have heq : taskClose t signals o = ⟨{ t with appClosed := true }, [], false⟩ := by
        rw [taskClose, hc]
        cases hs : t.state <;> simp_all
      rw [heq]
      exact .refl _

theorem taskConnect_connect (signals : Signals) (o : TaskSupply) (h : t.signals.connect = false) :
    (taskConnect t signals o).tcb.signals.connect = false := by
  unfold taskConnect
  split
  · have hemit := (tcpEmit_onlyNxt (synQueued t flagSyn) o.syn (synQueued t flagSyn).snd.nxt
      false).signals
    exact (congrArg Signals.connect hemit).trans h
  · exact h

theorem tcpTaskCb_moves {o : TaskSupply} (hreg : Regular L t (.task o))
    (h : tcpTaskCb t o = some r) : Moves L (.task o) t r.2 r.1 := by
  obtain ⟨l, hl, rfl⟩ := Option.map_eq_some_iff.mp h
  have hconn := taskConnect_connect (t := { t with signals := noSignals }) t.signals o rfl
  have hwnd := (taskWndOpen_emits t.signals o
    (t := (taskConnect { t with signals := noSignals } t.signals o).tcb)).onlyNxt
  have hconn' := (congrArg Signals.connect hwnd.signals).trans hconn
  obtain ⟨honly, hmoves⟩ := taskEmit_spec hconn' hl
  have hstate : l.1.state = t.state :=
    honly.state.trans (hwnd.state.trans (taskConnect_state t.signals o))
  refine (((taskConnect_moves o).trans (taskWndOpen_moves t.signals o hconn)).trans hmoves).trans ?_
  refine taskClose_moves t.signals o ⟨o, rfl⟩ ?_ ?_ ?_
  · rw [honly.signals]
    exact hconn'
  · intro hL hc hs
    have hocc := hreg _ hL
    rw [hstate] at hs
    simp [occurs, occursTask, hc, hs] at hocc
  · intro hL hc hclip
    have hocc := hreg _ hL
    have hbefore : l.1 ∈ beforeClose t o := Option.map_eq_some_iff.mpr ⟨l, hl, rfl⟩
    simp only [occurs, occursTask, hc, true_and, decide_eq_false_iff_not] at hocc
    exact hocc ⟨l.1, hbefore, hclip⟩

/-- `tcp_emit` does not look at the timer. -/
theorem tcpEmit_armed (b : Option Supply) (seq : SeqNo) (genAck : Bool) :
    tcpEmit { t with rtxTimer := true } b seq genAck =
      { tcpEmit { t with rtxTimer := false } b seq genAck with
        tcb := { (tcpEmit { t with rtxTimer := false } b seq genAck).tcb with rtxTimer := true } } := by
  cases b with
  | none => rfl
  | some b =>
    unfold tcpEmit emitData output
    dsimp only
    repeat' split
    all_goals rfl

theorem tcpRtxCb_moves (timedOut : Bool) (b : Option Supply) (hconn : t.signals.connect = false)
    (hreg : Regular L t (.rtx timedOut b)) :
    Moves L (.rtx timedOut b) t (tcpRtxCb t timedOut b).2 (tcpRtxCb t timedOut b).1 := by
  cases timedOut with
  | true => exact .single (.other (.abort (.inr ⟨b, rfl⟩)))
  | false =>
    refine .cons (.other (.arm fun _ => rfl)) ?_
    by_cases huna : t.snd.una = t.snd.wrptr
    · have heq : tcpRtxCb t false b = ({ t with rtxTimer := true },
          if t.state = .established ∧ b.any (·.sent) then
            [tcpOutputTcb t (flagAck ||| flagPsh) (t.snd.una - 1) []] else []) := by
        simp only [tcpRtxCb, if_pos huna]
        rfl
      rw [heq]
      split
      · exact .single (.bare (bare_tcpOutputTcb _ _ (by decide) (by decide)))
      · exact .refl _
    · have heq : tcpRtxCb t false b = ((tcpEmit { t with rtxTimer := true } b t.snd.una false).tcb,
          (tcpEmit { t with rtxTimer := true } b t.snd.una false).out) := by
        simp only [tcpRtxCb, if_neg huna, tcpEmit_armed]
        rfl
      rw [heq]
      refine tcpEmit_moves b false hconn ?_ ?_
      · by_cases hnxt : t.snd.una = t.snd.nxt
        · exact .inl hnxt
        · exact .inr ⟨rfl, hnxt, false, b, rfl⟩
      · intro hL hsyn hnxt
        have hocc := hreg _ hL
        have hsyn : t.pendingSyn = 0 := hsyn
        simp only [occurs, hsyn, hnxt, true_and, ne_eq, not_false_eq_true,
          decide_eq_false_iff_not] at hocc
        exact Nat.not_lt.mp hocc

theorem tcpDelayedAckCb_moves (b : Option Supply) (hconn : t.signals.connect = false) :
    Moves L e t (tcpDelayedAckCb t b).2 (tcpDelayedAckCb t b).1 := by
  have hquiet : Same t { t with delayedAckTimer := false } := by
    constructor <;> rfl
  exact .cons (.quiet hquiet) (tcpEmit_nxt_moves b true hconn rfl)

/-! ## Writes -/

theorem txfifoAvail_toNat (h : (txfifoUsed t).toNat ≤ t.txfifoSize.val) :
    (txfifoAvail t).toNat = t.txfifoSize.val - (txfifoUsed t).toNat := by
  have hval : (BitVec.ofNat 32 t.txfifoSize.val).toNat = t.txfifoSize.val :=
    Nat.mod_eq_of_lt t.txfifoSize.small
  rw [txfifoAvail, BitVec.toNat_sub_of_le (by rw [BitVec.le_def, hval]; exact h), hval]

theorem txfifoUsed_written {src : List Byte} (hused : (txfifoUsed t).toNat ≤ t.txfifoSize.val)
    (havail : src.length ≤ (txfifoAvail t).toNat) :
    (txfifoUsed (written t src)).toNat = (txfifoUsed t).toNat + src.length ∧
      (txfifoUsed t).toNat + src.length ≤ t.txfifoSize.val := by
  have hsmall := t.txfifoSize.small
  have hsub := txfifoAvail_toNat hused
  have hsum : (txfifoUsed t).toNat + src.length ≤ t.txfifoSize.val := by omega
  have hadd : (t.snd.wrptr + BitVec.ofNat 32 src.length - t.snd.una).toNat =
      (t.snd.wrptr - t.snd.una).toNat + src.length := by
    refine Seq.dist_add_ofNat ?_
    rw [← txfifoUsed.eq_def]
    omega
  exact ⟨hadd, hsum⟩

/-- The states between two of the buffers `iov`. -/
structure Writing (L : List Irregular) (iov : List (List Byte)) (t : Tcb) : Prop where
  state : t.state ≠ .closed
  used : .overfull ∈ L → (txfifoUsed t).toNat ≤ t.txfifoSize.val
  fin : .writeAfterFin ∈ L → t.pendingFin = 0
  ring : .wholeRing ∈ L → .overfull ∈ L → t.snd.wrptr.toNat % t.txfifoSize.val = 0 ∨
    0 < (txfifoUsed t).toNat ∨ ∀ buf ∈ iov, buf.length < t.txfifoSize.val

theorem writeBuf_moves (he : ∃ iov all noWait, e = .write iov all noWait)
    (h : Writing L iov t) {buf : List Byte} (hbuf : buf ∈ iov) :
    Moves L e t [] (writeBuf t buf).1 ∧ Writing L iov (writeBuf t buf).1 := by
  simp only [writeBuf]
  split
  · exact ⟨.refl t, h⟩
  rename_i hne
  split
  · exact ⟨.refl t, h⟩
  rename_i hpos
  have hlen : (buf.take (txfifoAvail t).toNat).length ≤ (txfifoAvail t).toNat :=
    List.length_take_le _ _
  have hbuf' : (buf.take (txfifoAvail t).toNat).length ≤ buf.length := List.length_take_le' _ _
  have htake : buf.take (txfifoAvail t).toNat ≠ [] := by
    rw [ne_eq, List.take_eq_nil_iff, not_or]
    exact ⟨hpos, hne⟩
  have hring : .wholeRing ∈ L → .overfull ∈ L → t.snd.wrptr.toNat % t.txfifoSize.val = 0 ∨
      (buf.take (txfifoAvail t).toNat).length < t.txfifoSize.val := by
    intro hL hfull
    have havail := txfifoAvail_toNat (h.used hfull)
    rcases h.ring hL hfull with hstart | hsome | hsmall
    · exact .inl hstart
    · exact .inr (by omega)
    · exact .inr (Nat.lt_of_le_of_lt hbuf' (hsmall buf hbuf))
  refine ⟨.single (.write he h.state htake hlen h.used h.fin hring), h.state, ?_, h.fin, ?_⟩
  · intro hL
    have hused := txfifoUsed_written (h.used hL) hlen
    exact Nat.le_trans (Nat.le_of_eq hused.1) hused.2
  · intro _ hfull
    have hused := txfifoUsed_written (h.used hfull) hlen
    have hsome := List.length_pos_of_ne_nil htake
    exact .inr (.inl (Nat.lt_of_lt_of_le (Nat.add_pos_right _ hsome) (Nat.le_of_eq hused.1.symm)))

theorem writeBufs_moves {bufs : List (List Byte)}
    (he : ∃ iov all noWait, e = .write iov all noWait) (h : Writing L iov t) (hbufs : bufs ⊆ iov) :
    Moves L e t [] (writeBufs t bufs).1 := by
  induction bufs generalizing t with
  | nil => exact .refl t
  | cons buf rest ih =>
    obtain ⟨hbuf, hrest⟩ := List.cons_subset.mp hbufs
    obtain ⟨hmoves, hw⟩ := writeBuf_moves he h hbuf
    simp only [writeBufs]
    split
    · exact hmoves.trans (ih hw hrest)
    · exact hmoves

theorem tcpStreamWritev_moves {all noWait : Bool} (hreg : Regular L t (.write iov all noWait)) :
    Moves L (.write iov all noWait) t [] (tcpStreamWritev t iov all noWait) := by
  unfold tcpStreamWritev
  split
  · exact .refl t
  rename_i hstate
  split
  · exact .refl t
  have hw : Writing L iov t := by
    refine ⟨hstate, ?_, ?_, ?_⟩
    · intro hL
      have hocc := hreg _ hL
      simp only [occurs, true_and, reduceCtorEq, false_and, or_false,
        decide_eq_false_iff_not] at hocc
      exact Nat.not_lt.mp hocc
    · intro hL
      have hocc := hreg _ hL
      simpa only [occurs, reduceCtorEq, false_and, true_and, false_or, or_false, ne_eq,
        decide_eq_false_iff_not, not_not] using hocc
    · intro hL _
      have hocc := hreg _ hL
      simp only [occurs, reduceCtorEq, false_and, true_and, false_or, ne_eq,
        decide_eq_false_iff_not, not_and, not_exists, Nat.not_le] at hocc
      by_cases hstart : t.snd.wrptr.toNat % t.txfifoSize.val = 0
      · exact .inl hstart
      · exact .inr (.inr (hocc hstart))
  refine (writeBufs_moves ⟨iov, all, noWait, rfl⟩ hw (List.Subset.refl iov)).snoc (.quiet ?_)
  constructor <;> rfl

/-! ## Payload and FIN -/

theorem ackPayload_moves (b : Supply) (hconn : t.signals.connect = false) :
    Moves L e t (ackPayload t b).1.out (ackPayload t b).1.tcb := by
  have hquiet : ∀ (closed armed : Bool),
      Same t { t with rcvWindowClosed := closed, delayedAckTimer := armed } := fun _ _ =>
    by constructor <;> rfl
  simp only [ackPayload]
  split
  · exact .cons (.quiet (hquiet _ false)) (tcpEmit_nxt_moves _ _ hconn rfl)
  · exact .quiet (hquiet _ true)

/-- A segment that passes the test of its sequence number, and whose data is taken in the states
`takes`. -/
structure Placed (takes : State → Bool) (L : List Irregular) (t : Tcb) (g : Seg) : Prop where
  noSyn : has g.flg flagSyn = false
  seq : segLen g ≠ 0 → g.seq = t.rcv.nxt
  fin : .finRefused ∈ L → has g.flg flagFin = true → g.len + 1 ≤ (rxfifoAvail t).toNat ∧
    (g.len ≠ 0 → takes t.state = true)
  ring : .wholeRing ∈ L → t.rcv.nxt.toNat % t.rxfifoSize.val = 0 ∨
    ∀ p ∈ g.data, p.length < t.rxfifoSize.val

theorem segLen_ne_of_len (h : g.len ≠ 0) : segLen g ≠ 0 := by
  rw [segLen]
  omega

theorem segLen_ne_of_fin (h : has g.flg flagFin = true) : segLen g ≠ 0 := by
  rw [segLen, if_pos h]
  omega

theorem inputPayload_moves (he : e = .input g o) (b : Supply)
    (hconn : t.signals.connect = false) (hp : Placed storesData L t g) :
    Moves L e t (inputPayload t g b).1.out (inputPayload t g b).1.tcb := by
  unfold inputPayload
  split
  · rename_i h
    have hstore : OtherMove L e t (storeData t g.data) :=
      .store he h.1 h.2.1 h.2.2 hp.noSyn (hp.seq (segLen_ne_of_len h.2.1)) hp.ring
    exact .cons (.other hstore) (ackPayload_moves b (hstore.sameTx.connect.trans hconn))
  · exact .refl t

/-- The data is counted, piece by piece. -/
theorem storeData_nxt (t : Tcb) (data : List (List Byte)) :
    (storeData t data).rcv.nxt = t.rcv.nxt + BitVec.ofNat 32 data.flatten.length := by
  induction data generalizing t with
  | nil => exact (BitVec.add_zero _).symm
  | cons p rest ih =>
    rw [storeData, ih, List.flatten_cons, List.length_append, BitVec.ofNat_add, ← BitVec.add_assoc]

theorem storeData_fifo (t : Tcb) (data : List (List Byte)) :
    (storeData t data).rcv.rdptr = t.rcv.rdptr ∧ (storeData t data).rxfifoSize = t.rxfifoSize := by
  obtain ⟨buffer, nxt, hstore⟩ := storeData_frame t data
  rw [hstore]
  exact ⟨rfl, rfl⟩

/-- What is stored is no longer available. -/
theorem rxfifoAvail_add {k : Nat} (hsize : t'.rxfifoSize = t.rxfifoSize)
    (hrd : t'.rcv.rdptr = t.rcv.rdptr) (hnxt : t'.rcv.nxt = t.rcv.nxt + BitVec.ofNat 32 k)
    (hk : k ≤ (rxfifoAvail t).toNat) : (rxfifoAvail t').toNat = (rxfifoAvail t).toNat - k := by
  have heq : rxfifoAvail t' = rxfifoAvail t - BitVec.ofNat 32 k := by
    rw [rxfifoAvail, rxfifoAvail, rxfifoUsed, rxfifoUsed, hsize, hrd, hnxt]
    bv_omega
  have hval : (BitVec.ofNat 32 k).toNat = k := Nat.mod_eq_of_lt (by omega)
  rw [heq, BitVec.toNat_sub_of_le (by rw [BitVec.le_def, hval]; exact hk), hval]

theorem ackPayload_tcb (b : Supply) : ∃ n d closed, (ackPayload t b).1.tcb =
    { withNxt t n with delayedAckTimer := d, rcvWindowClosed := closed } := by
  simp only [ackPayload]
  split
  · obtain ⟨n, d, h, -⟩ := tcpEmit_emits { t with
      rcvWindowClosed := (rxfifoAvail t).toInt < rcvMss, delayedAckTimer := false } (some b)
      t.snd.nxt true
    exact ⟨n, d, _, h⟩
  · exact ⟨t.snd.nxt, true, _, rfl⟩

/-- Before a FIN all data of the segment was stored. -/
theorem Placed.stored (hp : Placed storesData L t g) (b : Supply) (hL : .finRefused ∈ L)
    (hfin : has g.flg flagFin = true) :
    (inputPayload t g b).1.tcb.rcv.nxt = g.seq + BitVec.ofNat 32 g.len ∧
      1 ≤ (rxfifoAvail (inputPayload t g b).1.tcb).toNat := by
  obtain ⟨hroom, hstores⟩ := hp.fin hL hfin
  have hseq := hp.seq (segLen_ne_of_fin hfin)
  unfold inputPayload
  split
  · obtain ⟨n, d, closed, htcb⟩ := ackPayload_tcb (t := storeData t g.data) b
    have hnxt : _ = _ + BitVec.ofNat 32 g.len := storeData_nxt t g.data
    obtain ⟨hrd, hsize⟩ := storeData_fifo t g.data
    have havail := rxfifoAvail_add hsize hrd hnxt (Nat.le_of_succ_le hroom)
    rw [htcb]
    refine ⟨?_, ?_⟩
    · show (storeData t g.data).rcv.nxt = _
      rw [hnxt, hseq]
    · show 1 ≤ (rxfifoAvail (storeData t g.data)).toNat
      rw [havail]
      exact Nat.le_sub_of_add_le (by omega)
  · rename_i hnot
    have hzero : g.len = 0 := by
      by_contra hne
      exact hnot ⟨hstores hne, hne, Nat.le_of_succ_le hroom⟩
    refine ⟨?_, ?_⟩
    · rw [hseq, hzero]
      exact (BitVec.add_zero _).symm
    · show 1 ≤ (rxfifoAvail t).toNat
      omega

/-- Fresh data moves `snd.nxt` forward, at most to `snd.wrptr`. -/
theorem tcpEmit_nxt (t : Tcb) (b : Option Supply) (genAck : Bool) :
    ∃ k ≤ (t.snd.wrptr - t.snd.nxt).toNat,
      (tcpEmit t b t.snd.nxt genAck).tcb.snd.nxt = t.snd.nxt + BitVec.ofNat 32 k := by
  have hzero : t.snd.nxt = t.snd.nxt + BitVec.ofNat 32 0 := (BitVec.add_zero _).symm
  have hdata : ∀ (b : Supply) (bytes : Nat), bytes ≤ bytesInFifo t.snd t.snd.nxt →
      ∃ k ≤ (t.snd.wrptr - t.snd.nxt).toNat,
        (emitData { t with delayedAckTimer := false } b t.snd.nxt bytes).tcb.snd.nxt =
          t.snd.nxt + BitVec.ofNat 32 k := by
    intro b bytes hbytes
    have hlen := length_copyData t.buffer t.txfifoSize.pos b.more firstUsed bytes 20 t.snd.nxt
    rw [bytesInFifo, if_pos rfl] at hbytes
    cases hb : b.sent with
    | false => exact ⟨0, Nat.zero_le _, by simp [emitData, output, hb]⟩
    | true =>
      refine ⟨(copyData t.buffer t.txfifoSize.val b.more firstUsed bytes 20 t.snd.nxt).length,
        by omega, ?_⟩
      simp [emitData, output, hb]
  cases b with
  | none => exact ⟨0, Nat.zero_le _, hzero⟩
  | some b =>
    generalize hr : tcpEmit t (some b) t.snd.nxt genAck = r
    cases tcpEmit_case hr with
    | syn | idle | ack => exact ⟨0, Nat.zero_le _, hzero⟩
    | fin =>
      refine ⟨_, Nat.le_refl _, ?_⟩
      rw [BitVec.ofNat_toNat, BitVec.setWidth_eq, Seq.add_sub_cancel]
      rfl
    | data _ _ hbytes => exact hdata b _ (Nat.le_of_add_right_le hbytes.le)

/-- In `FIN_WAIT1` the acknowledgement is not between `snd.nxt` and `snd.wrptr`. -/
def AckBefore (t : Tcb) (g : Seg) : Prop :=
  t.state = .finWait1 → ∀ n, (t.snd.nxt - t.snd.una).toNat ≤ (n - t.snd.una).toNat →
    (n - t.snd.una).toNat ≤ (t.snd.wrptr - t.snd.una).toNat → g.ack ≠ n

theorem ackBefore_tcpEmit (b : Option Supply) (genAck : Bool) (hinv : SndInv t)
    (h : AckBefore t g) : AckBefore (tcpEmit t b t.snd.nxt genAck).tcb g ∧
      SndInv (tcpEmit t b t.snd.nxt genAck).tcb := by
  have honly := tcpEmit_onlyNxt t b t.snd.nxt genAck
  obtain ⟨k, hk, hnxt⟩ := tcpEmit_nxt t b genAck
  have hsplit := Seq.dist_split hinv.nxt_le
  have hle := hinv.nxt_le
  have hdist : (t.snd.nxt + BitVec.ofNat 32 k - t.snd.una).toNat =
      (t.snd.nxt - t.snd.una).toNat + k := Seq.dist_add_ofNat (by omega)
  constructor
  · intro hs n h1 h2
    rw [honly.una, hnxt, hdist] at h1
    rw [honly.una, honly.wrptr] at h2
    rw [honly.state] at hs
    exact h hs n (by omega) h2
  · refine ⟨?_, ?_⟩
    · rw [honly.una, honly.wrptr, hnxt, hdist]
      omega
    · rw [honly.una, honly.wrptr, honly.txfifoSize]
      exact hinv.wrptr_le

theorem inputPayload_keeps (b : Supply) (hinv : SndInv t) (h : AckBefore t g) :
    AckBefore (inputPayload t g b).1.tcb g ∧ SndInv (inputPayload t g b).1.tcb := by
  unfold inputPayload
  split
  · obtain ⟨buffer, nxt, hstore⟩ := storeData_frame t g.data
    rw [hstore]
    simp only [ackPayload]
    split
    · exact ackBefore_tcpEmit _ _ ⟨hinv.nxt_le, hinv.wrptr_le⟩ h
    · exact ⟨h, hinv.nxt_le, hinv.wrptr_le⟩
  · exact ⟨h, hinv⟩

theorem inputPayload_frame (b : Supply) : (inputPayload t g b).1.tcb.state = t.state ∧
    (inputPayload t g b).1.tcb.signals = t.signals := by
  unfold inputPayload
  split
  · obtain ⟨buffer, nxt, hstore⟩ := storeData_frame t g.data
    obtain ⟨n, d, closed, htcb⟩ := ackPayload_tcb (t := storeData t g.data) b
    rw [htcb, hstore]
    exact ⟨rfl, rfl⟩
  · exact ⟨rfl, rfl⟩

theorem inputFin_moves (he : e = .input g o) (b : Option Supply)
    (hconn : t.signals.connect = false) (hstate : t.state ≠ .synReceived)
    (h : .finUnsent ∈ L → AckBefore t g ∧ SndInv t) (hold : t.state = .finWait1 → unaAck t g ≤ 0)
    (hsyn : has g.flg flagSyn = false)
    (hroom : .finRefused ∈ L → has g.flg flagFin = true →
      t.rcv.nxt = g.seq + BitVec.ofNat 32 g.len ∧ 1 ≤ (rxfifoAvail t).toNat) :
    Moves L e t (inputFin t g b).2 (inputFin t g b).1 := by
  simp only [inputFin]
  split
  · rename_i hcond
    refine .cons (.other (.finRcvd he hcond.1 ⟨hcond.2.1, hcond.2.2.2⟩ hsyn
      fun hL => hroom hL hcond.1)) ?_
    refine Moves.snoc (tcpEmit_nxt_moves b true hconn rfl) (.other (.finState he ?_ ?_ ?_ ?_))
    · rw [(tcpEmit_onlyNxt _ _ _ _).finReceived]
    · rw [(tcpEmit_onlyNxt _ _ _ _).state]
      exact hstate
    rotate_left
    · rw [unaAck, (tcpEmit_onlyNxt _ _ _ _).state, (tcpEmit_onlyNxt _ _ _ _).una]
      exact hold
    intro hL hs
    obtain ⟨hbefore, hinv⟩ := h hL
    have hnext := ackBefore_tcpEmit (t := { t with
      finReceived := true
      rcv := { t.rcv with nxt := t.rcv.nxt + 1 } }) b true ⟨hinv.nxt_le, hinv.wrptr_le⟩ hbefore
    exact hnext.1 hs _ (Nat.le_refl _) hnext.2.nxt_le
  · exact .refl t

theorem inputData_moves (he : e = .input g o)
    (hconn : t.signals.connect = false) (hstate : t.state ≠ .synReceived) (hp : Placed storesData L t g)
    (h : .finUnsent ∈ L → AckBefore t g ∧ SndInv t)
    (hold : t.state = .finWait1 → unaAck t g ≤ 0) : Moves L e t (inputData t g o).2 (inputData t g o).1 := by
  obtain ⟨hs, hsignals⟩ := inputPayload_frame (t := t) (g := g) o.first
  have hmoves := inputPayload_moves he o.first hconn hp
  refine hmoves.trans (inputFin_moves he _ (by rwa [hsignals]) (hs.trans_ne hstate) ?_ ?_ hp.noSyn
    (hp.stored o.first))
  · intro hL
    exact inputPayload_keeps o.first (h hL).2 (h hL).1
  · rw [unaAck, hs, hmoves.una_eq]
    exact hold

end Mios.Tcp
