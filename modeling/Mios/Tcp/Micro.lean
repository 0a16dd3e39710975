import Mios.Tcp.Steps

/-! Every event of a connection is a sequence of moves, among them at most one acknowledgement. -/

namespace Mios.Tcp

open Lib Relation

variable {L : List Irregular} {e : Event} {t t' : Tcb} {g : Seg} {out : List Sent}

/-! ## Moves of a connection -/

/-- `SYN_SENT` after a SYN that acknowledges ours. -/
def synAcked (t : Tcb) (g : Seg) : Tcb :=
  let t := tcpAck { t with rcv := ⟨g.seq + 1, g.seq + 1⟩ } (g.ack - t.snd.una)
  { t with
    state := .established
    snd := { t.snd with wnd := g.wnd.setWidth 32, wl1 := g.seq, wl2 := g.ack } }

/-- `SYN_RECEIVED` after the acknowledgement of our SYN. -/
def establish (t : Tcb) (g : Seg) : Tcb :=
  setWindow (tcpAck { t with state := .established } (g.ack - t.snd.una)) g

/-- The acknowledgement of a segment in an open state. -/
def ackWindow (t : Tcb) (g : Seg) : Tcb := updateWindow (tcpAck t (g.ack - t.snd.una)) g

/-- The calls of the application that only look at the RX FIFO. -/
def reads : Event → Bool
  | .read _ _ | .wake | .peek | .drop _ => true
  | _ => false

/-- Only what the application sees of the block has changed. -/
structure AppMove (c c' : Conn) : Prop extends SameTx c.tcb c'.tcb where
  state : c'.tcb.state = c.tcb.state
  rtxTimer : c'.tcb.rtxTimer = c.tcb.rtxTimer
  timeWaitTimer : c'.tcb.timeWaitTimer = c.tcb.timeWaitTimer
  acked : c'.acked = c.acked
  log : c'.log = c.log
  edge : c'.edge = c.edge
  peerMss : c'.peerMss = c.peerMss

/-- One move of a connection in the event `e`. -/
inductive Micro (L : List Irregular) (e : Event) : Conn → Conn → Prop
  | move {c : Conn} {out : List Sent} {t' : Tcb} (h : Move L e c.tcb out t') :
      Micro L e c (c.after (t', out))
  | hear {c : Conn} {g : Seg} {o : InputSupply} (he : e = .input g o) : Micro L e c (c.hear g)
  | app {c c' : Conn} (he : reads e = true) (h : AppMove c c') : Micro L e c c'
  | synAck {c : Conn} {g : Seg} {o : InputSupply} (he : e = .input g o)
      (hconn : c.tcb.signals.connect = false) (hstate : c.tcb.state = .synSent)
      (hack : has g.flg flagAck = true)
      (hadv : Conn.advertised c.tcb g = some g.wnd.toNat)
      (h1 : 0 < (g.ack - c.tcb.iss).toInt) (h2 : (g.ack - c.tcb.snd.nxt).toInt ≤ 0) :
      Micro L e c ((c.hear g).after (synAcked c.tcb g, []))
  | establish {c : Conn} {g : Seg} {o : InputSupply} (he : e = .input g o)
      (hconn : c.tcb.signals.connect = false) (hstate : c.tcb.state = .synReceived)
      (hack : has g.flg flagAck = true) (h : g.ack = c.tcb.snd.nxt)
      (h1 : 0 ≤ unaAck c.tcb g)
      (hadv : Conn.advertised c.tcb g = some (scaledWnd c.tcb g).toNat) :
      Micro L e c ((c.hear g).after (establish c.tcb g, []))
  | acked {c : Conn} {g : Seg} {o : InputSupply} (he : e = .input g o)
      (hconn : c.tcb.signals.connect = false) (hstate : emitsIn c.tcb.state = true)
      (h1 : 0 ≤ unaAck c.tcb g) (h2 : 0 ≤ ackNxt c.tcb g)
      (hadv : Conn.advertised c.tcb g = some (scaledWnd c.tcb g).toNat)
      (hstale : .staleWindow ∈ L → 0 < unaAck c.tcb g →
        newerWindow c.tcb g ∨ c.tcb.snd.wnd.toNat ≤ (scaledWnd c.tcb g).toNat)
      (hshort : .windowShort ∈ L → ¬ clipped (ackWindow c.tcb g)) :
      Micro L e c ((c.hear g).after (ackWindow c.tcb g, []))

abbrev Micros (L : List Irregular) (e : Event) : Conn → Conn → Prop := ReflTransGen (Micro L e)

variable {c : Conn}

theorem Conn.after_self (c : Conn) : c.after (c.tcb, []) = c := by
  simp [Conn.after, Conn.pos]

variable {c' c0 : Conn} {es : List Event} {r : Tcb × List Sent}

/-- Two results one after the other, if `snd.una` stays in the second. -/
theorem Conn.after_after {r' : Tcb × List Sent} (h : r'.1.snd.una = r.1.snd.una) :
    (c.after r).after r' = c.after (r'.1, r.2 ++ r'.2) := by
  simp [Conn.after, Conn.pos, h]

/-- A result without segments first, if `snd.una` stays in it. -/
theorem Conn.after_quiet (h : t.snd.una = c.tcb.snd.una) :
    (c.after (t, [])).after r = c.after r := by
  simp [Conn.after, Conn.pos, h]

theorem Moves.micros (h : Moves L e c.tcb out t') : Micros L e c (c.after (t', out)) := by
  obtain ⟨outs, hrun, rfl⟩ := h
  generalize ht : c.tcb = t at hrun
  induction hrun with
  | nil =>
    subst ht
    rw [List.flatten_nil, Conn.after_self]
  | @snoc u v outs out' hrun hs ih =>
    have hmove : Micro L e (c.after (u, outs.flatten))
        ((c.after (u, outs.flatten)).after (v, out')) := .move hs
    have hboth : (c.after (u, outs.flatten)).after (v, out') =
        c.after (v, (outs ++ [out']).flatten) := by
      rw [Conn.after_after hs.una_eq, List.flatten_append, List.flatten_singleton]
    rw [hboth] at hmove
    exact ih.tail hmove

/-! ## Acknowledgements -/

theorem tcpAck_snd (t : Tcb) (n : BitVec 32) :
    (tcpAck t n).snd = { t.snd with una := t.snd.una + n } := by
  unfold tcpAck
  split
  · rename_i h
    rw [h]
    exact congrArg (fun una => { t.snd with una := una }) (BitVec.add_zero _).symm
  · rfl

/-- What an acknowledgement leaves alone. -/
structure AckKeeps (t t' : Tcb) : Prop where
  pendingFin : t'.pendingFin = t.pendingFin
  finReceived : t'.finReceived = t.finReceived
  sndWndShift : t'.sndWndShift = t.sndWndShift
  wrptr : t'.snd.wrptr = t.snd.wrptr
  nxt : t'.snd.nxt = t.snd.nxt
  iss : t'.iss = t.iss
  txfifoSize : t'.txfifoSize = t.txfifoSize
  rxfifoSize : t'.rxfifoSize = t.rxfifoSize
  rtxTimer : t.rtxTimer = true → t'.rtxTimer = true
  timeWaitTimer : t'.timeWaitTimer = t.timeWaitTimer
  connect : t'.signals.connect = t.signals.connect
  buffer : t'.buffer = t.buffer

structure AckFrame (t t' : Tcb) : Prop extends AckKeeps t t' where
  state : t'.state = t.state
  rcv : t'.rcv = t.rcv

theorem tcpAck_frame (t : Tcb) (n : BitVec 32) : AckFrame t (tcpAck t n) := by
  unfold tcpAck
  split
  · exact ⟨⟨rfl, rfl, rfl, rfl, rfl, rfl, rfl, rfl, id, rfl, rfl, rfl⟩, rfl, rfl⟩
  · exact ⟨⟨rfl, rfl, rfl, rfl, rfl, rfl, rfl, rfl, fun _ => rfl, rfl, rfl, rfl⟩, rfl, rfl⟩

theorem tcpAck_pendingSyn (t : Tcb) {n : BitVec 32} (h : n ≠ 0) : (tcpAck t n).pendingSyn = 0 := by
  rw [tcpAck, if_neg h]

theorem updateWindow_of_newer (h : newerWindow t g) : updateWindow t g = setWindow t g := if_pos h

theorem updateWindow_of_not (h : ¬ newerWindow t g) : updateWindow t g = t := if_neg h

theorem tcpAck_una (t : Tcb) (g : Seg) : (tcpAck t (g.ack - t.snd.una)).snd.una = g.ack := by
  rw [tcpAck_snd]
  exact Seq.add_sub_cancel _ _

theorem ackWindow_cases {P : Tcb → Prop} (h : P (tcpAck t (g.ack - t.snd.una)))
    (hset : P (setWindow (tcpAck t (g.ack - t.snd.una)) g)) : P (ackWindow t g) := by
  unfold ackWindow updateWindow
  split
  · exact hset
  · exact h

theorem ackWindow_frame (t : Tcb) (g : Seg) : AckFrame t (ackWindow t g) := by
  have h := tcpAck_frame t (g.ack - t.snd.una)
  exact ackWindow_cases h { h with }

theorem ackWindow_una (t : Tcb) (g : Seg) : (ackWindow t g).snd.una = g.ack :=
  ackWindow_cases (P := fun u => u.snd.una = g.ack) (tcpAck_una t g) (tcpAck_una t g)

theorem unaAck_ackWindow (t : Tcb) (g : Seg) : unaAck (ackWindow t g) g = 0 := by
  rw [unaAck, ackWindow_una, BitVec.sub_self]
  rfl

theorem establish_una (t : Tcb) (g : Seg) : (establish t g).snd.una = g.ack :=
  tcpAck_una { t with state := .established } g

theorem synAcked_una (t : Tcb) (g : Seg) : (synAcked t g).snd.una = g.ack :=
  tcpAck_una { t with rcv := ⟨g.seq + 1, g.seq + 1⟩ } g

/-- The state and the pointers after the acknowledgement in `SYN_RECEIVED`. -/
theorem establish_frame (t : Tcb) (g : Seg) :
    AckFrame { t with state := .established } (establish t g) := by
  have h := tcpAck_frame { t with state := .established } (g.ack - t.snd.una)
  exact { h with }

theorem synAcked_keeps (t : Tcb) (g : Seg) : AckKeeps t (synAcked t g) := by
  have h := tcpAck_frame { t with rcv := ⟨g.seq + 1, g.seq + 1⟩ } (g.ack - t.snd.una)
  exact { h with }

/-- The acknowledged part is gone, the order stays. -/
theorem SndInv.ack {una : SeqNo} (hinv : SndInv t) (hframe : t'.snd.wrptr = t.snd.wrptr)
    (hnxt : t'.snd.nxt = t.snd.nxt) (hsize : t'.txfifoSize = t.txfifoSize)
    (huna : t'.snd.una = una) (h : (una - t.snd.una).toNat ≤ (t.snd.nxt - t.snd.una).toNat) :
    SndInv t' := by
  have hle := hinv.nxt_le
  have hbound := hinv.wrptr_le
  have h1 := Seq.dist_split h
  have h2 := Seq.dist_split (Nat.le_trans h hle)
  refine ⟨?_, ?_⟩
  · rw [hframe, hnxt, huna]
    omega
  · rw [hframe, huna, hsize]
    omega

theorem dist_ack_le (h1 : 0 ≤ unaAck t g) (h2 : 0 ≤ ackNxt t g) :
    (g.ack - t.snd.una).toNat ≤ (t.snd.nxt - t.snd.una).toNat :=
  Nat.le.intro (Seq.between h1 h2)

/-- Only the state may change. -/
theorem finAcked_eq (t : Tcb) (g : Seg) :
    ∃ s, finAcked t g = { t with state := s } ∧ (s = t.state ∨ s = .finWait2) := by
  unfold finAcked
  split
  · exact ⟨_, rfl, .inr rfl⟩
  · exact ⟨_, rfl, .inl rfl⟩

theorem storesData_of_takes (hne : t.state ≠ .synReceived) (h : takesData t.state = true) :
    storesData t.state = true := by
  rcases Bool.or_eq_true_iff.mp h with h | h
  · exact h
  · exact absurd (eq_of_beq h) hne

/-- Who stays in `FIN_WAIT1` has not got an acknowledgement of everything. -/
theorem ack_ne_of_finAcked (h : (finAcked t g).state = .finWait1) : g.ack ≠ t.snd.nxt := by
  intro hack
  have hzero : ackNxt t g = 0 := by
    rw [ackNxt, hack, BitVec.sub_self]
    rfl
  unfold finAcked at h
  split at h
  · cases h
  · rename_i hcond
    exact hcond ⟨hzero, .inl h⟩

theorem ackBefore_ackWindow (hinv : SndInv t) (h1 : 0 ≤ unaAck t g) (h2 : 0 ≤ ackNxt t g) :
    AckBefore (finAcked (ackWindow t g) g) g ∧ SndInv (finAcked (ackWindow t g) g) := by
  have hframe := ackWindow_frame t g
  obtain ⟨s, heq, -⟩ := finAcked_eq (ackWindow t g) g
  refine ⟨?_, by
    rw [heq]
    exact hinv.ack hframe.wrptr hframe.nxt hframe.txfifoSize (ackWindow_una t g)
      (dist_ack_le h1 h2)⟩
  intro hs n hle _ hn
  rw [show (finAcked (ackWindow t g) g).snd = _ by rw [heq], ackWindow_una, ← hn,
    BitVec.sub_self] at hle
  have hzero := Nat.le_zero.mp hle
  exact ack_ne_of_finAcked hs (Seq.toNat_sub_eq_zero.mp hzero).symm

theorem ackBefore_old (htame : Tame t) (h : unaAck t g < 0) :
    AckBefore (finAcked t g) g ∧ SndInv (finAcked t g) := by
  obtain ⟨s, heq, -⟩ := finAcked_eq t g
  have hold : ¬ (g.ack - t.snd.una).toNat < 2147483648 := by
    rw [← Seq.toInt_nonneg]
    exact Int.not_le.mpr h
  have hbound := htame.1.wrptr_le
  have hsize := htame.2
  rw [heq]
  refine ⟨?_, htame.1.nxt_le, hbound⟩
  rintro - n - hle rfl
  have hle : (g.ack - t.snd.una).toNat ≤ (t.snd.wrptr - t.snd.una).toNat := hle
  omega

/-! ## Segments -/

variable {o : InputSupply}

theorem sendReply_moves (b : Supply) {s : Sent} (h : Bare t s) :
    Moves L e t (sendReply t b s).2 (sendReply t b s).1 := by
  unfold sendReply
  split
  · exact .single (.bare h)
  · exact .refl t

/-- The peer is heard, then moves. -/
theorem hear_micros (he : e = .input g o) (h : Moves L e c.tcb out t') :
    Micros L e c ((c.hear g).after (t', out)) :=
  .head (.hear he) (Moves.micros h)

/-- A move with an acknowledgement, then others. -/
theorem ack_micros {r : Tcb} (h : Micro L e c ((c.hear g).after (r, [])))
    (hmoves : Moves L e r out t') : Micros L e c ((c.hear g).after (t', out)) := by
  have hrest := Moves.micros (c := (c.hear g).after (r, [])) hmoves
  rw [Conn.after_after hmoves.una_eq] at hrest
  exact .head h hrest

theorem inputSynSent_micros (hconn : c.tcb.signals.connect = false)
    (hstate : c.tcb.state = .synSent) (hreg : Regular L c.tcb (.input g o)) :
    Micros L (.input g o) c ((c.hear g).after (inputSynSent c.tcb g o.first)) := by
  unfold inputSynSent
  split
  · split
    · exact hear_micros rfl (.refl _)
    · exact hear_micros rfl (sendReply_moves _
        (bare_tcpReply _ _ _ (by decide) (by decide) (.inl rfl)))
  · rename_i hack
    split
    · rename_i hrst
      split
      · exact hear_micros rfl (.single (.other (.abort (.inl ⟨g, o, rfl, hrst⟩))))
      · exact hear_micros rfl (.refl _)
    · rename_i hrst
      split
      · rename_i hsyn
        by_cases hflag : has g.flg flagAck = true
        · -- the SYN acknowledges ours
          have hin : 0 < (g.ack - c.tcb.iss).toInt ∧ (g.ack - c.tcb.snd.nxt).toInt ≤ 0 := by
            rw [not_and, not_or] at hack
            exact ⟨Int.not_le.mp (hack hflag).1, Int.not_lt.mp (hack hflag).2⟩
          have hadv : Conn.advertised c.tcb g = some g.wnd.toNat := by
            rw [Conn.advertised, if_pos hstate, if_pos ⟨hflag, hsyn, hrst, hin⟩]
          have hkeeps := synAcked_keeps c.tcb g
          have heq : synInSynSent c.tcb g o.first =
              ((tcpEmit (synAcked c.tcb g) (some o.first) (synAcked c.tcb g).snd.nxt true).tcb,
                (tcpEmit (synAcked c.tcb g) (some o.first) (synAcked c.tcb g).snd.nxt true).out) := by
            have hpos : 0 < ((synAcked c.tcb g).snd.una - (synAcked c.tcb g).iss).toInt := by
              rw [synAcked_una, hkeeps.iss]
              exact hin.1
            rw [synInSynSent, hflag]
            exact if_pos hpos
          rw [heq]
          exact ack_micros (.synAck rfl hconn hstate hflag hadv hin.1 hin.2)
            (tcpEmit_nxt_moves _ _ (hkeeps.connect.trans hconn) rfl)
        · have hL : .simultaneousOpen ∉ L := by
            intro hL
            have hocc := hreg _ hL
            simp [occurs, occursInput, hstate, hsyn, hflag] at hocc
          have hemit : (synInSynSent c.tcb g o.first).1.snd.una = c.tcb.snd.una := by
            simp only [synInSynSent, if_neg hflag, tcpSendSyn]
            split
            all_goals exact (tcpEmit_onlyNxt _ _ _ _).una
          have hsame : (synInSynSent c.tcb g o.first).1.signals.connect =
              c.tcb.signals.connect := by
            simp only [synInSynSent, if_neg hflag, tcpSendSyn]
            split
            all_goals exact congrArg Signals.connect (tcpEmit_onlyNxt _ _ _ _).signals
          exact hear_micros rfl (.single (.simultaneous rfl hL hstate rfl rfl hemit hsame hsyn hflag))
      · exact hear_micros rfl (.refl _)

theorem inputRefused_moves (b : Supply) :
    Moves L e t (inputRefused t g b).2 (inputRefused t g b).1 := by
  unfold inputRefused
  split
  · exact .refl t
  split
  · exact .refl t
  · have hquiet : Same t { t with fastRejectLimiter := t.fastRejectLimiter + 1 } := by
      constructor <;> rfl
    exact .cons (.quiet hquiet) (sendReply_moves b
      (bare_tcpReply _ _ _ (by decide) (by decide) (.inr ⟨rfl, rfl⟩)))

theorem ack_eq_of_ackNxt (h : ackNxt t g = 0) : g.ack = t.snd.nxt :=
  (Seq.eq_of_sub_eq_zero (Seq.toInt_eq_zero.mp h)).symm

theorem finAcked_moves (he : e = .input g o) (hold : unaAck t g ≤ 0)
    (h : .finUnsent ∈ L → g.ack = t.snd.nxt → t.state = .finWait1 ∨ t.state = .closing →
      t.snd.una = t.snd.nxt ∧ t.snd.nxt = t.snd.wrptr) : Moves L e t [] (finAcked t g) := by
  unfold finAcked
  split
  · rename_i hcond
    have hack := ack_eq_of_ackNxt hcond.1
    exact .single (.other (.finAcked he hcond.2 (fun hL => h hL hack hcond.2) hack hold))
  · exact .refl t

/-- Then the payload and the FIN. -/
theorem finAcked_data_moves (he : e = .input g o) (hconn : t.signals.connect = false)
    (hne : t.state ≠ .synReceived) (hp : Placed storesData L t g) (hold : unaAck t g ≤ 0)
    (hacked : .finUnsent ∈ L → g.ack = t.snd.nxt → t.state = .finWait1 ∨ t.state = .closing →
      t.snd.una = t.snd.nxt ∧ t.snd.nxt = t.snd.wrptr)
    (h : .finUnsent ∈ L → AckBefore (finAcked t g) g ∧ SndInv (finAcked t g)) :
    Moves L e t (inputData (finAcked t g) g o).2 (inputData (finAcked t g) g o).1 := by
  obtain ⟨s, heq, hs⟩ := finAcked_eq t g
  refine (finAcked_moves he hold hacked).trans (inputData_moves he ?_ ?_ ?_ h fun _ => ?_)
  · rw [heq]
    exact hconn
  · rw [heq]
    rcases hs with rfl | rfl
    · exact hne
    · exact fun hs => by cases hs
  · rw [heq]
    refine { hp with fin := fun hL hfin => ⟨(hp.fin hL hfin).1, fun hlen => ?_⟩ }
    rcases hs with rfl | rfl
    · exact (hp.fin hL hfin).2 hlen
    · rfl
  · rw [heq]
    exact hold

/-- The segment goes through all the steps. -/
structure Complete (g : Seg) : Prop where
  noRst : ¬ has g.flg flagRst = true
  noSyn : ¬ has g.flg flagSyn = true
  ack : has g.flg flagAck = true

theorem processed_of_complete (hg : Complete g) (hacc : acceptance t g = true) :
    processed t g = true := by
  simp only [processed, hacc, hg.noRst, hg.noSyn, hg.ack, Bool.not_false, Bool.and_true]

theorem seq_of_acceptance (hacc : acceptance t g = true) (hlen : segLen g ≠ 0) :
    g.seq = t.rcv.nxt := by
  rw [acceptance, if_neg hlen] at hacc
  split at hacc
  · cases hacc
  · exact Seq.eq_of_sub_eq_zero (of_decide_eq_true hacc)

theorem acceptable_of_regular (hg : Complete g) (hacc : acceptance t g = true)
    (hreg : Regular L t (.input g o)) : Placed takesData L t g := by
  have hp := processed_of_complete hg hacc
  refine ⟨Bool.eq_false_iff.mpr hg.noSyn, seq_of_acceptance hacc, fun hL hfin => ?_, fun hL => ?_⟩
  · have hocc := hreg _ hL
    simp only [occurs, occursInput, hp, hfin, true_and, decide_eq_false_iff_not, not_or, not_and,
      Nat.not_lt, Bool.not_eq_true, Bool.not_eq_false'] at hocc
    exact hocc
  · have hocc := hreg _ hL
    simp only [occurs, occursInput, hp, true_and, decide_eq_false_iff_not, not_and, not_exists,
      Nat.not_le] at hocc
    by_cases hstart : t.rcv.nxt.toNat % t.rxfifoSize.val = 0
    · exact .inl hstart
    · exact .inr (hocc hstart)

/-- The acknowledgement does not change where the data goes. -/
theorem Placed.acked (h : Placed takesData L t g) (hrcv : t'.rcv = t.rcv)
    (hsize : t'.rxfifoSize = t.rxfifoSize)
    (hstate : takesData t.state = true → storesData t'.state = true) : Placed storesData L t' g := by
  have havail : rxfifoAvail t' = rxfifoAvail t := by
    rw [rxfifoAvail, rxfifoAvail, rxfifoUsed, rxfifoUsed, hrcv, hsize]
  refine ⟨h.noSyn, ?_, fun hL hfin => ?_, ?_⟩
  · rw [hrcv]
    exact h.seq
  · rw [havail]
    exact ⟨(h.fin hL hfin).1, fun hne => hstate ((h.fin hL hfin).2 hne)⟩
  · rw [hrcv, hsize]
    exact h.ring

/-- Under `finUnsent` an acknowledgement of everything in `FIN_WAIT1` is one of the FIN. -/
theorem wrptr_of_regular (hreg : Regular L t (.input g o)) (hL : .finUnsent ∈ L)
    (hp : processed t g = true) (hack : g.ack = t.snd.nxt)
    (hs : t.state = .finWait1 ∨ t.state = .closing) : t.snd.nxt = t.snd.wrptr := by
  have hocc := hreg _ hL
  simp only [occurs, occursInput, hp, hack, hs, true_and, decide_eq_false_iff_not, ne_eq,
    not_not] at hocc
  exact hocc

theorem inputAccepted_ok {t1 : Tcb} (hg : Complete g) (h : inputAck t g = .ok t1) :
    inputAccepted t g o = inputData t1 g o := by
  simp only [inputAccepted, if_neg hg.noRst, if_neg hg.noSyn, hg.ack, h]
  rfl

theorem inputAccepted_error {r : Tcb × Sent} (hg : Complete g) (h : inputAck t g = .error r) :
    inputAccepted t g o = sendReply r.1 o.first r.2 := by
  simp only [inputAccepted, if_neg hg.noRst, if_neg hg.noSyn, hg.ack, h]
  rfl

theorem advertised_of_accepted (hstate : t.state ≠ .synSent) (hacc : acceptance t g = true)
    (hg : Complete g) (h1 : 0 ≤ unaAck t g) (h2 : 0 ≤ ackNxt t g) :
    Conn.advertised t g = some (scaledWnd t g).toNat := by
  rw [Conn.advertised, if_neg hstate, if_pos ⟨hacc, hg.noRst, hg.noSyn, hg.ack, h1, h2⟩]

/-- Step 5 where the acknowledgement is not looked at. -/
theorem other_micros {t1 : Tcb} (hg : Complete g) (heq : inputAck c.tcb g = .ok t1)
    (hmoves : Moves L (.input g o) c.tcb [] t1) (hsnd : t1.snd = c.tcb.snd)
    (hsize : t1.txfifoSize = c.tcb.txfifoSize) (hconn : t1.signals.connect = false)
    (hrcvd : t1.state ≠ .synReceived) (hstate : t1.state ≠ .finWait1) (hp : Placed storesData L t1 g)
    (htame : .finUnsent ∈ L → Tame c.tcb) :
    Micros L (.input g o) c ((c.hear g).after (inputAccepted c.tcb g o)) := by
  rw [inputAccepted_ok hg heq]
  refine hear_micros rfl (hmoves.trans (inputData_moves rfl hconn hrcvd hp ?_
    fun hs => absurd hs hstate))
  intro hL
  refine ⟨fun hs => absurd hs hstate, ?_, ?_⟩
  · rw [hsnd]
    exact (htame hL).1.nxt_le
  · rw [hsnd, hsize]
    exact (htame hL).1.wrptr_le

/-- Setting the window twice is setting it once. -/
theorem establish_eq (t : Tcb) (g : Seg) :
    updateWindow (tcpAck (setWindow { t with state := .established } g) (g.ack - t.snd.una)) g =
      establish t g := by
  have hsnd := tcpAck_snd (setWindow { t with state := .established } g) (g.ack - t.snd.una)
  have hnewer : newerWindow
      (tcpAck (setWindow { t with state := .established } g) (g.ack - t.snd.una)) g := by
    refine .inr ⟨?_, ?_⟩
    · rw [hsnd]
      exact Seq.toInt_eq_zero.mpr (BitVec.sub_self _)
    · rw [hsnd]
      exact Int.le_of_eq (Seq.toInt_eq_zero.mpr (BitVec.sub_self _)).symm
  rw [updateWindow_of_newer hnewer, establish]
  unfold tcpAck
  split <;> rfl

section Accepted

variable (hconn : c.tcb.signals.connect = false) (hacc : acceptance c.tcb g = true)
  (hreg : Regular L c.tcb (.input g o)) (htame : .finUnsent ∈ L → Tame c.tcb)

include hconn hacc hreg htame

/-- Step 5 in an open state. -/
theorem open_micros (hopen : emitsIn c.tcb.state = true) (hg : Complete g)
    (heq : inputAck c.tcb g = ackOpen c.tcb g) :
    Micros L (.input g o) c ((c.hear g).after (inputAccepted c.tcb g o)) := by
  obtain ⟨hsent, hrcvd⟩ : c.tcb.state ≠ .synSent ∧ c.tcb.state ≠ .synReceived := by
    constructor
    all_goals
      intro hs
      rw [hs] at hopen
      cases hopen
  have hp := processed_of_complete hg hacc
  have haccept := acceptable_of_regular hg hacc hreg
  by_cases hin : 0 ≤ unaAck c.tcb g ∧ 0 ≤ ackNxt c.tcb g
  · have hok : inputAck c.tcb g = .ok (finAcked (ackWindow c.tcb g) g) := by
      rw [heq, ackOpen, if_pos hin]
      rfl
    rw [inputAccepted_ok hg hok]
    have hframe := ackWindow_frame c.tcb g
    have hacked : Micro L (.input g o) c ((c.hear g).after (ackWindow c.tcb g, [])) := by
      refine .acked rfl hconn hopen hin.1 hin.2
        (advertised_of_accepted hsent hacc hg hin.1 hin.2) ?_ ?_
      · intro hL hpos
        have hocc := hreg _ hL
        simp only [occurs, occursInput, hp, hpos, hin.2, true_and, decide_eq_false_iff_not] at hocc
        by_contra hnot
        rw [not_or, Nat.not_le] at hnot
        exact hocc hnot
      · intro hL
        have hocc := hreg _ hL
        simp only [occurs, occursInput, hp, hin.1, hin.2, true_and, decide_eq_false_iff_not] at hocc
        exact hocc
    refine ack_micros hacked (finAcked_data_moves rfl (hframe.connect.trans hconn)
      (hframe.state.trans_ne hrcvd) (haccept.acked hframe.rcv hframe.rxfifoSize fun hs => ?_)
      (unaAck_ackWindow c.tcb g).le (fun hL hack hs => ?_) fun hL => ackBefore_ackWindow (htame hL).1 hin.1 hin.2)
    · rw [hframe.state]
      exact storesData_of_takes hrcvd hs
    · rw [hframe.nxt] at hack
      rw [hframe.state] at hs
      rw [ackWindow_una, hframe.nxt, hframe.wrptr]
      exact ⟨hack, wrptr_of_regular hreg hL hp hack hs⟩
  · by_cases hold : unaAck c.tcb g < 0
    · have hok : inputAck c.tcb g = .ok (finAcked c.tcb g) := by
        rw [heq, ackOpen, if_neg hin, if_pos hold]
      rw [inputAccepted_ok hg hok]
      refine hear_micros rfl (finAcked_data_moves rfl hconn hrcvd
        (haccept.acked rfl rfl (storesData_of_takes hrcvd)) hold.le (fun hL hack hs => ?_)
        fun hL => ackBefore_old (htame hL) hold)
      -- all that is in flight is in one half of the sequence space
      have hle := (htame hL).1.nxt_le
      have hbound := (htame hL).1.wrptr_le
      have hsize := (htame hL).2
      rw [unaAck, hack] at hold
      have hneg := mt Seq.toInt_nonneg.mpr (Int.not_le.mpr hold)
      omega
    · have herr : inputAck c.tcb g =
          .error (c.tcb, tcpReply c.tcb.snd.nxt c.tcb.rcv.nxt flagAck (rxfifoAvail c.tcb)) := by
        rw [heq, ackOpen, if_neg hin, if_neg hold]
      rw [inputAccepted_error hg herr]
      exact hear_micros rfl (sendReply_moves _
        (bare_tcpReply _ _ _ (by decide) (by decide) (.inr ⟨rfl, rfl⟩)))

/-- Step 5 in `SYN_RECEIVED`. -/
theorem synReceived_micros (hstate : c.tcb.state = .synReceived) (hg : Complete g) :
    Micros L (.input g o) c ((c.hear g).after (inputAccepted c.tcb g o)) := by
  have hsent : c.tcb.state ≠ .synSent := by
    rw [hstate]
    decide
  by_cases hgood : 0 ≤ unaAck c.tcb g ∧ ackNxt c.tcb g ≤ 0
  · have heq : inputAck c.tcb g = ackOpen (setWindow { c.tcb with state := .established } g) g := by
      rw [inputAck, hstate]
      exact if_pos hgood
    by_cases hnew : 0 ≤ ackNxt c.tcb g
    · have hack : g.ack = c.tcb.snd.nxt := ack_eq_of_ackNxt (Int.le_antisymm hgood.2 hnew)
      have hframe := establish_frame c.tcb g
      have hest : (establish c.tcb g).state = .established := hframe.state
      have hfin : finAcked (establish c.tcb g) g = establish c.tcb g := by
        refine if_neg ?_
        rintro ⟨-, hs⟩
        rw [hest] at hs
        rcases hs with hs | hs <;> cases hs
      have hok : inputAck c.tcb g = .ok (establish c.tcb g) := by
        rw [heq, ackOpen]
        refine (if_pos (show 0 ≤ unaAck c.tcb g ∧ 0 ≤ ackNxt c.tcb g from ⟨hgood.1, hnew⟩)).trans ?_
        rw [← hfin, ← establish_eq]
        rfl
      rw [inputAccepted_ok hg hok]
      refine ack_micros (.establish rfl hconn hstate hg.ack hack hgood.1
        (advertised_of_accepted hsent hacc hg hgood.1 hnew))
        (inputData_moves rfl (hframe.connect.trans hconn) (hest.trans_ne (by decide)) ?_ ?_ ?_)
      · exact (acceptable_of_regular hg hacc hreg).acked hframe.rcv hframe.rxfifoSize
          fun _ => by rw [hest]; rfl
      · intro hL
        refine ⟨fun hs => ?_, (htame hL).1.ack hframe.wrptr hframe.nxt hframe.txfifoSize
          (establish_una c.tcb g) (dist_ack_le hgood.1 hnew)⟩
        cases hest.symm.trans hs
      · exact fun hs => by cases hest.symm.trans hs
    · have hL : .tooNewAck ∉ L := by
        intro hL
        have hocc := hreg _ hL
        simp only [occurs, occursInput, processed_of_complete hg hacc, hstate, hgood.1, true_and,
          decide_eq_false_iff_not] at hocc
        exact hocc (Int.not_le.mp hnew)
      have herr : inputAck c.tcb g = .error (setWindow { c.tcb with state := .established } g,
          tcpReply c.tcb.snd.nxt c.tcb.rcv.nxt flagAck (rxfifoAvail c.tcb)) := by
        rw [heq, ackOpen]
        refine (if_neg (show ¬ (0 ≤ unaAck c.tcb g ∧ 0 ≤ ackNxt c.tcb g) from
          fun h => hnew h.2)).trans ?_
        exact if_neg (show ¬ unaAck c.tcb g < 0 from Int.not_lt.mpr hgood.1)
      rw [inputAccepted_error hg herr]
      exact hear_micros rfl (.cons (.tooNew rfl hL hstate) (sendReply_moves _
        (bare_tcpReply _ _ _ (by decide) (by decide) (.inr ⟨rfl, rfl⟩))))
  · have herr : inputAck c.tcb g =
        .error (c.tcb, tcpReply c.tcb.snd.nxt c.tcb.rcv.nxt flagRst 0) := by
      rw [inputAck, hstate]
      exact if_neg hgood
    rw [inputAccepted_error hg herr]
    exact hear_micros rfl (sendReply_moves _
      (bare_tcpReply _ _ _ (by decide) (by decide) (.inl rfl)))

theorem inputAccepted_micros (hstate : c.tcb.state ≠ .synSent) :
    Micros L (.input g o) c ((c.hear g).after (inputAccepted c.tcb g o)) := by
  by_cases hrst : has g.flg flagRst = true
  · rw [inputAccepted, if_pos hrst]
    exact hear_micros rfl (.single (.other (.abort (.inl ⟨g, o, rfl, hrst⟩))))
  by_cases hsyn : has g.flg flagSyn = true
  · rw [inputAccepted, if_neg hrst, if_pos hsyn]
    exact hear_micros rfl (sendReply_moves _
      (bare_tcpReply _ _ _ (by decide) (by decide) (.inl rfl)))
  by_cases hack : has g.flg flagAck = true
  · have hg : Complete g := ⟨hrst, hsyn, hack⟩
    have haccept := acceptable_of_regular hg hacc hreg
    have hidle : ∀ (_ : inputAck c.tcb g = .ok c.tcb)
        (_ : c.tcb.state ≠ .synReceived ∧ c.tcb.state ≠ .finWait1),
        Micros L (.input g o) c ((c.hear g).after (inputAccepted c.tcb g o)) := fun heq hs =>
      other_micros hg heq (.refl _) rfl rfl hconn hs.1 hs.2
        (haccept.acked rfl rfl (storesData_of_takes hs.1)) htame
    cases hs : c.tcb.state with
    | closed | listen | timeWait => exact hidle (by rw [inputAck, hs]) (by rw [hs]; decide)
    | synSent => exact absurd hs hstate
    | synReceived => exact synReceived_micros hconn hacc hreg htame hs hg
    | established | finWait1 | finWait2 | closing | closeWait =>
      exact open_micros hconn hacc hreg htame (by rw [hs]; rfl) hg (by rw [inputAck, hs])
    | lastAck =>
      have heq : inputAck c.tcb g = .ok (tcpClose c.tcb) := by rw [inputAck, hs]
      refine other_micros hg heq (.single (.other (.lastAck rfl hack hs ?_))) rfl rfl hconn
        (show State.closed ≠ .synReceived by decide) (show State.closed ≠ .finWait1 by decide)
        (haccept.acked rfl rfl fun h => absurd h (by rw [hs]; decide)) htame
      intro hL
      have hocc := hreg _ hL
      simpa [occurs, occursInput, processed_of_complete hg hacc, hs] using hocc
  · have heq : inputAccepted c.tcb g o = (c.tcb, []) := by
      simp [inputAccepted, hrst, hsyn, hack]
    rw [heq]
    exact hear_micros rfl (.refl _)

end Accepted

/-- The count of refused segments is of no account. -/
theorem occursInput_limiter (t : Tcb) (g : Seg) (k : Nat) (x : Irregular) :
    occursInput { t with fastRejectLimiter := k } g x = occursInput t g x := by
  cases x with
  | windowShort =>
    by_cases hzero : g.ack - t.snd.una = 0
    · simp only [occursInput, tcpAck, if_pos hzero]
      unfold updateWindow
      split <;> rfl
    · simp only [occursInput, tcpAck, if_neg hzero]
      unfold updateWindow
      split <;> rfl
  | _ => rfl

/-- `tcp_input_ipv4`. -/
theorem tcpInputIpv4_micros (hconn : c.tcb.signals.connect = false)
    (hreg : Regular L c.tcb (.input g o)) (htame : .finUnsent ∈ L → Tame c.tcb) :
    Micros L (.input g o) c ((c.hear g).after (tcpInputIpv4 c.tcb g o)) := by
  by_cases hstate : c.tcb.state = .synSent
  · rw [tcpInputIpv4, if_pos hstate]
    exact inputSynSent_micros hconn hstate hreg
  by_cases hacc : acceptance c.tcb g = true
  · rw [tcpInputIpv4, if_neg hstate, if_pos hacc]
    have hquiet : Same c.tcb { c.tcb with fastRejectLimiter := 0 } := by
      constructor <;> rfl
    have hfirst : Micro L (.input g o) c (c.after ({ c.tcb with fastRejectLimiter := 0 }, [])) :=
      .move (.quiet hquiet)
    have hrest := inputAccepted_micros (c := c.after ({ c.tcb with fastRejectLimiter := 0 }, []))
      hconn hacc (o := o) (fun x hx => (occursInput_limiter c.tcb g 0 x).trans (hreg x hx))
      (fun hL => ⟨⟨(htame hL).1.nxt_le, (htame hL).1.wrptr_le⟩, (htame hL).2⟩) hstate
    have heq : (c.after ({ c.tcb with fastRejectLimiter := 0 }, [])).hear g =
        (c.hear g).after ({ c.tcb with fastRejectLimiter := 0 }, []) := by
      simp only [Conn.hear, Conn.after, Conn.pos, BitVec.sub_self]
      rfl
    have hmerge : ∀ r, ((c.hear g).after ({ c.tcb with fastRejectLimiter := 0 }, [])).after r =
        (c.hear g).after r := fun r => Conn.after_quiet (by rfl)
    rw [heq, hmerge] at hrest
    exact .head hfirst hrest
  · rw [tcpInputIpv4, if_neg hstate, if_neg hacc]
    exact hear_micros rfl (inputRefused_moves o.first)

/-! ## The application -/

theorem consume_frame (t : Tcb) (n : Nat) : ∃ rcv closed wndOpen, tcpRxfifoConsume t n =
    { t with rcv := rcv, rcvWindowClosed := closed, signals := { t.signals with wndOpen := wndOpen } } := by
  simp only [tcpRxfifoConsume]
  split <;> exact ⟨_, _, _, rfl⟩

/-- Reading moves `rcv.rdptr` and may open the window. -/
theorem readLoop_frame (rounds : Nat) (t : Tcb) (r : Reader) : ∃ rcv closed wndOpen,
    (readLoop rounds t r).1 =
      { t with rcv := rcv, rcvWindowClosed := closed, signals := { t.signals with wndOpen := wndOpen } } := by
  induction rounds generalizing t r with
  | zero => exact ⟨_, _, _, rfl⟩
  | succ rounds ih =>
    rw [readLoop]
    split
    · exact ⟨_, _, _, rfl⟩
    split
    · exact ⟨_, _, _, rfl⟩
    · exact ⟨_, _, _, rfl⟩
    · rename_i used _ _
      obtain ⟨_, _, _, hconsume⟩ := consume_frame t (min r.size used)
      obtain ⟨_, _, _, hrest⟩ := ih (tcpRxfifoConsume t (min r.size used)) _
      rw [hrest, hconsume]
      exact ⟨_, _, _, rfl⟩

theorem appMove_of_frame {c c' : Conn} {rcv : Rcv} {closed wndOpen : Bool} (h : c'.tcb = { c.tcb with
      rcv := rcv, rcvWindowClosed := closed, signals := { c.tcb.signals with wndOpen := wndOpen } })
    (hacked : c'.acked = c.acked) (hlog : c'.log = c.log) (hedge : c'.edge = c.edge)
    (hmss : c'.peerMss = c.peerMss) : AppMove c c' := by
  refine ⟨⟨?_, ?_, ?_, ?_, ?_, ?_, ?_⟩, ?_, ?_, ?_, hacked, hlog, hedge, hmss⟩ <;> rw [h]
  exact .stay _

theorem runReader_app (c : Conn) (r : Reader) : AppMove c (c.runReader r) := by
  obtain ⟨_, _, _, h⟩ := readLoop_frame (r.size + 1) c.tcb r
  refine appMove_of_frame ((Conn.runReader_tcb c r).trans h) ?_ ?_ ?_ ?_ <;>
    simp only [Conn.runReader] <;> split <;> rfl

/-! ## Before the SYN -/

/-- As long as the SYN is not sent only the application and the task touch the block. -/
def Dormant (t : Tcb) : Prop :=
  t.signals.connect = true → t.linked = false ∧ t.rtxTimer = false ∧ t.delayedAckTimer = false ∧
    t.timeWaitTimer = false

theorem dormant_of_connect (h : t.signals.connect = false) : Dormant t := by
  intro hc
  rw [h] at hc
  cases hc

theorem readLoop_dormant (h : Dormant t) (rounds : Nat) (r : Reader) :
    Dormant (readLoop rounds t r).1 := by
  obtain ⟨_, _, _, hread⟩ := readLoop_frame rounds t r
  rw [hread]
  exact h

theorem writeBufs_dormant (h : Dormant t) (iov : List (List Byte)) :
    Dormant (writeBufs t iov).1 := by
  have hbuf : ∀ (u : Tcb) (buf : List Byte), Dormant u → Dormant (writeBuf u buf).1 := by
    intro u buf hu
    simp only [writeBuf]
    split
    · exact hu
    · split <;> exact hu
  induction iov generalizing t with
  | nil => exact h
  | cons buf rest ih =>
    simp only [writeBufs]
    split
    · exact ih (hbuf t buf h)
    · exact hbuf t buf h

theorem tcpStreamWritev_dormant (h : Dormant t) (iov : List (List Byte)) (all noWait : Bool) :
    Dormant (tcpStreamWritev t iov all noWait) := by
  have hbufs := writeBufs_dormant h iov
  unfold tcpStreamWritev
  split
  · exact h
  · split
    · exact h
    · exact hbufs

theorem Move.connect_eq_false (h : Move L e t out t') (hc : t.signals.connect = false) :
    t'.signals.connect = false := by
  cases h with
  | other h => exact h.sameTx.connect.trans hc
  | connect => rfl
  | simultaneous _ _ _ _ _ _ hconn _ _ => exact hconn.trans hc
  | _ => exact hc

theorem Micro.connect_eq_false (h : Micro L e c c')
    (hc : c.tcb.signals.connect = false) : c'.tcb.signals.connect = false := by
  cases h with
  | move h => exact h.connect_eq_false hc
  | hear => exact hc
  | app _ h => exact h.connect.trans hc
  | synAck => exact (synAcked_keeps c.tcb _).connect.trans hc
  | establish => exact (establish_frame c.tcb _).connect.trans hc
  | acked => exact (ackWindow_frame c.tcb _).connect.trans hc

theorem Micros.connect_eq_false (h : Micros L e c c')
    (hc : c.tcb.signals.connect = false) : c'.tcb.signals.connect = false := by
  induction h with
  | refl => exact hc
  | tail _ hs ih => exact hs.connect_eq_false ih

/-! ## Every event -/

theorem connect_of_awake (h : t.signals.connect = true → false = true) :
    t.signals.connect = false :=
  Bool.eq_false_iff.mpr fun hc => by cases h hc

/-- The events that go through the functions of the block. -/
theorem micros_of_step (hreg : Regular L c.tcb e) (hd : Dormant c.tcb)
    (he : ∀ g o, e ≠ .input g o) (h : step c.tcb e = some r) : Micros L e c (c.after r) := by
  cases e with
  | write iov all noWait =>
    cases h
    exact (tcpStreamWritev_moves hreg).micros
  | flush | close =>
    cases h
    exact Moves.micros (.quiet (by constructor <;> rfl))
  | read | wake | peek | drop => cases h
  | task o =>
    obtain ⟨-, h⟩ := Option.ite_none_left_eq_some.mp h
    exact (tcpTaskCb_moves hreg h).micros
  | input g o => exact absurd rfl (he g o)
  | rtx timedOut b =>
    obtain ⟨htimer, rfl⟩ := of_ite_some h
    have hconn := connect_of_awake fun hc => (hd hc).2.1.symm.trans htimer
    exact (tcpRtxCb_moves timedOut b hconn hreg).micros
  | delayedAck b =>
    obtain ⟨htimer, rfl⟩ := of_ite_some h
    have hconn := connect_of_awake fun hc => (hd hc).2.2.1.symm.trans htimer
    exact (tcpDelayedAckCb_moves b hconn).micros
  | timeWait =>
    obtain ⟨htimer, rfl⟩ := of_ite_some h
    exact (Moves.single (.other (.expire rfl htimer))).micros

theorem connect_of_linked (hd : Dormant t) (h : t.linked = true) : t.signals.connect = false :=
  connect_of_awake fun hc => (hd hc).1.symm.trans h

/-- A step of a connection is a sequence of moves. -/
theorem step_micros (hreg : Regular L c.tcb e) (hd : Dormant c.tcb)
    (htame : .finUnsent ∈ L → Tame c.tcb) (h : c.step e = some c') : Micros L e c c' := by
  cases Conn.step_does h with
  | read size require => exact .single (.app rfl (runReader_app c _))
  | wake r => exact .single (.app rfl (runReader_app c r))
  | peek => exact .single (.app rfl (appMove_of_frame rfl rfl rfl rfl rfl))
  | drop bytes =>
    obtain ⟨_, _, _, hconsume⟩ := consume_frame c.tcb bytes
    exact .single (.app rfl (appMove_of_frame hconsume rfl rfl rfl rfl))
  | input g o hlinked => exact tcpInputIpv4_micros (connect_of_linked hd hlinked) hreg htame
  | other e r he hr => exact micros_of_step hreg hd he hr

theorem regular_nil (t : Tcb) (e : Event) : Regular [] t e := by
  intro x hx
  cases hx

/-- The task clears all signals. -/
theorem tcpTaskCb_connect {o : TaskSupply} (h : tcpTaskCb t o = some r) :
    r.1.signals.connect = false := by
  obtain ⟨l, hl, rfl⟩ := Option.map_eq_some_iff.mp h
  have hconn := taskConnect_connect (t := { t with signals := noSignals }) t.signals o rfl
  have hwnd := (taskWndOpen_emits t.signals o
    (t := (taskConnect { t with signals := noSignals } t.signals o).tcb)).onlyNxt
  have hconn' := (congrArg Signals.connect hwnd.signals).trans hconn
  obtain ⟨honly, -⟩ := taskEmit_spec (L := []) (e := .task o) hconn' hl
  have hloop := (congrArg Signals.connect honly.signals).trans hconn'
  have hclose : Moves [] (.task o) l.1 (taskClose l.1 t.signals o).out
      (taskClose l.1 t.signals o).tcb :=
    taskClose_moves t.signals o ⟨o, rfl⟩ hloop (by simp) (by simp)
  obtain ⟨outs, hrun, -⟩ := hclose
  exact hrun.invariant hloop fun _ _ _ hu hs => hs.connect_eq_false hu

theorem step_dormant (hd : Dormant c.tcb) (h : c.step e = some c') : Dormant c'.tcb := by
  have hmicros := step_micros (regular_nil c.tcb e) hd (by simp) h
  -- if the SYN was sent before, it was; otherwise the event is one of the application or the task
  cases hc : c.tcb.signals.connect with
  | false => exact dormant_of_connect (hmicros.connect_eq_false hc)
  | true =>
    obtain ⟨hlinked, hrtx, hack, hwait⟩ := hd hc
    cases Conn.step_does h with
    | read size require =>
      rw [Conn.runReader_tcb]
      exact readLoop_dormant hd (size + 1) _
    | wake r =>
      rw [Conn.runReader_tcb]
      exact readLoop_dormant hd (r.size + 1) r
    | peek => exact hd
    | drop bytes =>
      obtain ⟨_, _, _, hconsume⟩ := consume_frame c.tcb bytes
      show Dormant (tcpRxfifoConsume c.tcb bytes)
      rw [hconsume]
      exact hd
    | input g o hon => exact absurd (hlinked.symm.trans hon) (by decide)
    | other e r he hr =>
      cases e with
      | write iov all noWait =>
        cases hr
        exact tcpStreamWritev_dormant hd iov all noWait
      | flush | close =>
        cases hr
        exact hd
      | read | wake | peek | drop => cases hr
      | task o =>
        obtain ⟨-, hr⟩ := Option.ite_none_left_eq_some.mp hr
        exact dormant_of_connect (tcpTaskCb_connect hr)
      | input g o => exact absurd rfl (he g o)
      | rtx timedOut b => exact absurd (hrtx.symm.trans (of_ite_some hr).1) (by decide)
      | delayedAck b => exact absurd (hack.symm.trans (of_ite_some hr).1) (by decide)
      | timeWait => exact absurd (hwait.symm.trans (of_ite_some hr).1) (by decide)

/-- The block right after it was created by a SYN. -/
structure Opened (n : SeqNo) (tx rx : FifoSize) (m : Nat → Byte) (g : Seg) (t : Tcb)
    (out : List Sent) : Prop where
  state : t.state = .synReceived
  pendingSyn : t.pendingSyn = flagSyn ||| flagAck
  pendingFin : t.pendingFin = 0
  finReceived : t.finReceived = false
  snd : t.snd = ⟨n + 1, n + 1, n, 0, 0, 0⟩
  iss : t.iss = n
  rcv : t.rcv = ⟨g.seq + 1, g.seq + 1⟩
  txfifoSize : t.txfifoSize = tx
  rxfifoSize : t.rxfifoSize = rx
  timeWaitTimer : t.timeWaitTimer = false
  connect : t.signals.connect = false
  buffer : t.buffer = m
  out : ∀ s ∈ out, s.seq = n ∧ s.flg = flagSyn ||| flagAck ∧ s.payload = [] ∧
    s.wnd ≤ (rxfifoAvail t).toNat

theorem passiveOpen_opened {iss : SeqNo} {tx rx : FifoSize} {buffer : Nat → Byte} {pulled : Bool}
    {b : Supply} (h : passiveOpen iss tx rx buffer g pulled b = some (t, out)) :
    Opened iss tx rx buffer g t out := by
  obtain ⟨o, -, heq⟩ := Option.map_eq_some_iff.mp h
  cases heq
  refine ⟨rfl, rfl, rfl, rfl, rfl, rfl, rfl, rfl, rfl, rfl, rfl, rfl, ?_⟩
  intro s hs
  have hne : flagSyn ||| flagAck ≠ 0 := by decide
  simp only [tcpSendSyn, tcpEmit, output, if_pos hne] at hs
  split at hs
  · rw [List.mem_singleton.mp hs]
    exact ⟨rfl, rfl, rfl, Nat.min_le_left _ _⟩
  · cases hs

theorem Conn.Init.dormant (h : Conn.Init c) : Dormant c.tcb := by
  cases h with
  | passive iss tx rx buffer g pulled b t out hflg h =>
    exact dormant_of_connect (passiveOpen_opened h).connect
  | active iss tx rx buffer => exact fun _ => ⟨rfl, rfl, rfl, rfl⟩

theorem dormant_of_run {ok : Conn → Event → Prop}
    (hrun : Run (Guarded ok Conn.Step) c0 es c) (hd : Dormant c0.tcb) : Dormant c.tcb :=
  hrun.invariant hd fun _ _ _ hu hs => step_dormant hu hs.2

/-- What every move keeps holds along every run whose events meet a condition that the moves of the
event keep as well. -/
theorem invariant_of_guarded_micro {I : Conn → Prop} {J : Event → Conn → Prop}
    (hmicro : ∀ e c c', I c → J e c → Micro L e c c' → I c' ∧ J e c')
    (htame : .finUnsent ∈ L → ∀ c, I c → Tame c.tcb)
    (hrun : Run (Guarded (fun c e => Regular L c.tcb e ∧ J e c) Conn.Step) c0 es c)
    (hd : Dormant c0.tcb) (h0 : I c0) : I c := by
  refine (hrun.invariant (I := fun c => I c ∧ Dormant c.tcb) ⟨h0, hd⟩ ?_).1
  rintro u e v ⟨hu, hd⟩ ⟨⟨hreg, hj⟩, hstep⟩
  refine ⟨?_, step_dormant hd hstep⟩
  have hmicros := step_micros hreg hd (fun hL => htame hL u hu) hstep
  have h : I v ∧ J e v := by
    clear hstep
    induction hmicros with
    | refl => exact ⟨hu, hj⟩
    | tail _ hs ih => exact hmicro e _ _ ih.1 ih.2 hs
  exact h.1

/-- What every move keeps holds along every run without the irregular events of `L`. -/
theorem invariant_of_micro {I : Conn → Prop} (hmicro : ∀ e c c', I c → Micro L e c c' → I c')
    (htame : .finUnsent ∈ L → ∀ c, I c → Tame c.tcb)
    (hrun : Run (Guarded (fun c e => Regular L c.tcb e) Conn.Step) c0 es c)
    (hd : Dormant c0.tcb) (h0 : I c0) : I c :=
  invariant_of_guarded_micro
    (fun e c c' hc _ hm => ⟨hmicro e c c' hc hm, trivial⟩) htame
    (hrun.mono fun _ _ _ h => ⟨⟨h.1, trivial⟩, h.2⟩) hd h0

end Mios.Tcp
