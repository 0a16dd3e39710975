import Mios.Tcp.Micro
import Mios.Tcp.Window

/-! The pointers of the sender. Without a simultaneous open they stay in order, and if moreover no
retransmission reaches unsent data, all that was sent is below `snd.nxt`. -/

namespace Mios.Tcp

open Lib Relation List

variable {L : List Irregular} {e : Event} {t t' : Tcb} {g : Seg} {out : List Sent} {c c' : Conn} {n : SeqNo}

/-! ## The handshake -/

/-- What the SYN means for the pointers, as long as it is not acknowledged. -/
structure Shake (t : Tcb) : Prop where
  connect : t.signals.connect = true →
    t.pendingSyn = 0 ∧ t.snd.nxt = t.iss ∧ t.snd.una = t.iss
  synSent : t.state = .synSent →
    t.snd.una = t.iss ∧ (t.signals.connect = false → t.pendingSyn ≠ 0)
  synReceived : t.state = .synReceived → t.pendingSyn ≠ 0
  pending : t.pendingSyn ≠ 0 → t.snd.una = t.iss ∧ t.snd.nxt = t.iss + 1
  synFlags : t.pendingSyn = 0 ∨ t.pendingSyn = flagSyn ∨ t.pendingSyn = flagSyn ||| flagAck
  finFlags : t.pendingFin = 0 ∨ t.pendingFin = flagFin ||| flagAck

theorem Shake.frame (h : Shake t)
    (hstate : t'.state = t.state ∨ t'.state ≠ .synSent ∧ t'.state ≠ .synReceived)
    (hsyn : t'.pendingSyn = t.pendingSyn)
    (hfin : t'.pendingFin = t.pendingFin ∨ t'.pendingFin = flagFin ||| flagAck)
    (hconn : t'.signals.connect = t.signals.connect) (hiss : t'.iss = t.iss)
    (huna : t'.snd.una = t.snd.una)
    (hnxt : t'.snd.nxt = t.snd.nxt ∨ t.pendingSyn = 0 ∧ t.signals.connect = false) : Shake t' where
  connect hc := by
    rw [hconn] at hc
    rw [hsyn, huna, hiss]
    rcases hnxt with hnxt | ⟨-, hfalse⟩
    · rw [hnxt]
      exact h.connect hc
    · rw [hfalse] at hc
      cases hc
  synSent hs := by
    rw [hsyn, huna, hiss, hconn]
    rcases hstate with hstate | hstate
    · exact h.synSent (hstate ▸ hs)
    · exact absurd hs hstate.1
  synReceived hs := by
    rw [hsyn]
    rcases hstate with hstate | hstate
    · exact h.synReceived (hstate ▸ hs)
    · exact absurd hs hstate.2
  pending hp := by
    rw [hsyn] at hp
    rw [huna, hiss]
    rcases hnxt with hnxt | ⟨hzero, -⟩
    · rw [hnxt]
      exact h.pending hp
    · exact absurd hzero hp
  synFlags := hsyn ▸ h.synFlags
  finFlags := by
    rcases hfin with hfin | hfin
    · exact hfin ▸ h.finFlags
    · exact .inr hfin

theorem Follows.unshaken {s s' : State} (h : Follows s s') :
    s' = s ∨ s' ≠ .synSent ∧ s' ≠ .synReceived := by
  cases h with
  | stay => exact .inl rfl
  | _ => exact .inr (by decide)

theorem Shake.same (h : Shake t) (hs : SameTx t t') : Shake t' :=
  h.frame hs.follows.unshaken hs.pendingSyn (.inl hs.pendingFin) hs.connect hs.iss
    (by rw [hs.snd]) (.inl (by rw [hs.snd]))

theorem Shake.move (h : Shake t) (hL : .simultaneousOpen ∈ L) (hm : Move L e t out t') :
    Shake t' := by
  cases hm with
  | other hm => exact h.same hm.sameTx
  | bare | syn => exact h
  | fin _ hconn hsyn | data hconn hsyn =>
    exact h.frame (.inl rfl) rfl (.inl rfl) rfl rfl rfl (.inr ⟨hsyn, hconn⟩)
  | connect hc =>
    obtain ⟨-, hnxt, huna⟩ := h.connect hc
    have hne : flagSyn ≠ 0 := by decide
    refine ⟨fun hc => ?_, fun _ => ⟨huna, fun _ => hne⟩, fun _ => hne, fun _ => ⟨huna, ?_⟩,
      .inr (.inl rfl), h.finFlags⟩
    · cases hc
    · exact congrArg (· + 1) hnxt
  | simultaneous _ hnot => exact absurd hL hnot
  | tooNew =>
    have hs : State.established ≠ .synSent ∧ State.established ≠ .synReceived := by decide
    exact h.frame (.inr hs) rfl (.inl rfl) rfl rfl rfl (.inl rfl)
  | write => exact h.frame (.inl rfl) rfl (.inl rfl) rfl rfl rfl (.inl rfl)
  | queueFin _ hstate =>
    have hs : ∀ s, s = State.finWait1 ∨ s = .lastAck → s ≠ .synSent ∧ s ≠ .synReceived := by
      rintro s (rfl | rfl) <;> decide
    refine h.frame (.inr (hs _ ?_)) rfl (.inr rfl) rfl rfl rfl (.inl rfl)
    rcases hstate with ⟨-, rfl⟩ | ⟨-, rfl⟩
    · exact .inl rfl
    · exact .inr rfl

/-- In `SYN_SENT` only our SYN can be acknowledged. -/
theorem dist_synAck (huna : t.snd.una = t.iss) (h1 : 0 < (g.ack - t.iss).toInt)
    (h2 : (g.ack - t.snd.nxt).toInt ≤ 0) :
    g.ack ≠ t.snd.una ∧ (g.ack - t.snd.una).toNat ≤ (t.snd.nxt - t.snd.una).toNat := by
  rw [← huna, Seq.toInt_pos] at h1
  have h2' : ¬ (0 < (g.ack - t.snd.nxt).toNat ∧ (g.ack - t.snd.nxt).toNat < 2147483648) := by
    rw [← Seq.toInt_pos]
    exact Int.not_lt.mpr h2
  refine ⟨?_, ?_⟩
  · intro hack
    rw [hack, BitVec.sub_self] at h1
    exact absurd h1.1 (by decide)
  · bv_omega

/-- While the SYN is pending nothing but it can be acknowledged. -/
theorem Shake.ack_eq (h : Shake t) (hp : t.pendingSyn ≠ 0) (hne : g.ack ≠ t.snd.una)
    (hle : (g.ack - t.snd.una).toNat ≤ (t.snd.nxt - t.snd.una).toNat) : g.ack = t.iss + 1 := by
  obtain ⟨huna, hnxt⟩ := h.pending hp
  rw [huna] at hne
  rw [huna, hnxt] at hle
  bv_omega

theorem ackWindow_pendingSyn (h : g.ack ≠ t.snd.una) : (ackWindow t g).pendingSyn = 0 := by
  have hzero := tcpAck_pendingSyn t fun hz => h (Seq.eq_of_sub_eq_zero hz)
  exact ackWindow_cases (P := fun u => u.pendingSyn = 0) hzero hzero

theorem ackWindow_pendingSyn_of_eq (h : g.ack = t.snd.una) :
    (ackWindow t g).pendingSyn = t.pendingSyn := by
  have hzero : g.ack - t.snd.una = 0 := by
    rw [h, BitVec.sub_self]
    rfl
  refine ackWindow_cases (P := fun u => u.pendingSyn = t.pendingSyn) ?_ ?_
  · rw [hzero]
    rfl
  · rw [hzero]
    rfl

/-- After an acknowledgement that moved `snd.una` there is no SYN left. -/
theorem Shake.acked (h : Shake t) (hstate : t'.state ≠ .synSent ∧ t'.state ≠ .synReceived)
    (hfin : t'.pendingFin = t.pendingFin) (hconn : t'.signals.connect = false)
    (hsyn : t'.pendingSyn = 0) : Shake t' where
  connect hc := by
    rw [hconn] at hc
    cases hc
  synSent hs := absurd hs hstate.1
  synReceived hs := absurd hs hstate.2
  pending hp := absurd hsyn hp
  synFlags := .inl hsyn
  finFlags := hfin ▸ h.finFlags

theorem emitsIn_ne {s : State} (h : emitsIn s = true) : s ≠ .synSent ∧ s ≠ .synReceived := by
  cases s <;> first | exact ⟨by decide, by decide⟩ | cases h

/-- A segment that is taken for an acknowledgement. -/
structure Acks (t : Tcb) (g : Seg) (t' : Tcb) : Prop extends AckKeeps t t' where
  flag : has g.flg flagAck = true
  una : t'.snd.una = g.ack
  moved : g.ack ≠ t.snd.una → t'.pendingSyn = 0
  stayed : g.ack = t.snd.una → t'.pendingSyn = t.pendingSyn ∧ emitsIn t.state = true
  newer : 0 ≤ unaAck t g
  le : (g.ack - t.snd.una).toNat ≤ (t.snd.nxt - t.snd.una).toNat
  synSent : t.signals.connect = false
  next : t'.state = t.state ∧ emitsIn t.state = true ∨
    t'.state = .established ∧ (t.state = .synSent ∨ t.state = .synReceived)

theorem Acks.ne (h : Acks t g t') : t'.state ≠ .synSent ∧ t'.state ≠ .synReceived := by
  rcases h.next with ⟨hs, hopen⟩ | ⟨hs, -⟩
  · rw [hs]
    exact emitsIn_ne hopen
  · rw [hs]
    decide

theorem synAcked_acks (h : Shake t) (hconn : t.signals.connect = false) (hstate : t.state = .synSent)
    (hack : has g.flg flagAck = true) (h1 : 0 < (g.ack - t.iss).toInt)
    (h2 : (g.ack - t.snd.nxt).toInt ≤ 0) : Acks t g (synAcked t g) := by
  obtain ⟨hne, hle⟩ := dist_synAck (h.synSent hstate).1 h1 h2
  have hnewer : 0 ≤ unaAck t g := by
    rw [unaAck, (h.synSent hstate).1]
    exact h1.le
  have hsyn : (synAcked t g).pendingSyn = 0 :=
    tcpAck_pendingSyn { t with rcv := ⟨g.seq + 1, g.seq + 1⟩ } fun hz =>
      hne (Seq.eq_of_sub_eq_zero hz)
  exact ⟨synAcked_keeps t g, hack, synAcked_una t g, fun _ => hsyn,
    fun heq => absurd heq hne, hnewer, hle, hconn, .inr ⟨rfl, .inl hstate⟩⟩

theorem establish_acks (h : Shake t) (hconn : t.signals.connect = false)
    (hstate : t.state = .synReceived) (hflag : has g.flg flagAck = true) (hack : g.ack = t.snd.nxt)
    (h1 : 0 ≤ unaAck t g) : Acks t g (establish t g) := by
  obtain ⟨huna, hnxt⟩ := h.pending (h.synReceived hstate)
  have hne : g.ack ≠ t.snd.una := by
    rw [hack, hnxt, huna]
    intro hz
    bv_omega
  have hframe := establish_frame t g
  have hsyn : (establish t g).pendingSyn = 0 :=
    tcpAck_pendingSyn { t with state := .established } fun hz => hne (Seq.eq_of_sub_eq_zero hz)
  exact ⟨{ hframe with }, hflag, establish_una t g, fun _ => hsyn,
    fun heq => absurd heq hne, h1, by rw [hack], hconn, .inr ⟨hframe.state, .inr hstate⟩⟩

theorem ack_of_advertised {wnd : Nat} (hstate : t.state ≠ .synSent)
    (h : Conn.advertised t g = some wnd) : has g.flg flagAck = true := by
  rw [Conn.advertised, if_neg hstate] at h
  obtain ⟨hcond, -⟩ := Option.ite_none_right_eq_some.mp h
  exact hcond.2.2.2.1

theorem ackWindow_acks {wnd : Nat} (hconn : t.signals.connect = false)
    (hopen : emitsIn t.state = true) (h1 : 0 ≤ unaAck t g) (h2 : 0 ≤ ackNxt t g)
    (hadv : Conn.advertised t g = some wnd) : Acks t g (ackWindow t g) := by
  have hframe := ackWindow_frame t g
  exact ⟨{ hframe with }, ack_of_advertised (emitsIn_ne hopen).1 hadv,
    ackWindow_una t g, ackWindow_pendingSyn, fun heq => ⟨ackWindow_pendingSyn_of_eq heq, hopen⟩,
    h1, dist_ack_le h1 h2, hconn, .inl ⟨hframe.state, hopen⟩⟩

/-- The moves of a connection, with the three kinds of acknowledgement as one. -/
inductive MicroCase (L : List Irregular) (e : Event) (c : Conn) : Conn → Prop
  | move {out : List Sent} {t' : Tcb} (h : Move L e c.tcb out t') :
      MicroCase L e c (c.after (t', out))
  | hear (g : Seg) : MicroCase L e c (c.hear g)
  | app {c' : Conn} (h : AppMove c c') : MicroCase L e c c'
  | ack {g : Seg} {o : InputSupply} {t' : Tcb} (he : e = .input g o) (h : Acks c.tcb g t') :
      MicroCase L e c ((c.hear g).after (t', []))

theorem Micro.case (hm : Micro L e c c') (h : Shake c.tcb) : MicroCase L e c c' := by
  cases hm with
  | move hm => exact .move hm
  | hear => exact .hear _
  | app _ happ => exact .app happ
  | synAck he hconn hstate hack _ h1 h2 => exact .ack he (synAcked_acks h hconn hstate hack h1 h2)
  | establish he hconn hstate hflag hack h1 _ =>
    exact .ack he (establish_acks h hconn hstate hflag hack h1)
  | acked he hconn hopen h1 h2 hadv _ _ => exact .ack he (ackWindow_acks hconn hopen h1 h2 hadv)

theorem Shake.micro (h : Shake c.tcb) (hL : .simultaneousOpen ∈ L) (hm : Micro L e c c') :
    Shake c'.tcb := by
  cases hm.case h with
  | move hmove => exact h.move hL hmove
  | hear => exact h
  | app happ => exact h.same happ.toSameTx
  | @ack g _ t' _ ha =>
    show Shake t'
    by_cases hack : g.ack = c.tcb.snd.una
    · exact h.frame (.inr ha.ne) (ha.stayed hack).1 (.inl ha.pendingFin) ha.connect ha.iss
        (ha.una.trans hack) (.inl ha.nxt)
    · exact h.acked ha.ne ha.pendingFin (ha.connect.trans ha.synSent) (ha.moved hack)

/-! ## The pointers -/

/-- The states in which the application may still close. -/
def mayClose (s : State) : Bool :=
  match s with
  | .synSent | .synReceived | .established | .closeWait => true
  | _ => false

/-- The pointers of the sender, with what keeps them in order. -/
structure Base (t : Tcb) : Prop where
  shake : Shake t
  inv : SndInv t
  finPending : mayClose t.state = true → t.pendingFin = 0
  used : t.pendingFin = 0 → (t.snd.wrptr - t.snd.una).toNat ≤ t.txfifoSize.val
  room : t.signals.connect = true → 1 ≤ (t.snd.wrptr - t.snd.una).toNat

theorem Base.frame (h : Base t) (hshake : Shake t')
    (hstate : mayClose t'.state = true → mayClose t.state = true)
    (hfin : t'.pendingFin = t.pendingFin) (hwrptr : t'.snd.wrptr = t.snd.wrptr)
    (hnxt : t'.snd.nxt = t.snd.nxt) (huna : t'.snd.una = t.snd.una)
    (hsize : t'.txfifoSize = t.txfifoSize) (hconn : t'.signals.connect = t.signals.connect) :
    Base t' where
  shake := hshake
  inv := by
    refine ⟨?_, ?_⟩
    · rw [hwrptr, hnxt, huna]
      exact h.inv.nxt_le
    · rw [hwrptr, huna, hsize]
      exact h.inv.wrptr_le
  finPending hs := hfin ▸ h.finPending (hstate hs)
  used hf := by
    rw [hwrptr, huna, hsize]
    exact h.used (hfin ▸ hf)
  room hc := by
    rw [hwrptr, huna]
    exact h.room (hconn ▸ hc)

/-- `snd.nxt` goes forward, at most to `snd.wrptr`. -/
theorem Base.forward (h : Base t) (hshake : Shake (withNxt t n))
    (hn : (n - t.snd.una).toNat ≤ (t.snd.wrptr - t.snd.una).toNat) : Base (withNxt t n) :=
  ⟨hshake, ⟨hn, h.inv.wrptr_le⟩, h.finPending, h.used, h.room⟩

theorem Follows.mayClose {s s' : State} (h : Follows s s') (hs : mayClose s' = true) :
    mayClose s = true := by
  cases h with
  | stay => exact hs
  | closeWait => rfl
  | _ => cases hs

theorem Base.same (h : Base t) (hs : SameTx t t') : Base t' :=
  h.frame (h.shake.same hs) hs.follows.mayClose hs.pendingFin (by rw [hs.snd]) (by rw [hs.snd])
    (by rw [hs.snd]) hs.txfifoSize hs.connect

theorem dist_fresh {k : Nat} (h : SndInv t) (hk : k ≤ (t.snd.wrptr - t.snd.nxt).toNat) :
    (t.snd.nxt + BitVec.ofNat 32 k - t.snd.una).toNat = (t.snd.nxt - t.snd.una).toNat + k ∧
      (t.snd.nxt - t.snd.una).toNat + k ≤ (t.snd.wrptr - t.snd.una).toNat := by
  have hsplit := Seq.dist_split h.nxt_le
  have hle := h.nxt_le
  exact ⟨Seq.dist_add_ofNat (by omega), by omega⟩

theorem bytesInFifo_le (s : Snd) (seq : SeqNo) : bytesInFifo s seq ≤ (s.wrptr - seq).toNat := by
  unfold bytesInFifo
  split
  · exact Nat.min_le_left _ _
  · exact Nat.le_refl _

theorem Base.move (h : Base t) (hL : .simultaneousOpen ∈ L) (hfull : .overfull ∈ L)
    (hm : Move L e t out t') : Base t' := by
  have hshake := h.shake.move hL hm
  cases hm with
  | other hm => exact h.same hm.sameTx
  | bare | syn => exact h
  | fin => exact h.forward hshake (Nat.le_refl _)
  | @data seq payload hconn hsyn hseq hne hmax hlen hrtx =>
    refine h.forward hshake ?_
    split
    · rename_i hnxt
      have hle := bytesInFifo_le t.snd seq
      rw [← hnxt] at hlen hle
      have hfresh := dist_fresh (k := payload.length) h.inv (by omega)
      rw [hfresh.1]
      exact hfresh.2
    · exact h.inv.nxt_le
  | connect hc =>
    obtain ⟨-, hnxt, huna⟩ := h.shake.connect hc
    have hroom := h.room hc
    refine ⟨hshake, ⟨?_, h.inv.wrptr_le⟩, h.finPending, h.used, fun hc => ?_⟩
    · have hone : (t.snd.nxt + 1 - t.snd.una).toNat = 1 := by
        rw [hnxt, huna]
        bv_omega
      exact Nat.le_trans (Nat.le_of_eq hone) hroom
    · cases hc
  | simultaneous _ hnot => exact absurd hL hnot
  | tooNew _ _ hstate =>
    exact h.frame hshake (fun _ => by rw [hstate]; rfl) rfl rfl rfl rfl rfl rfl
  | @write src _ _ _ havail hused _ _ =>
    have hw := txfifoUsed_written (hused hfull) havail
    have hused' : (t.snd.wrptr - t.snd.una).toNat = (txfifoUsed t).toNat := rfl
    have hnew : ((written t src).snd.wrptr - (written t src).snd.una).toNat =
        (txfifoUsed t).toNat + src.length := hw.1
    have hle := h.inv.nxt_le
    refine ⟨hshake, ⟨?_, ?_⟩, h.finPending, fun _ => ?_, fun hc => ?_⟩
    · rw [hnew]
      exact Nat.le_trans hle (hused' ▸ Nat.le_add_right _ _)
    · rw [hnew]
      exact Nat.le_succ_of_le hw.2
    · rw [hnew]
      exact hw.2
    · rw [hnew]
      exact Nat.le_trans (h.room hc) (hused' ▸ Nat.le_add_right _ _)
  | @queueFin s _ hstate _ _ =>
    have hmay : mayClose t.state = true := by
      rcases hstate with ⟨hs | hs, -⟩ | ⟨hs, -⟩ <;> rw [hs] <;> rfl
    have hused := h.used (h.finPending hmay)
    have hsize := t.txfifoSize.two_mul_le
    have hadd : (t.snd.wrptr + 1 - t.snd.una).toNat = (t.snd.wrptr - t.snd.una).toNat + 1 :=
      Seq.dist_succ (by omega)
    have hle := h.inv.nxt_le
    have hs : mayClose s = false := by
      rcases hstate with ⟨-, rfl⟩ | ⟨-, rfl⟩ <;> rfl
    refine ⟨hshake, ⟨?_, ?_⟩, fun hm => ?_, fun hf => ?_, fun hc => ?_⟩
    · exact Nat.le_trans hle (hadd ▸ Nat.le_add_right _ _)
    · exact Nat.le_trans (Nat.le_of_eq hadd) (Nat.succ_le_succ hused)
    · exact absurd hm (by rw [show (finQueued t s).state = s from rfl, hs]; decide)
    · exact absurd hf (show flagFin ||| flagAck ≠ 0 by decide)
    · exact hadd ▸ Nat.le_add_left _ _

/-- An acknowledgement between `snd.una` and `snd.nxt`. -/
theorem Base.acked (h : Base t) (hshake : Shake t') (ha : Acks t g t') : Base t' where
  shake := hshake
  inv := h.inv.ack ha.wrptr ha.nxt ha.txfifoSize ha.una ha.le
  finPending hm := by
    refine ha.pendingFin.trans (h.finPending ?_)
    rcases ha.next with ⟨hs, -⟩ | ⟨-, hs | hs⟩
    · rwa [← hs]
    · rw [hs]
      rfl
    · rw [hs]
      rfl
  used hf := by
    have hused := h.used (ha.pendingFin ▸ hf)
    have hsplit := Seq.dist_split (Nat.le_trans ha.le h.inv.nxt_le)
    rw [ha.wrptr, ha.una, ha.txfifoSize]
    omega
  room hc := by
    rw [ha.connect.trans ha.synSent] at hc
    cases hc

theorem Base.micro (h : Base c.tcb) (hL : .simultaneousOpen ∈ L) (hfull : .overfull ∈ L)
    (hm : Micro L e c c') : Base c'.tcb := by
  have hshake := h.shake.micro hL hm
  cases hm.case h.shake with
  | move hmove => exact h.move hL hfull hmove
  | hear => exact h
  | app happ => exact h.same happ.toSameTx
  | ack _ ha => exact h.acked hshake ha

theorem Conn.Init.shake (h : Conn.Init c) : Shake c.tcb := by
  cases h with
  | passive iss tx rx buffer g pulled b t out hflg h =>
    have ho := passiveOpen_opened h
    have hne : flagSyn ||| flagAck ≠ 0 := by decide
    have hs : State.synReceived ≠ .synSent := by decide
    refine ⟨fun hc => ?_, fun hs' => ?_, fun _ => ?_, fun _ => ?_, .inr (.inr ho.pendingSyn),
      .inl ho.pendingFin⟩
    · exact absurd (ho.connect.symm.trans hc) (by decide)
    · exact absurd (ho.state.symm.trans hs') hs
    · exact ho.pendingSyn.trans_ne hne
    · show t.snd.una = t.iss ∧ t.snd.nxt = t.iss + 1
      rw [ho.snd, ho.iss]
      exact ⟨rfl, rfl⟩
  | active iss tx rx buffer =>
    refine ⟨fun _ => ⟨rfl, rfl, rfl⟩, fun _ => ⟨rfl, fun hc => ?_⟩, fun hs => ?_, fun hp => ?_,
      .inl rfl, .inl rfl⟩
    · cases hc
    · cases hs
    · exact absurd rfl hp

theorem Conn.Init.base (h : Conn.Init c) : Base c.tcb := by
  have hshake := h.shake
  cases h with
  | passive iss tx rx buffer g pulled b t out hflg h =>
    have ho := passiveOpen_opened h
    have hone : (iss + 1 - iss).toNat = 1 := by bv_omega
    have hpos := t.txfifoSize.pos
    refine ⟨hshake, ⟨?_, ?_⟩, fun _ => ho.pendingFin, fun _ => ?_, fun hc => ?_⟩
    · show (t.snd.nxt - t.snd.una).toNat ≤ (t.snd.wrptr - t.snd.una).toNat
      rw [ho.snd]
    · show (t.snd.wrptr - t.snd.una).toNat ≤ t.txfifoSize.val + 1
      rw [ho.snd]
      exact Nat.le_trans (Nat.le_of_eq hone) (Nat.le_add_left _ _)
    · show (t.snd.wrptr - t.snd.una).toNat ≤ t.txfifoSize.val
      rw [ho.snd]
      exact Nat.le_trans (Nat.le_of_eq hone) hpos
    · exact absurd (ho.connect.symm.trans hc) (by decide)
  | active iss tx rx buffer =>
    have hone : (iss + 1 - iss).toNat = 1 := by bv_omega
    have hzero : (iss - iss).toNat = 0 := by bv_omega
    refine ⟨hshake, ⟨?_, ?_⟩, fun _ => rfl, fun _ => ?_, fun _ => Nat.le_of_eq hone.symm⟩
    · exact Nat.le_trans (Nat.le_of_eq hzero) (Nat.zero_le _)
    · exact Nat.le_trans (Nat.le_of_eq hone) (Nat.le_add_left _ _)
    · exact Nat.le_trans (Nat.le_of_eq hone) tx.pos

/-! ## What was sent -/

/-- The sequence numbers of a segment. -/
def occupied (s : Sent) : Nat :=
  s.payload.length + (if has s.flg flagSyn then 1 else 0) + if has s.flg flagFin then 1 else 0

theorem occupied_bare {s : Sent} (h : Bare t s) : occupied s = 0 := by
  simp [occupied, h.payload, h.noSyn, h.noFin]

theorem occupied_data (t : Tcb) (seq : SeqNo) (payload : List Byte) :
    occupied (tcpOutputTcb t (flagPsh ||| flagAck) seq payload) = payload.length := by
  have h1 : has (flagPsh ||| flagAck) flagSyn = false := by decide
  have h2 : has (flagPsh ||| flagAck) flagFin = false := by decide
  simp [occupied, tcpOutputTcb, h1, h2]

theorem occupied_empty (t : Tcb) (flg : BitVec 8) (seq : SeqNo) :
    occupied (tcpOutputTcb t flg seq []) =
      (if has flg flagSyn then 1 else 0) + if has flg flagFin then 1 else 0 :=
  congrArg (· + if has flg flagFin then 1 else 0) (Nat.zero_add _)

theorem Shake.occupied_syn (h : Shake t) (hp : t.pendingSyn ≠ 0) :
    occupied (tcpOutputTcb t t.pendingSyn t.iss []) = 1 := by
  rcases h.synFlags with hs | hs | hs
  · exact absurd hs hp
  · rw [hs, occupied_empty]
    decide
  · rw [hs, occupied_empty]
    decide

theorem Shake.occupied_fin (h : Shake t) (hp : t.pendingFin ≠ 0) (seq : SeqNo) :
    occupied (tcpOutputTcb t t.pendingFin seq []) = 1 := by
  rcases h.finFlags with hs | hs
  · exact absurd hs hp
  · rw [hs, occupied_empty]
    decide

/-- Everything that was sent is below `snd.nxt`. -/
def LogBelow (c : Conn) : Prop :=
  ∀ p ∈ c.log, occupied p.2 ≠ 0 → p.1 + occupied p.2 ≤ c.pos c.tcb.snd.nxt

theorem Conn.after_acked (h : t'.snd.una = c.tcb.snd.una) : (c.after (t', out)).acked = c.acked := by
  simp [Conn.after, Conn.pos, h]

theorem Conn.after_log (h : t'.snd.una = c.tcb.snd.una) : (c.after (t', out)).log =
    c.log ++ out.map fun s => (c.pos s.seq, s) := by
  simp [Conn.after, Conn.pos, h]

theorem Conn.after_pos (h : t'.snd.una = c.tcb.snd.una) (s : SeqNo) :
    (c.after (t', out)).pos s = c.pos s := by
  simp [Conn.after, Conn.pos, h]

/-- A move that sends at most one segment keeps the log below, if `snd.nxt` does not go back and
the segment ends before it. -/
theorem LogBelow.sent (h : LogBelow c) (huna : t'.snd.una = c.tcb.snd.una)
    (hnxt : c.pos c.tcb.snd.nxt ≤ c.pos t'.snd.nxt)
    (hout : ∀ s ∈ out, occupied s ≠ 0 → c.pos s.seq + occupied s ≤ c.pos t'.snd.nxt) :
    LogBelow (c.after (t', out)) := by
  intro p hp hocc
  rw [Conn.after_pos huna]
  rw [Conn.after_log huna, mem_append, mem_map] at hp
  rcases hp with hp | ⟨s, hs, rfl⟩
  · exact Nat.le_trans (h p hp hocc) hnxt
  · exact hout s hs hocc

theorem LogBelow.move (h : LogBelow c) (hb : Base c.tcb)
    (hL : .simultaneousOpen ∈ L) (hrtx : .beyondNxt ∈ L) (hm : Move L e c.tcb out t') :
    LogBelow (c.after (t', out)) := by
  have huna := hm.una_eq
  have hle := hb.inv.nxt_le
  have hnone : t'.snd.nxt = c.tcb.snd.nxt → out = [] → LogBelow (c.after (t', out)) := by
    rintro hnxt rfl
    exact h.sent huna (by rw [hnxt]) (by simp)
  cases hm with
  | other hm => exact hnone (by rw [hm.sameTx.snd]) rfl
  | bare hbare =>
    refine h.sent rfl (Nat.le_refl _) fun s hs hocc => ?_
    rw [mem_singleton.mp hs, occupied_bare hbare] at hocc
    exact absurd rfl hocc
  | syn hp =>
    refine h.sent rfl (Nat.le_refl _) fun s hs _ => ?_
    obtain ⟨hiss, hnxt⟩ := hb.shake.pending hp
    rw [mem_singleton.mp hs, hb.shake.occupied_syn hp]
    show c.acked + (c.tcb.iss - c.tcb.snd.una).toNat + 1 ≤ c.acked + (c.tcb.snd.nxt - c.tcb.snd.una).toNat
    rw [hiss, hnxt]
    bv_omega
  | @fin seq sent hconn hsyn hfin hseq hone =>
    have hbytes := bytesInFifo_le c.tcb.snd seq
    refine h.sent rfl ?_ fun s hs _ => ?_
    · exact Nat.add_le_add_left hle _
    have hs : s = tcpOutputTcb c.tcb c.tcb.pendingFin seq [] := by
      split at hs
      · exact mem_singleton.mp hs
      · cases hs
    rw [hs, hb.shake.occupied_fin hfin]
    show c.acked + (seq - c.tcb.snd.una).toNat + 1 ≤ c.acked + (c.tcb.snd.wrptr - c.tcb.snd.una).toNat
    rcases hseq with rfl | ⟨rfl, -⟩
    · have hsplit := Seq.dist_split hle
      omega
    · rw [Seq.dist_self]
      omega
  | @data seq payload hconn hsyn hseq hne hmax hlen hbeyond =>
    have hbytes := bytesInFifo_le c.tcb.snd seq
    by_cases hnxt : c.tcb.snd.nxt = seq
    · subst hnxt
      have hfresh := dist_fresh (k := payload.length) hb.inv (by omega)
      rw [if_pos rfl]
      have hpos : c.pos (c.tcb.snd.nxt + BitVec.ofNat 32 payload.length) =
          c.pos c.tcb.snd.nxt + payload.length := by
        rw [Conn.pos, Conn.pos, hfresh.1, Nat.add_assoc]
      refine h.sent rfl ?_ fun s hs _ => ?_
      · exact Nat.le_trans (Nat.le_add_right _ _) (Nat.le_of_eq hpos.symm)
      · rw [mem_singleton.mp hs, occupied_data]
        exact Nat.le_of_eq hpos.symm
    · rw [if_neg hnxt]
      have hshort := hbeyond hrtx (Ne.symm hnxt)
      obtain ⟨rfl, -⟩ := hseq.resolve_left (Ne.symm hnxt)
      refine h.sent rfl (Nat.le_refl _) fun s hs _ => ?_
      rw [mem_singleton.mp hs, occupied_data]
      show c.acked + (c.tcb.snd.una - c.tcb.snd.una).toNat + payload.length ≤
        c.acked + (c.tcb.snd.nxt - c.tcb.snd.una).toNat
      rw [Seq.dist_self]
      omega
  | connect hc =>
    obtain ⟨-, hnxt, hiss⟩ := hb.shake.connect hc
    refine h.sent rfl ?_ (by simp)
    have hzero : (c.tcb.snd.nxt - c.tcb.snd.una).toNat = 0 := by
      rw [hnxt, hiss]
      bv_omega
    refine Nat.add_le_add_left ?_ c.acked
    omega
  | simultaneous _ hnot => exact absurd hL hnot
  | _ => exact hnone rfl rfl

/-- An acknowledgement moves the counting point and the pointer together. -/
theorem Acks.pos_nxt (ha : Acks c.tcb g t') :
    ((c.hear g).after (t', [])).pos t'.snd.nxt = c.pos c.tcb.snd.nxt := by
  have hle := ha.le
  have hsplit := Seq.dist_split hle
  show c.acked + (t'.snd.una - c.tcb.snd.una).toNat + (t'.snd.nxt - t'.snd.una).toNat =
    c.acked + (c.tcb.snd.nxt - c.tcb.snd.una).toNat
  rw [ha.nxt, ha.una]
  omega

theorem LogBelow.acked (h : LogBelow c) (ha : Acks c.tcb g t') :
    LogBelow ((c.hear g).after (t', [])) := by
  intro p hp hocc
  have hp : p ∈ c.log := by simpa [Conn.after, Conn.hear] using hp
  exact Nat.le_trans (h p hp hocc) (Nat.le_of_eq ha.pos_nxt.symm)

theorem LogBelow.micro (h : LogBelow c) (hb : Base c.tcb)
    (hL : .simultaneousOpen ∈ L) (hrtx : .beyondNxt ∈ L) (hm : Micro L e c c') : LogBelow c' := by
  cases hm.case hb.shake with
  | move hmove => exact h.move hb hL hrtx hmove
  | hear => exact h
  | app happ =>
    intro p hp hocc
    rw [happ.log] at hp
    rw [Conn.pos, happ.acked, happ.snd]
    exact h p hp hocc
  | ack _ ha => exact h.acked ha

theorem Conn.Init.logBelow (h : Conn.Init c) : LogBelow c := by
  cases h with
  | passive iss tx rx buffer g pulled b t out hflg h =>
    have ho := passiveOpen_opened h
    intro p hp _
    obtain ⟨s, hs, rfl⟩ := mem_map.mp hp
    obtain ⟨hseq, hflg, hpay, -⟩ := ho.out s hs
    have hone : occupied s = 1 := by
      rw [occupied, hpay, hflg]
      decide
    show (s.seq - t.iss).toNat + occupied s ≤ 0 + (t.snd.nxt - t.snd.una).toNat
    rw [hone, hseq, ho.iss, ho.snd]
    bv_omega
  | active iss tx rx buffer =>
    intro p hp _
    cases hp

/-! ## Runs -/

/-- What the order of the pointers depends on. -/
def sendIrregular : List Irregular := [.simultaneousOpen, .beyondNxt, .overfull]

/-- The acknowledgement is not for more than was sent. -/
def Truthful (c : Conn) (g : Seg) : Prop :=
  ∃ p ∈ c.log, occupied p.2 ≠ 0 ∧ c.pos g.ack ≤ p.1 + occupied p.2

instance (c : Conn) (g : Seg) : Decidable (Truthful c g) := by
  unfold Truthful
  infer_instance

theorem not_tooNew (hinv : SndInv c.tcb) (hlog : LogBelow c)
    (hsize : c.tcb.txfifoSize.val ≤ 1073741824) (h : Truthful c g) : 0 ≤ ackNxt c.tcb g := by
  obtain ⟨p, hp, hocc, hle⟩ := h
  have hbelow := hlog p hp hocc
  rw [Conn.pos] at hle hbelow
  have hnxt := hinv.nxt_le
  have hwrptr := hinv.wrptr_le
  have hsplit := Seq.dist_split (a := c.tcb.snd.una) (b := g.ack) (c := c.tcb.snd.nxt) (by omega)
  rw [ackNxt, Seq.toInt_nonneg]
  omega

/-- In every run without the irregular events `snd.una`, `snd.nxt` and `snd.wrptr` are in order and
at most `txfifo_size + 1` apart, all that was ever sent is below `snd.nxt`, and an acknowledgement
of it is not too new. -/
theorem send_pointers_ordered {c0 : Conn} {es : List Event} (hinit : Conn.Init c0)
    (hrun : Run (Guarded (fun c e => Regular sendIrregular c.tcb e) Conn.Step) c0 es c) :
    ((c.tcb.snd.nxt - c.tcb.snd.una).toNat ≤ (c.tcb.snd.wrptr - c.tcb.snd.una).toNat ∧
      (c.tcb.snd.wrptr - c.tcb.snd.una).toNat ≤ c.tcb.txfifoSize.val + 1) ∧
    (∀ p ∈ c.log, occupied p.2 ≠ 0 → p.1 + occupied p.2 ≤ c.pos c.tcb.snd.nxt) ∧
    (c.tcb.txfifoSize.val ≤ 1073741824 → ∀ g, Truthful c g → 0 ≤ ackNxt c.tcb g) := by
  have h : Base c.tcb ∧ LogBelow c := by
    refine invariant_of_micro (I := fun c => Base c.tcb ∧ LogBelow c) ?_
      (fun hL => absurd hL (by decide)) hrun hinit.dormant ⟨hinit.base, hinit.logBelow⟩
    rintro e c c' ⟨hb, hlog⟩ hm
    exact ⟨hb.micro (by decide) (by decide) hm, hlog.micro hb (by decide) (by decide) hm⟩
  exact ⟨⟨h.1.inv.nxt_le, h.1.inv.wrptr_le⟩, h.2, fun hsize g => not_tooNew h.1.inv h.2 hsize⟩

/-! ## Three runs -/

def lots : Option Supply := some ⟨2, true⟩

/-- The task with one segment to send. -/
def taskOne : TaskSupply := ⟨lots, lots, [lots, lots], lots⟩

/-- A peer with a window of 10 bytes; 100 bytes are written and the timer fires. -/
def overreach : List Event :=
  [.input (bareSeg 501 101 flagAck 10) plenty, .write [List.replicate 100 7] false false,
    .task taskOne, .rtx false lots]

/-- Both sides open at the same time. -/
def crossing : List Event := [.task taskOne, .input (bareSeg 500 0 flagSyn 1000) plenty]

/-- The peer has no window; the FIFO is filled, closed and written again. -/
def writeAfterClose : List Event :=
  [.input (bareSeg 501 101 flagAck 0) plenty, .write [[1, 2, 3, 4]] false true, .close,
    .task taskOne, .write [[5]] false true]

/-- A retransmission sends bytes that are not below `snd.nxt`, and their acknowledgement is too new;
after a simultaneous open `snd.nxt` is beyond `snd.wrptr`; a write after the FIN makes the FIFO
longer than it is. -/
theorem pointers_not_ordered : (∃ c0 c, Conn.Init c0 ∧ Run Conn.Step c0 overreach c ∧
      (∃ p ∈ c.log, occupied p.2 ≠ 0 ∧ c.pos c.tcb.snd.nxt < p.1 + occupied p.2) ∧
      Truthful c (bareSeg 501 201 flagAck 10) ∧ ackNxt c.tcb (bareSeg 501 201 flagAck 10) < 0) ∧
    (∃ c0 c, Conn.Init c0 ∧ Run Conn.Step c0 crossing c ∧
      (c.tcb.snd.wrptr - c.tcb.snd.una).toNat < (c.tcb.snd.nxt - c.tcb.snd.una).toNat) ∧
    ∃ c0 c, Conn.Init c0 ∧ Run Conn.Step c0 writeAfterClose c ∧
      c.tcb.txfifoSize.val + 1 < (c.tcb.snd.wrptr - c.tcb.snd.una).toNat := by
  exact ⟨run_of_opened size4096 size2048 100 500 (by decide +kernel),
    run_of_connected size4096 size2048 100 (by decide +kernel),
    run_of_opened size4 size2048 100 500 (by decide +kernel)⟩

/-- Data, a retransmission of all of it and its acknowledgement. -/
def resent : List Event :=
  [.input (bareSeg 501 101 flagAck 1000) plenty, .write [List.replicate 100 7] false false,
    .task taskOne, .rtx false lots, .input (bareSeg 501 201 flagAck 1000) plenty]

theorem resent_ordered : ∃ c0 c, Conn.Init c0 ∧
    Run (Guarded (fun c e => Regular sendIrregular c.tcb e) Conn.Step) c0 resent c ∧
    c.log.length = 3 ∧ c.acked = 101 ∧
    (∀ p ∈ c.log, occupied p.2 ≠ 0 → p.1 + occupied p.2 ≤ c.pos c.tcb.snd.nxt) := by
  obtain ⟨c0, c, hinit, hrun, hlog, hacked⟩ := guarded_run_of_opened size4096 size2048 100 500 resent
    (fun c e => Regular sendIrregular c.tcb e)
    (P := fun c => c.log.length = 3 ∧ c.acked = 101) (by decide +kernel)
  exact ⟨c0, c, hinit, hrun, hlog, hacked, (send_pointers_ordered hinit hrun).2.1⟩

end Mios.Tcp
