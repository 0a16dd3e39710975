import Mios.Tcp.Send

/-! A connection that a SYN has opened, while its SYN-ACK is not acknowledged: whatever happens, the
SYN stays the only thing outstanding and the retransmission timer stays armed, until it is
acknowledged or the connection is closed. -/

namespace Mios.Tcp

open Lib

variable {L : List Irregular} {e : Event} {t t' : Tcb} {out : List Sent} {c c' : Conn} {R : Prop}
  {n : SeqNo}

/-- The states in which the SYN-ACK may be unacknowledged. -/
def awaitsAck (s : State) : Bool :=
  match s with
  | .synReceived | .established | .finWait1 | .closing | .closeWait | .lastAck => true
  | _ => false

/-- The SYN-ACK is outstanding and its timer armed. -/
structure Waiting (t : Tcb) : Prop where
  syn : t.pendingSyn = flagSyn ||| flagAck
  state : awaitsAck t.state = true
  timer : t.rtxTimer = true

theorem Waiting.pending (h : Waiting t) : t.pendingSyn ≠ 0 := by
  rw [h.syn]
  decide

/-- What holds of a connection that a SYN has opened and whose first number is `n`. While it waits,
`R` keeps what was so when it began to. -/
structure Passive (R : Prop) (n : SeqNo) (t : Tcb) : Prop where
  base : Base t
  connect : t.signals.connect = false
  opened : t.state ≠ .synSent
  iss : t.iss = n
  syn : t.pendingSyn = 0 ∨ t.state = .closed ∨ R ∧ Waiting t

section

variable (h : Passive R n t)
include h

theorem Passive.una (hw : Waiting t) : t.snd.una = n :=
  (h.base.shake.pending hw.pending).1.trans h.iss

theorem Passive.nxt (hw : Waiting t) : t.snd.nxt = n + 1 := by
  rw [(h.base.shake.pending hw.pending).2, h.iss]

theorem Passive.una_ne_nxt (hw : Waiting t) : t.snd.una ≠ t.snd.nxt := by
  rw [h.una hw, h.nxt hw]
  intro heq
  bv_omega

/-- The SYN-ACK is sent again, if there is a buffer for it. -/
theorem Passive.resent (hw : Waiting t) (b : Supply) (hsent : b.sent = true) :
    (tcpRtxCb t false (some b)).2 = [tcpOutputTcb t (flagSyn ||| flagAck) n []] := by
  have hne : t.snd.una ≠ t.snd.wrptr := by
    intro heq
    have hle := h.base.inv.nxt_le
    rw [← heq, BitVec.sub_self] at hle
    exact h.una_ne_nxt hw (Seq.toNat_sub_eq_zero.mp (Nat.le_zero.mp hle)).symm
  have hemit : (tcpEmit { t with rtxTimer := false } (some b) t.snd.una false).out =
      [tcpOutputTcb t t.pendingSyn t.iss []] := by
    rw [tcpEmit, if_pos hw.pending, output, if_pos hsent]
    rfl
  unfold tcpRtxCb
  dsimp only
  rw [if_neg (by decide), if_neg hne, hemit, hw.syn, h.iss]

/-! ## Moves -/

theorem Passive.next (hb : Base t') (hconn : t'.signals.connect = t.signals.connect)
    (hiss : t'.iss = t.iss) (hstate : t'.state ≠ .synSent)
    (hsyn : t.pendingSyn = 0 → t'.pendingSyn = 0) (hclosed : t.state = .closed → t'.state = .closed)
    (hw : Waiting t → t'.pendingSyn = 0 ∨ t'.state = .closed ∨ Waiting t') : Passive R n t' := by
  refine ⟨hb, hconn.trans h.connect, hstate, hiss.trans h.iss, ?_⟩
  rcases h.syn with hz | hc | ⟨hr, hwait⟩
  · exact .inl (hsyn hz)
  · exact .inr (.inl (hclosed hc))
  · exact (hw hwait).imp_right (Or.imp_right fun hw => ⟨hr, hw⟩)

theorem Passive.same (hs : SameTx t t') (hw : Waiting t → t'.state = .closed ∨
      awaitsAck t'.state = true ∧ t'.rtxTimer = true) : Passive R n t' := by
  refine h.next (h.base.same hs) hs.connect hs.iss ?_ hs.pendingSyn.trans (fun hc => ?_)
    fun hwait => ?_
  · rcases hs.follows.unshaken with heq | hne
    · rw [heq]
      exact h.opened
    · exact hne.1
  · have hfollows := hs.follows
    rw [hc] at hfollows
    generalize t'.state = s at hfollows ⊢
    cases hfollows <;> rfl
  · exact .inr ((hw hwait).imp_right fun hto => ⟨hs.pendingSyn.trans hwait.syn, hto.1, hto.2⟩)

/-- What was acknowledged before is not the SYN-ACK. -/
theorem Passive.ack_ne (hw : Waiting t) {g : Seg} (hold : unaAck t g ≤ 0) : g.ack ≠ t.snd.nxt := by
  intro hack
  have hone : n + 1 - n = 1 := by bv_omega
  rw [unaAck, hack, h.nxt hw, h.una hw, hone] at hold
  exact absurd hold (by decide)

theorem Passive.other (hm : OtherMove L e t t') : Passive R n t' := by
  refine h.same hm.sameTx fun hw => ?_
  cases hm with
  | quiet hs => exact .inr ⟨by rw [hs.state]; exact hw.state, hs.rtxTimer.trans hw.timer⟩
  | arm harm => exact .inr ⟨hw.state, harm hw.timer⟩
  | finAcked _ _ _ hack hold => exact absurd hack (h.ack_ne hw hold)
  | lastAck | abort | expire => exact .inl rfl
  | store =>
    obtain ⟨buffer, nxt, hstore⟩ := storeData_frame t _
    rw [hstore]
    exact .inr ⟨hw.state, hw.timer⟩
  | finRcvd => exact .inr ⟨hw.state, hw.timer⟩
  | finState _ _ _ _ hold =>
    unfold afterFin
    split
    · exact .inr ⟨rfl, hw.timer⟩
    · exact .inr ⟨rfl, hw.timer⟩
    · rename_i hs
      rw [if_neg (h.ack_ne hw (hold hs))]
      exact .inr ⟨rfl, hw.timer⟩
    · rename_i hs
      exact absurd (hs ▸ hw.state) (by decide)
    · exact .inr ⟨hw.state, hw.timer⟩

theorem Passive.move (hL : .simultaneousOpen ∈ L) (hfull : .overfull ∈ L)
    (hm : Move L e t out t') : Passive R n t' := by
  have hb := h.base.move hL hfull hm
  cases hm with
  | other hm => exact h.other hm
  | bare | syn => exact h
  | fin _ _ hsyn | data _ hsyn => exact ⟨hb, h.connect, h.opened, h.iss, .inl hsyn⟩
  | connect hc => exact absurd (h.connect.symm.trans hc) (by decide)
  | simultaneous _ hnot => exact absurd hL hnot
  | tooNew _ _ hs =>
    exact h.next hb rfl rfl (fun hs => by cases hs) id (fun hc => by cases hs.symm.trans hc)
      fun hw => .inr (.inr { hw with state := rfl })
  | write => exact h.next hb rfl rfl h.opened id id fun hw => .inr (.inr { hw with })
  | @queueFin s _ hstate =>
    have hs : awaitsAck s = true := by
      rcases hstate with ⟨-, rfl⟩ | ⟨-, rfl⟩ <;> rfl
    refine h.next hb rfl rfl ?_ id (fun hc => ?_) fun hw => .inr (.inr { hw with state := hs })
    · rintro rfl
      cases hs
    · rw [hc] at hstate
      rcases hstate with ⟨hs | hs, -⟩ | ⟨hs, -⟩ <;> cases hs

end

theorem Passive.micro (h : Passive R n c.tcb) (hL : .simultaneousOpen ∈ L) (hfull : .overfull ∈ L)
    (hm : Micro L e c c') : Passive R n c'.tcb := by
  have hb := h.base.micro hL hfull hm
  cases hm.case h.base.shake with
  | move hmove => exact h.move hL hfull hmove
  | hear => exact h
  | app happ =>
    refine h.same happ.toSameTx fun hw => .inr ⟨?_, happ.rtxTimer.trans hw.timer⟩
    rw [happ.state]
    exact hw.state
  | @ack g _ t' _ ha =>
    refine h.next hb ha.connect ha.iss ha.ne.1 (fun hz => ?_) (fun hc => ?_) fun hw => ?_
    · by_cases hack : g.ack = c.tcb.snd.una
      · exact (ha.stayed hack).1.trans hz
      · exact ha.moved hack
    · rcases ha.next with ⟨-, hs⟩ | ⟨-, hs | hs⟩ <;> rw [hc] at hs <;> cases hs
    · by_cases hack : g.ack = c.tcb.snd.una
      · obtain ⟨hsyn, hopen⟩ := ha.stayed hack
        have hsame : t'.state = c.tcb.state := by
          rcases ha.next with ⟨hs, -⟩ | ⟨-, hs | hs⟩
          · exact hs
          all_goals
            rw [hs] at hopen
            cases hopen
        exact .inr (.inr ⟨hsyn.trans hw.syn, hsame.symm ▸ hw.state, ha.rtxTimer hw.timer⟩)
      · exact .inl (ha.moved hack)

/-! ## Steps -/

/-- The TX FIFO has no more than its size. -/
def NotOverfull (t : Tcb) : Prop := (txfifoUsed t).toNat ≤ t.txfifoSize.val

instance (t : Tcb) : Decidable (NotOverfull t) := by
  unfold NotOverfull
  infer_instance

/-- No write to a FIFO that has more than its size. -/
def WriteOk (t : Tcb) : Event → Prop
  | .write _ _ _ => NotOverfull t
  | _ => True

instance (t : Tcb) (e : Event) : Decidable (WriteOk t e) := by
  unfold WriteOk
  split <;> infer_instance

theorem Passive.step (h : Passive R n c.tcb) (hok : WriteOk c.tcb e)
    (hstep : c.step e = some c') : Passive R n c'.tcb := by
  have hreg : Regular [.simultaneousOpen, .overfull] c.tcb e := by
    intro x hx
    have hx : x = .simultaneousOpen ∨ x = .overfull := by simpa using hx
    rcases hx with rfl | rfl
    · cases e <;> simp [occurs, occursInput, occursTask, h.opened]
    · cases e with
      | write => simpa [occurs, WriteOk, NotOverfull] using hok
      | _ => simp [occurs, occursInput, occursTask]
  have hmicros := step_micros hreg (dormant_of_connect h.connect) (by simp) hstep
  clear hstep hok hreg
  induction hmicros with
  | refl => exact h
  | tail _ hm ih => exact ih.micro (by simp) (by simp) hm

end Mios.Tcp
