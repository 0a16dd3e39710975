import Mios.Tcp.Send

/-! The handshake: a connection gets to `ESTABLISHED` by the acknowledgement of its SYN, and after
that no SYN is sent. -/

namespace Mios.Tcp

open Lib Relation List

variable {L : List Irregular} {e : Event} {t t' : Tcb} {g : Seg} {out : List Sent} {c c' d : Conn}

/-- `ESTABLISHED` and everything after it. -/
def synchronized (s : State) : Bool :=
  match s with
  | .established | .finWait1 | .finWait2 | .closing | .timeWait | .closeWait | .lastAck => true
  | _ => false

/-- What has to be excluded. -/
structure Orderly (L : List Irregular) : Prop where
  simultaneous : .simultaneousOpen ∈ L
  tooNew : .tooNewAck ∈ L
  close : .closeInSynReceived ∈ L

/-- The SYN is pending only before `ESTABLISHED`. -/
structure Synced (t : Tcb) : Prop where
  shake : Shake t
  connect : t.signals.connect = true → t.state = .synSent ∨ t.state = .closed
  noSyn : synchronized t.state = true → t.pendingSyn = 0

theorem Synced.frame (h : Synced t) (hshake : Shake t')
    (hstate : synchronized t'.state = true → synchronized t.state = true)
    (hconn : t'.signals.connect = true → t.signals.connect = true ∧
      (t'.state = t.state ∨ t'.state = .closed))
    (hsyn : t'.pendingSyn = t.pendingSyn) : Synced t' where
  shake := hshake
  connect hc := by
    obtain ⟨hc, hs | hs⟩ := hconn hc
    · rw [hs]
      exact h.connect hc
    · exact .inr hs
  noSyn hs := hsyn ▸ h.noSyn (hstate hs)

/-- With the SYN still to be sent, a synchronized state is impossible. -/
theorem Synced.connect_eq_false (h : Synced t) (hs : synchronized t.state = true) :
    t.signals.connect = false := by
  refine Bool.eq_false_iff.mpr fun hc => ?_
  rcases h.connect hc with hs' | hs' <;> rw [hs'] at hs <;> cases hs

theorem Follows.synchronized {s s' : State} (h : Follows s s') (hs : synchronized s' = true) :
    synchronized s = true := by
  cases h with
  | stay => exact hs
  | close => cases hs
  | _ => rfl

theorem Synced.same (h : Synced t) (hs : SameTx t t') : Synced t' := by
  refine h.frame (h.shake.same hs) hs.follows.synchronized (fun hc => ?_) hs.pendingSyn
  rw [hs.connect] at hc
  refine ⟨hc, ?_⟩
  have hstart := h.connect hc
  have hnext := hs.follows
  generalize t.state = s, t'.state = s' at hstart hnext ⊢
  cases hnext with
  | stay => exact .inl rfl
  | close => exact .inr rfl
  | _ => rcases hstart with hstart | hstart <;> cases hstart

theorem Synced.move (h : Synced t) (hL : Orderly L) (hm : Move L e t out t') : Synced t' := by
  have hshake := h.shake.move hL.simultaneous hm
  cases hm with
  | other hm => exact h.same hm.sameTx
  | bare | syn => exact h
  | fin | data | write => exact h.frame hshake id (fun hc => ⟨hc, .inl rfl⟩) rfl
  | connect hc =>
    refine ⟨hshake, fun hc => (by cases hc), fun hs => ?_⟩
    rw [h.connect_eq_false hs] at hc
    cases hc
  | simultaneous _ hnot => exact absurd hL.simultaneous hnot
  | tooNew _ hnot => exact absurd hL.tooNew hnot
  | queueFin _ hstate hsyn =>
    have hs : synchronized t.state = true := by
      rcases hstate with ⟨hs | hs, -⟩ | ⟨hs, -⟩
      · rw [hs]
        rfl
      · exact absurd hs (hsyn hL.close)
      · rw [hs]
        rfl
    refine h.frame hshake (fun _ => hs) (fun hc => ?_) rfl
    exact absurd hc (by rw [show (finQueued t _).signals = t.signals from rfl,
      h.connect_eq_false hs]; decide)

theorem Synced.micro (h : Synced c.tcb) (hL : Orderly L) (hm : Micro L e c c') : Synced c'.tcb := by
  have hshake := h.shake.micro hL.simultaneous hm
  cases hm.case h.shake with
  | move hmove => exact h.move hL hmove
  | hear => exact h
  | app happ => exact h.same happ.toSameTx
  | @ack g _ t' _ ha =>
    refine ⟨hshake, fun hc => ?_, fun _ => ?_⟩
    · exact absurd ((ha.connect.trans ha.synSent).symm.trans hc) (by decide)
    show t'.pendingSyn = 0
    by_cases hack : g.ack = c.tcb.snd.una
    · obtain ⟨hsyn, hopen⟩ := ha.stayed hack
      rw [hsyn]
      exact h.noSyn (by cases hs : c.tcb.state <;> rw [hs] at hopen <;> first | rfl | cases hopen)
    · exact ha.moved hack

theorem Conn.Init.synced (h : Conn.Init c) : Synced c.tcb := by
  have hshake := h.shake
  cases h with
  | passive iss tx rx buffer g pulled b t out hflg h =>
    have ho := passiveOpen_opened h
    refine ⟨hshake, fun hc => ?_, fun hs => ?_⟩
    · exact absurd (ho.connect.symm.trans hc) (by decide)
    · have hs' : synchronized t.state = true := hs
      rw [ho.state] at hs'
      cases hs'
  | active iss tx rx buffer => exact ⟨hshake, fun _ => .inl rfl, fun hs => by cases hs⟩

/-! ## Entering `ESTABLISHED` -/

/-- Our SYN was sent and not yet acknowledged. -/
def handshaking (s : State) : Bool := s == .synSent || s == .synReceived

/-- The state moves on, but not to `ESTABLISHED`. -/
def Later (s s' : State) : Prop :=
  s' = s ∨ s' = .closed ∨ synchronized s = true ∧ synchronized s' = true ∧ s' ≠ .established

instance (s s' : State) : Decidable (Later s s') := by
  unfold Later
  infer_instance

theorem Later.trans {s s' s'' : State} (h : Later s s') (h' : Later s' s'') : Later s s'' := by
  rcases h' with rfl | hclosed | ⟨hs', hs'', hne⟩
  · exact h
  · exact .inr (.inl hclosed)
  · rcases h with rfl | rfl | ⟨hs, -, -⟩
    · exact .inr (.inr ⟨hs', hs'', hne⟩)
    · cases hs'
    · exact .inr (.inr ⟨hs, hs'', hne⟩)

/-- There is no way back to the handshake. -/
theorem Later.eq_of_handshaking {s s' : State} (h : Later s s') (hs : handshaking s' = true) :
    s' = s := by
  rcases h with h | rfl | ⟨-, hs', -⟩
  · exact h
  · cases hs
  · cases s' with
    | synSent | synReceived => cases hs'
    | _ => cases hs

theorem Follows.later {s s' : State} (h : Follows s s') : Later s s' := by
  cases h with
  | stay => exact .inl rfl
  | close => exact .inr (.inl rfl)
  | _ => decide

theorem Move.later (hL : Orderly L) (hm : Move L e t out t') : Later t.state t'.state := by
  cases hm with
  | other hm => exact hm.sameTx.follows.later
  | simultaneous _ hnot => exact absurd hL.simultaneous hnot
  | tooNew _ hnot => exact absurd hL.tooNew hnot
  | queueFin _ hstate hsyn =>
    rcases hstate with ⟨hs | hs, rfl⟩ | ⟨hs, rfl⟩
    · rw [hs]
      show Later .established .finWait1
      decide
    · exact absurd hs (hsyn hL.close)
    · rw [hs]
      show Later .closeWait .lastAck
      decide
  | _ => exact .inl rfl

theorem Move.iss_eq (hL : Orderly L) (hm : Move L e t out t') : t'.iss = t.iss := by
  cases hm with
  | other hm => exact hm.sameTx.iss
  | simultaneous _ hnot => exact absurd hL.simultaneous hnot
  | _ => rfl

/-- In the states before `ESTABLISHED` the SYN is all that is outstanding. -/
theorem Synced.outstanding (h : Synced t) (hc : t.signals.connect = false)
    (hs : handshaking t.state = true) :
    t.pendingSyn ≠ 0 ∧ t.snd.una = t.iss ∧ t.snd.nxt = t.iss + 1 := by
  have hp : t.pendingSyn ≠ 0 := by
    cases hst : t.state with
    | synSent => exact (h.shake.synSent hst).2 hc
    | synReceived => exact h.shake.synReceived hst
    | _ =>
      rw [hst] at hs
      cases hs
  exact ⟨hp, h.shake.pending hp⟩

/-- The event brings an acknowledgement of our SYN. -/
def acksSyn (t : Tcb) (e : Event) : Prop :=
  ∃ g o, e = .input g o ∧ has g.flg flagAck = true ∧ g.ack = t.iss + 1

/-- A move leads to `ESTABLISHED` only with an acknowledgement of our SYN. -/
theorem Micro.later (h : Synced c.tcb) (hL : Orderly L) (hm : Micro L e c c') :
    c'.tcb.iss = c.tcb.iss ∧ (Later c.tcb.state c'.tcb.state ∨
      handshaking c.tcb.state = true ∧ acksSyn c.tcb e) := by
  cases hm.case h.shake with
  | move hmove => exact ⟨hmove.iss_eq hL, .inl (hmove.later hL)⟩
  | hear => exact ⟨rfl, .inl (.inl rfl)⟩
  | app happ => exact ⟨happ.iss, .inl (.inl happ.state)⟩
  | @ack g o _ he ha =>
    refine ⟨ha.iss, ?_⟩
    rcases ha.next with ⟨hs, -⟩ | ⟨-, hs⟩
    · exact .inl (.inl hs)
    have hshaking : handshaking c.tcb.state = true := by
      rcases hs with hs | hs <;> rw [hs] <;> rfl
    obtain ⟨hp, -⟩ := h.outstanding ha.synSent hshaking
    refine .inr ⟨hshaking, g, o, he, ha.flag, h.shake.ack_eq hp (fun hack => ?_) ha.le⟩
    have hopen := (ha.stayed hack).2
    rcases hs with hs | hs <;> rw [hs] at hopen <;> cases hopen

theorem Micros.later (h : Synced c.tcb) (hL : Orderly L) (hm : Micros L e c c') :
    Synced c'.tcb ∧ c'.tcb.iss = c.tcb.iss ∧ (Later c.tcb.state c'.tcb.state ∨
      handshaking c.tcb.state = true ∧ acksSyn c.tcb e) := by
  induction hm with
  | refl => exact ⟨h, rfl, .inl (.inl rfl)⟩
  | @tail d d' _ hm ih =>
    obtain ⟨hd, hiss, hlater⟩ := ih
    obtain ⟨hiss', hlater'⟩ := hm.later hd hL
    refine ⟨hd.micro hL hm, hiss'.trans hiss, ?_⟩
    rcases hlater with hlater | hack
    · rcases hlater' with hlater' | ⟨hs, g, o, he, hflg, hack⟩
      · exact .inl (hlater.trans hlater')
      · rw [hlater.eq_of_handshaking hs] at hs
        exact .inr ⟨hs, g, o, he, hflg, hack.trans (by rw [hiss])⟩
    · exact .inr hack

/-! ## No SYN after `ESTABLISHED` -/

theorem Move.noSyn (h : Shake t) (hL : Orderly L) (hp : t.pendingSyn = 0)
    (hm : Move L e t out t') : ∀ s ∈ out, has s.flg flagSyn = false := by
  intro s hs
  cases hm with
  | bare hbare =>
    rw [mem_singleton.mp hs]
    exact hbare.noSyn
  | syn hsyn => exact absurd hp hsyn
  | fin sent _ _ hfin =>
    cases sent with
    | false => cases hs
    | true =>
      rw [mem_singleton.mp hs, h.finFlags.resolve_left hfin]
      show has (flagFin ||| flagAck) flagSyn = false
      decide
  | data =>
    rw [mem_singleton.mp hs]
    show has (flagPsh ||| flagAck) flagSyn = false
    decide
  | simultaneous _ hnot => exact absurd hL.simultaneous hnot
  | _ => cases hs

theorem Move.pendingSyn_eq (hL : Orderly L) (hc : t.signals.connect = false)
    (hm : Move L e t out t') : t'.pendingSyn = t.pendingSyn := by
  cases hm with
  | other hm => exact hm.sameTx.pendingSyn
  | connect hc' =>
    rw [hc] at hc'
    cases hc'
  | simultaneous _ hnot => exact absurd hL.simultaneous hnot
  | _ => rfl

/-- The SYN is behind us, and none was sent after the segments `log`. -/
structure Spoken (log : List (Nat × Sent)) (c : Conn) : Prop where
  synced : Synced c.tcb
  pendingSyn : c.tcb.pendingSyn = 0
  connect : c.tcb.signals.connect = false
  since : ∃ more, c.log = log ++ more ∧ ∀ p ∈ more, has p.2.flg flagSyn = false

theorem Spoken.micro {log : List (Nat × Sent)} (h : Spoken log c) (hL : Orderly L)
    (hm : Micro L e c c') : Spoken log c' := by
  have hsynced := h.synced.micro hL hm
  have hconn := hm.connect_eq_false h.connect
  obtain ⟨more, hlog, hmore⟩ := h.since
  cases hm.case h.synced.shake with
  | @move out t' hmove =>
    refine ⟨hsynced, (hmove.pendingSyn_eq hL h.connect).trans h.pendingSyn, hconn,
      more ++ out.map fun s => (c.pos t'.snd.una + (s.seq - t'.snd.una).toNat, s), ?_, ?_⟩
    · show c.log ++ _ = _
      rw [hlog, append_assoc]
    intro p hp
    rcases mem_append.mp hp with hp | hp
    · exact hmore p hp
    · obtain ⟨s, hs, rfl⟩ := mem_map.mp hp
      exact hmove.noSyn h.synced.shake hL h.pendingSyn s hs
  | hear => exact ⟨hsynced, h.pendingSyn, hconn, more, hlog, hmore⟩
  | app happ =>
    exact ⟨hsynced, happ.pendingSyn.trans h.pendingSyn, hconn, more, happ.log.trans hlog, hmore⟩
  | @ack g _ t' _ ha =>
    refine ⟨hsynced, ?_, hconn, more, (append_nil _).trans hlog, hmore⟩
    show t'.pendingSyn = 0
    by_cases hack : g.ack = c.tcb.snd.una
    · exact (ha.stayed hack).1.trans h.pendingSyn
    · exact ha.moved hack

/-! ## Runs -/

/-- What the handshake depends on. -/
def shakeIrregular : List Irregular := [.simultaneousOpen, .tooNewAck, .closeInSynReceived]

theorem orderly_shakeIrregular : Orderly shakeIrregular := ⟨by decide, by decide, by decide⟩

theorem synced_of_run {c0 : Conn} {es : List Event} (hinit : Conn.Init c0)
    (hrun : Run (Guarded (fun c e => Regular shakeIrregular c.tcb e) Conn.Step) c0 es c) :
    Synced c.tcb ∧ Dormant c.tcb := by
  refine ⟨?_, dormant_of_run hrun hinit.dormant⟩
  exact invariant_of_micro (I := fun c => Synced c.tcb)
    (fun _ _ _ hs hm => hs.micro orderly_shakeIrregular hm) (fun hL => absurd hL (by decide)) hrun
    hinit.dormant hinit.synced

/-- A step to `ESTABLISHED`, or in one event beyond it, is the acknowledgement of our SYN. -/
theorem step_acksSyn (hs : Synced c.tcb) (hd : Dormant c.tcb)
    (hreg : Regular shakeIrregular c.tcb e) (hstep : c.Step e c')
    (h : c.tcb.state ≠ .established ∧ c'.tcb.state = .established ∨
      synchronized c.tcb.state = false ∧ synchronized c'.tcb.state = true) :
    handshaking c.tcb.state = true ∧ acksSyn c.tcb e := by
  have hmicros := step_micros hreg hd (fun hL => absurd hL (by decide)) hstep
  obtain ⟨-, -, hlater | hack⟩ := hmicros.later hs orderly_shakeIrregular
  · exfalso
    rcases hlater with heq | heq | ⟨hsync, -, hne⟩
    · rw [heq] at h
      rcases h with ⟨h1, h2⟩ | ⟨h1, h2⟩
      · exact h1 h2
      · rw [h1] at h2
        cases h2
    · rw [heq] at h
      rcases h with ⟨-, h2⟩ | ⟨-, h2⟩ <;> cases h2
    · rcases h with ⟨-, h2⟩ | ⟨h1, -⟩
      · exact hne h2
      · rw [h1] at hsync
        cases hsync
  · exact hack

/-- In every run without the irregular events the SYN is not pending from `ESTABLISHED` on, none is
sent from then on, and what leads there is an acknowledgement of exactly our SYN. -/
theorem handshake_sound {c0 : Conn} {es : List Event} (hinit : Conn.Init c0)
    (hrun : Run (Guarded (fun c e => Regular shakeIrregular c.tcb e) Conn.Step) c0 es c) :
    (synchronized c.tcb.state = true → c.tcb.pendingSyn = 0 ∧
      ∀ es' d, Run (Guarded (fun c e => Regular shakeIrregular c.tcb e) Conn.Step) c es' d →
        ∃ more, d.log = c.log ++ more ∧ ∀ p ∈ more, has p.2.flg flagSyn = false) ∧
    ∀ e c', Regular shakeIrregular c.tcb e → c.Step e c' →
      (c.tcb.state ≠ .established ∧ c'.tcb.state = .established ∨
        synchronized c.tcb.state = false ∧ synchronized c'.tcb.state = true) →
      ∃ g o, e = .input g o ∧ has g.flg flagAck = true ∧
        c.tcb.pendingSyn ≠ 0 ∧ c.tcb.snd.una = c.tcb.iss ∧
        0 < (g.ack - c.tcb.snd.una).toNat ∧
        (g.ack - c.tcb.snd.una).toNat ≤ (c.tcb.snd.nxt - c.tcb.snd.una).toNat ∧
        g.ack = c.tcb.iss + 1 := by
  obtain ⟨hs, hd⟩ := synced_of_run hinit hrun
  refine ⟨fun hsync => ⟨hs.noSyn hsync, fun es' d hmore => ?_⟩, fun e c' hreg hstep hst => ?_⟩
  · have h0 : Spoken c.log c := by
      refine ⟨hs, hs.noSyn hsync, hs.connect_eq_false hsync, [], (append_nil _).symm, ?_⟩
      intro p hp
      cases hp
    exact (invariant_of_micro
      (fun _ _ _ h hm => h.micro orderly_shakeIrregular hm) (fun hL => absurd hL (by decide))
      hmore hd h0).since
  · obtain ⟨hshake, g, o, rfl, hflg, hack⟩ := step_acksSyn hs hd hreg hstep hst
    obtain ⟨-, hr⟩ := Option.ite_none_left_eq_some.mp hstep
    obtain ⟨r, hr, -⟩ := Option.map_eq_some_iff.mp hr
    obtain ⟨hlinked, -⟩ := Option.ite_none_right_eq_some.mp hr
    obtain ⟨hp, huna, hnxt⟩ := hs.outstanding (connect_of_linked hd hlinked) hshake
    refine ⟨g, o, rfl, hflg, hp, huna, ?_, ?_, hack⟩
    · rw [hack, huna]
      bv_omega
    · rw [hack, huna, hnxt]

/-! ## Three runs -/

/-- An acknowledgement five beyond `snd.nxt`, then the timer. -/
def prematureAck : List Event := [.input (bareSeg 501 106 flagAck 1000) plenty, .rtx false lots]

/-- Both sides open at the same time; an acknowledgement two beyond our SYN. -/
def crossedAck : List Event := crossing ++ [.input (bareSeg 501 102 flagAck 1000) plenty]

/-- The service closes before the peer answers. -/
def closedEarly : List Event := [.close, .task taskOne]

/-- An acknowledgement of something that was never sent establishes the connection, and the SYN is
sent again; after a simultaneous open the SYN is not acknowledged by its own number; closing in
`SYN_RECEIVED` leaves the SYN pending in `FIN_WAIT1`. -/
theorem syn_pending_after_established :
    (∃ c0 c, Conn.Init c0 ∧ Run Conn.Step c0 prematureAck c ∧ c.tcb.state = .established ∧
      c.tcb.pendingSyn ≠ 0 ∧ (c.log.drop 1).any (fun p => has p.2.flg flagSyn) = true) ∧
    (∃ c0 c, Conn.Init c0 ∧ Run Conn.Step c0 crossedAck c ∧ c.tcb.state = .established ∧
      c.tcb.snd.una ≠ c.tcb.iss + 1) ∧
    ∃ c0 c, Conn.Init c0 ∧ Run Conn.Step c0 closedEarly c ∧ c.tcb.state = .finWait1 ∧
      c.tcb.pendingSyn ≠ 0 := by
  exact ⟨run_of_opened size4096 size2048 100 500 (by decide +kernel),
    run_of_connected size4096 size2048 100 (by decide +kernel),
    run_of_opened size4096 size2048 100 500 (by decide +kernel)⟩

theorem resent_handshake : ∃ c0 c, Conn.Init c0 ∧
    Run (Guarded (fun c e => Regular shakeIrregular c.tcb e) Conn.Step) c0 resent c ∧
    c.tcb.state = .established ∧ c.tcb.pendingSyn = 0 := by
  obtain ⟨c0, c, hinit, hrun, hstate⟩ := guarded_run_of_opened size4096 size2048 100 500 resent
    (fun c e => Regular shakeIrregular c.tcb e) (P := fun c => c.tcb.state = .established)
    (by decide +kernel)
  exact ⟨c0, c, hinit, hrun, hstate, ((handshake_sound hinit hrun).1 (by rw [hstate]; rfl)).1⟩

end Mios.Tcp
