import Mios.Tcp.Limits

/-! The end of a connection. The FIN is sent behind the last byte, after all bytes, and a connection
that is not aborted is closed when the peer has acknowledged the FIN; provided that the window
covers the data when the FIN is queued, and that nothing else is acknowledged in the states that
take any acknowledgement for one of the FIN. -/

namespace Mios.Tcp

open Lib Relation List

variable {L : List Irregular} {e : Event} {t t' : Tcb} {g : Seg} {out : List Sent} {c c' : Conn}

/-! ## States -/

/-- The application has closed, and the connection is not yet gone. -/
def leaving (s : State) : Bool :=
  match s with
  | .finWait1 | .finWait2 | .closing | .timeWait | .lastAck => true
  | _ => false

/-- What the states say about the FIN. -/
structure Parting (t : Tcb) : Prop where
  fin : leaving t.state = true → t.pendingFin ≠ 0
  acked : t.state = .finWait2 ∨ t.state = .timeWait → t.snd.una = t.snd.wrptr
  timer : t.timeWaitTimer = true → t.state = .timeWait

/-- Only what is acknowledged counts besides the state. -/
theorem Parting.frame (h : Parting t) (hstate : t'.state = t.state)
    (hfin : t'.pendingFin = t.pendingFin) (htimer : t'.timeWaitTimer = t.timeWaitTimer)
    (huna : t.state = .finWait2 ∨ t.state = .timeWait → t.snd.una = t.snd.wrptr →
      t'.snd.una = t'.snd.wrptr) : Parting t' where
  fin hs := hfin ▸ h.fin (hstate ▸ hs)
  acked hs := huna (hstate ▸ hs) (h.acked (hstate ▸ hs))
  timer ht := hstate.trans (h.timer (htimer ▸ ht))

theorem Parting.still (h : Parting t) (hstate : t'.state = t.state)
    (hfin : t'.pendingFin = t.pendingFin) (htimer : t'.timeWaitTimer = t.timeWaitTimer)
    (huna : t'.snd.una = t.snd.una) (hwrptr : t'.snd.wrptr = t.snd.wrptr) : Parting t' :=
  h.frame hstate hfin htimer fun _ heq => by rw [huna, hwrptr, heq]

/-- A state in which the FIN is not known to be acknowledged. -/
theorem Parting.of_state (h : Parting t) (s : State) (hs : t'.state = s)
    (hnew : s ≠ .finWait2 ∧ s ≠ .timeWait) (hfin : leaving s = false ∨ t'.pendingFin ≠ 0)
    (htimer : t'.timeWaitTimer = t.timeWaitTimer) (hnot : t.state ≠ .timeWait) : Parting t' where
  fin hl := hfin.resolve_left (by rw [← hs, hl]; decide)
  acked hl := absurd (hs ▸ hl) (not_or.mpr hnew)
  timer ht := absurd (h.timer (htimer ▸ ht)) hnot

theorem parting_close (t : Tcb) : Parting (tcpClose t) where
  fin hs := by cases hs
  acked hs := by rcases hs with hs | hs <;> cases hs
  timer ht := by cases ht

theorem parting_afterFin (h : Parting t) (hne : t.state = .finWait1 → g.ack ≠ t.snd.nxt) :
    Parting (afterFin t g) := by
  cases hs : t.state with
  | synReceived | established =>
    have heq : afterFin t g = { t with state := .closeWait } := by simp [afterFin, hs]
    rw [heq]
    exact h.of_state .closeWait rfl (by decide) (.inl rfl) rfl (by rw [hs]; decide)
  | finWait1 =>
    have heq : afterFin t g = { t with state := .closing } := by
      simp [afterFin, hs, hne hs]
    rw [heq]
    exact h.of_state .closing rfl (by decide) (.inr (h.fin (by rw [hs]; rfl))) rfl
      (by rw [hs]; decide)
  | finWait2 =>
    have heq : afterFin t g = tcpTimeWait t := by simp [afterFin, hs]
    rw [heq]
    exact ⟨fun _ => h.fin (by rw [hs]; rfl), fun _ => h.acked (.inl hs), fun _ => rfl⟩
  | _ =>
    have heq : afterFin t g = t := by simp [afterFin, hs]
    rw [heq]
    exact h

theorem Parting.move (h : Parting t) (hL : Fitting L) (hfu : .finUnsent ∈ L)
    (hm : Move L e t out t') : Parting t' := by
  cases hm with
  | other hm =>
    cases hm with
    | quiet hsame =>
      exact h.still hsame.state hsame.pendingFin hsame.timeWaitTimer (by rw [hsame.snd])
        (by rw [hsame.snd])
    | finAcked _ hstate hacked =>
      have hfin : t.pendingFin ≠ 0 := by
        rcases hstate with hs | hs <;> exact h.fin (by rw [hs]; rfl)
      have hnot : t.state ≠ .timeWait := by
        rcases hstate with hs | hs <;> rw [hs] <;> decide
      obtain ⟨h1, h2⟩ := hacked hfu
      exact ⟨fun _ => hfin, fun _ => h1.trans h2, fun ht => absurd (h.timer ht) hnot⟩
    | lastAck | abort | expire => exact parting_close t
    | store =>
      obtain ⟨buffer, nxt, hstore⟩ := storeData_frame t _
      rw [hstore]
      exact h.still rfl rfl rfl rfl rfl
    | arm | finRcvd => exact h.still rfl rfl rfl rfl rfl
    | finState _ _ _ hne => exact parting_afterFin h (hne hfu)
  | simultaneous _ hnot => exact absurd hL.simultaneous hnot
  | tooNew _ _ hs =>
    exact h.of_state .established rfl (by decide) (.inl rfl) rfl (by rw [hs]; decide)
  | write _ _ _ _ _ hfin _ =>
    have hzero := hfin hL.write
    refine h.frame rfl rfl rfl fun hs _ => ?_
    exact absurd hzero (h.fin (by rcases hs with hs | hs <;> rw [hs] <;> rfl))
  | @queueFin s _ hstate =>
    have hnew : s ≠ .finWait2 ∧ s ≠ .timeWait := by
      rcases hstate with ⟨-, rfl⟩ | ⟨-, rfl⟩ <;> decide
    have hold : t.state ≠ .timeWait := by
      rcases hstate with ⟨hs | hs, -⟩ | ⟨hs, -⟩ <;> rw [hs] <;> decide
    exact h.of_state s rfl hnew (.inr (show flagFin ||| flagAck ≠ 0 by decide)) rfl hold
  | _ => exact h.still rfl rfl rfl rfl rfl

theorem Parting.micro (h : Parting c.tcb) (hb : Base c.tcb) (hL : Fitting L)
    (hfu : .finUnsent ∈ L) (hm : Micro L e c c') : Parting c'.tcb := by
  cases hm.case hb.shake with
  | move hmove => exact h.move hL hfu hmove
  | hear => exact h
  | app happ =>
    exact h.still happ.state happ.pendingFin happ.timeWaitTimer (by rw [happ.snd])
      (by rw [happ.snd])
  | @ack g _ t' _ ha =>
    rcases ha.next with ⟨hs, -⟩ | ⟨hs, hold⟩
    · refine h.frame hs ha.pendingFin ha.timeWaitTimer fun _ heq => ?_
      -- nothing is left that could be acknowledged
      show t'.snd.una = t'.snd.wrptr
      rw [ha.una, ha.wrptr, ← heq]
      have hle := Nat.le_trans ha.le hb.inv.nxt_le
      rw [← heq, Seq.dist_self] at hle
      exact Seq.toNat_sub_eq_zero.mp (Nat.le_zero.mp hle)
    · refine h.of_state .established hs (by decide) (.inl rfl) ha.timeWaitTimer ?_
      rcases hold with hs | hs <;> rw [hs] <;> decide

theorem Conn.Init.parting (h : Conn.Init c) : Parting c.tcb := by
  cases h with
  | passive iss tx rx buffer g pulled b t out hflg h =>
    have ho := passiveOpen_opened h
    refine ⟨fun hs => ?_, fun hs => ?_, fun ht => ?_⟩
    · have hs : leaving t.state = true := hs
      rw [ho.state] at hs
      cases hs
    · have hs : t.state = .finWait2 ∨ t.state = .timeWait := hs
      rw [ho.state] at hs
      rcases hs with hs | hs <;> cases hs
    · exact absurd (ho.timeWaitTimer.symm.trans ht) (by decide)
  | active iss tx rx buffer =>
    exact ⟨fun hs => (by cases hs), fun hs => (by rcases hs with hs | hs <;> cases hs),
      fun ht => (by cases ht)⟩

/-! ## What the segments cover -/

/-- The byte at the position `q` was in a segment. -/
def Covered (log : List (Nat × Sent)) (q : Nat) : Prop :=
  ∃ r ∈ log, r.1 ≤ q ∧ q < r.1 + r.2.payload.length

theorem Covered.append {log : List (Nat × Sent)} {q : Nat} (h : Covered log q)
    (more : List (Nat × Sent)) : Covered (log ++ more) q := by
  obtain ⟨r, hr, hq⟩ := h
  exact ⟨r, mem_append_left _ hr, hq⟩

/-- Before a FIN every byte was in a segment. -/
def FinsLast (log : List (Nat × Sent)) : Prop :=
  ∀ l p, l ++ [p] <+: log → has p.2.flg flagFin = true → ∀ q, 1 ≤ q → q < p.1 → Covered l q

theorem FinsLast.concat {log : List (Nat × Sent)} {p : Nat × Sent} (h : FinsLast log)
    (hp : has p.2.flg flagFin = true → ∀ q, 1 ≤ q → q < p.1 → Covered log q) :
    FinsLast (log ++ [p]) := by
  intro l r hr hfin
  rcases prefix_concat_iff.mp hr with heq | hr
  · obtain ⟨rfl, hlast⟩ := append_inj' heq rfl
    obtain rfl := singleton_inj.mp hlast
    exact hp hfin
  · exact h l r hr hfin

/-- Where the sequence numbers of a segment are: the SYN at the start, the FIN at the end. -/
structure Shaped (t : Tcb) (last : Nat) (p : Nat × Sent) : Prop where
  syn : has p.2.flg flagSyn = true → p.1 = 0 ∧ p.2.payload = []
  fin : has p.2.flg flagFin = true → t.pendingFin ≠ 0 ∧ p.1 + 1 = last
  data : p.2.payload ≠ [] → p.1 + p.2.payload.length + finBit t ≤ last

/-- What was sent of the data and the FIN. -/
structure Told (c : Conn) : Prop where
  start : c.tcb.pendingSyn ≠ 0 ∨ c.tcb.signals.connect = true → c.acked = 0
  room : 1 + finBit c.tcb ≤ c.pos c.tcb.snd.wrptr
  shaped : ∀ p ∈ c.log, Shaped c.tcb (c.pos c.tcb.snd.wrptr) p
  covered : ∀ q, 1 ≤ q → q < c.pos c.tcb.snd.nxt → q + finBit c.tcb < c.pos c.tcb.snd.wrptr →
    Covered c.log q
  before : FinsLast c.log
  heard : c.tcb.pendingFin ≠ 0 → c.tcb.snd.una = c.tcb.snd.wrptr →
    ∃ p ∈ c.log, has p.2.flg flagFin = true

theorem finBit_congr (h : t'.pendingFin = t.pendingFin) : finBit t' = finBit t := by
  rw [finBit, h]
  rfl

/-- The entries that a move adds to the log. -/
def Conn.entries (c : Conn) (out : List Sent) : List (Nat × Sent) :=
  out.map fun s => (c.pos s.seq, s)

section

variable (h : Told c)
include h

/-- The FIN and the last position stay, and the log at most grows. -/
theorem Told.change {more : List (Nat × Sent)} (hlog : c'.log = c.log ++ more)
    (hfin : c'.tcb.pendingFin = c.tcb.pendingFin)
    (hlast : c'.pos c'.tcb.snd.wrptr = c.pos c.tcb.snd.wrptr)
    (hstart : c'.tcb.pendingSyn ≠ 0 ∨ c'.tcb.signals.connect = true → c'.acked = 0)
    (hshape : ∀ p ∈ more, Shaped c.tcb (c.pos c.tcb.snd.wrptr) p)
    (hcover : ∀ q, 1 ≤ q → q < c'.pos c'.tcb.snd.nxt → q + finBit c.tcb < c.pos c.tcb.snd.wrptr →
      Covered c'.log q) (hbefore : FinsLast c'.log)
    (hheard : c.tcb.pendingFin ≠ 0 → c'.tcb.snd.una = c'.tcb.snd.wrptr →
      ∃ p ∈ c'.log, has p.2.flg flagFin = true) : Told c' := by
  have hbit : finBit c'.tcb = finBit c.tcb := finBit_congr hfin
  refine ⟨hstart, ?_, fun p hp => ?_, fun q hq hlt hdata => ?_, hbefore,
    fun hf heq => hheard (hfin ▸ hf) heq⟩
  · rw [hlast, hbit]
    exact h.room
  · have hshaped : Shaped c.tcb (c.pos c.tcb.snd.wrptr) p := by
      rw [hlog] at hp
      rcases mem_append.mp hp with hp | hp
      · exact h.shaped p hp
      · exact hshape p hp
    rw [hlast]
    exact ⟨hshaped.syn, fun hf => ⟨hfin.trans_ne (hshaped.fin hf).1, (hshaped.fin hf).2⟩,
      fun hpay => hbit ▸ hshaped.data hpay⟩
  · rw [hlast, hbit] at hdata
    exact hcover q hq hlt hdata

/-- A move that at most moves `snd.nxt`. -/
theorem Told.sent (huna : t'.snd.una = c.tcb.snd.una)
    (hwrptr : t'.snd.wrptr = c.tcb.snd.wrptr) (hfin : t'.pendingFin = c.tcb.pendingFin)
    (hstart : t'.pendingSyn ≠ 0 ∨ t'.signals.connect = true → c.acked = 0)
    (hshape : ∀ s ∈ out, Shaped c.tcb (c.pos c.tcb.snd.wrptr) (c.pos s.seq, s))
    (hcover : ∀ q, 1 ≤ q → q < c.pos t'.snd.nxt → q + finBit c.tcb < c.pos c.tcb.snd.wrptr →
      Covered (c.log ++ c.entries out) q)
    (hbefore : FinsLast (c.log ++ c.entries out)) : Told (c.after (t', out)) := by
  have hlog : (c.after (t', out)).log = c.log ++ c.entries out := Conn.after_log huna
  refine h.change hlog hfin ?_ (fun hs => (Conn.after_acked huna).trans (hstart hs)) ?_ ?_
    (hlog ▸ hbefore) fun hf heq => ?_
  · rw [Conn.after_pos huna]
    exact congrArg c.pos hwrptr
  · intro p hp
    obtain ⟨s, hs, rfl⟩ := mem_map.mp hp
    exact hshape s hs
  · rw [Conn.after_pos huna, hlog]
    exact hcover
  · obtain ⟨p, hp, hflag⟩ := h.heard hf (huna.symm.trans (heq.trans hwrptr))
    exact ⟨p, hlog ▸ mem_append_left _ hp, hflag⟩

/-- A move that sends nothing and leaves the pointers alone. -/
theorem Told.quiet (huna : t'.snd.una = c.tcb.snd.una)
    (hnxt : t'.snd.nxt = c.tcb.snd.nxt) (hwrptr : t'.snd.wrptr = c.tcb.snd.wrptr)
    (hfin : t'.pendingFin = c.tcb.pendingFin) (hsyn : t'.pendingSyn = c.tcb.pendingSyn)
    (hconn : t'.signals.connect = c.tcb.signals.connect) : Told (c.after (t', [])) := by
  refine h.sent huna hwrptr hfin (by rw [hsyn, hconn]; exact h.start) (by simp) ?_ ?_
  · rw [hnxt]
    exact fun q h1 h2 h3 => (h.covered q h1 h2 h3).append _
  · exact (append_nil c.log).symm ▸ h.before

/-- One segment without a FIN. -/
theorem Told.sentOne {s : Sent} (hnofin : has s.flg flagFin = false)
    (hshape : Shaped c.tcb (c.pos c.tcb.snd.wrptr) (c.pos s.seq, s)) {n : SeqNo}
    (hcover : ∀ q, 1 ≤ q → q < c.pos n → q + finBit c.tcb < c.pos c.tcb.snd.wrptr →
      Covered (c.log ++ [(c.pos s.seq, s)]) q) : Told (c.after (withNxt c.tcb n, [s])) := by
  refine h.sent rfl rfl rfl h.start ?_ hcover (h.before.concat ?_)
  · intro r hr
    rw [mem_singleton.mp hr]
    exact hshape
  · intro hfin
    rw [hnofin] at hfin
    cases hfin

theorem Told.bare {s : Sent} (hbare : Bare c.tcb s) : Told (c.after (c.tcb, [s])) := by
  refine h.sentOne hbare.noFin ⟨?_, ?_, ?_⟩ fun q h1 h2 h3 => (h.covered q h1 h2 h3).append _
  · intro hsyn
    exact absurd (hbare.noSyn.symm.trans hsyn) (by decide)
  · intro hfin
    exact absurd (hbare.noFin.symm.trans hfin) (by decide)
  · exact fun hpay => absurd hbare.payload hpay

section

variable (hb : Base c.tcb)
include hb

theorem Told.syn (hp : c.tcb.pendingSyn ≠ 0) :
    Told (c.after (c.tcb, [tcpOutputTcb c.tcb c.tcb.pendingSyn c.tcb.iss []])) := by
  have hnofin : has c.tcb.pendingSyn flagFin = false := by
    rcases hb.shake.synFlags with hs | hs | hs
    · exact absurd hs hp
    · rw [hs]
      decide
    · rw [hs]
      decide
  refine h.sentOne hnofin ⟨fun _ => ⟨?_, rfl⟩, ?_, ?_⟩
    fun q h1 h2 h3 => (h.covered q h1 h2 h3).append _
  · show c.acked + (c.tcb.iss - c.tcb.snd.una).toNat = 0
    rw [h.start (.inl hp), (hb.shake.pending hp).1, Seq.dist_self]
  · intro hfin
    exact absurd (hnofin.symm.trans hfin) (by decide)
  · exact fun hpay => absurd rfl hpay

/-- The FIN behind the last byte. -/
theorem Told.fin {seq : SeqNo} (hclip : ¬ clipped c.tcb)
    (sent : Bool) (hfin : c.tcb.pendingFin ≠ 0) (hseq : EmitsFrom e c.tcb seq)
    (hone : bytesInFifo c.tcb.snd seq = 1) : Told (c.after (withNxt c.tcb c.tcb.snd.wrptr,
      if sent then [tcpOutputTcb c.tcb c.tcb.pendingFin seq []] else [])) := by
  have hlast := wrptr_of_fin hb.inv hclip hfin hseq hone
  have hbit : finBit c.tcb = 1 := if_neg hfin
  have hle := hb.inv.nxt_le
  have hpos : c.pos seq + 1 = c.pos c.tcb.snd.wrptr := by
    rw [Conn.pos, Conn.pos]
    rcases hseq with rfl | ⟨rfl, -⟩
    · have hsplit := Seq.dist_split hle
      omega
    · rw [Seq.dist_self]
      omega
  have hnxt : c.pos c.tcb.snd.wrptr ≤ c.pos c.tcb.snd.nxt + 1 := by
    rw [Conn.pos, Conn.pos]
    have hsplit := Seq.dist_split hle
    rcases hseq with rfl | ⟨rfl, hne, -⟩
    · omega
    · have hpos : (c.tcb.snd.nxt - c.tcb.snd.una).toNat ≠ 0 := fun hz =>
        hne (Seq.toNat_sub_eq_zero.mp hz).symm
      omega
  have hcover : ∀ q, 1 ≤ q → q + 1 < c.pos c.tcb.snd.wrptr → Covered c.log q := by
    intro q h1 h2
    exact h.covered q h1 (by omega) (by omega)
  cases sent with
  | false =>
    refine h.sent rfl rfl rfl h.start (by simp) ?_ ((append_nil c.log).symm ▸ h.before)
    exact fun q h1 _ h3 => (hcover q h1 (hbit ▸ h3)).append _
  | true =>
    refine h.sent rfl rfl rfl h.start ?_ ?_ (h.before.concat ?_)
    · intro s hs
      rw [mem_singleton.mp hs]
      have hnosyn : has c.tcb.pendingFin flagSyn = false := by
        rw [hb.shake.finFlags.resolve_left hfin]
        decide
      refine ⟨?_, fun _ => ⟨hfin, hpos⟩, fun hpay => absurd rfl hpay⟩
      intro hs
      exact absurd (hnosyn.symm.trans hs) (by decide)
    · exact fun q h1 _ h3 => (hcover q h1 (hbit ▸ h3)).append _
    · intro _ q h1 h2
      exact hcover q h1 (by
        have h2 : q < c.pos seq := h2
        omega)

theorem Told.data {seq : SeqNo} {payload : List Byte} (hseq : EmitsFrom e c.tcb seq)
    (hlen : payload.length + finBit c.tcb ≤ bytesInFifo c.tcb.snd seq) :
    Told (c.after (withNxt c.tcb (if c.tcb.snd.nxt = seq then
        c.tcb.snd.nxt + BitVec.ofNat 32 payload.length else c.tcb.snd.nxt),
      [tcpOutputTcb c.tcb (flagPsh ||| flagAck) seq payload])) := by
  have hbytes := bytesInFifo_le c.tcb.snd seq
  have hle := hb.inv.nxt_le
  have hend : c.pos seq + payload.length + finBit c.tcb ≤ c.pos c.tcb.snd.wrptr := by
    rw [Conn.pos, Conn.pos]
    rcases hseq with rfl | ⟨rfl, -⟩
    · have hsplit := Seq.dist_split hle
      omega
    · rw [Seq.dist_self]
      omega
  have hflags : has (flagPsh ||| flagAck) flagSyn = false ∧ has (flagPsh ||| flagAck) flagFin = false := by
    decide
  have hnosyn : has (tcpOutputTcb c.tcb (flagPsh ||| flagAck) seq payload).flg flagSyn = false :=
    hflags.1
  have hnofin : has (tcpOutputTcb c.tcb (flagPsh ||| flagAck) seq payload).flg flagFin = false :=
    hflags.2
  refine h.sentOne hnofin ⟨?_, ?_, fun _ => hend⟩ fun q h1 h2 h3 => ?_
  · intro hsyn
    exact absurd (hnosyn.symm.trans hsyn) (by decide)
  · intro hfin
    exact absurd (hnofin.symm.trans hfin) (by decide)
  -- a byte that was sent before, or one of this segment
  by_cases hold : q < c.pos c.tcb.snd.nxt
  · exact (h.covered q h1 hold h3).append _
  by_cases hnxt : c.tcb.snd.nxt = seq
  · subst hnxt
    have hfresh := dist_fresh (k := payload.length) hb.inv (by omega)
    rw [if_pos rfl, Conn.pos, hfresh.1] at h2
    refine ⟨_, mem_append_right _ (mem_singleton.mpr rfl), Nat.not_lt.mp hold, ?_⟩
    show q < c.pos c.tcb.snd.nxt + payload.length
    rw [Conn.pos]
    omega
  · rw [if_neg hnxt] at h2
    exact absurd h2 hold

theorem Told.connect (hc : c.tcb.signals.connect = true) : Told (c.after ({ c.tcb with
      pendingSyn := flagSyn
      snd := { c.tcb.snd with nxt := c.tcb.snd.nxt + 1 }
      signals := { c.tcb.signals with connect := false } }, [])) := by
  have hzero := h.start (.inr hc)
  refine h.sent rfl rfl rfl (fun _ => hzero) (by simp) (fun q h1 h2 _ => ?_)
    ((append_nil c.log).symm ▸ h.before)
  obtain ⟨-, hnxt, huna⟩ := hb.shake.connect hc
  have hone : (c.tcb.snd.nxt + 1 - c.tcb.snd.una).toNat = 1 := by
    rw [hnxt, huna]
    bv_omega
  have h2 : q < c.acked + (c.tcb.snd.nxt + 1 - c.tcb.snd.una).toNat := h2
  omega

/-- The last position moves on while there is no FIN. -/
theorem Told.extend {k : Nat} (hfin : c.tcb.pendingFin = 0) (huna : t'.snd.una = c.tcb.snd.una)
    (hnxt : t'.snd.nxt = c.tcb.snd.nxt)
    (hstart : t'.pendingSyn ≠ 0 ∨ t'.signals.connect = true → c.acked = 0)
    (hlast : (t'.snd.wrptr - c.tcb.snd.una).toNat = (c.tcb.snd.wrptr - c.tcb.snd.una).toNat + k)
    (hbit : finBit t' ≤ k) (hheard : t'.pendingFin ≠ 0 → t'.snd.una ≠ t'.snd.wrptr) :
    Told (c.after (t', [])) := by
  have hlog : (c.after (t', [])).log = c.log := append_nil _
  have hzero : finBit c.tcb = 0 := if_pos hfin
  have hpos : (c.after (t', [])).pos t'.snd.wrptr = c.pos c.tcb.snd.wrptr + k := by
    rw [Conn.after_pos huna, Conn.pos, Conn.pos, hlast, Nat.add_assoc]
  have hle : c.pos c.tcb.snd.nxt ≤ c.pos c.tcb.snd.wrptr := Nat.add_le_add_left hb.inv.nxt_le _
  refine ⟨fun hs => (Conn.after_acked huna).trans (hstart hs), ?_, fun p hp => ?_,
    fun q h1 h2 _ => ?_, hlog ▸ h.before, fun hf heq => absurd heq (hheard hf)⟩
  · show 1 + finBit t' ≤ (c.after (t', [])).pos t'.snd.wrptr
    have hroom := h.room
    omega
  · have hshaped := h.shaped p (hlog ▸ hp)
    refine ⟨hshaped.syn, fun hf => absurd hfin (hshaped.fin hf).1, fun hpay => ?_⟩
    have hdata := hshaped.data hpay
    show p.1 + p.2.payload.length + finBit t' ≤ (c.after (t', [])).pos t'.snd.wrptr
    omega
  · rw [Conn.after_pos huna] at h2
    have h2 : q < c.pos c.tcb.snd.nxt := hnxt ▸ h2
    rw [hlog]
    exact h.covered q h1 h2 (by omega)

theorem Told.write {src : List Byte}
    (havail : src.length ≤ (txfifoAvail c.tcb).toNat) (hfin : c.tcb.pendingFin = 0) :
    Told (c.after (written c.tcb src, [])) := by
  have hbit : finBit (written c.tcb src) = 0 := if_pos hfin
  exact h.extend hb hfin rfl rfl h.start (txfifoUsed_written (hb.used hfin) havail).1
    (by omega) fun hf => absurd hfin hf

/-- The FIN is queued, behind everything. -/
theorem Told.queueFin {s : State} (hfin : c.tcb.pendingFin = 0) :
    Told (c.after (finQueued c.tcb s, [])) := by
  have hused := hb.used hfin
  have hsize := c.tcb.txfifoSize.two_mul_le
  have hadd : (c.tcb.snd.wrptr + 1 - c.tcb.snd.una).toNat =
      (c.tcb.snd.wrptr - c.tcb.snd.una).toNat + 1 := Seq.dist_succ (by omega)
  refine h.extend hb hfin rfl rfl h.start hadd (Nat.le_refl 1) fun _ heq => ?_
  have heq : c.tcb.snd.una = c.tcb.snd.wrptr + 1 := heq
  rw [← heq, Seq.dist_self] at hadd
  omega

theorem Told.move (hclip : ¬ clipped c.tcb) (hL : Fitting L)
    (hm : Move L e c.tcb out t') : Told (c.after (t', out)) := by
  cases hm with
  | other hm =>
    have hs := hm.sameTx
    exact h.quiet (by rw [hs.snd]) (by rw [hs.snd]) (by rw [hs.snd]) hs.pendingFin hs.pendingSyn
      hs.connect
  | bare hbare => exact h.bare hbare
  | syn hp => exact h.syn hb hp
  | fin sent _ _ hfin hseq hone => exact h.fin hb hclip sent hfin hseq hone
  | data _ _ hseq _ _ hlen => exact h.data hb hseq hlen
  | connect hc => exact h.connect hb hc
  | simultaneous _ hnot => exact absurd hL.simultaneous hnot
  | write _ _ _ havail _ hfin _ => exact h.write hb havail (hfin hL.write)
  | queueFin _ hstate =>
    refine h.queueFin hb (hb.finPending ?_)
    rcases hstate with ⟨hs | hs, -⟩ | ⟨hs, -⟩ <;> rw [hs] <;> rfl
  | tooNew => exact h.quiet rfl rfl rfl rfl rfl rfl

end

end

/-! ## Acknowledgements -/

/-- The peer acknowledges only what it was sent. -/
def honest (c : Conn) : Event → Prop
  | .input g _ => has g.flg flagAck = true → 0 ≤ unaAck c.tcb g → g.ack ≠ c.tcb.snd.una →
      Truthful c g
  | _ => True

instance (c : Conn) (e : Event) : Decidable (honest c e) := by
  unfold honest
  split <;> infer_instance

/-- Truthfulness stays while the log grows and the counting point does not move. -/
theorem Truthful.mono (h : Truthful c g) (hlog : c.log ⊆ c'.log) (hpos : c'.pos g.ack = c.pos g.ack) :
    Truthful c' g := by
  obtain ⟨p, hp, hocc, hle⟩ := h
  exact ⟨p, hlog hp, hocc, hpos ▸ hle⟩

theorem honest_of_una (huna : c'.tcb.snd.una = c.tcb.snd.una) (hacked : c'.acked = c.acked)
    (hlog : c.log ⊆ c'.log) (h : honest c e) : honest c' e := by
  cases e with
  | input g o =>
    intro hflag hnew hne
    rw [unaAck, huna] at hnew
    rw [huna] at hne
    refine (h hflag hnew hne).mono hlog ?_
    rw [Conn.pos, Conn.pos, huna, hacked]
  | _ => trivial

/-- After its acknowledgement the segment has nothing new. -/
theorem honest_of_acked {o : InputSupply} (h : c.tcb.snd.una = g.ack) : honest c (.input g o) :=
  fun _ _ hne => absurd h.symm hne

theorem honest_micro (h : honest c e) (hs : Shake c.tcb) (hm : Micro L e c c') : honest c' e := by
  cases hm.case hs with
  | @move out t' hmove =>
    refine honest_of_una hmove.una_eq (Conn.after_acked hmove.una_eq) ?_ h
    rw [Conn.after_log hmove.una_eq]
    exact subset_append_left _ _
  | hear => exact honest_of_una rfl rfl (List.Subset.refl _) h
  | app happ =>
    exact honest_of_una (by rw [happ.snd]) happ.acked (by rw [happ.log]; exact fun _ h => h) h
  | ack he ha =>
    subst he
    exact honest_of_acked ha.una

/-- Who acknowledges everything has got the FIN. -/
theorem Told.fin_of_truthful (h : Told c) (hfin : c.tcb.pendingFin ≠ 0) (htrue : Truthful c g)
    (hack : g.ack = c.tcb.snd.wrptr) : ∃ p ∈ c.log, has p.2.flg flagFin = true := by
  obtain ⟨p, hp, hocc, hle⟩ := htrue
  have hshaped := h.shaped p hp
  have hroom := h.room
  have hbit : finBit c.tcb = 1 := if_neg hfin
  rw [hack] at hle
  refine ⟨p, hp, ?_⟩
  -- neither the SYN nor data reach that far
  by_contra hnofin
  rw [occupied, if_neg hnofin] at hocc hle
  by_cases hsyn : has p.2.flg flagSyn = true
  · obtain ⟨hzero, hpay⟩ := hshaped.syn hsyn
    rw [if_pos hsyn, hpay, length_nil] at hle
    omega
  · rw [if_neg hsyn] at hocc hle
    have hdata := hshaped.data fun hpay => hocc (by rw [hpay]; rfl)
    omega

/-- A segment moves `snd.una`. -/
theorem Told.acked (h : Told c) (hb : Base c.tcb) (ha : Acks c.tcb g t')
    (hheard : c.tcb.pendingFin ≠ 0 → g.ack = c.tcb.snd.wrptr →
      ∃ p ∈ c.log, has p.2.flg flagFin = true) : Told ((c.hear g).after (t', [])) := by
  have hlog : ((c.hear g).after (t', [])).log = c.log := append_nil _
  have hpos : ∀ s, (g.ack - c.tcb.snd.una).toNat ≤ (s - c.tcb.snd.una).toNat →
      ((c.hear g).after (t', [])).pos s = c.pos s := by
    intro s hs
    show c.acked + (t'.snd.una - c.tcb.snd.una).toNat + (s - t'.snd.una).toNat =
      c.acked + (s - c.tcb.snd.una).toNat
    have hsplit := Seq.dist_split hs
    rw [ha.una]
    omega
  have hlast : ((c.hear g).after (t', [])).pos ((c.hear g).after (t', [])).tcb.snd.wrptr =
      c.pos c.tcb.snd.wrptr := by
    rw [← hpos _ (Nat.le_trans ha.le hb.inv.nxt_le)]
    exact congrArg _ ha.wrptr
  have hnext : ((c.hear g).after (t', [])).pos ((c.hear g).after (t', [])).tcb.snd.nxt =
      c.pos c.tcb.snd.nxt := by
    rw [← hpos _ ha.le]
    exact congrArg _ ha.nxt
  refine h.change (hlog.trans (append_nil _).symm) ha.pendingFin hlast (fun hs => ?_) (by simp)
    ?_ (hlog ▸ h.before) fun hf heq => ?_
  · rcases hs with hs | hs
    · by_cases hack : g.ack = c.tcb.snd.una
      · show c.acked + (t'.snd.una - c.tcb.snd.una).toNat = 0
        rw [ha.una, hack, Seq.dist_self]
        exact h.start (.inl ((ha.stayed hack).1.symm.trans_ne hs))
      · exact absurd (ha.moved hack) hs
    · exact absurd ((ha.connect.trans ha.synSent).symm.trans hs) (by decide)
  · rw [hnext, hlog]
    exact h.covered
  · rw [hlog]
    exact hheard hf (ha.una.symm.trans (heq.trans ha.wrptr))

theorem Told.micro (h : Told c) (hb : Base c.tcb) (hclip : ¬ clipped c.tcb) (hL : Fitting L)
    (hh : honest c e) (hm : Micro L e c c') : Told c' := by
  cases hm.case hb.shake with
  | move hmove => exact h.move hb hclip hL hmove
  | hear => exact { h with }
  | app happ =>
    have hpos : ∀ s, c'.pos s = c.pos s := by
      intro s
      rw [Conn.pos, happ.acked, happ.snd]
      rfl
    refine h.change (happ.log.trans (append_nil _).symm) happ.pendingFin
      (by rw [hpos, happ.snd]) (fun hs => ?_) (by simp) ?_ (happ.log ▸ h.before) fun hf heq => ?_
    · rw [happ.acked]
      rw [happ.pendingSyn, happ.connect] at hs
      exact h.start hs
    · rw [hpos, happ.snd, happ.log]
      exact h.covered
    · rw [happ.snd] at heq
      rw [happ.log]
      exact h.heard hf heq
  | @ack g _ _ he ha =>
    subst he
    refine h.acked hb ha fun hf hack => ?_
    by_cases hold : g.ack = c.tcb.snd.una
    · exact h.heard hf (hold.symm.trans hack)
    · exact h.fin_of_truthful hf (hh ha.flag ha.newer hold) hack

theorem Conn.Init.told (h : Conn.Init c) : Told c := by
  cases h with
  | passive iss tx rx buffer g pulled b t out hflg h =>
    have ho := passiveOpen_opened h
    have hpos : ∀ s, (Conn.start t out ((parseOptions g.options).bind (·.mss))).pos s =
        (s - t.snd.una).toNat := fun s => Nat.zero_add _
    have hone : (iss + 1 - iss).toNat = 1 := by bv_omega
    have hlast : (Conn.start t out ((parseOptions g.options).bind (·.mss))).pos t.snd.wrptr = 1 := by
      rw [hpos, ho.snd]
      exact hone
    have hnext : (Conn.start t out ((parseOptions g.options).bind (·.mss))).pos t.snd.nxt = 1 := by
      rw [hpos, ho.snd]
      exact hone
    have hnosyn : has (flagSyn ||| flagAck) flagFin = false := by decide
    refine ⟨fun _ => rfl, ?_, fun p hp => ?_, fun q h1 h2 _ => ?_, fun l p hp hf => ?_,
      fun hf => absurd ho.pendingFin hf⟩
    · refine Nat.le_trans (Nat.le_of_eq ?_) (Nat.le_of_eq hlast.symm)
      show 1 + finBit t = 1
      rw [finBit, if_pos ho.pendingFin]
    · obtain ⟨s, hs, rfl⟩ := mem_map.mp hp
      obtain ⟨hseq, hflg, hpay, -⟩ := ho.out s hs
      refine ⟨fun _ => ⟨?_, hpay⟩, fun hf => ?_, fun hne => absurd hpay hne⟩
      · rw [hseq, ho.iss, Seq.dist_self]
      · have hf : has s.flg flagFin = true := hf
        rw [hflg, hnosyn] at hf
        cases hf
    · have h2 := Nat.lt_of_lt_of_le h2 (Nat.le_of_eq hnext)
      omega
    obtain ⟨s, hs, rfl⟩ := mem_map.mp (hp.subset (mem_append_right l
      (mem_singleton.mpr rfl)))
    rw [(ho.out s hs).2.1, hnosyn] at hf
    cases hf
  | active iss tx rx buffer =>
    have hone : (iss + 1 - iss).toNat = 1 := by bv_omega
    refine ⟨fun _ => rfl, ?_, fun p hp => ?_, fun q h1 h2 _ => ?_, fun l p hp => ?_,
      fun hf => absurd rfl hf⟩
    · show 1 + 0 ≤ 0 + (iss + 1 - iss).toNat
      omega
    · cases hp
    · have h2 : q < 0 + (iss - iss).toNat := h2
      rw [Seq.dist_self] at h2
      omega
    · exact absurd (hp.subset (mem_append_right l (mem_singleton.mpr rfl))) not_mem_nil

/-! ## Into `CLOSED` -/

/-- The connection is not closed, but given up. -/
def aborts : Event → Bool
  | .input g _ => has g.flg flagRst
  | .rtx timedOut _ => timedOut
  | _ => false

/-- The FIN was sent, and acknowledged before or by this event. -/
def FinDone (e : Event) (c : Conn) : Prop :=
  (∃ p ∈ c.log, has p.2.flg flagFin = true) ∧
  (c.tcb.snd.una = c.tcb.snd.wrptr ∨
    ∃ g o, e = .input g o ∧ has g.flg flagAck = true ∧ g.ack = c.tcb.snd.wrptr)

theorem FinDone.mono (h : FinDone e c) (hlog : c.log ⊆ c'.log)
    (huna : c'.tcb.snd.una = c.tcb.snd.una) (hwrptr : c'.tcb.snd.wrptr = c.tcb.snd.wrptr) :
    FinDone e c' := by
  obtain ⟨⟨p, hp, hfin⟩, hack⟩ := h
  exact ⟨⟨p, hlog hp, hfin⟩, by rwa [huna, hwrptr]⟩

/-- `CLOSED` is entered by the acknowledgement of the FIN, when `TIME_WAIT` is over, or if the
connection is given up; and nothing more is written then. -/
theorem Move.closed (hp : Parting c.tcb) (ht : Told c) (hinv : Tame c.tcb) (hL : Fitting L)
    (hlast : .lastAckOther ∈ L) (hh : honest c e) (hm : Move L e c.tcb out t')
    (hs : t'.state = .closed) :
    c.tcb.state = .closed ∧ t'.snd.wrptr = c.tcb.snd.wrptr ∨ aborts e = true ∨
      FinDone e (c.after (t', out)) := by
  cases hm with
  | other hm =>
    have hsnd := hm.sameTx.snd
    cases hm with
    | quiet hsame => exact .inl ⟨hsame.state.symm.trans hs, by rw [hsnd]⟩
    | finAcked => cases hs
    | @lastAck g o he hflag hstate hack =>
      subst he
      refine .inr (.inr ?_)
      obtain ⟨hnxt, hwrptr⟩ := hack hlast
      have hfin := hp.fin (by rw [hstate]; rfl)
      have hall : g.ack = c.tcb.snd.wrptr := hnxt.trans hwrptr
      have hlog : (c.after (tcpClose c.tcb, [])).log = c.log := append_nil _
      have hsent : ∃ p ∈ c.log, has p.2.flg flagFin = true := by
        by_cases hold : g.ack = c.tcb.snd.una
        · exact ht.heard hfin (hold.symm.trans hall)
        refine ht.fin_of_truthful hfin (hh hflag ?_ hold) hall
        have hbound := hinv.1.wrptr_le
        have hsize := hinv.2
        rw [unaAck, hall, Seq.toInt_nonneg]
        omega
      exact ⟨hlog ▸ hsent, .inr ⟨g, o, rfl, hflag, hall⟩⟩
    | abort he =>
      refine .inr (.inl ?_)
      rcases he with ⟨g, o, rfl, hrst⟩ | ⟨b, rfl⟩
      · exact hrst
      · rfl
    | expire _ htimer =>
      refine .inr (.inr ?_)
      have hstate := hp.timer htimer
      have hacked := hp.acked (.inr hstate)
      have hlog : (c.after (tcpClose c.tcb, [])).log = c.log := append_nil _
      exact ⟨hlog ▸ ht.heard (hp.fin (by rw [hstate]; rfl)) hacked, .inl hacked⟩
    | store =>
      obtain ⟨buffer, nxt, hstore⟩ := storeData_frame c.tcb _
      rw [hstore] at hs
      exact .inl ⟨hs, by rw [hsnd]⟩
    | arm | finRcvd => exact .inl ⟨hs, rfl⟩
    | @finState g _ _ _ hsyn =>
      refine .inl ⟨?_, by rw [hsnd]⟩
      unfold afterFin at hs
      split at hs
      · cases hs
      · cases hs
      · split at hs <;> cases hs
      · cases hs
      · exact hs
  | simultaneous _ hnot => exact absurd hL.simultaneous hnot
  | tooNew => cases hs
  | write _ hne => exact absurd hs hne
  | @queueFin s _ hstate =>
    rcases hstate with ⟨-, rfl⟩ | ⟨-, rfl⟩ <;> cases hs
  | _ => exact .inl ⟨hs, rfl⟩

theorem Micro.closed (hp : Parting c.tcb) (ht : Told c) (hb : Base c.tcb) (hinv : Tame c.tcb)
    (hL : Fitting L) (hlast : .lastAckOther ∈ L) (hh : honest c e) (hm : Micro L e c c')
    (hs : c'.tcb.state = .closed) :
    c.tcb.state = .closed ∧ (FinDone e c → FinDone e c') ∨ aborts e = true ∨ FinDone e c' := by
  cases hm.case hb.shake with
  | @move out t' hmove =>
    rcases hmove.closed hp ht hinv hL hlast hh hs with ⟨hstate, hwrptr⟩ | habort | hdone
    · refine .inl ⟨hstate, fun hdone => hdone.mono ?_ hmove.una_eq hwrptr⟩
      rw [Conn.after_log hmove.una_eq]
      exact subset_append_left _ _
    · exact .inr (.inl habort)
    · exact .inr (.inr hdone)
  | hear => exact .inl ⟨hs, fun hdone => hdone.mono (fun _ hp => hp) rfl rfl⟩
  | app happ =>
    refine .inl ⟨happ.state.symm.trans hs, fun hdone => hdone.mono ?_ ?_ ?_⟩
    · rw [happ.log]
      exact fun _ hp => hp
    · rw [happ.snd]
    · rw [happ.snd]
  | ack _ ha =>
    rcases ha.next with ⟨heq, hopen⟩ | ⟨heq, -⟩
    · rw [heq.symm.trans hs] at hopen
      cases hopen
    · cases heq.symm.trans hs

/-! ## Runs -/

/-- What an orderly end depends on. -/
def closeIrregular : List Irregular :=
  [.simultaneousOpen, .overfull, .writeAfterFin, .windowShort, .finUnsent, .lastAckOther]

theorem fitting_closeIrregular : Fitting closeIrregular :=
  ⟨by decide, by decide, by decide, by decide⟩

/-- All that a run towards the end keeps. -/
structure Ending (c : Conn) : Prop where
  base : Base c.tcb
  unclipped : ¬ clipped c.tcb
  parting : Parting c.tcb
  told : Told c
  size : c.tcb.txfifoSize.val ≤ 1073741824

theorem Micro.txfifoSize_eq (hs : Shake c.tcb) (hL : .simultaneousOpen ∈ L)
    (hm : Micro L e c c') : c'.tcb.txfifoSize = c.tcb.txfifoSize := by
  cases hm.case hs with
  | move hmove => exact hmove.txfifoSize_eq hL
  | hear => rfl
  | app happ => exact happ.txfifoSize
  | ack _ ha => exact ha.txfifoSize

theorem Ending.micro (h : Ending c) (hh : honest c e) (hm : Micro closeIrregular e c c') :
    Ending c' ∧ honest c' e := by
  have hL := fitting_closeIrregular
  refine ⟨⟨h.base.micro hL.simultaneous hL.overfull hm,
    not_clipped_micro h.base h.unclipped hL hm, h.parting.micro h.base hL (by decide) hm,
    h.told.micro h.base h.unclipped hL hh hm, ?_⟩, honest_micro hh h.base.shake hm⟩
  rw [hm.txfifoSize_eq h.base.shake hL.simultaneous]
  exact h.size

theorem Ending.tame (h : Ending c) : Tame c.tcb := ⟨h.base.inv, h.size⟩

/-- The steps of an orderly run. -/
abbrev OrderlyStep : Conn → Event → Conn → Prop :=
  Guarded (fun c e => Regular closeIrregular c.tcb e ∧ honest c e) Conn.Step

theorem ending_of_run {c0 : Conn} {es : List Event} (hinit : Conn.Init c0)
    (hsize : c0.tcb.txfifoSize.val ≤ 1073741824) (hrun : Run OrderlyStep c0 es c) : Ending c :=
  invariant_of_guarded_micro (J := fun e c => honest c e)
    (fun _ _ _ h hh hm => h.micro hh hm) (fun _ _ h => h.tame) hrun hinit.dormant
    ⟨hinit.base, hinit.not_clipped, hinit.parting, hinit.told, hsize⟩

/-- A step into `CLOSED` that does not give up the connection. -/
theorem finDone_of_step (h : Ending c) (hd : Dormant c.tcb)
    (hreg : Regular closeIrregular c.tcb e ∧ honest c e) (hstep : c.Step e c')
    (hs : c.tcb.state ≠ .closed) (hs' : c'.tcb.state = .closed) (ha : aborts e = false) :
    FinDone e c' := by
  have hmicros := step_micros hreg.1 hd (fun _ => h.tame) hstep
  -- along the moves: not closed yet, or closed with the FIN acknowledged
  have hinv : (Ending c' ∧ honest c' e) ∧ (c'.tcb.state = .closed → FinDone e c') := by
    clear hs' hstep
    induction hmicros with
    | refl => exact ⟨⟨h, hreg.2⟩, fun heq => absurd heq hs⟩
    | @tail d d' _ hm ih =>
      obtain ⟨⟨hd, hh⟩, hdone⟩ := ih
      refine ⟨hd.micro hh hm, fun hs' => ?_⟩
      rcases hm.closed hd.parting hd.told hd.base hd.tame fitting_closeIrregular (by decide) hh hs' with
        ⟨hs, hkeep⟩ | habort | hdone'
      · exact hkeep (hdone hs)
      · exact absurd (ha.symm.trans habort) (by decide)
      · exact hdone'
  exact hinv.2 hs'

/-- In every run without the irregular events, with a peer that acknowledges only what it was sent:
a FIN has the sequence number behind the last byte that was written, and every byte before it has
been sent before it. In `FIN_WAIT2` and `TIME_WAIT` the FIN is sent and acknowledged, and so it is
when the connection enters `CLOSED` without being given up. -/
theorem teardown_orderly {c0 : Conn} {es : List Event} (hinit : Conn.Init c0)
    (hsize : c0.tcb.txfifoSize.val ≤ 1073741824) (hrun : Run OrderlyStep c0 es c) :
    (∀ l p, l ++ [p] <+: c.log → has p.2.flg flagFin = true →
      p.1 + 1 = c.pos c.tcb.snd.wrptr ∧
      ∀ q, 1 ≤ q → q < p.1 → ∃ r ∈ l, r.1 ≤ q ∧ q < r.1 + r.2.payload.length) ∧
    (c.tcb.state = .finWait2 ∨ c.tcb.state = .timeWait →
      c.tcb.snd.una = c.tcb.snd.wrptr ∧ ∃ p ∈ c.log, has p.2.flg flagFin = true) ∧
    ∀ e c', OrderlyStep c e c' → c.tcb.state ≠ .closed → c'.tcb.state = .closed →
      aborts e = false → FinDone e c' := by
  have h := ending_of_run hinit hsize hrun
  refine ⟨fun l p hp hfin => ⟨?_, h.told.before l p hp hfin⟩, fun hs => ?_,
    fun e c' hstep hs hs' ha => ?_⟩
  · have hmem := hp.subset (mem_append_right l (mem_singleton.mpr rfl))
    exact ((h.told.shaped p hmem).fin hfin).2
  · have hacked := h.parting.acked hs
    refine ⟨hacked, h.told.heard (h.parting.fin ?_) hacked⟩
    rcases hs with hs | hs <;> rw [hs] <;> rfl
  · exact finDone_of_step h (dormant_of_run hrun hinit.dormant) hstep.1 hstep.2 hs hs' ha

/-! ## Three runs -/

/-- The peer closes, then the application; a segment that acknowledges nothing follows. -/
def lastAckEarly : List Event :=
  [.input (bareSeg 501 101 flagAck 1000) plenty, .input (bareSeg 501 101 (flagFin ||| flagAck) 1000) plenty,
    .close, .task taskOne, .input (bareSeg 502 101 flagAck 1000) plenty]

/-- Ten bytes fill the window and the FIN stays behind; the peer acknowledges the bytes and closes,
and the time is over. -/
def finNeverSent : List Event :=
  [.input (bareSeg 501 101 flagAck 10) plenty, .write [List.replicate 10 7] false false, .close,
    .task taskOne, .input (bareSeg 501 111 (flagFin ||| flagAck) 0) plenty, .timeWait]

/-- The connection is closed from `LAST_ACK` though the FIN is not acknowledged; it is closed from
`TIME_WAIT` though the FIN was never sent; a FIN is sent before the last bytes. -/
theorem teardown_not_orderly :
    (∃ c0 c, Conn.Init c0 ∧ Run Conn.Step c0 lastAckEarly c ∧ c.tcb.state = .closed ∧
      c.tcb.snd.wrptr = 102 ∧ c.acked = 1) ∧
    (∃ c0 c, Conn.Init c0 ∧ Run Conn.Step c0 finNeverSent c ∧ c.tcb.state = .closed ∧
      ∀ p ∈ c.log, has p.2.flg flagFin = false) ∧
    ∃ c0 c, Conn.Init c0 ∧ Run Conn.Step c0 (finEarly.take 7) c ∧
      ∃ p ∈ c.log, has p.2.flg flagFin = true ∧ p.1 + 1 < c.pos c.tcb.snd.wrptr ∧
        ∀ r ∈ c.log, r.1 + r.2.payload.length ≤ p.1 :=
  ⟨run_of_opened size4096 size2048 100 500 (by decide +kernel),
    run_of_opened size4096 size2048 100 500 (by decide +kernel),
    run_of_opened size4096 size2048 100 500 (by decide +kernel)⟩

/-- Ten bytes, then both sides close. -/
def goodbye : List Event :=
  [.input (bareSeg 501 101 flagAck 1000) plenty, .write [List.replicate 10 7] false false, .close,
    .task taskOne, .input (bareSeg 501 112 flagAck 1000) plenty,
    .input (bareSeg 501 112 (flagFin ||| flagAck) 1000) plenty]

theorem goodbye_orderly : ∃ c0 c c', Conn.Init c0 ∧ Run OrderlyStep c0 goodbye c ∧
    OrderlyStep c .timeWait c' ∧ c.tcb.state = .timeWait ∧ c'.tcb.state = .closed ∧
    FinDone .timeWait c' := by
  have h : ∃ r ∈ opened size4096 size2048 100 500, r.1.txfifoSize.val ≤ 1073741824 ∧
      ∃ c ∈ exec (guardStep (fun c e => Regular closeIrregular c.tcb e ∧ honest c e) Conn.step)
        (Conn.start r.1 r.2 none) goodbye, c.tcb.state = .timeWait ∧
        (Regular closeIrregular c.tcb .timeWait ∧ honest c .timeWait) ∧
        ∃ c' ∈ c.step .timeWait, c'.tcb.state = .closed := by
    decide +kernel
  obtain ⟨r, hr, hsize, hex⟩ := h
  obtain ⟨c, hrun, hs, hreg, c', hstep, hs'⟩ := exists_guarded_run hex
  have hinit := init_of_opened hr
  have hstep : OrderlyStep c .timeWait c' := ⟨hreg, hstep⟩
  exact ⟨_, c, c', hinit, hrun, hstep, hs, hs', (teardown_orderly hinit hsize hrun).2.2 _ c' hstep
    (by rw [hs]; decide) hs' rfl⟩

end Mios.Tcp
