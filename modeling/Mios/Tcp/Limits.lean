import Mios.Tcp.Send

/-! The limits of the peer. Fresh data stays in the window, and so does a retransmission that sends
nothing fresh; a FIN that is queued behind more than fits into the window upsets this, because it
is sent early and takes `snd.nxt` with it. The MSS is not looked at. -/

namespace Mios.Tcp

open Lib Relation List

variable {L : List Irregular} {e : Event} {t t' : Tcb} {g : Seg} {out : List Sent} {c c' : Conn}

/-! ## A FIN behind a short window -/

/-- What keeps the FIN at the end of the data. -/
structure Fitting (L : List Irregular) : Prop where
  simultaneous : .simultaneousOpen ∈ L
  overfull : .overfull ∈ L
  write : .writeAfterFin ∈ L
  window : .windowShort ∈ L

theorem not_clipped_of_fin (h : t.pendingFin = 0) : ¬ clipped t := fun hc => hc.1 h

theorem not_clipped_congr (h : ¬ clipped t) (hfin : t'.pendingFin = t.pendingFin)
    (hsnd : t'.snd = t.snd) : ¬ clipped t' := by
  rwa [clipped, hfin, hsnd]

/-- Bytes that may be sent from `snd.nxt` on are in the window. -/
theorem bytesInFifo_nxt {s : Snd} {k : Nat} (h : k ≤ bytesInFifo s s.nxt) (hk : 0 < k) :
    (s.nxt - s.una).toNat + k ≤ s.wnd.toNat := by
  rw [bytesInFifo, if_pos rfl, wndRoom] at h
  omega

/-- The data before a FIN is in the window, or nothing of it is. -/
theorem not_clipped_data {payload : List Byte} {n : SeqNo} (h : ¬ clipped t) (hne : payload ≠ [])
    (hlen : payload.length + finBit t ≤ bytesInFifo t.snd t.snd.nxt) : ¬ clipped (withNxt t n) := by
  have hpos : 0 < payload.length := length_pos_of_ne_nil hne
  have hroom := bytesInFifo_nxt (Nat.le_trans (Nat.le_add_right _ _) hlen) hpos
  have hbytes := bytesInFifo_le t.snd t.snd.nxt
  rintro ⟨hfin, -, -, hshort⟩
  refine h ⟨hfin, ?_, by omega, hshort⟩
  intro heq
  rw [← heq, Seq.dist_self] at hbytes
  omega

theorem not_clipped_move (hb : Base t) (h : ¬ clipped t) (hL : Fitting L)
    (hm : Move L e t out t') : ¬ clipped t' := by
  cases hm with
  | other hm => exact not_clipped_congr h hm.sameTx.pendingFin hm.sameTx.snd
  | fin => exact fun hc => hc.2.1 rfl
  | @data seq payload _ _ _ hne _ hlen _ =>
    split
    · rename_i hnxt
      subst hnxt
      exact not_clipped_data h hne hlen
    · exact h
  | connect hc =>
    obtain ⟨-, hnxt, huna⟩ := hb.shake.connect hc
    have hroom := hb.room hc
    rintro ⟨hfin, -, hlt, hshort⟩
    have hzero : (t.snd.nxt - t.snd.una).toNat = 0 := by
      rw [hnxt, huna, Seq.dist_self]
    refine h ⟨hfin, ?_, Nat.lt_of_le_of_lt (by omega) hlt, hshort⟩
    intro heq
    rw [← heq] at hroom
    omega
  | simultaneous _ hnot => exact absurd hL.simultaneous hnot
  | tooNew _ _ hstate => exact not_clipped_of_fin (hb.finPending (by rw [hstate]; rfl))
  | write _ _ _ _ _ hfin _ => exact not_clipped_of_fin (hfin hL.write)
  | queueFin _ _ _ hwnd => exact hwnd hL.window
  | _ => exact h

theorem not_clipped_micro (hb : Base c.tcb) (h : ¬ clipped c.tcb) (hL : Fitting L)
    (hm : Micro L e c c') : ¬ clipped c'.tcb := by
  cases hm with
  | move hm => exact not_clipped_move hb h hL hm
  | hear => exact h
  | app _ happ => exact not_clipped_congr h happ.pendingFin happ.snd
  | @synAck g _ _ _ hstate =>
    have hfin := hb.finPending (by rw [hstate]; rfl)
    exact not_clipped_of_fin ((synAcked_keeps c.tcb g).pendingFin.trans hfin)
  | @establish g _ _ _ hstate =>
    have hfin := hb.finPending (by rw [hstate]; rfl)
    exact not_clipped_of_fin ((establish_frame c.tcb g).pendingFin.trans hfin)
  | acked _ _ _ _ _ _ _ hshort => exact hshort hL.window

theorem Conn.Init.not_clipped (h : Conn.Init c) : ¬ clipped c.tcb := by
  cases h with
  | passive iss tx rx buffer g pulled b t out hflg h =>
    exact not_clipped_of_fin (passiveOpen_opened h).pendingFin
  | active iss tx rx buffer => exact not_clipped_of_fin rfl

/-- A FIN is sent right behind the data. -/
theorem wrptr_of_fin {seq : SeqNo} (hinv : SndInv t) (h : ¬ clipped t) (hfin : t.pendingFin ≠ 0)
    (hseq : EmitsFrom e t seq) (hone : bytesInFifo t.snd seq = 1) :
    (t.snd.wrptr - seq).toNat = 1 := by
  rcases hseq with rfl | ⟨-, hne, -⟩
  · have hle := bytesInFifo_le t.snd t.snd.nxt
    have hroom := bytesInFifo_nxt (Nat.le_of_eq hone.symm) Nat.one_pos
    have hsplit := Seq.dist_split hinv.nxt_le
    have hcover : (t.snd.wrptr - t.snd.una).toNat ≤ t.snd.wnd.toNat := by
      by_contra hshort
      refine h ⟨hfin, ?_, by omega, Nat.not_le.mp hshort⟩
      intro heq
      rw [← heq, Seq.dist_self] at hle
      omega
    rw [bytesInFifo, if_pos rfl, wndRoom] at hone
    omega
  · rwa [bytesInFifo, if_neg hne] at hone

/-! ## The right edge -/

/-- What keeps the window honest. -/
structure Windowed (L : List Irregular) : Prop extends Fitting L where
  tooNew : .tooNewAck ∈ L
  rtx : .beyondNxt ∈ L
  stale : .staleWindow ∈ L

/-- All that was sent is before the right edge of a window that the peer advertised. -/
structure Within (c : Conn) : Prop where
  wnd : c.acked + c.tcb.snd.wnd.toNat ≤ c.edge
  nxt : c.tcb.pendingSyn = 0 → c.tcb.signals.connect = false → c.pos c.tcb.snd.nxt ≤ c.edge
  log : ∀ p ∈ c.log, p.2.payload ≠ [] → p.1 + p.2.payload.length ≤ c.edge

/-- A move that leaves the window and the SYN alone. -/
theorem Within.sent (h : Within c) (huna : t'.snd.una = c.tcb.snd.una)
    (hwnd : t'.snd.wnd = c.tcb.snd.wnd)
    (hnxt : t'.pendingSyn = 0 → t'.signals.connect = false → c.pos t'.snd.nxt ≤ c.edge)
    (hout : ∀ s ∈ out, s.payload ≠ [] → c.pos s.seq + s.payload.length ≤ c.edge) :
    Within (c.after (t', out)) where
  wnd := by
    rw [Conn.after_acked huna]
    show c.acked + t'.snd.wnd.toNat ≤ c.edge
    rw [hwnd]
    exact h.wnd
  nxt hsyn hconn := by
    rw [Conn.after_pos huna]
    exact hnxt hsyn hconn
  log p hp hpay := by
    rw [Conn.after_log huna, mem_append, mem_map] at hp
    rcases hp with hp | ⟨s, hs, rfl⟩
    · exact h.log p hp hpay
    · exact hout s hs hpay

/-- A move that sends no data. -/
theorem Within.still (h : Within c) (ht : SameTx c.tcb t') (hout : ∀ s ∈ out, s.payload = []) :
    Within (c.after (t', out)) := by
  refine h.sent (by rw [ht.snd]) (by rw [ht.snd]) (fun hs hc => ?_)
    fun s hs hpay => absurd (hout s hs) hpay
  rw [ht.snd]
  exact h.nxt (ht.pendingSyn ▸ hs) (ht.connect ▸ hc)

theorem Within.move (h : Within c) (hb : Base c.tcb) (hclip : ¬ clipped c.tcb) (hL : Windowed L)
    (hm : Move L e c.tcb out t') : Within (c.after (t', out)) := by
  have hwnd := h.wnd
  have hself := (Same.refl c.tcb).sameTx
  cases hm with
  | other hm => exact h.still hm.sameTx (by simp)
  | bare hbare =>
    refine h.still hself fun s hs => ?_
    rw [mem_singleton.mp hs]
    exact hbare.payload
  | syn =>
    refine h.still hself fun s hs => ?_
    rw [mem_singleton.mp hs]
    rfl
  | @fin seq sent hconn hsyn hfin hseq hone =>
    refine h.sent rfl rfl (fun _ _ => ?_) fun s hs hpay => ?_
    · -- with the FIN at `snd.una` there is nothing else in flight
      have hlast := wrptr_of_fin hb.inv hclip hfin hseq hone
      have hle := hb.inv.nxt_le
      have hnxt := h.nxt hsyn hconn
      show c.acked + (c.tcb.snd.wrptr - c.tcb.snd.una).toNat ≤ c.edge
      rcases hseq with rfl | ⟨rfl, hne, -⟩
      · have hroom := bytesInFifo_nxt (Nat.le_of_eq hone.symm) Nat.one_pos
        have hsplit := Seq.dist_split hle
        omega
      · have hpos : (c.tcb.snd.nxt - c.tcb.snd.una).toNat ≠ 0 := fun hz =>
          hne (Seq.toNat_sub_eq_zero.mp hz).symm
        rw [Conn.pos] at hnxt
        omega
    · split at hs
      · rw [mem_singleton.mp hs] at hpay
        exact absurd rfl hpay
      · cases hs
  | @data seq payload hconn hsyn hseq hne hmax hlen hbeyond =>
    have hnxt := h.nxt hsyn hconn
    have hbytes := bytesInFifo_le c.tcb.snd seq
    by_cases heq : c.tcb.snd.nxt = seq
    · subst heq
      have hfresh := dist_fresh (k := payload.length) hb.inv (by omega)
      have hroom := bytesInFifo_nxt (Nat.le_trans (Nat.le_add_right _ _) hlen)
        (length_pos_of_ne_nil hne)
      rw [if_pos rfl]
      refine h.sent rfl rfl (fun _ _ => ?_) fun s hs _ => ?_
      · show c.acked + (c.tcb.snd.nxt + BitVec.ofNat 32 payload.length - c.tcb.snd.una).toNat ≤
          c.edge
        omega
      · rw [mem_singleton.mp hs]
        show c.acked + (c.tcb.snd.nxt - c.tcb.snd.una).toNat + payload.length ≤ c.edge
        omega
    · rw [if_neg heq]
      have hshort := hbeyond hL.rtx (Ne.symm heq)
      obtain ⟨rfl, -⟩ := hseq.resolve_left (Ne.symm heq)
      refine h.sent rfl rfl (fun _ _ => hnxt) fun s hs _ => ?_
      rw [mem_singleton.mp hs]
      show c.acked + (c.tcb.snd.una - c.tcb.snd.una).toNat + payload.length ≤ c.edge
      rw [Seq.dist_self]
      rw [Conn.pos] at hnxt
      omega
  | connect =>
    refine h.sent rfl rfl (fun hsyn _ => ?_) (by simp)
    exact absurd hsyn (show flagSyn ≠ 0 by decide)
  | simultaneous _ hnot => exact absurd hL.simultaneous hnot
  | tooNew _ hnot => exact absurd hL.tooNew hnot
  | write | queueFin => exact h.sent rfl rfl h.nxt (by simp)

theorem Conn.edge_le_hear (c : Conn) (g : Seg) : c.edge ≤ (c.hear g).edge := Nat.le_max_left _ _

theorem Conn.edge_of_advertised {wnd : Nat} (h : Conn.advertised c.tcb g = some wnd) :
    c.pos g.ack + wnd ≤ (c.hear g).edge := by
  simp only [Conn.hear, h, Option.elim]
  exact Nat.le_max_right _ _

/-- A segment that acknowledges no more than was sent, and the window it leaves. -/
theorem Within.acked {wnd : Nat} (h : Within c) (hb : Base c.tcb) (ha : Acks c.tcb g t')
    (hadv : Conn.advertised c.tcb g = some wnd)
    (hwnd : t'.snd.wnd.toNat ≤ wnd ∨ t'.snd.wnd = c.tcb.snd.wnd ∧ g.ack = c.tcb.snd.una) :
    Within ((c.hear g).after (t', [])) := by
  have hle := ha.le
  have hedge := Conn.edge_le_hear c g
  have hadv := Conn.edge_of_advertised hadv
  have hacked : ((c.hear g).after (t', [])).acked = c.pos g.ack := by
    show c.acked + (t'.snd.una - c.tcb.snd.una).toNat = _
    rw [ha.una]
    rfl
  refine ⟨?_, fun hp _ => ?_, fun p hp hpay => ?_⟩
  · rw [hacked]
    show c.pos g.ack + t'.snd.wnd.toNat ≤ (c.hear g).edge
    rcases hwnd with hwnd | ⟨hwnd, hack⟩
    · omega
    · have hold := h.wnd
      rw [hwnd, hack, Conn.pos, Seq.dist_self]
      omega
  · refine Nat.le_trans (Nat.le_of_eq ha.pos_nxt) ?_
    show c.pos c.tcb.snd.nxt ≤ (c.hear g).edge
    -- either the SYN was acknowledged before, or all that was sent is the SYN
    by_cases hpend : c.tcb.pendingSyn = 0
    · exact Nat.le_trans (h.nxt hpend ha.synSent) hedge
    · have hne : g.ack ≠ c.tcb.snd.una := fun hack => hpend ((ha.stayed hack).1.symm.trans hp)
      rw [(hb.shake.pending hpend).2, ← hb.shake.ack_eq hpend hne hle]
      omega
  · have hp : p ∈ c.log := by simpa [Conn.after, Conn.hear] using hp
    exact Nat.le_trans (h.log p hp hpay) hedge

theorem scaledWnd_tcpAck (t : Tcb) (n : BitVec 32) (g : Seg) :
    scaledWnd (tcpAck t n) g = scaledWnd t g := by
  rw [scaledWnd, (tcpAck_frame t n).sndWndShift]
  rfl

/-- The window after an acknowledgement is the one of the segment, or still the old one. -/
theorem ackWindow_wnd (t : Tcb) (g : Seg) : (ackWindow t g).snd.wnd = scaledWnd t g ∨
    (ackWindow t g).snd.wnd = t.snd.wnd ∧ ¬ newerWindow t g := by
  have hsnd := tcpAck_snd t (g.ack - t.snd.una)
  by_cases hw : newerWindow (tcpAck t (g.ack - t.snd.una)) g
  · rw [ackWindow, updateWindow_of_newer hw]
    exact .inl (scaledWnd_tcpAck t _ g)
  · rw [ackWindow, updateWindow_of_not hw, hsnd]
    rw [newerWindow, hsnd] at hw
    exact .inr ⟨rfl, hw⟩

theorem Within.micro (h : Within c) (hb : Base c.tcb) (hclip : ¬ clipped c.tcb) (hL : Windowed L)
    (hm : Micro L e c c') : Within c' := by
  cases hm with
  | move hm => exact h.move hb hclip hL hm
  | hear =>
    have hedge := Conn.edge_le_hear c
    exact ⟨Nat.le_trans h.wnd (hedge _), fun hs hc => Nat.le_trans (h.nxt hs hc) (hedge _),
      fun p hp hpay => Nat.le_trans (h.log p hp hpay) (hedge _)⟩
  | app _ happ =>
    refine ⟨?_, fun hs hc => ?_, fun p hp hpay => ?_⟩
    · rw [happ.acked, happ.snd, happ.edge]
      exact h.wnd
    · rw [Conn.pos, happ.acked, happ.snd, happ.edge]
      exact h.nxt (happ.pendingSyn ▸ hs) (happ.connect ▸ hc)
    · rw [happ.log] at hp
      rw [happ.edge]
      exact h.log p hp hpay
  | @synAck g _ _ hconn hstate hack hadv h1 h2 =>
    refine h.acked hb (synAcked_acks hb.shake hconn hstate hack h1 h2) hadv (.inl ?_)
    show (g.wnd.setWidth 32).toNat ≤ _
    rw [BitVec.toNat_setWidth]
    exact Nat.mod_le _ _
  | @establish g _ _ hconn hstate hflag hack h1 hadv =>
    refine h.acked hb (establish_acks hb.shake hconn hstate hflag hack h1) hadv (.inl ?_)
    have hwnd : (establish c.tcb g).snd.wnd = scaledWnd c.tcb g :=
      scaledWnd_tcpAck { c.tcb with state := .established } _ g
    rw [hwnd]
  | @acked g _ _ hconn hopen h1 h2 hadv hstale _ =>
    refine h.acked hb (ackWindow_acks hconn hopen h1 h2 hadv) hadv ?_
    rcases ackWindow_wnd c.tcb g with hwnd | ⟨hwnd, hnot⟩
    · exact .inl (by rw [hwnd])
    by_cases hack : g.ack = c.tcb.snd.una
    · exact .inr ⟨hwnd, hack⟩
    have hpos : 0 < unaAck c.tcb g := by
      have hne : unaAck c.tcb g ≠ 0 := fun hz =>
        hack (Seq.eq_of_sub_eq_zero (Seq.toInt_eq_zero.mp hz))
      omega
    rcases hstale hL.stale hpos with hnew | hle
    · exact absurd hnew hnot
    · exact .inl (by rw [hwnd]; exact hle)

theorem Conn.Init.within (h : Conn.Init c) : Within c := by
  cases h with
  | passive iss tx rx buffer g pulled b t out hflg h =>
    have ho := passiveOpen_opened h
    refine ⟨?_, fun hs _ => ?_, fun p hp hpay => ?_⟩
    · show 0 + t.snd.wnd.toNat ≤ 0
      rw [ho.snd]
      exact Nat.le_refl 0
    · exact absurd (ho.pendingSyn.symm.trans hs) (by decide)
    · obtain ⟨s, hs, rfl⟩ := mem_map.mp hp
      exact absurd (ho.out s hs).2.2.1 hpay
  | active iss tx rx buffer =>
    refine ⟨Nat.le_refl _, fun _ hc => ?_, fun p hp _ => ?_⟩
    · cases hc
    · cases hp

/-! ## The size of a segment -/

theorem Move.txfifoSize_eq (hL : .simultaneousOpen ∈ L) (hm : Move L e t out t') :
    t'.txfifoSize = t.txfifoSize := by
  cases hm with
  | other hm => exact hm.sameTx.txfifoSize
  | simultaneous _ hnot => exact absurd hL hnot
  | _ => rfl

/-- No segment has more than 1460 bytes, or more than the FIFO can hold. -/
def Sized (c : Conn) : Prop :=
  ∀ p ∈ c.log, p.2.payload.length ≤ min 1460 c.tcb.txfifoSize.val

theorem Move.sized (hb : Base t) (hL : .simultaneousOpen ∈ L) (hm : Move L e t out t') :
    ∀ s ∈ out, s.payload.length ≤ min 1460 t.txfifoSize.val := by
  intro s hs
  have hnil : s.payload = [] → s.payload.length ≤ min 1460 t.txfifoSize.val := by
    intro hpay
    rw [hpay]
    exact Nat.zero_le _
  cases hm with
  | bare hbare =>
    rw [mem_singleton.mp hs] at hnil ⊢
    exact hnil hbare.payload
  | syn =>
    rw [mem_singleton.mp hs] at hnil ⊢
    exact hnil rfl
  | fin sent =>
    split at hs
    · rw [mem_singleton.mp hs] at hnil ⊢
      exact hnil rfl
    · cases hs
  | @data seq payload _ _ hseq _ hmax hlen _ =>
    rw [mem_singleton.mp hs]
    show payload.length ≤ _
    have hbytes := bytesInFifo_le t.snd seq
    have hle : (t.snd.wrptr - seq).toNat ≤ (t.snd.wrptr - t.snd.una).toNat := by
      rcases hseq with rfl | ⟨rfl, -⟩
      · rw [Seq.dist_split hb.inv.nxt_le]
        exact Nat.sub_le _ _
      · exact Nat.le_refl _
    have hsize : payload.length ≤ t.txfifoSize.val := by
      by_cases hfin : t.pendingFin = 0
      · have hused := hb.used hfin
        omega
      · have hused := hb.inv.wrptr_le
        rw [finBit, if_neg hfin] at hlen
        omega
    omega
  | simultaneous _ hnot => exact absurd hL hnot
  | _ => cases hs

theorem Sized.micro (h : Sized c) (hb : Base c.tcb) (hL : .simultaneousOpen ∈ L)
    (hm : Micro L e c c') : Sized c' := by
  cases hm.case hb.shake with
  | @move out t' hmove =>
    intro p hp
    show p.2.payload.length ≤ min 1460 t'.txfifoSize.val
    rw [hmove.txfifoSize_eq hL]
    rw [Conn.after_log hmove.una_eq, mem_append, mem_map] at hp
    rcases hp with hp | ⟨s, hs, rfl⟩
    · exact h p hp
    · exact hmove.sized hb hL s hs
  | hear => exact h
  | app happ =>
    intro p hp
    rw [happ.log] at hp
    rw [happ.txfifoSize]
    exact h p hp
  | @ack g _ t' _ ha =>
    intro p hp
    have hp : p ∈ c.log := by simpa [Conn.after, Conn.hear] using hp
    show p.2.payload.length ≤ min 1460 t'.txfifoSize.val
    rw [ha.txfifoSize]
    exact h p hp

theorem Conn.Init.sized (h : Conn.Init c) : Sized c := by
  cases h with
  | passive iss tx rx buffer g pulled b t out hflg h =>
    intro p hp
    obtain ⟨s, hs, rfl⟩ := mem_map.mp hp
    rw [(passiveOpen_opened h).out s hs |>.2.2.1]
    exact Nat.zero_le _
  | active iss tx rx buffer =>
    intro p hp
    cases hp

/-! ## Runs -/

/-- What the limits of the peer depend on. -/
def limitIrregular : List Irregular :=
  [.simultaneousOpen, .tooNewAck, .beyondNxt, .overfull, .writeAfterFin, .staleWindow, .windowShort]

theorem windowed_limitIrregular : Windowed limitIrregular :=
  ⟨⟨by decide, by decide, by decide, by decide⟩, by decide, by decide, by decide⟩

/-- In every run without the irregular events no segment has a byte behind the right edge of the
windows that the peer advertised, and none is larger than the peer announced if it can take 1460
bytes, or the whole FIFO. -/
theorem limits_respected {c0 : Conn} {es : List Event} (hinit : Conn.Init c0)
    (hrun : Run (Guarded (fun c e => Regular limitIrregular c.tcb e) Conn.Step) c0 es c) :
    ∀ p ∈ c.log, (p.2.payload ≠ [] → p.1 + p.2.payload.length ≤ c.edge) ∧
      ∀ m ∈ c.peerMss, min 1460 c.tcb.txfifoSize.val ≤ m → p.2.payload.length ≤ m := by
  have hL := windowed_limitIrregular
  have h : Base c.tcb ∧ ¬ clipped c.tcb ∧ Within c ∧ Sized c := by
    refine invariant_of_micro (I := fun c => Base c.tcb ∧ ¬ clipped c.tcb ∧ Within c ∧ Sized c) ?_
      (fun hL => absurd hL (by decide)) hrun hinit.dormant
      ⟨hinit.base, hinit.not_clipped, hinit.within, hinit.sized⟩
    rintro e c c' ⟨hb, hclip, hwithin, hsized⟩ hm
    exact ⟨hb.micro hL.simultaneous hL.overfull hm, not_clipped_micro hb hclip hL.toFitting hm,
      hwithin.micro hb hclip hL hm, hsized.micro hb hL.simultaneous hm⟩
  obtain ⟨-, -, hwithin, hsized⟩ := h
  exact fun p hp => ⟨hwithin.log p hp, fun m _ hmss => Nat.le_trans (hsized p hp) hmss⟩

/-- A FIN behind 100 bytes, of which the peer takes 10 at a time. -/
def finEarly : List Event :=
  [.input (bareSeg 501 101 flagAck 10) plenty, .write [List.replicate 100 7] false false, .close,
    .task taskOne, .input (bareSeg 501 111 flagAck 10) plenty, .flush, .task taskOne, .rtx false lots]

/-- The answer to our SYN with the option for the MSS. -/
def synAckMss (hi lo : Byte) : Seg := ⟨500, 101, flagSyn ||| flagAck, 1000, [2, 4, hi, lo], []⟩

/-- An active open, then 200 bytes. -/
def sendTo (hi lo : Byte) : List Event :=
  [.task taskOne, .input (synAckMss hi lo) plenty, .write [List.replicate 200 7] false false,
    .task taskOne]

/-- A retransmission does not look at the window; a FIN is sent early, and then a retransmission
reaches behind the window although it sends nothing fresh; a peer that announced an MSS of 100 gets
200 bytes. -/
theorem limits_exceeded : (∃ c0 c, Conn.Init c0 ∧ Run Conn.Step c0 overreach c ∧
      ∃ p ∈ c.log, p.2.payload ≠ [] ∧ c.edge < p.1 + p.2.payload.length) ∧
    (∃ c0 c, Conn.Init c0 ∧ Run Conn.Step c0 finEarly c ∧
      ∃ p ∈ c.log, p.2.payload ≠ [] ∧ c.edge < p.1 + p.2.payload.length ∧
        p.1 + p.2.payload.length ≤ c.pos c.tcb.snd.nxt) ∧
    ∃ c0 c, Conn.Init c0 ∧ Run Conn.Step c0 (sendTo 0 100) c ∧ c.peerMss = some 100 ∧
      ∃ p ∈ c.log, p.2.payload.length = 200 :=
  ⟨run_of_opened size4096 size2048 100 500 (by decide +kernel),
    run_of_opened size4096 size2048 100 500 (by decide +kernel),
    run_of_connected size4096 size2048 100 (by decide +kernel)⟩

theorem sendTo_respected : ∃ c0 c, Conn.Init c0 ∧
    Run (Guarded (fun c e => Regular limitIrregular c.tcb e) Conn.Step) c0 (sendTo 5 180) c ∧
    c.log.length = 3 ∧ c.peerMss = some 1460 ∧
    ∀ p ∈ c.log, (p.2.payload ≠ [] → p.1 + p.2.payload.length ≤ c.edge) ∧
      ∀ m ∈ c.peerMss, p.2.payload.length ≤ m := by
  obtain ⟨c0, c, hinit, hrun, hlog, hmss⟩ := guarded_run_of_connected size4096 size2048 100
    (sendTo 5 180) (fun c e => Regular limitIrregular c.tcb e)
    (P := fun c => c.log.length = 3 ∧ c.peerMss = some 1460) (by decide +kernel)
  refine ⟨c0, c, hinit, hrun, hlog, hmss, fun p hp => ?_⟩
  obtain ⟨hwindow, hsize⟩ := limits_respected hinit hrun p hp
  refine ⟨hwindow, fun m hm => hsize m hm ?_⟩
  rw [hmss] at hm
  rw [← Option.some.inj hm]
  exact Nat.min_le_left _ _

end Mios.Tcp
