import Mios.Vllp.Integrity
import Mios.Vllp.Session

/-! The device does not halt on received frames, as long as the messages they complete
are tame: long enough for their CRC, and no CLOSE of a channel that cannot be closed; and as
long as the services offer packets whose lengths are right. -/

namespace Mios.Vllp

open Lib Crc32 Pbuf Dev

/-! ## Tame frames -/

/-- The message that a last fragment completes: what the queue holds, and what of the
fragment still fits the buffer. -/
def Dev.message (v : Dev) (a : Nat) (data : List Byte) : List Byte :=
  match (v.chan a).rxq with
  | [] => data
  | q => content q ++ data.take (dataSize - (content q).length)

/-- A CLOSE names no channel of the device, or one with an application, and then carries a
two byte error code. -/
def Dev.closeOk (v : Dev) (body : List Byte) : Bool :=
  match body with
  | [] => true
  | u :: rest =>
      (u >>> 4).toNat != opcodeClose ||
        match vllpChannelFind v (hdrChannel u) with
        | none => true
        | some a => a != cmc && rest.length == 2

/-- A message with a good CRC is at least as long as it, and on the CMC it is no bad CLOSE. -/
def Dev.tameMessage (v : Dev) (a : Nat) (msg : List Byte) : Bool :=
  crc32 (v.chan a).rxCrcIV msg != BitVec.allOnes 32 ||
    decide (4 ≤ msg.length) && (a != cmc || v.closeOk (msg.take (msg.length - 4)))

def Dev.tameFrame (v : Dev) (frame : List Byte) : Bool :=
  match stripPad frame with
  | some (hdr :: data) =>
      !hdrL hdr || match vllpChannelFind v (hdrChannel hdr) with
        | none => true
        | some a => v.tameMessage a (v.message a data)
  | _ => true

/-- Frames of 1 to 64 bytes that are tame in the state they arrive in, and any other event. -/
def Dev.Tame {ι : Type} (v : Dev) : EventOf ι → Prop
  | .rx _ frame => (1 ≤ frame.length ∧ frame.length ≤ 64) ∧ v.tameFrame frame = true
  | _ => True

instance {ι : Type} (v : Dev) (e : EventOf ι) : Decidable (v.Tame e) :=
  match e with
  | .rx .. => inferInstanceAs (Decidable ((_ ∧ _) ∧ _))
  | .ackTimer _ | .rtxTimer _ | .timeout | .task .. => isTrue trivial

/-- What services hand out during the event keeps their promise. -/
def EventOf.Offers : EventOf Answers → Prop
  | .rx i _ | .task i _ _ => ∀ id, Offered (i.pull id)
  | _ => True

/-- The event without the promise. -/
def EventOf.raw : DevEvent → EventOf Answers
  | .rx i frame => .rx i frame
  | .ackTimer i => .ackTimer i
  | .rtxTimer i => .rtxTimer i
  | .timeout => .timeout
  | .task i a close => .task i a close

theorem EventOf.raw_offers (e : DevEvent) : e.raw.Offers := by
  cases e with
  | rx i frame | task i a close => exact i.pullOffered
  | ackTimer i | rtxTimer i | timeout => trivial

/-- Timers ask no service, so what one would hand out does not matter. -/
theorem EventOf.Offers.event {e : EventOf Answers} (h : e.Offers) :
    ∃ e' : DevEvent, ∀ v : Dev, v.step e' = v.stepOf id e ∧ (v.Tame e' ↔ v.Tame e) := by
  cases e with
  | rx i frame => exact ⟨.rx ⟨i, h⟩ frame, fun v => ⟨rfl, Iff.rfl⟩⟩
  | ackTimer i =>
    exact ⟨.ackTimer ⟨{ i with pull := _ }, In.calm.pullOffered⟩, fun v => ⟨rfl, Iff.rfl⟩⟩
  | rtxTimer i =>
    exact ⟨.rtxTimer ⟨{ i with pull := _ }, In.calm.pullOffered⟩, fun v => ⟨rfl, Iff.rfl⟩⟩
  | timeout => exact ⟨.timeout, fun v => ⟨rfl, Iff.rfl⟩⟩
  | task i a close => exact ⟨.task ⟨i, h⟩ a close, fun v => ⟨rfl, Iff.rfl⟩⟩

/-! ## Messages -/

/-- The error codes `vllp_rx` knows. -/
def KnownError (err : Int) : Prop :=
  err = 0 ∨ err = errNoBuffer ∨ err = errChecksumError ∨ err = errBadState

variable {hdr : Byte} {v v' : Dev} {e : DevEvent} {data frame : List Byte}

theorem find_setChan {c : Channel} (hid : c.id = (v.chan c.addr).id) (id : Nat) :
    vllpChannelFind (v.setChan c) id = vllpChannelFind v id := by
  refine find_congr id rfl fun b _ => ?_
  rcases chan_setChan v c b with hb | ⟨hb, heq⟩
  · rw [hb]
  · rw [heq, hb, hid]

theorem handleCmc_known (i : In) (v : Dev) (pb : Chain)
    (h : v.closeOk (pb.headD default).data = true) : KnownError (handleCmc i v pb).2 := by
  unfold handleCmc
  cases hd : (pb.headD default).data with
  | nil => exact .inr (.inr (.inr rfl))
  | cons u rest =>
    simp only
    split
    · exact .inl rfl
    split
    · rename_i hclose
      simp only [hd, closeOk, hclose, bne_self_eq_false, Bool.false_or] at h
      unfold handleCmcClose
      cases hf : vllpChannelFind v (hdrChannel u) with
      | none => exact .inl rfl
      | some a =>
        have hok : a ≠ cmc ∧ rest.length = 2 := by simpa [hf] using h
        simp only [if_pos hok]
        exact .inl rfl
    · exact .inr (.inr (.inr rfl))

theorem closeOk_congr (h : ∀ id, vllpChannelFind v' id = vllpChannelFind v id)
    (body : List Byte) : v'.closeOk body = v.closeOk body := by
  cases body with
  | nil => rfl
  | cons u rest => simp only [closeOk, h]

/-- A complete message in one buffer is checked, trimmed and handed on. -/
theorem channelMessage_known (i : In) {a : Nat} {p : Pbuf} (h : v.tameMessage a p.data = true) :
    ∃ v' err, channelMessage i v a [p] = .ok (v', err) ∧ KnownError err := by
  have hcontent : content [p] = p.data := by simp [content]
  by_cases hcrc : calcCrc32 [p] (v.chan a).rxCrcIV ≠ 0
  · exact ⟨v, errChecksumError, by simp only [channelMessage, if_pos hcrc], .inr (.inr (.inl rfl))⟩
  have hgood : crc32 (v.chan a).rxCrcIV p.data = BitVec.allOnes 32 := by
    have hzero : ~~~crc32 (v.chan a).rxCrcIV p.data = 0 := by
      simpa [calcCrc32, hcontent] using hcrc
    rw [← BitVec.not_not (b := crc32 (v.chan a).rxCrcIV p.data), hzero]
    rfl
  have hmsg : 4 ≤ p.data.length ∧ (¬a = cmc ∨ v.closeOk (p.data.take (p.data.length - 4)) = true) := by
    simpa [tameMessage, hgood] using h
  have htrim := pbufTrim_one p 1 4 (by decide) hmsg.1
  unfold channelMessage
  simp only [if_neg hcrc, List.length_singleton]
  rw [htrim]
  by_cases ha : a = cmc
  · simp only [if_pos ha]
    refine ⟨_, _, rfl, handleCmc_known i _ _ ?_⟩
    rw [closeOk_congr (find_setChan (by rw [chan_addr]))]
    exact hmsg.2.resolve_left (not_not_intro ha)
  · simp only [if_neg ha]
    exact ⟨_, _, rfl, .inl rfl⟩

/-- Emptying the receive queue changes no verdict on a message. -/
theorem tameMessage_setRxq (v : Dev) (a : Nat) (msg : List Byte) :
    (v.setChan { v.chan a with rxq := [] }).tameMessage a msg = v.tameMessage a msg := by
  have hiv : ((v.setChan { v.chan a with rxq := [] }).chan a).rxCrcIV = (v.chan a).rxCrcIV := by
    rcases chan_setChan v { v.chan a with rxq := [] } a with h | ⟨-, h⟩ <;> rw [h]
  unfold tameMessage
  rw [hiv, closeOk_congr (find_setChan (by rw [chan_addr]))]

/-- A last fragment leaves the message in one buffer. -/
theorem rxqStore_message (h : v.Wf) (alloc : Bool) (a : Nat) (hlen : data.length ≤ dataSize) :
    rxqStore alloc (v.chan a).rxq data = .ok none ∨
      ∃ p, rxqStore alloc (v.chan a).rxq data = .ok (some [p]) ∧ p.data = v.message a data := by
  unfold Dev.message
  rcases (h.chan a).rxq with hq | ⟨p, hq, -⟩
  · rw [hq, rxqStore_nil]
    cases alloc with
    | false => exact .inl rfl
    | true => exact .inr ⟨_, if_neg (Nat.not_lt.mpr hlen), rfl⟩
  · rw [hq, rxqStore_single]
    exact .inr ⟨_, rfl, by simp [fillBuf, content, buflen]⟩

theorem vllpChannelReceive_known (i : In) (h : v.Wf) (hlen : data.length ≤ dataSize)
    (htame : hdrL hdr = true → ∀ a, vllpChannelFind v (hdrChannel hdr) = some a →
      v.tameMessage a (v.message a data) = true) :
    ∃ v' err, vllpChannelReceive i v hdr data = .ok (v', err) ∧ KnownError err := by
  cases hf : vllpChannelFind v (hdrChannel hdr) with
  | none => exact ⟨v, 0, by simp only [vllpChannelReceive, hf], .inl rfl⟩
  | some a =>
    unfold vllpChannelReceive
    simp only [hf]
    split
    · exact ⟨v, 0, rfl, .inl rfl⟩
    split
    · exact ⟨v, errNoBuffer, rfl, .inr (.inl rfl)⟩
    rcases rxqStore_message h i.allocRx a hlen with hstore | ⟨p, hstore, hp⟩
    · rw [hstore]
      exact ⟨v, errNoBuffer, rfl, .inr (.inl rfl)⟩
    rw [hstore]
    simp only
    split
    · rename_i hlast
      apply channelMessage_known
      rw [tameMessage_setRxq]
      exact (congrArg _ hp).trans (htame hlast a hf)
    · exact ⟨_, 0, rfl, .inl rfl⟩

/-! ## Frames -/

theorem rxData_total (i : In) {err : Int}
    (hr : vllpChannelReceive i v hdr data = .ok (v', err)) (hknown : KnownError err) :
    ∃ r, rxData i v hdr data = .ok r := by
  unfold rxData
  simp only [hr]
  rcases hknown with rfl | rfl | rfl | rfl
  all_goals exact ⟨_, rfl⟩

theorem rxFrame_total (i : In) (h : v.Wf) (hlen : data.length ≤ dataSize)
    (htame : hdrL hdr = true → ∀ a, vllpChannelFind v (hdrChannel hdr) = some a →
      v.tameMessage a (v.message a data) = true) : ∃ v', rxFrame i v (hdr :: data) = .ok v' := by
  have hack : ∀ (u : Dev) (peer : Bool), u.Wf → ∃ v', rxAck i u peer = .ok v' := by
    intro u peer hu
    obtain ⟨v', -, -, -, hok, -⟩ := rxAck_spec i u ⟨false, !u.S, none⟩ peer hu (by simp)
    exact ⟨v', hok⟩
  simp only [rxFrame]
  split
  · exact ⟨_, rfl⟩
  split
  · exact ⟨_, rfl⟩
  split
  · exact ⟨_, rfl⟩
  split
  · exact ⟨_, rfl⟩
  split
  · rename_i hdata
    obtain ⟨u, err, hrecv, hknown⟩ := vllpChannelReceive_known i h hlen htame
    obtain ⟨⟨w, more⟩, hrx⟩ := rxData_total i hrecv hknown
    simp only [decide_eq_true_eq, Bool.and_eq_true, beq_iff_eq] at hdata
    have hw := (rxData_spec h hdata.1 hdata.2 hrx).1
    rw [hrx]
    cases more with
    | false => exact ⟨w, rfl⟩
    | true => exact hack w _ hw
  · exact hack v _ h

theorem stripPad_length {f : List Byte} (h : stripPad frame = some f) :
    f.length ≤ frame.length := by
  simp only [stripPad] at h
  split at h
  · split at h
    · cases h
    · cases h
      exact List.length_take_le' _ _
  · cases h
    exact Nat.le_refl _

theorem tameFrame_read (htame : v.tameFrame frame = true) (hf : stripPad frame = some (hdr :: data))
    (hl : hdrL hdr = true) (a : Nat) (ha : vllpChannelFind v (hdrChannel hdr) = some a) :
    v.tameMessage a (v.message a data) = true := by
  simpa [tameFrame, hf, hl, ha] using htame

/-- A tame frame is received without a halt. -/
theorem vllpRx_total (i : In) (h : v.Wf) (hlen : frame.length ≤ 64)
    (htame : v.tameFrame frame = true) : ∃ v', vllpRx i v frame = .ok v' := by
  -- the new flow status is not looked at by the condition
  obtain ⟨status, hu⟩ : ∃ status, (vllpRefreshLocalFlowStatus i v).1 =
      { v with localFlowStatus := status } := by
    by_cases hb : v.localFlowStatus = localFlow i v
    · exact ⟨v.localFlowStatus, by simp only [vllpRefreshLocalFlowStatus, if_pos hb]⟩
    · exact ⟨localFlow i v, by simp only [vllpRefreshLocalFlowStatus, if_neg hb]⟩
  have hw : ({ v with localFlowStatus := status } : Dev).Wf := { h with }
  cases hf : stripPad frame with
  | none => exact ⟨_, vllpRx_bad hf⟩
  | some f =>
    rw [vllpRx_good hf, hu]
    cases f with
    | nil => exact ⟨_, rfl⟩
    | cons hdr data =>
      have hle := stripPad_length hf
      simp only [List.length_cons] at hle
      exact rxFrame_total i hw (by simp only [dataSize]; omega) (tameFrame_read htame hf)

/-! ## Runs -/

def Dev.Steps (v : Dev) (e : DevEvent) (v' : Dev) : Prop := (v.step e).toOption = some v'

theorem Dev.Steps.ok (h : v.Steps e v') : v.step e = .ok v' := ok_of_toOption h

theorem step_wf (h : v.Wf) (hs : v.step e = .ok v') : v'.Wf := by
  by_cases hrx : ∃ i frame, e = .rx i frame
  · obtain ⟨i, frame, rfl⟩ := hrx
    have hv : ({ v with out := [] } : Dev).Wf := { h with }
    exact (vllpRx_cases hv hs).1
  · obtain ⟨w, hw, hwf, -⟩ := v.step_local e h fun i frame he => hrx ⟨i, frame, he⟩
    exact Except.ok.inj (hw.symm.trans hs) ▸ hwf

theorem step_total (h : v.Wf) (he : v.Tame e) : ∃ v', v.step e = .ok v' := by
  by_cases hrx : ∃ i frame, e = .rx i frame
  · obtain ⟨i, frame, rfl⟩ := hrx
    have hv : ({ v with out := [] } : Dev).Wf := { h with }
    exact vllpRx_total i hv he.1.2 he.2
  · obtain ⟨w, hw, -⟩ := v.step_local e h fun i frame he => hrx ⟨i, frame, he⟩
    exact ⟨w, hw⟩

/-- In every run of tame events, in any order and with any answers of the surroundings whose
services keep their promise, the next such event is taken without a panic, a failed assertion or
an endless loop. -/
theorem tame_run_never_halts (mtu : Nat) (hmtu : 8 ≤ mtu ∧ mtu ≤ 64)
    (es : List (EventOf Answers)) (v : Dev)
    (hrun : Run (Guarded (fun u e => e.Offers ∧ u.Tame e) fun u e u' => u.stepOf id e = .ok u')
      (vllpServerCreate mtu) es v)
    (e : EventOf Answers) (he : e.Offers ∧ v.Tame e) : ∃ v', v.stepOf id e = .ok v' := by
  have hwf : v.Wf := by
    refine hrun.invariant (vllpServerCreate_wf mtu hmtu) fun u e u' h hs => ?_
    obtain ⟨e', heq⟩ := hs.1.1.event
    exact step_wf h ((heq u).1.trans hs.2)
  obtain ⟨e', heq⟩ := he.1.event
  rw [← (heq v).1]
  exact step_total hwf ((heq v).2.mpr he.2)

/-- A CLOSE without an error code, in one fragment. -/
def closeMsg (cookie : BitVec 32) (target : Byte) : List Byte :=
  hdrByte true false true true cmcId ::
    Host.vllpGenerateCrc (~~~crc32 cookie (le32 1)) [0x30 ||| target, 0, 0]

/-- A CLOSE for a channel the device does not have. -/
theorem close_unknown_taken : ∃ v, Run (Guarded (fun u e => e.Offers ∧ u.Tame e)
      fun u e u' => u.stepOf id e = .ok u') (vllpServerCreate 8) [(synOf 5).raw] v ∧
    ∃ v', v.stepOf id (.rx In.calm (closeMsg 5 3)) = .ok v' := by
  obtain ⟨v, hrun, htame⟩ := exists_guarded_run
    (P := fun v : Dev => v.Tame (.rx In.calm.toAnswers (closeMsg 5 3)))
    (show ∃ v ∈ exec (guardStep Dev.Tame fun u e => (Dev.stepOf id u e).toOption)
      (vllpServerCreate 8) [(synOf 5).raw], _ from by decide +kernel)
  have hrun : Run (Guarded (fun u e => e.Offers ∧ u.Tame e) fun u e u' => u.stepOf id e = .ok u')
      (vllpServerCreate 8) [(synOf 5).raw] v := by
    refine hrun.mono_mem fun u e u' he hs => ?_
    rw [List.mem_singleton.mp he] at hs ⊢
    exact ⟨⟨(synOf 5).raw_offers, hs.1⟩, ok_of_toOption hs.2⟩
  exact ⟨v, hrun, tame_run_never_halts 8 (by decide) _ v hrun _ ⟨In.calm.pullOffered, htame⟩⟩

def haltOf {α : Type} : Except Halt α → Option Halt
  | .error h => some h
  | .ok _ => none

theorem eq_error_of_haltOf {α : Type} {r : Except Halt α} {h : Halt} (hr : haltOf r = some h) :
    r = .error h := by
  cases r with
  | error h' => exact congrArg _ (Option.some.inj hr)
  | ok _ => cases hr

/-- One byte that claims to be five. -/
def shortPacket : Answers := { In.calm with pull := fun _ => [⟨0, 0, 5, 0, [1]⟩] }

/-- A CLOSE for the CMC itself panics the device. And a peer can choose its cookie so that the
CRC of no bytes at all is right: a last fragment without payload then never returns. A packet
that is shorter than its length panics the device when the acknowledgement lets it send. -/
theorem cmc_frames_halt : (∃ v, Run Dev.Steps (vllpServerCreate 8) [synOf 5] v ∧
      v.step (.rx .calm (closeMsg 5 14)) = .error (.panic "vllp_channel_receive")) ∧
    (∃ v, Run Dev.Steps (vllpServerCreate 8) [synOf 0x6dd90a9c] v ∧
      v.step (.rx .calm [hdrByte true false true true cmcId]) = .error (.hang "pbuf_trim")) ∧
    ∃ v, Run Dev.Steps (vllpServerCreate 8) [synOf 5, openMsg 5] v ∧
      v.stepOf id (.rx shortPacket (ackFrame 5 true false 0xffff)) = .error (.panic "vllp_tx") := by
  have hrun : ∀ (es : List DevEvent) (e : EventOf Answers) (halt : Halt),
      (∃ v ∈ exec (fun u e => (Dev.step u e).toOption) (vllpServerCreate 8) es,
        haltOf (v.stepOf id e) = some halt) →
      ∃ v, Run Dev.Steps (vllpServerCreate 8) es v ∧ v.stepOf id e = .error halt := by
    intro es e halt h
    obtain ⟨v, hr, hhalt⟩ := exists_run h
    exact ⟨v, hr, eq_error_of_haltOf hhalt⟩
  exact ⟨hrun _ (.rx In.calm _) _ (by decide +kernel), hrun _ (.rx In.calm _) _ (by decide +kernel),
    hrun _ _ _ (by decide +kernel)⟩

end Mios.Vllp
