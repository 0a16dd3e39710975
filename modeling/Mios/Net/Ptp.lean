import Mios.Lib.Run

/-! The slave of the Precision Time Protocol (`net/ptp.c`). A Sync and its Follow_Up give the times
`t1` and `t2`, the Delay_Req sent for them gives `t3` and the answer to it `t4`. The code keeps the
four in variables that every message of the right type overwrites; an observer keeps every
exchange for itself. The higher bits of the seconds and the bounds of a packet are left out. -/

namespace Mios.Net.Ptp

open Lib Option

/-- `ptp_ts_t`. -/
structure Ts where
  seconds : BitVec 32
  nanoseconds : BitVec 32
  deriving DecidableEq, Repr

/-- What is read of a message. -/
structure Msg where
  twoStep : Bool
  correction : BitVec 64
  sequenceId : BitVec 16
  timestamp : Ts
  deriving DecidableEq, Repr

/-- `ptp_ether_state_t`; `hasClock` says that `pes_clock` has a class. -/
structure Pes where
  t1 : Ts
  t1Cf : BitVec 64
  t2 : Ts
  syncSeq : BitVec 16
  delayReqSeq : BitVec 16
  t3 : Ts
  t4 : Ts
  t4Cf : BitVec 64
  offset : Int
  oneWayDelay : BitVec 32
  hasClock : Bool
  deriving DecidableEq, Repr

/-! ## Handlers -/

/-- `ptp_ts_to_ns`. -/
def ptpTsToNs (ts : Ts) : Int := ts.seconds.toNat * 1000000000 + ts.nanoseconds.toNat

/-- The time from the master to us, without the correction. -/
def down (t1 t2 : Ts) (cf : BitVec 64) : Int :=
  ptpTsToNs t2 - ptpTsToNs t1 - (cf.sshiftRight 16).toInt

/-- The offset of our clock. -/
def offsetOf (t1 : Ts) (cf : BitVec 64) (t2 t3 t4 : Ts) (cf4 : BitVec 64) : Int :=
  (down t3 t4 cf4 - down t1 t2 cf).tdiv 2

def delayOf (t1 : Ts) (cf : BitVec 64) (t2 t3 t4 : Ts) (cf4 : BitVec 64) : Int :=
  (down t3 t4 cf4 + down t1 t2 cf).tdiv 2

/-- The state afterwards, the number of a Delay_Req that is sent, and what the servo gets. -/
structure Done where
  pes : Pes
  request : Option (BitVec 16)
  adjust : Option Int

/-- `calc`. -/
def ptpCalc (p : Pes) : Done :=
  let offset := offsetOf p.t1 p.t1Cf p.t2 p.t3 p.t4 p.t4Cf
  let delay := delayOf p.t1 p.t1Cf p.t2 p.t3 p.t4 p.t4Cf
  ⟨{ p with offset := offset, oneWayDelay := BitVec.ofInt 32 delay }, none,
    if p.hasClock then some offset else none⟩

/-- `ptpv2_tx_delay_req_tx_cb`. -/
def ptpv2TxDelayReqTxCb (p : Pes) (id : BitVec 16) (ts : Ts) : Pes :=
  if id = p.delayReqSeq then { p with t3 := ts } else p

def ptpv2SendDelayReq (p : Pes) : Done :=
  let p := { p with delayReqSeq := p.delayReqSeq + 1 }
  ⟨p, some p.delayReqSeq, none⟩

def ptpv2HandleFollowup (p : Pes) (m : Msg) : Done :=
  if p.syncSeq ≠ m.sequenceId then ⟨p, none, none⟩
  else ptpv2SendDelayReq { p with t1 := m.timestamp, t1Cf := p.t1Cf + m.correction }

/-- `ptpv2_handle_sync`; `pt` is the time at which the interface has seen the packet. -/
def ptpv2HandleSync (p : Pes) (pt : Option Ts) (m : Msg) : Done :=
  match pt with
  | none => ⟨p, none, none⟩
  | some ts =>
    let p := { p with t2 := ts, t1Cf := m.correction, syncSeq := m.sequenceId }
    if m.twoStep then ⟨p, none, none⟩ else ptpv2HandleFollowup p { m with correction := 0 }

def ptpv2HandleDelayResp (p : Pes) (m : Msg) : Done :=
  ptpCalc { p with t4 := m.timestamp, t4Cf := m.correction }

/-! ## What an observer knows -/

/-- The Delay_Req of an exchange: the time of the master with all corrections, the number of the
request and the time at which it was sent. -/
structure Asked where
  t1 : Ts
  cf : BitVec 64
  request : Nat
  t3 : Option Ts
  deriving DecidableEq, Repr

/-- An exchange begins with a Sync. -/
structure Exchange where
  sync : Nat
  t2 : Ts
  cf : BitVec 64
  asked : Option Asked
  deriving DecidableEq, Repr

/-- A Sync has a number among those of all masters, and a Follow_Up that of its Sync. A Delay_Resp
may answer one of our requests. None of these numbers is in the messages. -/
inductive Event where
  | sync (n : Nat) (pt : Option Ts) (m : Msg)
  | followUp (n : Nat) (m : Msg)
  | delayResp (answers : Option Nat) (m : Msg)
  | transmitted (request : Nat) (ts : Ts)
  deriving DecidableEq, Repr

/-- A Delay_Req was sent for the exchange. -/
def Exchange.ask (x : Exchange) (m : Msg) (cf : BitVec 64) (request : Option Nat) : Exchange :=
  { x with asked := request.map fun r => ⟨m.timestamp, cf, r, none⟩ }

def Exchange.follow (n : Nat) (m : Msg) (request : Option Nat) (x : Exchange) : Exchange :=
  if x.sync = n ∧ request.isSome = true then x.ask m (x.cf + m.correction) request else x

def Asked.transmitted (request : Nat) (ts : Ts) (a : Asked) : Asked :=
  if a.request = request then { a with t3 := some ts } else a

def Exchange.transmitted (request : Nat) (ts : Ts) (x : Exchange) : Exchange :=
  { x with asked := x.asked.map (Asked.transmitted request ts) }

/-- The exchanges after an event, the latest first; `request` is the number of the Delay_Req that
the node sends in it. -/
def observe (xs : List Exchange) (request : Option Nat) : Event → List Exchange
  | .sync n (some ts) m =>
    let x : Exchange := ⟨n, ts, m.correction, none⟩
    (if m.twoStep then x else x.ask m m.correction request) :: xs
  | .sync _ none _ => xs
  | .followUp n m => xs.map (Exchange.follow n m request)
  | .delayResp _ _ => xs
  | .transmitted r ts => xs.map (Exchange.transmitted r ts)

/-- The offset that a Delay_Resp gives with the exchange whose request it answers. -/
def Exchange.measured (answers : Option Nat) (m : Msg) (x : Exchange) : Option Int :=
  x.asked.bind fun a =>
    if answers = some a.request then
      a.t3.map fun t3 => offsetOf a.t1 a.cf x.t2 t3 m.timestamp m.correction
    else none

/-! ## Runs -/

/-- What was given to the servo, and what was due. -/
structure Adjustment where
  given : Int
  due : Option Int
  deriving DecidableEq, Repr

/-- `sent` counts the Delay_Reqs. -/
structure World where
  pes : Pes
  sent : Nat
  exchanges : List Exchange
  adjustments : List Adjustment
  deriving DecidableEq, Repr

/-- `ptpv2_input` for the types that are handled, and the callback for a packet that was sent. -/
def Pes.input (p : Pes) : Event → Done
  | .sync _ pt m => ptpv2HandleSync p pt m
  | .followUp _ m => ptpv2HandleFollowup p m
  | .delayResp _ m => ptpv2HandleDelayResp p m
  | .transmitted r ts => ⟨ptpv2TxDelayReqTxCb p (BitVec.ofNat 16 r) ts, none, none⟩

def due (xs : List Exchange) : Event → Option Int
  | .delayResp answers m => xs.findSome? (Exchange.measured answers m)
  | _ => none

def World.after (w : World) (e : Event) : World :=
  let d := w.pes.input e
  let request := d.request.map fun _ => w.sent + 1
  { pes := d.pes
    sent := request.getD w.sent
    exchanges := observe w.exchanges request e
    adjustments := w.adjustments ++ (d.adjust.map fun a => ⟨a, due w.exchanges e⟩).toList }

/-- Only what was sent is reported as sent. -/
def World.step (w : World) (e : Event) : Option World :=
  match e with
  | .transmitted r _ => if 1 ≤ r ∧ r ≤ w.sent then some (w.after e) else none
  | _ => some (w.after e)

def World.Step (w : World) (e : Event) (w' : World) : Prop := w.step e = some w'

/-- The memory of the interface is cleared. -/
def World.start (hasClock : Bool) : World :=
  ⟨⟨⟨0, 0⟩, 0, ⟨0, 0⟩, 0, 0, ⟨0, 0⟩, ⟨0, 0⟩, 0, 0, 0, hasClock⟩, 0, [], []⟩

/-- A Follow_Up that is taken is one of the latest Sync, and the first unless those before it had no
correction. A Delay_Resp that goes to the servo answers the latest request, which was sent for this
Sync and whose time is known. The number of a report is that of the latest request or differs from
it. -/
def PtpOk (w : World) : Event → Prop
  | .sync _ _ _ => True
  | .followUp n m => w.pes.syncSeq = m.sequenceId →
    ∃ x ∈ w.exchanges.head?, x.sync = n ∧ ∀ a ∈ x.asked, a.cf = x.cf
  | .delayResp answers _ => w.pes.hasClock = true →
    ∃ x ∈ w.exchanges.head?, ∃ a ∈ x.asked, answers = some a.request ∧ a.t3.isSome = true
  | .transmitted r _ => BitVec.ofNat 16 r = w.pes.delayReqSeq → r = w.sent

instance (w : World) (e : Event) : Decidable (PtpOk w e) := by
  unfold PtpOk
  split <;> infer_instance

/-- The variables hold the latest exchange. -/
structure Holds (p : Pes) (sent : Nat) (x : Exchange) : Prop where
  t2 : p.t2 = x.t2
  cf : x.asked = none → p.t1Cf = x.cf
  t1 : ∀ a ∈ x.asked, p.t1 = a.t1 ∧ p.t1Cf = a.cf ∧ a.request = sent
  t3 : ∀ a ∈ x.asked, ∀ ts ∈ a.t3, p.t3 = ts

structure Sound (w : World) : Prop where
  number : w.pes.delayReqSeq = BitVec.ofNat 16 w.sent
  latest : ∀ x ∈ w.exchanges.head?, Holds w.pes w.sent x
  adjustments : ∀ a ∈ w.adjustments, a.due = some a.given

variable {w w' : World} {e : Event}

/-! ## One event -/

/-- The request for the latest exchange was just sent. -/
theorem holds_ask {p : Pes} {x : Exchange} {m : Msg} {cf : BitVec 64} {n : Nat}
    (ht1 : p.t1 = m.timestamp) (hcf : p.t1Cf = cf) (ht2 : p.t2 = x.t2) :
    Holds p n (x.ask m cf (some n)) := by
  refine ⟨ht2, fun h => (by cases h), fun a ha => ?_, fun a ha ts hts => ?_⟩
  · cases ha
    exact ⟨ht1, hcf, rfl⟩
  · cases ha
    cases hts

theorem number_succ {seq : BitVec 16} {sent : Nat} (h : seq = BitVec.ofNat 16 sent) :
    seq + 1 = BitVec.ofNat 16 (sent + 1) := by
  rw [h, BitVec.ofNat_add]
  rfl

theorem after_quiet {p : Pes} (h : w.pes.input e = ⟨p, none, none⟩) :
    w.after e = ⟨p, w.sent, observe w.exchanges none e, w.adjustments⟩ := by
  simp only [World.after, h, map_none, getD_none, toList_none, List.append_nil]

theorem after_request {p : Pes} {q : BitVec 16} (h : w.pes.input e = ⟨p, some q, none⟩) :
    w.after e = ⟨p, w.sent + 1, observe w.exchanges (some (w.sent + 1)) e, w.adjustments⟩ := by
  simp only [World.after, h, map_some, map_none, getD_some,
    toList_none, List.append_nil]

theorem Sound.sync (h : Sound w) (n : Nat) (pt : Option Ts) (m : Msg) :
    Sound (w.after (.sync n pt m)) := by
  cases pt with
  | none =>
    rw [after_quiet rfl]
    exact ⟨h.number, h.latest, h.adjustments⟩
  | some ts =>
    cases htwo : m.twoStep with
    | true =>
      have hin : w.pes.input (.sync n (some ts) m) =
          ⟨{ w.pes with t2 := ts, t1Cf := m.correction, syncSeq := m.sequenceId }, none, none⟩ := by
        simp only [Pes.input, ptpv2HandleSync, htwo, if_true]
      rw [after_quiet hin]
      refine ⟨h.number, fun x hx => ?_, h.adjustments⟩
      simp only [observe, htwo, if_true, List.head?_cons] at hx
      cases hx
      exact ⟨rfl, fun _ => rfl, fun a ha => (by cases ha), fun a ha => (by cases ha)⟩
    | false =>
      have hin : w.pes.input (.sync n (some ts) m) =
          ⟨{ w.pes with
              t1 := m.timestamp
              t1Cf := m.correction + 0
              t2 := ts
              syncSeq := m.sequenceId
              delayReqSeq := w.pes.delayReqSeq + 1 }, some (w.pes.delayReqSeq + 1), none⟩ := by
        simp only [Pes.input, ptpv2HandleSync, htwo, Bool.false_eq_true, if_false,
          ptpv2HandleFollowup, ne_eq, not_true_eq_false, ptpv2SendDelayReq]
      rw [after_request hin]
      refine ⟨number_succ h.number, fun x hx => ?_, h.adjustments⟩
      simp only [observe, htwo, Bool.false_eq_true, if_false, List.head?_cons] at hx
      cases hx
      exact holds_ask rfl (BitVec.add_zero _) rfl

theorem Sound.followUp (h : Sound w) (n : Nat) (m : Msg) (hok : PtpOk w (.followUp n m)) :
    Sound (w.after (.followUp n m)) := by
  by_cases hseq : w.pes.syncSeq = m.sequenceId
  · obtain ⟨x, hx, hsync, hfirst⟩ := hok hseq
    have hlatest := h.latest x hx
    have hcf : w.pes.t1Cf = x.cf := by
      cases ha : x.asked with
      | none => exact hlatest.cf ha
      | some a => exact (hlatest.t1 a ha).2.1.trans (hfirst a ha)
    have hin : w.pes.input (.followUp n m) =
        ⟨{ w.pes with
            t1 := m.timestamp
            t1Cf := w.pes.t1Cf + m.correction
            delayReqSeq := w.pes.delayReqSeq + 1 }, some (w.pes.delayReqSeq + 1), none⟩ := by
      rw [Pes.input, ptpv2HandleFollowup, if_neg fun hne => hne hseq]
      rfl
    rw [after_request hin]
    refine ⟨number_succ h.number, fun y hy => ?_, h.adjustments⟩
    simp only [observe, List.head?_map] at hy
    obtain ⟨z, hz, rfl⟩ := map_eq_some_iff.mp hy
    obtain rfl := Option.some.inj (hz.symm.trans hx)
    rw [Exchange.follow, if_pos ⟨hsync, rfl⟩]
    refine holds_ask rfl ?_ hlatest.t2
    rw [hcf]
  · -- not taken by the code, and so no request for it
    have hin : w.pes.input (.followUp n m) = ⟨w.pes, none, none⟩ := by
      rw [Pes.input, ptpv2HandleFollowup, if_pos hseq]
    rw [after_quiet hin]
    refine ⟨h.number, fun y hy => ?_, h.adjustments⟩
    simp only [observe, List.head?_map] at hy
    obtain ⟨z, hz, rfl⟩ := map_eq_some_iff.mp hy
    rw [Exchange.follow, if_neg (by simp)]
    exact h.latest z hz

/-- A report of the latest request goes to both, any other one to none of them. -/
theorem Holds.transmitted {x : Exchange} {r : Nat} {ts : Ts} (h : Holds w.pes w.sent x)
    (hnumber : w.pes.delayReqSeq = BitVec.ofNat 16 w.sent) (hok : PtpOk w (.transmitted r ts)) :
    Holds (ptpv2TxDelayReqTxCb w.pes (BitVec.ofNat 16 r) ts) w.sent (x.transmitted r ts) := by
  have hasked : ∀ b ∈ (x.transmitted r ts).asked, ∃ a ∈ x.asked, b = a.transmitted r ts := by
    intro b hb
    obtain ⟨a, ha, rfl⟩ := map_eq_some_iff.mp hb
    exact ⟨a, ha, rfl⟩
  have hnone : (x.transmitted r ts).asked = none → x.asked = none := map_eq_none_iff.mp
  have hiff : BitVec.ofNat 16 r = w.pes.delayReqSeq ↔ r = w.sent :=
    ⟨hok, fun heq => by rw [heq, hnumber]⟩
  rw [ptpv2TxDelayReqTxCb]
  split
  all_goals
    rename_i hid
    rw [hiff] at hid
    refine ⟨h.t2, fun hx => h.cf (hnone hx), fun b hb => ?_, fun b hb t ht => ?_⟩
    all_goals obtain ⟨a, ha, rfl⟩ := hasked b hb
    · rw [Asked.transmitted]
      split <;> exact h.t1 a ha
    rw [Asked.transmitted, (h.t1 a ha).2.2] at ht
  · rw [if_pos hid.symm] at ht
    exact Option.some.inj ht
  · rw [if_neg (Ne.symm hid)] at ht
    exact h.t3 a ha t ht

theorem Sound.transmitted {r : Nat} {ts : Ts} (h : Sound w) (hok : PtpOk w (.transmitted r ts)) :
    Sound (w.after (.transmitted r ts)) := by
  rw [after_quiet rfl]
  refine ⟨?_, fun y hy => ?_, h.adjustments⟩
  · unfold ptpv2TxDelayReqTxCb
    split <;> exact h.number
  · simp only [observe, List.head?_map] at hy
    obtain ⟨z, hz, rfl⟩ := map_eq_some_iff.mp hy
    exact (h.latest z hz).transmitted h.number hok

/-- With the answer to its request the latest exchange is complete. -/
theorem Holds.measured {p : Pes} {n : Nat} {x : Exchange} {a : Asked} {answers : Option Nat}
    (h : Holds p n x) (m : Msg) (ha : a ∈ x.asked) (hans : answers = some a.request)
    (ht3 : a.t3.isSome = true) :
    x.measured answers m = some (offsetOf p.t1 p.t1Cf p.t2 p.t3 m.timestamp m.correction) := by
  obtain ⟨ts, hts⟩ := isSome_iff_exists.mp ht3
  obtain ⟨ht1, hcf, -⟩ := h.t1 a ha
  rw [Exchange.measured, ha, bind_some, if_pos hans, hts, map_some, ht1, hcf, h.t2,
    h.t3 a ha ts hts]

theorem Sound.delayResp {answers : Option Nat} {m : Msg} (h : Sound w)
    (hok : PtpOk w (.delayResp answers m)) : Sound (w.after (.delayResp answers m)) := by
  refine ⟨h.number, fun x hx => ?_, fun a ha => ?_⟩
  · have hlatest := h.latest x hx
    exact { hlatest with }
  rcases List.mem_append.mp ha with ha | ha
  · exact h.adjustments a ha
  cases hclock : w.pes.hasClock with
  | false =>
    simp only [Pes.input, ptpv2HandleDelayResp, ptpCalc, hclock, Bool.false_eq_true, if_false,
      map_none, toList_none, List.not_mem_nil] at ha
  | true =>
    obtain ⟨x, hx, b, hb, hans, ht3⟩ := hok hclock
    simp only [Pes.input, ptpv2HandleDelayResp, ptpCalc, hclock, if_true, map_some,
      toList_some, List.mem_singleton] at ha
    subst ha
    obtain ⟨xs, hxs⟩ := List.head?_eq_some_iff.mp hx
    show w.exchanges.findSome? _ = _
    rw [hxs, List.findSome?_cons, (h.latest x hx).measured m hb hans ht3]

theorem Sound.step (h : Sound w) (hok : PtpOk w e) (hstep : w.step e = some w') : Sound w' := by
  cases e with
  | sync n pt m =>
    cases hstep
    exact h.sync n pt m
  | followUp n m =>
    cases hstep
    exact h.followUp n m hok
  | delayResp answers m =>
    cases hstep
    exact h.delayResp hok
  | transmitted r ts =>
    obtain ⟨-, rfl⟩ := of_ite_some hstep
    exact h.transmitted hok

/-! ## Runs -/

theorem sound_start (hasClock : Bool) : Sound (World.start hasClock) where
  number := rfl
  latest _ hx := by cases hx
  adjustments _ ha := by cases ha

/-- In every run that meets the condition each adjustment is the offset of one exchange: the times
of a Sync, of the request sent for it and of the answer to that request. -/
theorem adjustments_due (hasClock : Bool) {es : List Event} {w : World}
    (hrun : Run (Guarded PtpOk World.Step) (World.start hasClock) es w) :
    ∀ a ∈ w.adjustments, a.due = some a.given :=
  (hrun.invariant (sound_start hasClock) fun _ _ _ hu hs => hu.step hs.1 hs.2).adjustments

/-- A message with a time in nanoseconds. -/
def stamped (twoStep : Bool) (seq : BitVec 16) (ns : BitVec 32) : Msg := ⟨twoStep, 0, seq, ⟨0, ns⟩⟩

/-- The first three events of an exchange: our clock is 50 behind, the way takes 10. -/
def asking : List Event :=
  [.sync 1 (some ⟨0, 960⟩) (stamped true 7 0), .followUp 1 (stamped false 7 1000),
    .transmitted 1 ⟨0, 2000⟩]

theorem adjustments_due_asking : ∃ w, Run (Guarded PtpOk World.Step) (World.start true)
      (asking ++ [.delayResp (some 1) (stamped false 1 2060)]) w ∧
    w.adjustments = [⟨50, some 50⟩] ∧ ∀ a ∈ w.adjustments, a.due = some a.given := by
  have h : ∃ w ∈ exec (guardStep PtpOk World.step) (World.start true)
        (asking ++ [.delayResp (some 1) (stamped false 1 2060)]),
      w.adjustments = [⟨50, some 50⟩] := by
    decide +kernel
  obtain ⟨w, hrun, hadj⟩ := exists_guarded_run h
  exact ⟨w, hrun, hadj, adjustments_due true hrun⟩

theorem adjusted_run {es : List Event} {adjustments : List Adjustment}
    (h : ∃ w ∈ exec World.step (World.start true) es, w.adjustments = adjustments) :
    ∃ w, Run World.Step (World.start true) es w ∧ w.adjustments = adjustments :=
  exists_run h

/-- Without the condition: the answer to another node; a Follow_Up of another master with the same
number; another Sync before the answer; and a Follow_Up that comes twice, with its correction of
64 ns. The servo gets an offset that is not the one of the exchange. -/
theorem adjustments_mixed : (∃ w, Run World.Step (World.start true)
        (asking ++ [.delayResp none (stamped false 3 9000)]) w ∧
      w.adjustments = [⟨3520, none⟩]) ∧
    (∃ w, Run World.Step (World.start true) [.sync 1 (some ⟨0, 960⟩) (stamped true 7 0),
        .followUp 2 (stamped false 7 5000), .transmitted 1 ⟨0, 2000⟩,
        .delayResp (some 1) (stamped false 1 2060)] w ∧
      w.adjustments = [⟨2050, none⟩]) ∧ (∃ w, Run World.Step (World.start true)
        (asking ++ [.sync 2 (some ⟨0, 1960⟩) (stamped true 8 0),
          .delayResp (some 1) (stamped false 1 2060)]) w ∧
      w.adjustments = [⟨-450, some 50⟩]) ∧
    ∃ w, Run World.Step (World.start true) [.sync 1 (some ⟨0, 1024⟩) (stamped true 7 0),
        .followUp 1 ⟨false, 4194304, 7, ⟨0, 1000⟩⟩, .followUp 1 ⟨false, 4194304, 7, ⟨0, 1000⟩⟩,
        .transmitted 1 ⟨0, 2000⟩, .transmitted 2 ⟨0, 2010⟩,
        .delayResp (some 2) (stamped false 2 2070)] w ∧
      w.adjustments = [⟨82, some 50⟩] := by
  refine ⟨adjusted_run ?_, adjusted_run ?_, adjusted_run ?_, adjusted_run ?_⟩
  all_goals decide +kernel

end Mios.Net.Ptp
