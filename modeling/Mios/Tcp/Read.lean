import Mios.Tcp.Receive

/-! The books of `tcp_stream_read`: for every call what it returned, what is in the buffer of the
caller, and what left the ring while it ran. A call can sleep, and anything may happen then. -/

namespace Mios.Tcp

open Lib

/-- A call that is over. The value of an error is `none`. -/
structure Account where
  value : Option Nat
  buffer : List Byte
  removed : List Byte
  deriving DecidableEq, Repr

/-- A call returns the number of bytes that are in the buffer, and these have left the ring; or it
fails, and none has. -/
def Account.Balanced (a : Account) : Prop :=
  a.value = some a.removed.length ∧ a.buffer = a.removed ∨ a.value = none ∧ a.removed = []

/-- A connection with the calls that are over, and what has left the ring since the call in
progress began. -/
structure Books where
  conn : Conn
  since : List Byte
  calls : List Account

/-- The call that runs in an event. -/
def Conn.call (c : Conn) : Event → Option Reader
  | .read size require => some ⟨[], size, require⟩
  | .wake => c.reader
  | _ => none

/-- The bytes of the ring that the read pointer has passed. -/
def passed (t t' : Tcb) : List Byte := (rxBytes t).take (t'.rcv.rdptr - t.rcv.rdptr).toNat

/-- Write down how a call was left. -/
def Books.enter (b : Books) (c : Conn) (r : Reader) : ReadEnd → Books
  | .returned =>
    ⟨c, [], b.calls ++ [⟨some r.got.length, r.got, b.since ++ passed b.conn.tcb c.tcb⟩]⟩
  | .failed => ⟨c, [], b.calls ++ [⟨none, r.got, b.since ++ passed b.conn.tcb c.tcb⟩]⟩
  | .asleep => ⟨c, b.since ++ passed b.conn.tcb c.tcb, b.calls⟩

def Books.after (b : Books) (e : Event) (c : Conn) : Books :=
  match b.conn.call e with
  | none => { b with conn := c }
  | some r =>
    let x := readLoop (r.size + 1) b.conn.tcb r
    b.enter c x.2.1 x.2.2

def Books.step (b : Books) (e : Event) : Option Books := (b.conn.step e).map (b.after e)

def Books.Step (b : Books) (e : Event) (b' : Books) : Prop := b.step e = some b'

/-- A call that runs does not read over the end of the ring, and finds the stream closed or at its
end only with nothing in its hands. -/
def AccountOk (b : Books) (e : Event) : Prop :=
  (b.conn.call e).all (readerFine b.conn.tcb) = true

instance (b : Books) (e : Event) : Decidable (AccountOk b e) := by
  unfold AccountOk
  infer_instance

/-- What the call in progress has got is what has left the ring. -/
structure BooksInv (b : Books) : Prop where
  since : b.since = b.conn.reader.elim [] (·.got)
  calls : ∀ a ∈ b.calls, a.Balanced

variable {c c' : Conn} {b b' : Books} {e : Event} {r : Reader} {t t' : Tcb}

/-! ## One event -/

theorem reader_of_no_call (hcall : c.call e = none) (hstep : c.step e = some c') :
    c'.reader = c.reader := by
  cases Conn.step_does hstep with
  | read => cases hcall
  | wake r hr => exact absurd (hcall.symm.trans hr) (by simp)
  | peek | drop | input | other => rfl

/-- A call goes on with what it has got. -/
theorem step_of_call (hcall : c.call e = some r) (hstep : c.step e = some c') :
    c' = c.runReader r ∧ c.reader.elim [] (·.got) = r.got := by
  cases Conn.step_does hstep with
  | read size require hnone =>
    cases hcall
    rw [hnone]
    exact ⟨rfl, rfl⟩
  | wake q hq =>
    obtain rfl := Option.some.inj (hq.symm.trans hcall)
    rw [hq]
    exact ⟨rfl, rfl⟩
  | peek | drop | input => cases hcall
  | other e r he hr =>
    cases e with
    | read | wake | peek | drop => cases hr
    | _ => cases hcall

theorem passed_eq {k : Nat} (h : Consumed k t t') (hk : k ≤ (rxBytes t).length) :
    passed t t' = (rxBytes t).take k := by
  rw [length_rxBytes] at hk
  have hback : t'.rcv.rdptr - t.rcv.rdptr = BitVec.ofNat 32 k := by
    rw [h.rdptr]
    bv_omega
  rw [passed, hback, BitVec.toNat_ofNat, Nat.mod_eq_of_lt (by omega)]

/-- A call that runs until it returns, fails or sleeps. -/
theorem BooksInv.call (h : BooksInv b) (hfine : readerFine b.conn.tcb r = true)
    (hgot : b.conn.reader.elim [] (·.got) = r.got) :
    BooksInv (b.enter (b.conn.runReader r) (readLoop (r.size + 1) b.conn.tcb r).2.1
      (readLoop (r.size + 1) b.conn.tcb r).2.2) := by
  obtain ⟨k, hk⟩ := readLoop_copied hfine
  have htcb := Conn.runReader_tcb b.conn r
  have hpassed := passed_eq hk.tcb hk.le
  rw [← htcb] at hpassed
  have hremoved : b.since ++ passed b.conn.tcb (b.conn.runReader r).tcb =
      (readLoop (r.size + 1) b.conn.tcb r).2.1.got := by
    rw [hpassed, h.since, hgot, hk.got]
  generalize hx : readLoop (r.size + 1) b.conn.tcb r = x at hk hremoved
  obtain ⟨t', r', how⟩ := x
  cases how with
  | returned =>
    have hreader : (b.conn.runReader r).reader = none := by rw [Conn.runReader, hx]
    refine ⟨by rw [Books.enter, hreader]; rfl, fun a ha => ?_⟩
    rcases List.mem_append.mp ha with ha | ha
    · exact h.calls a ha
    · rw [List.mem_singleton.mp ha, hremoved]
      exact .inl ⟨rfl, rfl⟩
  | failed =>
    obtain ⟨hzero, hnone, -, -⟩ := hk.failed rfl
    have hreader : (b.conn.runReader r).reader = none := by rw [Conn.runReader, hx]
    have hnil : r'.got = [] := by
      rw [hk.got, hnone, hzero]
      rfl
    refine ⟨by rw [Books.enter, hreader]; rfl, fun a ha => ?_⟩
    rcases List.mem_append.mp ha with ha | ha
    · exact h.calls a ha
    · rw [List.mem_singleton.mp ha, hremoved]
      exact .inr ⟨rfl, hnil⟩
  | asleep =>
    have hreader : (b.conn.runReader r).reader = some r' := by rw [Conn.runReader, hx]
    refine ⟨?_, h.calls⟩
    show b.since ++ passed b.conn.tcb (b.conn.runReader r).tcb =
      (b.conn.runReader r).reader.elim [] (·.got)
    rw [hremoved, hreader]
    rfl

theorem BooksInv.step (h : BooksInv b) (hok : AccountOk b e) (hstep : b.step e = some b') :
    BooksInv b' := by
  obtain ⟨c', hc, rfl⟩ := Option.map_eq_some_iff.mp hstep
  unfold AccountOk at hok
  cases hcall : b.conn.call e with
  | none =>
    rw [Books.after, hcall]
    refine ⟨?_, h.calls⟩
    rw [reader_of_no_call hcall hc]
    exact h.since
  | some r =>
    rw [hcall] at hok
    obtain ⟨rfl, hgot⟩ := step_of_call hcall hc
    rw [Books.after, hcall]
    exact h.call hok hgot

/-! ## Runs -/

/-- In every run that meets the condition all calls are balanced, and what the call in progress
holds is what has left the ring since it began. -/
theorem reads_balanced {c0 : Conn} {b : Books} {es : List Event} (hinit : Conn.Init c0)
    (hrun : Run (Guarded AccountOk Books.Step) ⟨c0, [], []⟩ es b) :
    (∀ a ∈ b.calls, a.Balanced) ∧ ∀ r ∈ b.conn.reader, r.got = b.since := by
  have hstart : BooksInv ⟨c0, [], []⟩ := by
    have hreader : c0.reader = none := by cases hinit <;> rfl
    exact ⟨by rw [hreader]; rfl, fun _ ha => by cases ha⟩
  have h := hrun.invariant hstart fun u e v hu hs => hu.step hs.1 hs.2
  refine ⟨h.calls, fun r hr => ?_⟩
  rw [h.since, hr]
  rfl

/-- A run with its books from the opening by a SYN. -/
theorem books_of_opened {es : List Event} {calls : List Account}
    (h : ∃ r ∈ opened size4 size4 100 999,
      ∃ b ∈ exec Books.step ⟨Conn.start r.1 r.2 none, [], []⟩ es, b.calls = calls) :
    ∃ c0 b, Conn.Init c0 ∧ Run Books.Step ⟨c0, [], []⟩ es b ∧ b.calls = calls := by
  obtain ⟨r, hr, hex⟩ := h
  obtain ⟨b, hrun, hp⟩ := exists_run hex
  exact ⟨_, b, init_of_opened hr, hrun, hp⟩

/-- Without the condition: a call that wants more than is there at the end, and one that sleeps
with a byte when the connection is reset, fail with bytes that have left the ring. A full ring read
from its middle gives a byte from behind it. -/
theorem read_unbalanced : (∃ c0 b, Conn.Init c0 ∧ Run Books.Step ⟨c0, [], []⟩
        [peerSeg 0 0 [], peerSeg 0 flagFin [[1, 2]], .read 3 1] b ∧
      b.calls = [⟨none, [1, 2], [1, 2]⟩]) ∧ (∃ c0 b, Conn.Init c0 ∧ Run Books.Step ⟨c0, [], []⟩
        [peerSeg 0 0 [], peerSeg 0 0 [[1]], .read 2 2, peerSeg 1 flagRst [], .wake] b ∧
      b.calls = [⟨none, [1], [1]⟩]) ∧ ∃ c0 b, Conn.Init c0 ∧ Run Books.Step ⟨c0, [], []⟩
        [peerSeg 0 0 [], peerSeg 0 0 [[1]], .read 1 1, peerSeg 1 0 [[2, 3], [4, 5]], .read 4 4] b ∧
      b.calls = [⟨some 1, [1], [1]⟩, ⟨some 4, [2, 3, 4, 0], [2, 3, 4, 5]⟩] := by
  refine ⟨?_, ?_, ?_⟩
  all_goals
    refine books_of_opened ?_
    decide +kernel

/-- Three bytes are read by a call that sleeps for the third, and the next call finds the end. -/
def sleepyRead : List Event :=
  [peerSeg 0 0 [], peerSeg 0 0 [[1, 2]], .read 3 3, peerSeg 2 flagFin [[3]], .wake, .read 1 1]

theorem reads_balanced_sleepy : ∃ c0 b, Conn.Init c0 ∧
    Run (Guarded AccountOk Books.Step) ⟨c0, [], []⟩ sleepyRead b ∧
    b.calls = [⟨some 3, [1, 2, 3], [1, 2, 3]⟩, ⟨none, [], []⟩] ∧ ∀ a ∈ b.calls, a.Balanced := by
  have h : ∃ r ∈ opened size4 size4 100 999,
      ∃ b ∈ exec (guardStep AccountOk Books.step) ⟨Conn.start r.1 r.2 none, [], []⟩ sleepyRead,
        b.calls = [⟨some 3, [1, 2, 3], [1, 2, 3]⟩, ⟨none, [], []⟩] := by
    decide +kernel
  obtain ⟨r, hr, hex⟩ := h
  obtain ⟨b, hrun, hcalls⟩ := exists_guarded_run hex
  have hinit := init_of_opened hr
  exact ⟨_, b, hinit, hrun, hcalls, (reads_balanced hinit hrun).1⟩

end Mios.Tcp
