import Mathlib.Data.List.Sort
import Mios.Lib.Run
import Mios.Pbuf.Write

/-! The bridge between a stream of the application and a transport (`net/pushpull.c`). One thread
reads from the stream and one writes to it, the network thread pushes and pulls messages. Reading
and writing wait on the same condition variable. What a thread does from when it has the mutex to
when it returns or waits is one step; the buffers that a step gets are given by its environment. -/

namespace Mios.Net.Bridge

open Lib List Option
open Packet (Filling Pushpull content headLen)
open Pbuf (sop eop dataSize)

/-- `ERR_INTERRUPTED` -/
def errInterrupted : Int := -48

/-! ## State -/

inductive Who where
  | reader
  | writer
  deriving DecidableEq, Repr

/-- A call of `pushpull_stream_read`; `buf` is what is in the buffer of the caller. -/
structure ReadCall where
  size : Nat
  requested : Nat
  off : Nat
  buf : List Byte
  deriving DecidableEq, Repr

/-- A call of `pushpull_stream_write` with `data`, of which `rest` is left. -/
structure WriteCall where
  data : List Byte
  noWait : Bool
  rest : List Byte
  written : Nat

/-- `struct pushpull_stream`, with the threads that wait on its condition variable, the next one to
be woken first, and the calls that have not returned. A call is asleep if it is in `cond`. -/
structure PushpullStream where
  rxbuf : Packet
  tx : Option Filling
  shutdown : Bool
  flushed : Bool
  cond : List Who
  reader : Option ReadCall
  writer : Option WriteCall
  /-- A thread that stopped with the mutex. -/
  stopped : Option Halt
  /-- The bytes of all messages pushed. -/
  pushed : List Byte
  /-- What each read returned, and the call with what was in its buffer then. -/
  results : List (Int × ReadCall)
  /-- The bytes that writes have reported as written. -/
  accepted : List Byte
  pulled : List Packet

def pushpullStreamOpen : PushpullStream :=
  ⟨[], none, false, false, [], none, none, none, [], [], [], []⟩

/-- `task_sleep` puts a thread behind those that do not have a lower priority. -/
def enqueue (prio : Who → Nat) (w : Who) : List Who → List Who
  | [] => [w]
  | x :: l => if prio x < prio w then w :: x :: l else x :: enqueue prio w l

variable {noWait : Bool} {f : Filling} {l : List Who} {w : Who}

theorem enqueue_eq (prio : Who → Nat) (w : Who) (l : List Who) :
    enqueue prio w l = l.orderedInsert (fun a b => prio b < prio a) w := by
  induction l with
  | nil => rfl
  | cons x l ih => rw [enqueue, ih, List.orderedInsert]

theorem mem_enqueue {prio : Who → Nat} {x : Who} : x ∈ enqueue prio w l ↔ x = w ∨ x ∈ l := by
  rw [enqueue_eq, mem_orderedInsert]

/-! ## Reading -/

structure Reading where
  rxbuf : Packet
  call : ReadCall

inductive ReadEnd where
  | ret
  | interrupted
  | wait
  | halt (h : Halt)
  deriving DecidableEq, Repr

/-- One round of the loop of `pushpull_stream_read`. The pools have no influence on what is read. -/
def streamReadRound (shutdown : Bool) (r : Reading) : Round Reading (ReadEnd × Reading) :=
  if shutdown then .done (.interrupted, r)
  else
    match r.rxbuf with
    | [] => if r.call.requested ≤ r.call.off then .done (.ret, r) else .done (.wait, r)
    | head :: _ =>
      let toCopy := min head.pktlen (r.call.size - r.call.off)
      match Packet.pbufRead r.rxbuf toCopy .empty with
      | .error h => .done (.halt h, r)
      | .ok (bs, rxbuf, _) =>
        let off := r.call.off + toCopy
        let r' : Reading := ⟨rxbuf, { r.call with off := off, buf := r.call.buf ++ bs }⟩
        if off = r.call.size then .done (.ret, r') else .next r'

def finishRead (prio : Who → Nat) (s : PushpullStream) (r : Reading) : ReadEnd → PushpullStream
  | .ret =>
    { s with
      rxbuf := r.rxbuf, reader := none, results := s.results ++ [((r.call.off : Int), r.call)] }
  | .interrupted =>
    { s with
      rxbuf := r.rxbuf, reader := none, results := s.results ++ [(errInterrupted, r.call)] }
  | .wait =>
    { s with rxbuf := r.rxbuf, reader := some r.call, cond := enqueue prio .reader s.cond }
  | .halt h => { s with stopped := some h }

/-- The loop takes at most three rounds, or forever. -/
def runRead (prio : Who → Nat) (s : PushpullStream) (call : ReadCall) : PushpullStream :=
  match loop (streamReadRound s.shutdown) 3 ⟨s.rxbuf, call⟩ with
  | none => { s with stopped := some (.hang "pushpull_stream_read") }
  | some r => finishRead prio s r.2 r.1

/-! ## Writing -/

/-- A `pbuf_t`, its data area and what is left in there. -/
abbrev Item := Nat × Nat × (Nat → Byte)

/-- What the allocations of a step get: at once, or after waiting. -/
structure Buffers where
  now : Nat → Option Item
  later : Nat → Item

/-- The loop of `pushpull_stream_write`, with the number of allocations so far. -/
structure StreamWriting where
  tx : Option Filling
  flushed : Bool
  rest : List Byte
  written : Nat
  used : Nat

inductive WriteEnd where
  | ret
  | wait
  deriving DecidableEq, Repr

/-- A difference in a `size_t`. -/
def sizeSub (a b : Nat) : Nat := if b ≤ a then a - b else 4294967296 - (b - a)

/-- `pbuf_make`. -/
def made (offset : Nat) (x : Item) : Segment := ⟨x.1, x.2.1, sop ||| eop, 0, 0, offset, 0, x.2.2⟩

section Write

variable (pp : Pushpull) (env : Buffers)

/-- There is a buffer to write to, or the write ends. The second component is `pps_flushed`. -/
def streamHead (noWait : Bool) (w : StreamWriting) : Option (Filling × Bool × Nat) :=
  match w.tx with
  | some f => some (f, w.flushed, w.used)
  | none =>
    match env.now w.used with
    | some x => some (⟨[], made pp.preferredOffset x⟩, w.flushed, w.used + 1)
    | none =>
      if noWait then none
      else some (⟨[], made pp.preferredOffset (env.later w.used)⟩, true, w.used + 1)

/-- When the last segment is full another one is needed; without one there is no room. -/
def streamTail (f : Filling) (remain used : Nat) : Filling × Nat × Nat :=
  if remain ≠ 0 ∧ f.tail.buflen + f.tail.offset = dataSize then
    match env.now used with
    | none => (f, 0, used + 1)
    | some x =>
      (f.grow { made 0 x with flags := (made 0 x).flags &&& ~~~sop }, remain, used + 1)
  else (f, remain, used)

def streamWriteRound (shutdown noWait : Bool) (w : StreamWriting) :
    Round StreamWriting (WriteEnd × StreamWriting) :=
  if w.rest.isEmpty ∨ shutdown then .done (.ret, w)
  else
    match streamHead pp env noWait w with
    | none => .done (.ret, { w with flushed := true, used := w.used + 1 })
    | some (f, flushed, used) =>
      let t := streamTail env f (sizeSub pp.maxFragmentSize (headLen f.chain)) used
      if t.2.1 = 0 then
        .done (.wait, { w with tx := some t.1, flushed := true, used := t.2.2 })
      else
        let n := min (min w.rest.length t.2.1)
          (sizeSub dataSize (t.1.tail.offset + t.1.tail.buflen))
        .next ⟨some (t.1.put (w.rest.take n)), flushed, w.rest.drop n, w.written + n, t.2.2⟩

def finishWrite (prio : Who → Nat) (s : PushpullStream) (call : WriteCall) (w : StreamWriting) :
    WriteEnd → PushpullStream
  | .ret =>
    { s with
      tx := w.tx, flushed := w.flushed, writer := none
      accepted := s.accepted ++ call.data.take w.written }
  | .wait =>
    { s with
      tx := w.tx, flushed := w.flushed, cond := enqueue prio .writer s.cond
      writer := some { call with rest := w.rest, written := w.written } }

/-- Each round but the last one copies a byte. -/
def runWrite (prio : Who → Nat) (s : PushpullStream) (call : WriteCall) : PushpullStream :=
  match loop (streamWriteRound pp env s.shutdown call.noWait) (call.rest.length + 1)
      ⟨s.tx, s.flushed, call.rest, call.written, 0⟩ with
  | none => { s with stopped := some (.hang "pushpull_stream_write") }
  | some r => finishWrite prio s call r.2 r.1

end Write

/-! ## Steps -/

inductive Event where
  | read (size requested : Nat)
  | readOn
  | write (data : List Byte) (noWait : Bool) (env : Buffers)
  | writeOn (env : Buffers)
  | flush
  | push (pb : Packet)
  | pull
  | close

/-- `cond_signal` wakes one thread. -/
def signal (s : PushpullStream) : PushpullStream := { s with cond := s.cond.tail }

/-- A message is taken away. -/
def pushpullStreamPull (s : PushpullStream) : PushpullStream :=
  match s.flushed, s.tx with
  | true, some f =>
    signal { s with tx := none, flushed := false, pulled := s.pulled ++ [f.chain] }
  | _, _ => s

/-- A thread makes one call at a time, and goes on when it has been woken. The transport calls `push`
only if `pushpull_stream_may_push`, and nothing after `close`. -/
def step (pp : Pushpull) (prio : Who → Nat) (s : PushpullStream) : Event → Option PushpullStream
  | .read size requested =>
    if s.stopped.isNone ∧ s.reader.isNone then some (runRead prio s ⟨size, requested, 0, []⟩)
    else none
  | .readOn =>
    match s.reader with
    | some call =>
      if s.stopped.isNone ∧ Who.reader ∉ s.cond then some (runRead prio s call) else none
    | none => none
  | .write data noWait env =>
    if s.stopped.isNone ∧ s.writer.isNone then
      some (runWrite pp env prio s ⟨data, noWait, data, 0⟩)
    else none
  | .writeOn env =>
    match s.writer with
    | some call =>
      if s.stopped.isNone ∧ Who.writer ∉ s.cond then some (runWrite pp env prio s call) else none
    | none => none
  | .flush =>
    if s.stopped.isNone ∧ s.writer.isNone then
      some (if s.tx.isSome then { s with flushed := true } else s)
    else none
  | .push pb =>
    if s.stopped.isNone ∧ s.shutdown = false ∧ s.rxbuf.isEmpty ∧ pb.isEmpty = false then
      some (signal { s with rxbuf := pb, pushed := s.pushed ++ content pb })
    else none
  | .pull =>
    if s.stopped.isNone ∧ s.shutdown = false then some (pushpullStreamPull s) else none
  | .close =>
    if s.stopped.isNone ∧ s.shutdown = false then some (signal { s with shutdown := true })
    else none

abbrev Step (pp : Pushpull) (prio : Who → Nat) (s : PushpullStream) (e : Event)
    (t : PushpullStream) : Prop :=
  step pp prio s e = some t

/-! ## Who waits -/

/-- A thread waits once, and only inside a call. -/
structure Waits (s : PushpullStream) : Prop where
  nodup : s.cond.Nodup
  reader : Who.reader ∈ s.cond → s.reader.isSome
  writer : Who.writer ∈ s.cond → s.writer.isSome

theorem nodup_enqueue {prio : Who → Nat} (hl : l.Nodup) (hw : w ∉ l) :
    (enqueue prio w l).Nodup := by
  rw [enqueue_eq, (perm_orderedInsert _ _ _).nodup_iff]
  exact nodup_cons.mpr ⟨hw, hl⟩

/-- The thread that waits first is woken. -/
theorem not_mem_tail_of_head (hl : l.Nodup) (h : w ∈ l → l.head? = some w) : w ∉ l.tail := by
  intro hmem
  cases l with
  | nil => cases hmem
  | cons x l =>
    obtain rfl : x = w := Option.some.inj (h (.tail _ hmem))
    exact (nodup_cons.mp hl).1 hmem

variable {pp : Pushpull} {prio : Who → Nat} {env : Buffers} {s t : PushpullStream}

theorem Waits.signal (h : Waits s) : Waits (signal s) :=
  ⟨h.nodup.tail, fun hmem => h.reader (mem_of_mem_tail hmem),
    fun hmem => h.writer (mem_of_mem_tail hmem)⟩

theorem Waits.runRead (h : Waits s) (hno : Who.reader ∉ s.cond) (call : ReadCall) :
    Waits (runRead prio s call) := by
  unfold Bridge.runRead
  split
  · exact { h with }
  rename_i r _
  cases r.1 with
  | ret | interrupted => exact { h with reader := fun hmem => absurd hmem hno }
  | wait =>
    refine ⟨nodup_enqueue h.nodup hno, fun _ => rfl, fun hmem => h.writer ?_⟩
    rcases mem_enqueue.mp hmem with heq | hmem
    · cases heq
    · exact hmem
  | halt e => exact { h with }

theorem Waits.runWrite (h : Waits s) (hno : Who.writer ∉ s.cond) (call : WriteCall) :
    Waits (runWrite pp env prio s call) := by
  unfold Bridge.runWrite
  split
  · exact { h with }
  rename_i r _
  cases r.1 with
  | ret => exact { h with writer := fun hmem => absurd hmem hno }
  | wait =>
    refine ⟨nodup_enqueue h.nodup hno, fun hmem => h.reader ?_, fun _ => rfl⟩
    rcases mem_enqueue.mp hmem with heq | hmem
    · cases heq
    · exact hmem

theorem Waits.idle_reader (h : Waits s) (hidle : s.reader = none) : Who.reader ∉ s.cond :=
  fun hmem => by simpa [hidle] using h.reader hmem

theorem Waits.idle_writer (h : Waits s) (hidle : s.writer = none) : Who.writer ∉ s.cond :=
  fun hmem => by simpa [hidle] using h.writer hmem

/-! ## What a step is -/

/-- All that a step can do. -/
inductive StepCase (pp : Pushpull) (prio : Who → Nat) (s : PushpullStream) :
    Event → PushpullStream → Prop
  | read {e : Event} {call : ReadCall} (hno : Who.reader ∉ s.cond) (hcall : s.reader = some call ∨
      s.reader = none ∧ ∃ size requested, call = ⟨size, requested, 0, []⟩) :
      StepCase pp prio s e (runRead prio s call)
  | write {e : Event} {env : Buffers} {call : WriteCall} (hno : Who.writer ∉ s.cond)
      (hcall : s.writer = some call ∨
        s.writer = none ∧ ∃ data noWait, call = ⟨data, noWait, data, 0⟩) :
      StepCase pp prio s e (runWrite pp env prio s call)
  | flush {e : Event} (htx : s.tx.isSome) : StepCase pp prio s e { s with flushed := true }
  | same {e : Event} : StepCase pp prio s e s
  | push {pb : Packet} (hopen : s.shutdown = false) (hrx : s.rxbuf = []) :
      StepCase pp prio s (.push pb)
        (signal { s with rxbuf := pb, pushed := s.pushed ++ content pb })
  | pull {f : Filling} (htx : s.tx = some f) : StepCase pp prio s .pull
      (signal { s with tx := none, flushed := false, pulled := s.pulled ++ [f.chain] })
  | close (hopen : s.shutdown = false) :
      StepCase pp prio s .close (signal { s with shutdown := true })

theorem step_cases {e : Event} (hw : Waits s) (h : step pp prio s e = some t) :
    StepCase pp prio s e t := by
  cases e with
  | read size requested =>
    obtain ⟨hok, rfl⟩ := of_ite_some h
    have hidle := isNone_iff_eq_none.mp hok.2
    exact .read (hw.idle_reader hidle) (.inr ⟨hidle, size, requested, rfl⟩)
  | readOn =>
    simp only [step] at h
    split at h
    · rename_i call hcall
      obtain ⟨hok, rfl⟩ := of_ite_some h
      exact .read hok.2 (.inl hcall)
    · cases h
  | write data noWait env =>
    obtain ⟨hok, rfl⟩ := of_ite_some h
    have hidle := isNone_iff_eq_none.mp hok.2
    exact .write (hw.idle_writer hidle) (.inr ⟨hidle, data, noWait, rfl⟩)
  | writeOn env =>
    simp only [step] at h
    split at h
    · rename_i call hcall
      obtain ⟨hok, rfl⟩ := of_ite_some h
      exact .write hok.2 (.inl hcall)
    · cases h
  | flush =>
    obtain ⟨-, h⟩ := ite_none_right_eq_some.mp h
    split at h
    · cases h
      exact .flush ‹_›
    · cases h
      exact .same
  | push pb =>
    obtain ⟨⟨-, hopen, hrx, -⟩, rfl⟩ := of_ite_some h
    exact .push hopen (isEmpty_iff.mp hrx)
  | pull =>
    obtain ⟨-, rfl⟩ := of_ite_some h
    unfold pushpullStreamPull
    split
    · exact .pull ‹_›
    · exact .same
  | close =>
    obtain ⟨hok, rfl⟩ := of_ite_some h
    exact .close hok.2

theorem Waits.step {e : Event} (hw : Waits s) (h : step pp prio s e = some t) : Waits t := by
  cases step_cases hw h with
  | read hno hcall => exact hw.runRead hno _
  | write hno hcall => exact hw.runWrite hno _
  | flush htx => exact { hw with }
  | same => exact hw
  | push _ _ | pull _ | close _ => exact Waits.signal { hw with }

theorem waits_open : Waits pushpullStreamOpen :=
  ⟨nodup_nil, fun h => absurd h not_mem_nil, fun h => absurd h not_mem_nil⟩

/-! ## Every write ends -/

/-- The counters of the last segment are of type `uint16_t`. -/
def Small (f : Filling) : Prop := f.tail.offset < 65536 ∧ f.tail.buflen < 65536

theorem small_put (h : Small f) (bs : List Byte) : Small (f.put bs) := by
  refine ⟨by rw [Filling.put_offset]; exact h.1, ?_⟩
  unfold Filling.put
  split <;> exact Nat.mod_lt _ (by decide)

/-- The message that is filled is the one at hand or a new one. -/
theorem streamHead_cases {w : StreamWriting} {flushed : Bool} {used : Nat}
    (h : streamHead pp env noWait w = some (f, flushed, used)) :
    w.tx = some f ∨ w.tx = none ∧ ∃ x, f = ⟨[], made pp.preferredOffset x⟩ := by
  unfold streamHead at h
  split at h
  · rename_i hg
    cases h
    exact .inl hg
  · rename_i hnone
    split at h
    · cases h
      exact .inr ⟨hnone, _, rfl⟩
    · split at h <;> cases h
      exact .inr ⟨hnone, _, rfl⟩

theorem streamHead_small {w : StreamWriting} {flushed : Bool}
    {used : Nat} (hw : ∀ f ∈ w.tx, Small f)
    (h : streamHead pp env noWait w = some (f, flushed, used)) : Small f := by
  rcases streamHead_cases h with hg | ⟨-, x, rfl⟩
  · exact hw f hg
  · exact ⟨pp.offset_lt, show (0 : Nat) < 65536 by decide⟩

/-- There is room behind the last segment, unless there is none at all. -/
theorem streamTail_room {remain used : Nat} (hf : Small f)
    (h : (streamTail env f remain used).2.1 ≠ 0) : Small (streamTail env f remain used).1 ∧
      0 < sizeSub dataSize ((streamTail env f remain used).1.tail.offset +
        (streamTail env f remain used).1.tail.buflen) := by
  unfold streamTail at h ⊢
  split
  · rename_i hfull
    rw [if_pos hfull] at h
    split
    · rename_i hnow
      rw [hnow] at h
      exact absurd rfl h
    · exact ⟨⟨show (0 : Nat) < 65536 by decide, show (0 : Nat) < 65536 by decide⟩,
        show 0 < sizeSub 512 (0 + 0) by decide⟩
  · rename_i hroom
    rw [if_neg hroom] at h
    obtain ⟨ho, hb⟩ := hf
    refine ⟨⟨ho, hb⟩, ?_⟩
    have hne : f.tail.buflen + f.tail.offset ≠ dataSize := fun heq => hroom ⟨h, heq⟩
    simp only [dataSize] at hne
    show 0 < sizeSub 512 (f.tail.offset + f.tail.buflen)
    unfold sizeSub
    by_cases hle : f.tail.offset + f.tail.buflen ≤ 512
    · rw [if_pos hle]
      omega
    · rw [if_neg hle]
      omega

theorem streamWriteRound_next {shutdown : Bool} {w w' : StreamWriting}
    (hw : ∀ f ∈ w.tx, Small f) (h : streamWriteRound pp env shutdown noWait w = .next w') :
    (∀ f ∈ w'.tx, Small f) ∧ w'.rest.length < w.rest.length := by
  unfold streamWriteRound at h
  split at h
  · cases h
  rename_i hrest
  have hlen : 0 < w.rest.length := by
    rw [length_pos_iff]
    intro hnil
    exact hrest (.inl (by rw [hnil]; rfl))
  split at h
  · cases h
  rename_i f flushed used hhead
  dsimp only at h
  split at h
  · cases h
  rename_i hremain
  cases h
  obtain ⟨hsmall, hroom⟩ := streamTail_room (streamHead_small hw hhead) hremain
  refine ⟨?_, ?_⟩
  · intro g hg
    cases hg
    exact small_put hsmall _
  · rw [length_drop]
    omega

theorem streamWriteRound_done {shutdown : Bool} {w : StreamWriting}
    {r : WriteEnd × StreamWriting} (hw : ∀ f ∈ w.tx, Small f)
    (h : streamWriteRound pp env shutdown noWait w = .done r) : ∀ f ∈ r.2.tx, Small f := by
  unfold streamWriteRound at h
  split at h
  · cases h
    exact hw
  split at h
  · cases h
    exact hw
  rename_i f flushed used hhead
  have hf := streamHead_small hw hhead
  dsimp only at h
  split at h
  · cases h
    intro g hg
    cases hg
    unfold streamTail
    split
    · split
      · exact hf
      · exact ⟨show (0 : Nat) < 65536 by decide, show (0 : Nat) < 65536 by decide⟩
    · exact hf
  · cases h

/-- A write returns or waits, whatever sizes the transport has. -/
theorem runWrite_ends (pp : Pushpull) (env : Buffers) (prio : Who → Nat) (call : WriteCall)
    (hs : ∀ f ∈ s.tx, Small f) :
    ∃ r : WriteEnd × StreamWriting, runWrite pp env prio s call = finishWrite prio s call r.2 r.1 ∧
      ∀ f ∈ r.2.tx, Small f := by
  have hloop : ∃ r, loop (streamWriteRound pp env s.shutdown call.noWait) (call.rest.length + 1)
      ⟨s.tx, s.flushed, call.rest, call.written, 0⟩ = some r ∧ ∀ f ∈ r.2.tx, Small f :=
    exists_loop (fun w => w.rest.length)
      (fun w r hw h => streamWriteRound_done hw h) (fun w w' hw h => streamWriteRound_next hw h)
      hs (Nat.lt_succ_self call.rest.length)
  obtain ⟨r, hr, hsmall⟩ := hloop
  refine ⟨r, ?_, hsmall⟩
  unfold runWrite
  rw [hr]

end Mios.Net.Bridge
