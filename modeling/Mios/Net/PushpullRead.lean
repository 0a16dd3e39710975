import Mios.Net.Pushpull

/-! Reading from a stream over a transport: what reads return, when they sleep, and that they
return. A message without bytes is never used up, and a shutdown drops what is not read. -/

namespace Mios.Net.Bridge

open Lib List
open Packet (Filling Pushpull content headLen Sized Inv)
open Pbuf (dataSize)

variable {pp : Pushpull} {prio : Who → Nat} {s t : PushpullStream}

/-! ## One message -/

/-- A message that is used up when all its bytes are read. -/
structure Readable (c : Packet) : Prop where
  sized : Sized c
  last : ∀ t ∈ c.getLast?, t.buflen ≠ 0

/-- A read of `k` bytes takes them from the front; a message is used up with its last byte. -/
theorem Readable.read {h : Segment} {c : Packet} (hc : Readable (h :: c)) {k : Nat}
    (hk : k ≤ h.pktlen) (P : Pool) :
    ∃ c' P', Packet.pbufRead (h :: c) k P = .ok ((content (h :: c)).take k, c', P') ∧
      content c' = (content (h :: c)).drop k ∧ Readable c' ∧ (k = h.pktlen → c' = []) := by
  have hlen := hc.sized.head
  obtain ⟨c', P', heq, hcont, hsz, -, -, -, hfull⟩ :=
    Packet.readLoop_spec k hc.sized (by rw [Packet.total_cons]; omega)
  refine ⟨c', P', ?_, hcont, ⟨hsz, hfull hc.last⟩, fun hk' => (hfull hc.last).eq_nil (c := h :: c) ?_⟩
  · rw [Packet.pbufRead, if_neg (Nat.not_lt.mpr hk)]
    exact heq
  · rw [hcont, hk', hlen]
    rfl

/-! ## One call -/

/-- What a read keeps: its buffer holds what it has counted, and nothing is lost. -/
structure Reads (whole : List Byte) (r : Reading) : Prop where
  rx : Readable r.rxbuf
  off : r.call.off ≤ r.call.size
  counted : r.call.buf.length = r.call.off
  bytes : r.call.buf ++ content r.rxbuf = whole

/-- How a call returns or falls asleep. -/
def Ends (shutdown : Bool) (r : Reading) : ReadEnd → Prop
  | .ret => shutdown = false ∧ min r.call.size r.call.requested ≤ r.call.off
  | .interrupted => shutdown = true
  | .wait => shutdown = false ∧ r.rxbuf = [] ∧ r.call.off < r.call.requested
  | .halt _ => False

variable {whole : List Byte} {shutdown : Bool} {r r' : Reading}

/-- One round on a message: what it copies, and that a round that goes on has used it up. -/
theorem streamReadRound_message {h : Segment} {c : Packet} (hr : Reads whole r)
    (hrx : r.rxbuf = h :: c) : ∃ r', Reads whole r' ∧
      (streamReadRound false r = .done (.ret, r') ∧ r'.call.off = r'.call.size ∨
        streamReadRound false r = .next r' ∧ r'.rxbuf = []) := by
  obtain ⟨hread, hoff, hcounted, hbytes⟩ := hr
  rw [hrx] at hread hbytes
  generalize hn : min h.pktlen (r.call.size - r.call.off) = n
  obtain ⟨c', P', heq, hcont, hc', hall⟩ := hread.read (k := n) (by omega) .empty
  have hle : n ≤ (content (h :: c)).length := by
    rw [Packet.length_content, Packet.total_cons, ← hread.sized.head]
    omega
  refine ⟨⟨c', { r.call with off := r.call.off + n, buf := r.call.buf ++ (content (h :: c)).take n }⟩,
    ⟨hc', ?_, ?_, ?_⟩, ?_⟩
  · show r.call.off + n ≤ r.call.size
    omega
  · rw [length_append, length_take, hcounted, Nat.min_eq_left hle]
  · rw [hcont, append_assoc, take_append_drop]
    exact hbytes
  · unfold streamReadRound
    simp only [Bool.false_eq_true, if_false, hrx, hn, heq]
    by_cases hfull : r.call.off + n = r.call.size
    · exact .inl ⟨if_pos hfull, hfull⟩
    · refine .inr ⟨if_neg hfull, hall ?_⟩
      omega

theorem streamReadRound_next (hr : Reads whole r)
    (h : streamReadRound shutdown r = .next r') :
    Reads whole r' ∧ min 1 r'.rxbuf.length < min 1 r.rxbuf.length := by
  cases shutdown with
  | true => cases h
  | false =>
    cases hrx : r.rxbuf with
    | nil =>
      simp only [streamReadRound, hrx, Bool.false_eq_true, if_false] at h
      split at h <;> cases h
    | cons seg c =>
      obtain ⟨r₁, hr₁, ⟨hdone, -⟩ | ⟨hnext, hnil⟩⟩ := streamReadRound_message hr hrx
      · rw [hdone] at h
        cases h
      rw [hnext] at h
      cases h
      refine ⟨hr₁, ?_⟩
      rw [hnil, length_cons, length_nil]
      omega

theorem streamReadRound_done {x : ReadEnd × Reading} (hr : Reads whole r)
    (h : streamReadRound shutdown r = .done x) :
    Reads whole x.2 ∧ Ends shutdown x.2 x.1 := by
  cases shutdown with
  | true =>
    cases h
    exact ⟨hr, rfl⟩
  | false =>
    cases hrx : r.rxbuf with
    | nil =>
      simp only [streamReadRound, hrx, Bool.false_eq_true, if_false] at h
      split at h
      · rename_i hle
        cases h
        exact ⟨hr, rfl, Nat.le_trans (Nat.min_le_right _ _) hle⟩
      · rename_i hlt
        cases h
        exact ⟨hr, rfl, hrx, Nat.lt_of_not_le hlt⟩
    | cons seg c =>
      obtain ⟨r₁, hr₁, ⟨hdone, hfull⟩ | ⟨hnext, -⟩⟩ := streamReadRound_message hr hrx
      · rw [hdone] at h
        cases h
        exact ⟨hr₁, rfl, hfull ▸ Nat.min_le_left _ _⟩
      · rw [hnext] at h
        cases h

theorem runRead_ends (prio : Who → Nat) {call : ReadCall}
    (hr : Reads whole ⟨s.rxbuf, call⟩) :
    ∃ x : ReadEnd × Reading, runRead prio s call = finishRead prio s x.2 x.1 ∧
      Reads whole x.2 ∧ Ends s.shutdown x.2 x.1 := by
  have hloop : ∃ x, loop (streamReadRound s.shutdown) 3 ⟨s.rxbuf, call⟩ = some x ∧
      Reads whole x.2 ∧ Ends s.shutdown x.2 x.1 :=
    exists_loop (I := Reads whole) (fun r => min 1 r.rxbuf.length)
      (fun r x hr h => streamReadRound_done hr h) (fun r r' hr h => streamReadRound_next hr h) hr
      (show min 1 s.rxbuf.length < 3 by omega)
  obtain ⟨x, hx, hq⟩ := hloop
  refine ⟨x, ?_, hq⟩
  unfold runRead
  rw [hx]

theorem runRead_shutdown (prio : Who → Nat) (call : ReadCall) (h : s.shutdown = true) :
    runRead prio s call = finishRead prio s ⟨s.rxbuf, call⟩ .interrupted := by
  unfold runRead
  rw [h]
  rfl

/-! ## Messages that are not used up -/

/-- Behind the bytes of a message there are segments without bytes, or the message has none. Then a
read that is not done by now never is. -/
theorem diverges_of_no_bytes {h : Segment} {c : Packet} (hrx : r.rxbuf = h :: c)
    (hlen : h.pktlen = 0) (hne : r.call.off ≠ r.call.size) :
    Diverges (streamReadRound false) r := by
  refine diverges_of_invariant (I := fun u => u = r) ?_ rfl
  rintro u rfl
  refine ⟨u, ?_, rfl⟩
  have hzero : Packet.pbufRead (h :: c) 0 .empty = .ok ([], h :: c, .empty) := by
    rw [Packet.pbufRead, if_neg (Nat.not_lt_zero _)]
    cases c with
    | nil => rfl
    | cons n c => rfl
  obtain ⟨rxbuf, call⟩ := u
  simp only at hrx
  subst hrx
  simp only [streamReadRound, Bool.false_eq_true, if_false, hlen, Nat.zero_min, hzero,
    Nat.add_zero, if_neg hne, append_nil]

/-! ## All calls -/

/-- The bytes that reads have returned. -/
def returned (results : List (Int × ReadCall)) : List Byte :=
  results.flatMap fun r => if r.1 = errInterrupted then [] else r.2.buf

/-- What the call that has not returned has in its buffer. -/
def inBuffer : Option ReadCall → List Byte
  | none => []
  | some call => call.buf

structure ReadInv (s : PushpullStream) : Prop where
  waits : Waits s
  running : s.stopped = none
  tx : ∀ f ∈ s.tx, Small f
  rx : Readable s.rxbuf
  call : ∀ c ∈ s.reader, c.off ≤ c.size ∧ c.buf.length = c.off
  bytes : returned s.results ++ inBuffer s.reader ++ content s.rxbuf = s.pushed
  counted : ∀ r ∈ s.results, r.1 = r.2.buf.length ∧ min r.2.size r.2.requested ≤ r.2.buf.length ∨
    r.1 = errInterrupted ∧ r.2.buf = [] ∧ s.shutdown = true
  asleep : Who.reader ∈ s.cond → s.rxbuf = [] ∧ s.shutdown = false ∧
    ∀ c ∈ s.reader, c.off < c.requested
  ended : s.shutdown = true → s.rxbuf = [] ∧ ∀ c ∈ s.reader, c.off = 0

/-- What the guard of a run asks of the network: messages end with a segment that has bytes, a
shutdown comes when all is read and no call has bytes, and the thread they wake is the reader, if it
is asleep. -/
def ReadOk (s : PushpullStream) : Event → Prop
  | .push pb => Inv pb ∧ (∀ t ∈ pb.getLast?, t.buflen ≠ 0) ∧
    (Who.reader ∈ s.cond → s.cond.head? = some .reader)
  | .close => s.rxbuf = [] ∧ (∀ c ∈ s.reader, c.off = 0) ∧
    (Who.reader ∈ s.cond → s.cond.head? = some .reader)
  | _ => True

theorem readInv_open : ReadInv pushpullStreamOpen where
  waits := waits_open
  running := rfl
  tx := by intro f hf; cases hf
  rx := ⟨Packet.sized_nil, by simp [pushpullStreamOpen]⟩
  call := by intro c hc; cases hc
  bytes := rfl
  counted := by intro r hr; cases hr
  asleep := by intro h; cases h
  ended := by intro h; cases h

/-- A call starts or goes on, and returns or falls asleep. -/
theorem ReadInv.read (hs : ReadInv s) {call : ReadCall} (hno : Who.reader ∉ s.cond)
    (hcall : s.reader = some call ∨
      s.reader = none ∧ ∃ size requested, call = ⟨size, requested, 0, []⟩) :
    ReadInv (runRead prio s call) := by
  have hoff : call.off ≤ call.size ∧ call.buf.length = call.off := by
    rcases hcall with hsome | ⟨-, size, requested, rfl⟩
    · exact hs.call call hsome
    · exact ⟨Nat.zero_le _, rfl⟩
  have hbuf : inBuffer s.reader = call.buf := by
    rcases hcall with hsome | ⟨hnone, size, requested, rfl⟩
    · rw [hsome]; rfl
    · rw [hnone]; rfl
  have hwaits : Waits (runRead prio s call) := hs.waits.runRead hno call
  cases hshut : s.shutdown with
  | true =>
    obtain ⟨hrx, hzero⟩ := hs.ended hshut
    have hnil : call.buf = [] := by
      rcases hcall with hsome | ⟨-, size, requested, rfl⟩
      · rw [← length_eq_zero_iff, hoff.2]
        exact hzero call hsome
      · rfl
    rw [runRead_shutdown prio call hshut] at hwaits ⊢
    refine ⟨hwaits, hs.running, hs.tx, hs.rx, ?_, ?_, ?_, fun h => absurd h hno, fun _ => ⟨hrx, ?_⟩⟩
    · intro c hc
      cases hc
    · simp only [finishRead, returned, flatMap_append, flatMap_cons, flatMap_nil,
        if_true, append_nil, inBuffer]
      rw [← hs.bytes, hbuf, hnil, append_nil]
      rfl
    · intro x hx
      rcases mem_append.mp hx with hx | hx
      · exact hs.counted x hx
      · obtain rfl := mem_singleton.mp hx
        exact .inr ⟨rfl, hnil, hshut⟩
    · intro c hc
      cases hc
  | false =>
    have hreads : Reads (call.buf ++ content s.rxbuf) ⟨s.rxbuf, call⟩ :=
      ⟨hs.rx, hoff.1, hoff.2, rfl⟩
    obtain ⟨⟨e, r⟩, heq, hr, hend⟩ := runRead_ends prio hreads
    rw [heq] at hwaits ⊢
    have hbytes : returned s.results ++ r.call.buf ++ content r.rxbuf = s.pushed := by
      rw [append_assoc, hr.bytes, ← append_assoc, ← hbuf]
      exact hs.bytes
    have hopen : s.shutdown ≠ true := by rw [hshut]; simp
    cases e with
    | ret =>
      refine ⟨hwaits, hs.running, hs.tx, hr.rx, ?_, ?_, ?_, fun h => absurd h hno,
        fun h => absurd h hopen⟩
      · intro c hc
        cases hc
      · have hne : (r.call.off : Int) ≠ errInterrupted := by
          simp only [errInterrupted]
          omega
        simp only [finishRead, returned, flatMap_append, flatMap_cons, flatMap_nil,
          if_neg hne, append_nil, inBuffer]
        exact hbytes
      · intro x hx
        rcases mem_append.mp hx with hx | hx
        · exact hs.counted x hx
        · obtain rfl := mem_singleton.mp hx
          exact .inl ⟨by rw [hr.counted], hr.counted.symm ▸ hend.2⟩
    | interrupted => exact absurd hend hopen
    | wait =>
      refine ⟨hwaits, hs.running, hs.tx, hr.rx, ?_, hbytes, hs.counted, fun _ => ?_,
        fun h => absurd h hopen⟩
      · intro c hc
        cases hc
        exact ⟨hr.off, hr.counted⟩
      · refine ⟨hend.2.1, hshut, fun c hc => ?_⟩
        cases hc
        exact hend.2.2
    | halt e => exact hend.elim

/-- Writing has nothing to do with it. -/
theorem ReadInv.write (hs : ReadInv s) {env : Buffers} {call : WriteCall}
    (hno : Who.writer ∉ s.cond) : ReadInv (runWrite pp env prio s call) := by
  have hwaits : Waits (runWrite pp env prio s call) := hs.waits.runWrite hno call
  obtain ⟨⟨e, w⟩, heq, hsmall⟩ := runWrite_ends pp env prio call hs.tx
  rw [heq] at hwaits ⊢
  cases e with
  | ret =>
    exact { hs with waits := hwaits, tx := hsmall }
  | wait =>
    refine { hs with waits := hwaits, tx := hsmall, asleep := fun h => ?_ }
    rcases mem_enqueue.mp h with heq | hmem
    · cases heq
    · exact hs.asleep hmem

theorem ReadInv.step {e : Event} (hs : ReadInv s) (hok : ReadOk s e)
    (h : step pp prio s e = some t) : ReadInv t := by
  have hwaits := hs.waits.step h
  cases step_cases hs.waits h with
  | read hno hcall => exact hs.read hno hcall
  | write hno hcall => exact hs.write hno
  | flush htx => exact { hs with waits := hwaits }
  | same => exact hs
  | push hopen hrx =>
    obtain ⟨hinv, hlast, hhead⟩ := hok
    have hno : Who.reader ∉ s.cond.tail := not_mem_tail_of_head hs.waits.nodup hhead
    refine ⟨hwaits, hs.running, hs.tx, ⟨hinv.sized, hlast⟩, hs.call, ?_, hs.counted,
      fun h => absurd h hno, fun h => ?_⟩
    · have hbytes := hs.bytes
      rw [hrx, Packet.content_nil, append_nil] at hbytes
      rw [← hbytes]
      rfl
    · rw [show s.shutdown = true from h] at hopen
      cases hopen
  | pull htx =>
    refine { hs with
      waits := hwaits, tx := ?_, asleep := fun h => hs.asleep (mem_of_mem_tail h) }
    intro f hf
    cases hf
  | close hopen =>
    obtain ⟨hrx, hzero, hhead⟩ := hok
    have hno : Who.reader ∉ s.cond.tail := not_mem_tail_of_head hs.waits.nodup hhead
    refine { hs with
      waits := hwaits, counted := fun x hx => ?_, asleep := fun h => absurd h hno
      ended := fun _ => ⟨hrx, hzero⟩ }
    rcases hs.counted x hx with hcount | ⟨-, -, hshut⟩
    · exact .inl hcount
    · rw [hshut] at hopen
      cases hopen

/-- What is asked of reading: no call loops forever or stops, a call that sleeps has less than it
requires and there is nothing to read, a count is the number of bytes in the buffer and as large as
required, what was returned is at the front of what was pushed, and it is all of it once a call was
interrupted. -/
structure ReadsWell (s : PushpullStream) : Prop where
  running : s.stopped = none
  asleep : Who.reader ∈ s.cond → s.rxbuf = [] ∧ s.shutdown = false ∧
    ∃ c ∈ s.reader, c.off < c.requested
  counted : ∀ r ∈ s.results, r.1 = r.2.buf.length ∧ min r.2.size r.2.requested ≤ r.2.buf.length ∨
    r.1 = errInterrupted ∧ r.2.buf = []
  inOrder : returned s.results <+: s.pushed
  complete : (∃ r ∈ s.results, r.1 = errInterrupted) → returned s.results = s.pushed

theorem ReadInv.readsWell (hs : ReadInv s) : ReadsWell s where
  running := hs.running
  asleep := by
    intro h
    obtain ⟨hrx, hopen, hless⟩ := hs.asleep h
    obtain ⟨c, hc⟩ := Option.isSome_iff_exists.mp (hs.waits.reader h)
    exact ⟨hrx, hopen, c, hc, hless c hc⟩
  counted := by
    intro r hr
    rcases hs.counted r hr with hcount | ⟨herr, hnil, -⟩
    · exact .inl hcount
    · exact .inr ⟨herr, hnil⟩
  inOrder := by
    refine ⟨inBuffer s.reader ++ content s.rxbuf, ?_⟩
    rw [← append_assoc]
    exact hs.bytes
  complete := by
    rintro ⟨r, hr, herr⟩
    have hshut : s.shutdown = true := by
      rcases hs.counted r hr with hcount | ⟨-, -, hshut⟩
      · rw [herr, errInterrupted] at hcount
        omega
      · exact hshut
    obtain ⟨hrx, hzero⟩ := hs.ended hshut
    have hbuf : inBuffer s.reader = [] := by
      cases hreader : s.reader with
      | none => rfl
      | some c =>
        rw [inBuffer, ← length_eq_zero_iff, (hs.call c hreader).2]
        exact hzero c hreader
    rw [← hs.bytes, hrx, hbuf, append_nil, Packet.content_nil, append_nil]

/-- In every run of the bridge in which messages end with bytes, a shutdown comes when all is read,
and the reader is the one that is woken for it, reading is as it should be. -/
theorem reads_in_order (pp : Pushpull) (prio : Who → Nat) {es : List Event} {s : PushpullStream}
    (hrun : Run (Guarded ReadOk (Step pp prio)) pushpullStreamOpen es s) : ReadsWell s := by
  have hinv : ReadInv s := hrun.invariant readInv_open fun u e v hu h => hu.step h.1 h.2
  exact hinv.readsWell

/-! ## Runs -/

instance decidableReadOk (s : PushpullStream) : (e : Event) → Decidable (ReadOk s e)
  | .push pb => inferInstanceAs (Decidable (_ ∧ (∀ t ∈ pb.getLast?, _) ∧ (_ → _)))
  | .close => inferInstanceAs (Decidable (_ ∧ (∀ c ∈ s.reader, _) ∧ (_ → _)))
  | .read .. | .readOn | .write .. | .writeOn _ | .flush | .pull => isTrue trivial

/-- A message in one buffer. -/
def message (bs : List Byte) : Packet :=
  [⟨0, 0, 3, 0, bs.length, 0, bs.length, fun i => bs.getD i 0⟩]

/-- A read waits for its bytes, and another one is interrupted. -/
theorem reads_in_order_run : ∃ s,
    Run (Guarded ReadOk (Step Packet.Transport.vllp.pushpull fun _ => 0)) pushpullStreamOpen
      [.read 4 2, .push (message [5, 6]), .readOn, .close, .read 4 1] s ∧
    s.results = [(2, ⟨4, 2, 2, [5, 6]⟩), (errInterrupted, ⟨4, 1, 0, []⟩)] ∧ ReadsWell s := by
  obtain ⟨s, hrun, hres⟩ := exists_guarded_run (P := fun s : PushpullStream =>
    s.results = [(2, ⟨4, 2, 2, [5, 6]⟩), (errInterrupted, ⟨4, 1, 0, []⟩)])
    (show ∃ t ∈ exec (guardStep ReadOk (step Packet.Transport.vllp.pushpull fun _ => 0))
      pushpullStreamOpen [.read 4 2, .push (message [5, 6]), .readOn, .close, .read 4 1], _ from
      by decide +kernel)
  exact ⟨s, hrun, hres, reads_in_order _ _ hrun⟩

/-- A message without bytes is read forever with the mutex. A shutdown after a part of a read loses
the bytes that were copied, and one before a read loses the message. -/
theorem reads_lost : (∃ s, Run (Step Packet.Transport.vllp.pushpull fun _ => 0) pushpullStreamOpen
      [.push (message []), .read 4 1] s ∧ s.stopped = some (.hang "pushpull_stream_read") ∧
      Diverges (streamReadRound false) ⟨message [], ⟨4, 1, 0, []⟩⟩) ∧
    (∃ s, Run (Step Packet.Transport.vllp.pushpull fun _ => 0) pushpullStreamOpen
      [.read 4 4, .push (message [5, 6]), .readOn, .close, .readOn] s ∧
      s.results = [(errInterrupted, ⟨4, 4, 2, [5, 6]⟩)] ∧ returned s.results = [] ∧ s.pushed = [5, 6]) ∧
    ∃ s, Run (Step Packet.Transport.vllp.pushpull fun _ => 0) pushpullStreamOpen
      [.push (message [5, 6]), .close, .read 4 1] s ∧
      s.results = [(errInterrupted, ⟨4, 1, 0, []⟩)] ∧ returned s.results = [] ∧ s.pushed = [5, 6] := by
  refine ⟨?_, exists_run (by decide +kernel), exists_run (by decide +kernel)⟩
  obtain ⟨s, hrun, hstop⟩ := exists_run
    (P := fun s : PushpullStream => s.stopped = some (.hang "pushpull_stream_read"))
    (show ∃ t ∈ exec (step Packet.Transport.vllp.pushpull fun _ => 0) pushpullStreamOpen
      [.push (message []), .read 4 1], _ from by decide +kernel)
  exact ⟨s, hrun, hstop, diverges_of_no_bytes rfl rfl (by decide)⟩

end Mios.Net.Bridge
