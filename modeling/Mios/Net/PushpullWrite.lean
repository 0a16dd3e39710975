import Mios.Net.Pushpull

/-! Writing to a stream over a transport: what is pulled is what was written, in messages of a size
that the transport can take, and a writer without room is woken by the pull that makes some. -/

namespace Mios.Net.Bridge

open Lib List
open Packet (Filling Pushpull content headLen total Inv)
open Pbuf (sop eop dataSize)

variable {pp : Pushpull} {prio : Who → Nat} {env : Buffers} {s t : PushpullStream}

/-! ## The message that is written -/

/-- A well-formed message that the transport can take. -/
structure Fitting (pp : Pushpull) (f : Filling) : Prop where
  inv : Inv f.chain
  max : headLen f.chain ≤ pp.maxFragmentSize

/-- It has bytes too. -/
structure Held (pp : Pushpull) (f : Filling) : Prop extends Fitting pp f where
  pos : 0 < headLen f.chain

/-- The bytes of the message that is not pulled yet. -/
def held : Option Filling → List Byte
  | none => []
  | some f => content f.chain

theorem inv_made {offset : Nat} (h : offset ≤ dataSize) (x : Item) :
    Inv (⟨[], made offset x⟩ : Filling).chain :=
  Packet.inv_single rfl rfl h

theorem areas_tail {f : Filling} (h : Inv f.chain) : f.tail.offset + f.tail.buflen ≤ dataSize :=
  (Filling.areas_chain.mp h.sized.area).2

/-- A new message is empty and has room, the message at hand is as it was. -/
theorem streamHead_spec {noWait : Bool} {w : StreamWriting} {f : Filling} {flushed : Bool}
    {used : Nat} (hoff : pp.preferredOffset < dataSize) (hw : ∀ f ∈ w.tx, Held pp f)
    (h : streamHead pp env noWait w = some (f, flushed, used)) :
    content f.chain = held w.tx ∧ Fitting pp f ∧
      (Held pp f ∨ headLen f.chain = 0 ∧ f.tail.buflen + f.tail.offset < dataSize) := by
  rcases streamHead_cases h with hg | ⟨hnone, x, rfl⟩
  · have hf := hw f hg
    rw [hg]
    exact ⟨rfl, hf.toFitting, .inl hf⟩
  · rw [hnone]
    refine ⟨rfl, ⟨inv_made (Nat.le_of_lt hoff) x, Nat.zero_le _⟩, .inr ⟨rfl, ?_⟩⟩
    show 0 + pp.preferredOffset < dataSize
    rwa [Nat.zero_add]

/-- A further segment changes nothing in the message. -/
theorem streamTail_spec (env : Buffers) {f : Filling} (remain used : Nat) (hf : Fitting pp f) :
    content (streamTail env f remain used).1.chain = content f.chain ∧
      Fitting pp (streamTail env f remain used).1 ∧
      headLen (streamTail env f remain used).1.chain = headLen f.chain ∧
      ((streamTail env f remain used).2.1 = remain ∨
        (streamTail env f remain used).2.1 = 0 ∧ (streamTail env f remain used).1 = f ∧
          f.tail.buflen + f.tail.offset = dataSize) := by
  unfold streamTail
  split
  · rename_i hfull
    split
    · exact ⟨rfl, hf, rfl, .inr ⟨rfl, rfl, hfull.2⟩⟩
    have hlen := Filling.headLen_grow (f := f)
    refine ⟨Filling.content_grow rfl, ⟨Filling.inv_grow hf.inv ?_ rfl (Nat.zero_le _), ?_⟩, hlen _,
      .inl rfl⟩
    · exact show ((1 ||| 2) &&& ~~~1 : BitVec 8) &&& 2 ≠ 0 by decide
    · rw [hlen]
      exact hf.max
  · exact ⟨rfl, hf, rfl, .inl rfl⟩

/-! ## One call -/

/-- What a write keeps. -/
structure WritesOut (pp : Pushpull) (whole data : List Byte) (w : StreamWriting) : Prop where
  tx : ∀ f ∈ w.tx, Held pp f
  bytes : held w.tx ++ w.rest = whole
  rest : w.rest = data.drop w.written
  written : w.written ≤ data.length

variable {whole data : List Byte} {shutdown noWait : Bool} {w w' : StreamWriting}

theorem sizeSub_of_le {a b : Nat} (h : b ≤ a) : sizeSub a b = a - b := if_pos h

theorem streamWriteRound_keeps (hoff : pp.preferredOffset < dataSize)
    (hw : WritesOut pp whole data w) (h : streamWriteRound pp env shutdown noWait w = .next w') :
    WritesOut pp whole data w' ∧ w'.rest.length < w.rest.length := by
  have hlt := (streamWriteRound_next (fun f hf => ?_) h).2
  · refine ⟨?_, hlt⟩
    unfold streamWriteRound at h
    split at h
    · cases h
    split at h
    · cases h
    rename_i f flushed used hhead
    dsimp only at h
    split at h
    · cases h
    rename_i hremain
    obtain ⟨hcontent, hfit, -⟩ := streamHead_spec hoff hw.tx hhead
    rw [sizeSub_of_le hfit.max] at h hremain
    obtain ⟨htcontent, htfit, htlen, htremain⟩ :=
      streamTail_spec env (pp.maxFragmentSize - headLen f.chain) used hfit
    generalize streamTail env f (pp.maxFragmentSize - headLen f.chain) used = x at *
    obtain ⟨g, remain, used'⟩ := x
    simp only at htcontent htfit htlen htremain hremain h
    have harea := areas_tail htfit.inv
    rw [sizeSub_of_le harea] at h
    generalize hn : min (min w.rest.length remain) (dataSize - (g.tail.offset + g.tail.buflen)) = n at h
    have hremain' : remain = pp.maxFragmentSize - headLen f.chain := by
      rcases htremain with heq | ⟨hzero, -⟩
      · exact heq
      · exact absurd hzero hremain
    have hlen : (w.rest.take n).length = n := by
      rw [length_take]
      omega
    have hbound : g.tail.offset + g.tail.buflen + (w.rest.take n).length ≤ dataSize := by
      rw [hlen]
      omega
    have hsmall : headLen g.chain + (w.rest.take n).length < 65536 := by
      have := pp.max_lt
      have := htfit.max
      rw [hlen, htlen]
      omega
    cases h
    simp only [length_drop] at hlt
    have hput : headLen (g.put (w.rest.take n)).chain = headLen f.chain + n := by
      rw [Filling.headLen_put, Nat.mod_eq_of_lt hsmall, hlen, htlen]
    refine ⟨?_, ?_, ?_, ?_⟩
    · intro k hk
      cases hk
      refine ⟨⟨Filling.inv_put htfit.inv hbound hsmall, ?_⟩, ?_⟩
      · rw [hput]
        have := hfit.max
        omega
      · rw [hput]
        omega
    · show content (g.put (w.rest.take n)).chain ++ w.rest.drop n = whole
      rw [Filling.content_put hbound, htcontent, hcontent, append_assoc, take_append_drop]
      exact hw.bytes
    · rw [hw.rest, drop_drop]
    show w.written + n ≤ data.length
    have hrest := congrArg List.length hw.rest
    rw [length_drop] at hrest
    have := hw.written
    omega
  · obtain ⟨ho, hb⟩ : f.tail.offset < 65536 ∧ f.tail.buflen < 65536 := by
      have := areas_tail (hw.tx f hf).inv
      simp only [dataSize] at this
      omega
    exact ⟨ho, hb⟩

theorem streamWriteRound_end {r : WriteEnd × StreamWriting} (hmax : 0 < pp.maxFragmentSize)
    (hoff : pp.preferredOffset < dataSize) (hw : WritesOut pp whole data w)
    (h : streamWriteRound pp env shutdown noWait w = .done r) :
    WritesOut pp whole data r.2 ∧ (r.1 = .wait → r.2.flushed = true ∧ r.2.tx.isSome) := by
  unfold streamWriteRound at h
  split at h
  · cases h
    exact ⟨hw, by intro hwait; cases hwait⟩
  split at h
  · cases h
    exact ⟨{ hw with }, by intro hwait; cases hwait⟩
  rename_i f flushed used hhead
  dsimp only at h
  split at h
  · rename_i hzero
    cases h
    obtain ⟨hcontent, hfit, hnew⟩ := streamHead_spec hoff hw.tx hhead
    rw [sizeSub_of_le hfit.max] at hzero ⊢
    obtain ⟨htcontent, htfit, htlen, htremain⟩ :=
      streamTail_spec env (pp.maxFragmentSize - headLen f.chain) used hfit
    -- A message without room has bytes: it has as many as it can have, or its segment is full.
    have hpos : 0 < headLen f.chain := by
      rcases hnew with hheld | ⟨hempty, hroom⟩
      · exact hheld.pos
      · rcases htremain with heq | ⟨-, -, hfull⟩
        · omega
        · omega
    refine ⟨⟨?_, ?_, hw.rest, hw.written⟩, fun _ => ⟨rfl, rfl⟩⟩
    · intro g hg
      cases hg
      exact ⟨htfit, by rw [htlen]; exact hpos⟩
    · show content _ ++ w.rest = whole
      rw [htcontent, hcontent]
      exact hw.bytes
  · cases h

/-- A call of write returns or waits for a pull, with the bytes it took in the message. -/
theorem runWrite_spec (env : Buffers) (prio : Who → Nat) {call : WriteCall}
    (hmax : 0 < pp.maxFragmentSize) (hoff : pp.preferredOffset < dataSize)
    (hw : WritesOut pp whole data ⟨s.tx, s.flushed, call.rest, call.written, 0⟩) :
    ∃ r : WriteEnd × StreamWriting, runWrite pp env prio s call = finishWrite prio s call r.2 r.1 ∧
      WritesOut pp whole data r.2 ∧ (r.1 = .wait → r.2.flushed = true ∧ r.2.tx.isSome) := by
  have hloop : ∃ r, loop (streamWriteRound pp env s.shutdown call.noWait) (call.rest.length + 1)
      ⟨s.tx, s.flushed, call.rest, call.written, 0⟩ = some r ∧
      WritesOut pp whole data r.2 ∧ (r.1 = .wait → r.2.flushed = true ∧ r.2.tx.isSome) :=
    exists_loop (I := WritesOut pp whole data) (fun w => w.rest.length)
      (fun w r hw h => streamWriteRound_end hmax hoff hw h)
      (fun w w' hw h => streamWriteRound_keeps hoff hw h) hw (Nat.lt_succ_self call.rest.length)
  obtain ⟨r, hr, hq⟩ := hloop
  refine ⟨r, ?_, hq⟩
  unfold runWrite
  rw [hr]

/-! ## All calls -/

/-- What the call that has not returned has written. -/
def inWrite : Option WriteCall → List Byte
  | none => []
  | some call => call.data.take call.written

structure WriteInv (pp : Pushpull) (s : PushpullStream) : Prop where
  waits : Waits s
  tx : ∀ f ∈ s.tx, Held pp f
  pulled : ∀ m ∈ s.pulled, Inv m ∧ 0 < total m ∧ total m ≤ pp.maxFragmentSize
  bytes : s.pulled.flatMap content ++ held s.tx = s.accepted ++ inWrite s.writer
  call : ∀ c ∈ s.writer, c.rest = c.data.drop c.written ∧ c.written ≤ c.data.length
  asleep : Who.writer ∈ s.cond → s.flushed = true ∧ s.tx.isSome

/-- A pull wakes the writer, if it is asleep. -/
def WriteOk (s : PushpullStream) : Event → Prop
  | .pull => Who.writer ∈ s.cond → s.cond.head? = some .writer
  | _ => True

theorem writeInv_open : WriteInv pp pushpullStreamOpen where
  waits := waits_open
  tx := by intro f hf; cases hf
  pulled := by intro m hm; cases hm
  bytes := rfl
  call := by intro c hc; cases hc
  asleep := by intro h; cases h

/-- Reading has nothing to do with it. -/
theorem WriteInv.read (hs : WriteInv pp s) {call : ReadCall} (hno : Who.reader ∉ s.cond) :
    WriteInv pp (runRead prio s call) := by
  have hwaits : Waits (runRead prio s call) := hs.waits.runRead hno call
  unfold runRead at hwaits ⊢
  split
  · rename_i hloop
    rw [hloop] at hwaits
    exact { hs with waits := hwaits }
  · rename_i r hloop
    rw [hloop] at hwaits
    obtain ⟨e, r⟩ := r
    cases e with
    | ret | interrupted | halt e => exact { hs with waits := hwaits }
    | wait =>
      refine { hs with waits := hwaits, asleep := fun h => hs.asleep ?_ }
      rcases mem_enqueue.mp h with heq | hmem
      · cases heq
      · exact hmem

/-- A call starts or goes on, and returns or falls asleep. -/
theorem WriteInv.write (hs : WriteInv pp s) {call : WriteCall} (hmax : 0 < pp.maxFragmentSize)
    (hoff : pp.preferredOffset < dataSize) (hno : Who.writer ∉ s.cond)
    (hcall : s.writer = some call ∨
      s.writer = none ∧ ∃ data noWait, call = ⟨data, noWait, data, 0⟩) :
    WriteInv pp (runWrite pp env prio s call) := by
  have hrest : call.rest = call.data.drop call.written ∧ call.written ≤ call.data.length := by
    rcases hcall with hsome | ⟨-, data, noWait, rfl⟩
    · exact hs.call call hsome
    · exact ⟨rfl, Nat.zero_le _⟩
  have hin : inWrite s.writer = call.data.take call.written := by
    rcases hcall with hsome | ⟨hnone, data, noWait, rfl⟩
    · rw [hsome]; rfl
    · rw [hnone]; rfl
  have hwaits : Waits (runWrite pp env prio s call) := hs.waits.runWrite hno call
  obtain ⟨⟨e, w⟩, heq, hw, hwait⟩ := runWrite_spec env prio hmax hoff
    (show WritesOut pp (held s.tx ++ call.rest) call.data _ from ⟨hs.tx, rfl, hrest.1, hrest.2⟩)
  rw [heq] at hwaits ⊢
  have hbytes : s.pulled.flatMap content ++ held w.tx = s.accepted ++ call.data.take w.written := by
    suffices hall : s.pulled.flatMap content ++ held w.tx ++ w.rest =
        s.accepted ++ call.data.take w.written ++ w.rest from append_cancel_right hall
    calc s.pulled.flatMap content ++ held w.tx ++ w.rest
        = s.pulled.flatMap content ++ held s.tx ++ call.rest := by
          rw [append_assoc, hw.bytes, append_assoc]
      _ = s.accepted ++ call.data := by
          rw [hs.bytes, hin, hrest.1, append_assoc, take_append_drop]
      _ = s.accepted ++ call.data.take w.written ++ w.rest := by
          rw [hw.rest, append_assoc, take_append_drop]
  cases e with
  | ret =>
    refine ⟨hwaits, hw.tx, hs.pulled, ?_, ?_, fun h => absurd h hno⟩
    · simp only [finishWrite, inWrite, append_nil]
      exact hbytes
    · intro c hc
      cases hc
  | wait =>
    refine ⟨hwaits, hw.tx, hs.pulled, hbytes, ?_, fun _ => hwait rfl⟩
    intro c hc
    cases hc
    exact ⟨hw.rest, hw.written⟩

theorem WriteInv.step {e : Event} (hmax : 0 < pp.maxFragmentSize)
    (hoff : pp.preferredOffset < dataSize) (hs : WriteInv pp s) (hok : WriteOk s e)
    (h : step pp prio s e = some t) : WriteInv pp t := by
  have hwaits := hs.waits.step h
  cases step_cases hs.waits h with
  | read hno hcall => exact hs.read hno
  | write hno hcall => exact hs.write hmax hoff hno hcall
  | flush htx => exact { hs with waits := hwaits, asleep := fun _ => ⟨rfl, htx⟩ }
  | same => exact hs
  | push _ _ | close _ =>
    exact { hs with waits := hwaits, asleep := fun h => hs.asleep (mem_of_mem_tail h) }
  | @pull f htx =>
    have hno : Who.writer ∉ s.cond.tail := not_mem_tail_of_head hs.waits.nodup hok
    have hf := hs.tx f htx
    refine ⟨hwaits, ?_, ?_, ?_, hs.call, fun h => absurd h hno⟩
    · intro g hg
      cases hg
    · intro m hm
      rcases mem_append.mp hm with hm | hm
      · exact hs.pulled m hm
      obtain rfl := mem_singleton.mp hm
      refine ⟨hf.inv, ?_, ?_⟩
      · rw [← hf.inv.sized.len]
        exact hf.pos
      · rw [← hf.inv.sized.len]
        exact hf.max
    · have hbytes := hs.bytes
      rw [htx] at hbytes
      simp only [signal, flatMap_append, flatMap_cons, flatMap_nil, append_nil,
        held]
      exact hbytes

/-- What is asked of writing: the pulled messages and the one at hand are the bytes that writes have
reported or taken so far, a message has a size that the transport can take, and a writer sleeps only
while a message is there to be pulled. -/
structure WritesWell (pp : Pushpull) (s : PushpullStream) : Prop where
  bytes : s.pulled.flatMap content ++ held s.tx = s.accepted ++ inWrite s.writer
  messages : ∀ m ∈ s.pulled, Inv m ∧ 1 ≤ total m ∧ total m ≤ pp.maxFragmentSize
  asleep : Who.writer ∈ s.cond → s.flushed = true ∧ s.tx.isSome

/-- In every run in which a pull finds no reader asleep before the writer, writing is as it should
be, and the next pull that gets a message wakes the writer. -/
theorem writes_in_order (pp : Pushpull) (prio : Who → Nat) (hmax : 0 < pp.maxFragmentSize)
    (hoff : pp.preferredOffset < dataSize) {es : List Event} {s : PushpullStream}
    (hrun : Run (Guarded WriteOk (Step pp prio)) pushpullStreamOpen es s) :
    WritesWell pp s ∧ ∀ t, WriteOk s .pull → Step pp prio s .pull t → t.pulled ≠ s.pulled →
      Who.writer ∉ t.cond := by
  have hinv : WriteInv pp s :=
    hrun.invariant writeInv_open fun u e v hu h => hu.step hmax hoff h.1 h.2
  refine ⟨⟨hinv.bytes, hinv.pulled, hinv.asleep⟩, fun t hok h hpulled => ?_⟩
  simp only [Step, step] at h
  split at h
  · cases h
    revert hpulled
    unfold pushpullStreamPull
    split
    · exact fun _ => not_mem_tail_of_head hinv.waits.nodup hok
    · exact fun hpulled => absurd rfl hpulled
  · cases h

/-! ## Runs -/

instance decidableWriteOk (s : PushpullStream) : (e : Event) → Decidable (WriteOk s e)
  | .pull => inferInstanceAs (Decidable (_ → _))
  | .read .. | .readOn | .write .. | .writeOn _ | .flush | .push _ | .close => isTrue trivial

/-- There are always buffers. -/
def plenty : Buffers := ⟨fun k => some (k, k, fun _ => 0), fun k => (k, k, fun _ => 0)⟩

/-- A transport that takes messages of one byte. -/
def oneByte : Pushpull := (Packet.Transport.l2cap 1).pushpull

/-- Two bytes go out in two messages. -/
theorem writes_in_order_run : 0 < oneByte.maxFragmentSize ∧ oneByte.preferredOffset < dataSize ∧
    ∃ s, Run (Guarded WriteOk (Step oneByte fun _ => 0)) pushpullStreamOpen
      [.write [5, 6] false plenty, .pull, .writeOn plenty, .flush, .pull] s ∧
      s.pulled.map content = [[5], [6]] ∧ WritesWell oneByte s := by
  obtain ⟨s, hrun, hpulled⟩ := exists_guarded_run
    (P := fun s : PushpullStream => s.pulled.map content = [[5], [6]])
    (show ∃ t ∈ exec (guardStep WriteOk (step oneByte fun _ => 0)) pushpullStreamOpen
      [.write [5, 6] false plenty, .pull, .writeOn plenty, .flush, .pull], _ from by decide +kernel)
  exact ⟨by decide, by decide, s, hrun, hpulled,
    (writes_in_order oneByte _ (by decide) (by decide) hrun).1⟩

/-- A reader that waits before the writer is woken instead of it, and the writer sleeps although
there is room. A peer with an MPS of zero gets a message without bytes. -/
theorem writer_not_woken : (∃ s t, Run (Step oneByte fun _ => 0) pushpullStreamOpen
        [.read 4 1, .write [5, 6] false plenty] s ∧ Who.writer ∈ s.cond ∧
      Step oneByte (fun _ => 0) s .pull t ∧ t.pulled.map content = [[5]] ∧ Who.writer ∈ t.cond) ∧
    ∃ s, Run (Step (Packet.Transport.l2cap 0).pushpull fun _ => 0) pushpullStreamOpen
      [.write [5] false plenty, .pull] s ∧ s.pulled.map total = [0] := by
  refine ⟨?_, exists_run (by decide +kernel)⟩
  obtain ⟨s, hrun, hasleep, t, hstep, hpulled, hwriter⟩ := exists_run
    (P := fun s : PushpullStream => Who.writer ∈ s.cond ∧ ∃ t ∈ step oneByte (fun _ => 0) s .pull,
      t.pulled.map content = [[5]] ∧ Who.writer ∈ t.cond)
    (show ∃ t ∈ exec (step oneByte fun _ => 0) pushpullStreamOpen
      [.read 4 1, .write [5, 6] false plenty], _ from by decide +kernel)
  exact ⟨s, t, hrun, hasleep, hstep, hpulled, hwriter⟩

end Mios.Net.Bridge
