import Mathlib.Algebra.Order.Group.Nat
import Mios.Crc32
import Mios.Lib.Run

/-! The splice of two streams, `util/splice.c`: what one stream gives is held in a small buffer until
the other takes it. -/

namespace Mios.Splice

open Lib List

def spliceBufSize : Nat := 16

/-- One direction: the bytes in `buf`, the count `used`, and for the proof all that has been read
and all that has been written. -/
structure Dir where
  buf : List Byte := []
  used : Nat := 0
  read : List Byte := []
  written : List Byte := []

/-- The loop goes on, it has ended with an error, or the count has left the buffer. -/
inductive Status where
  | running
  | ended (err : Int)
  | overrun
  deriving DecidableEq

/-- The read into an empty buffer. A negative return goes into the `size_t` as well. -/
def Dir.fill (d : Dir) : Except Nat (List Byte) → Dir
  | .ok bs => { d with
      buf := bs.take spliceBufSize
      used := (bs.take spliceBufSize).length
      read := d.read ++ bs.take spliceBufSize }
  | .error e => { d with used := 2 ^ 32 - 1 - e % 2 ^ 32 }

def errInterrupted : Int := -48

/-- `splice_handle`, with the answers to its read and to its write, which takes a prefix or fails. -/
def spliceHandle (escape : Nat) (d : Dir) (r : Except Nat (List Byte)) (w : Int) : Dir × Status :=
  let d := if d.used = 0 then d.fill r else d
  if spliceBufSize < d.used then (d, .overrun)
  else if escape < 256 ∧ BitVec.ofNat 8 escape ∈ d.buf then (d, .ended errInterrupted)
  else if w < 0 then (d, .ended w)
  else
    ({ d with
      buf := d.buf.drop w.toNat
      used := d.used - w.toNat
      written := d.written ++ d.buf.take w.toNat }, .running)

structure State where
  a : Dir := {}
  b : Dir := {}
  status : Status := .running

/-- A round of `splice_loop`: which direction `poll` says is ready, and what its streams answer. -/
structure Event where
  which : Bool
  r : Except Nat (List Byte)
  w : Int

def step (escape : Nat) (s : State) (e : Event) : Option State :=
  if s.status = .running then
    let o := spliceHandle escape (if e.which then s.a else s.b) e.r e.w
    some (if e.which then { s with a := o.1, status := o.2 } else { s with b := o.1, status := o.2 })
  else none

/-- No read fails. -/
def Event.readOk (e : Event) : Prop := e.r.isOk = true

instance (e : Event) : Decidable e.readOk := inferInstanceAs (Decidable (_ = true))

/-- What is held is what has been read and not been written, and there is no escape in what has
been written. -/
structure Dir.Sound (escape : Nat) (d : Dir) : Prop where
  split : d.written ++ d.buf = d.read
  used : d.used = d.buf.length
  fits : d.used ≤ spliceBufSize
  escape : escape < 256 → BitVec.ofNat 8 escape ∉ d.written

variable {escape : Nat} {d : Dir} {r : Except Nat (List Byte)}

theorem Dir.Sound.fill (h : d.Sound escape) (h0 : d.used = 0) (hr : r.isOk = true) :
    (d.fill r).Sound escape := by
  cases r with
  | error e => cases hr
  | ok bs =>
    have hbuf : d.buf = [] := length_eq_zero_iff.mp (h.used ▸ h0)
    have hsplit := h.split
    rw [hbuf, append_nil] at hsplit
    exact ⟨congrArg (· ++ _) hsplit, rfl, length_take_le _ _, h.escape⟩

/-- A call keeps its direction sound. An escape in what is held ends the loop, and otherwise a
write that fails. -/
theorem spliceHandle_sound (h : d.Sound escape) (hr : r.isOk = true) (w : Int) :
    (spliceHandle escape d r w).1.Sound escape ∧ (spliceHandle escape d r w).2 ≠ .overrun ∧
      (w < 0 → (spliceHandle escape d r w).2 = .ended w ∨
        (spliceHandle escape d r w).2 = .ended errInterrupted) ∧
      (escape < 256 → BitVec.ofNat 8 escape ∈ (spliceHandle escape d r w).1.buf →
        (spliceHandle escape d r w).2 = .ended errInterrupted) := by
  have hfilled : (if d.used = 0 then d.fill r else d).Sound escape := by
    split
    · exact h.fill ‹_› hr
    · exact h
  unfold spliceHandle
  generalize (if d.used = 0 then d.fill r else d) = d' at hfilled ⊢
  simp only [if_neg (Nat.not_lt.mpr hfilled.fits)]
  split
  · exact ⟨hfilled, by simp, fun _ => .inr rfl, fun _ _ => rfl⟩
  rename_i hesc
  split
  · exact ⟨hfilled, by simp, fun _ => .inl rfl, fun hlt hmem => absurd ⟨hlt, hmem⟩ hesc⟩
  refine ⟨⟨?_, ?_, Nat.le_trans (Nat.sub_le _ _) hfilled.fits, fun hlt hmem => ?_⟩, by simp,
    fun _ => by omega, fun hlt hmem => absurd ⟨hlt, mem_of_mem_drop hmem⟩ hesc⟩
  · rw [append_assoc, take_append_drop]
    exact hfilled.split
  · rw [length_drop, hfilled.used]
  · rcases mem_append.mp hmem with hmem | hmem
    · exact hfilled.escape hlt hmem
    · exact hesc ⟨hlt, mem_of_mem_take hmem⟩

/-- An escape that has been read is still held. -/
theorem Dir.Sound.held (h : d.Sound escape) (hlt : escape < 256)
    (hmem : BitVec.ofNat 8 escape ∈ d.read) : BitVec.ofNat 8 escape ∈ d.buf := by
  rw [← h.split] at hmem
  exact (mem_append.mp hmem).resolve_left (h.escape hlt)

structure Inv (escape : Nat) (s : State) : Prop where
  a : s.a.Sound escape
  b : s.b.Sound escape
  status : s.status ≠ .overrun
  escaped : escape < 256 → BitVec.ofNat 8 escape ∈ s.a.read ∨ BitVec.ofNat 8 escape ∈ s.b.read →
    s.status = .ended errInterrupted

theorem inv_init : Inv escape {} :=
  ⟨⟨rfl, rfl, by decide, by simp⟩, ⟨rfl, rfl, by decide, by simp⟩, by decide, by simp⟩

theorem Inv.step {s t : State} {e : Event} (h : Inv escape s) (hr : e.readOk)
    (hs : step escape s e = some t) : Inv escape t ∧
      (e.w < 0 → t.status = .ended e.w ∨ t.status = .ended errInterrupted) := by
  obtain ⟨hrunning, rfl⟩ := of_ite_some hs
  -- no escape has been read while the loop goes on
  have hnone (hlt : escape < 256) :
      BitVec.ofNat 8 escape ∉ s.a.read ∧ BitVec.ofNat 8 escape ∉ s.b.read := by
    refine not_or.mp fun hmem => ?_
    have hended := h.escaped hlt hmem
    rw [hrunning] at hended
    cases hended
  cases hwhich : e.which with
  | true =>
    obtain ⟨hd, hover, hfail, hesc⟩ := spliceHandle_sound h.a hr e.w
    refine ⟨⟨hd, h.b, hover, fun hlt hmem => hesc hlt (hd.held hlt ?_)⟩, hfail⟩
    exact hmem.resolve_right (hnone hlt).2
  | false =>
    obtain ⟨hd, hover, hfail, hesc⟩ := spliceHandle_sound h.b hr e.w
    refine ⟨⟨h.a, hd, hover, fun hlt hmem => hesc hlt (hd.held hlt ?_)⟩, hfail⟩
    exact hmem.resolve_left (hnone hlt).1

/-- In every run without a failing read: in both directions what has been written is a prefix of
what has been read, the rest of it is held and fits the buffer, an escape that is read ends the loop
and is not written, and so does a write that fails. -/
theorem splice_sound {s : State} {es : List Event}
    (h : Run (Guarded (fun _ e => e.readOk) fun s e t => step escape s e = some t) {} es s) :
    Inv escape s ∧ s.a.written <+: s.a.read ∧ s.b.written <+: s.b.read ∧
    ∀ e t, e.readOk → step escape s e = some t → e.w < 0 →
      t.status = .ended e.w ∨ t.status = .ended errInterrupted := by
  have hinv : Inv escape s := h.invariant inv_init fun u e v hu hs => (hu.step hs.1 hs.2).1
  exact ⟨hinv, ⟨_, hinv.a.split⟩, ⟨_, hinv.b.split⟩, fun e t hr hs => (hinv.step hr hs).2⟩

/-- A write that takes two of three bytes, and then an escape. -/
theorem splice_sound_partial : ∃ s es,
    Run (Guarded (fun _ e => e.readOk) fun s e t => step 29 s e = some t) {} es s ∧
      s.a.written = [1, 2] ∧ s.a.buf = [3] ∧ s.b.read = [4, 29] ∧ s.b.written = [] ∧
      s.status = .ended errInterrupted := by
  have hexec : ∃ s ∈ exec (guardStep (fun _ e => e.readOk) (step 29)) {}
      [⟨true, .ok [1, 2, 3], 2⟩, ⟨false, .ok [4, 29], 2⟩],
      s.a.written = [1, 2] ∧ s.a.buf = [3] ∧ s.b.read = [4, 29] ∧ s.b.written = [] := by
    decide +kernel
  obtain ⟨s, hrun, hw, hb, hread, hnone⟩ := exists_guarded_run hexec
  have hended := (splice_sound hrun).1.escaped (by decide) (.inr (by rw [hread]; decide))
  exact ⟨s, _, hrun, hw, hb, hread, hnone, hended⟩

/-- A read fails with -1, and the splice holds 4294967295 bytes. -/
theorem read_error_overruns : ∃ s,
    Run (fun s e t => step 256 s e = some t) {} [⟨true, .error 0, 0⟩] s ∧
      s.status = .overrun ∧ s.a.used = 4294967295 :=
  exists_run (by decide +kernel)

end Mios.Splice
