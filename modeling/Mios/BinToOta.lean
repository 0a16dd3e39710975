import Mios.Block
import Mios.Crc32
import Mios.Lib.Run

/-! The writer of an upgrade image (`util/bin_to_ota.c`), on a block device that may answer
anything. A write without data is a flush, which writes the header of the image. -/

namespace Mios.BinToOta

open Lib Crc32
open Block (Call Reply)

/-- `bin_to_ota_t` -/
structure Bto where
  block : BitVec 32
  offset : BitVec 32
  size : BitVec 32
  imageCrc : BitVec 32
  deriving DecidableEq

/-- `bin_to_ota` -/
def binToOta (blockOffset : BitVec 32) : Bto := ⟨blockOffset, 0, 0, 0⟩

/-- `otahdr_t` with its own CRC. -/
def otahdr (size imageCrc : BitVec 32) : List Byte :=
  let hdr := [0x4f, 0x54, 0x41, 0x31] ++ le32 size ++ le32 imageCrc
  hdr ++ le32 (~~~crc32 0 hdr)

abbrev Writing := Prog (Call 32) Reply (Bto × Int)

def btoFlush (b : Bto) : Writing :=
  if b.size = 0 then .done (b, 0)
  else
    let b := { b with imageCrc := ~~~b.imageCrc }
    .call (.erase 0 1) fun r =>
      if r.err ≠ 0 then .done (b, r.err)
      else
        .call (.write 0 0 (otahdr b.size b.imageCrc) 16) fun r =>
          if r.err ≠ 0 then .done (b, r.err)
          else .call (.ctrl .suspend) fun _ => .done (b, 0)

/-- The state after `data` has been written. -/
def Bto.advance (b : Bto) (blockSize : BitVec 32) (data : List Byte) : Bto :=
  let offset := b.offset + BitVec.ofNat 32 data.length
  { b with
    imageCrc := crc32 b.imageCrc data
    size := b.size + BitVec.ofNat 32 data.length
    offset := if offset = blockSize then 0 else offset
    block := if offset = blockSize then b.block + 1 else b.block }

/-- The loop of `bto_write`. A round writes a byte or more, if blocks have any. -/
def writeLoop (blockSize : BitVec 32) (olen : Int) : Nat → Bto → List Byte → Writing
  | 0, b, _ => .done (b, olen)
  | fuel + 1, b, data =>
      if data = [] then .done (b, olen)
      else
        let chunk := data.take (blockSize - b.offset).toNat
        let write : Writing := .call (.write b.block b.offset chunk (BitVec.ofNat 32 chunk.length))
          fun r =>
            if r.err < 0 then .done (b, r.err)
            else writeLoop blockSize olen fuel (b.advance blockSize chunk) (data.drop chunk.length)
        if b.offset = 0 then
          .call (.erase b.block 1) fun r => if r.err ≠ 0 then .done (b, r.err) else write
        else write

/-- What `bto_write` is called with; no data is a flush. -/
abbrev Input := Option (List Byte)

def btoWrite (blockSize : BitVec 32) (b : Bto) : Input → Writing
  | none => btoFlush b
  | some data => writeLoop blockSize data.length data.length b data

/-! ## What the device is told -/

/-- A call of `bto_write`, with the calls it made and their answers. -/
structure Entry where
  input : Input
  calls : List (Call 32 × Reply)
  deriving DecidableEq

/-- The writer and all that has happened, the last call first. -/
structure Session where
  bto : Bto
  log : List Entry
  deriving DecidableEq

def step (blockSize : BitVec 32) (s : Session) (e : Input × List Reply) : Option Session :=
  ((btoWrite blockSize s.bto e.1).feed e.2).map fun x =>
    ⟨x.2.1, ⟨e.1, x.1.zip e.2⟩ :: s.log⟩

/-- What the device took. -/
def accepted : List (Call 32 × Reply) → List Byte
  | [] => []
  | (.write _ _ data _, r) :: calls => (if r.err < 0 then [] else data) ++ accepted calls
  | _ :: calls => accepted calls

/-- The bytes of the image: those the device took from the writes with data. -/
def image : List Entry → List Byte
  | [] => []
  | ⟨none, _⟩ :: log => image log
  | ⟨some _, calls⟩ :: log => image log ++ accepted calls

/-- There has been a flush with an image. -/
def flushed (log : List Entry) : Bool := log.any fun e => e.input.isNone && !e.calls.isEmpty

def header (img : List Byte) : List Byte :=
  otahdr (BitVec.ofNat 32 img.length) (~~~crc32 0 img)

/-- The calls of a flush of the image: its header goes to the start of the device, once that is
erased. -/
inductive Flush (img : List Byte) : List (Call 32 × Reply) → Prop
  | empty (himg : img = []) : Flush img []
  | noErase (r : Reply) (himg : img ≠ []) (hr : r.err ≠ 0) : Flush img [(.erase 0 1, r)]
  | noWrite (r r' : Reply) (himg : img ≠ []) (hr : r.err = 0) (hr' : r'.err ≠ 0) :
      Flush img [(.erase 0 1, r), (.write 0 0 (header img) 16, r')]
  | written (r r' r'' : Reply) (himg : img ≠ []) (hr : r.err = 0) (hr' : r'.err = 0) :
      Flush img [(.erase 0 1, r), (.write 0 0 (header img) 16, r'), (.ctrl .suspend, r'')]

/-- The device takes a prefix of the data, and all of it if no call fails. -/
def Takes (data : List Byte) (calls : List (Call 32 × Reply)) : Prop :=
  accepted calls <+: data ∧ ((∀ c ∈ calls, c.2.err = 0) → accepted calls = data)

/-- Every write hands its data on, and every flush writes the header of the image so far. -/
def Correct : List Entry → Prop
  | [] => True
  | ⟨none, calls⟩ :: log => Flush (image log) calls ∧ Correct log
  | ⟨some data, calls⟩ :: log => Takes data calls ∧ Correct log

/-- A flush comes before any other one with an image, and the size of the image is a number of 32
bits. -/
def ok (s : Session) (e : Input × List Reply) : Prop :=
  e.1 = none → flushed s.log = false ∧ (image s.log).length < 2 ^ 32

instance (s : Session) (e : Input × List Reply) : Decidable (ok s e) :=
  inferInstanceAs (Decidable (_ → _))

/-- A write whose calls are `calls`. -/
structure Wrote (blockSize : BitVec 32) (b b' : Bto) (data : List Byte)
    (calls : List (Call 32 × Reply)) : Prop where
  size : b'.size = b.size + BitVec.ofNat 32 (accepted calls).length
  imageCrc : b'.imageCrc = crc32 b.imageCrc (accepted calls)
  offset : b'.offset < blockSize
  takes : Takes data calls

variable {b b' : Bto} {blockSize : BitVec 32} {calls : List (Call 32 × Reply)} {data : List Byte}

theorem wrote_self (h : b.offset < blockSize) (hacc : accepted calls = [])
    (hdata : (∀ c ∈ calls, c.2.err = 0) → data = []) : Wrote blockSize b b data calls where
  size := by rw [hacc, List.length_nil, BitVec.add_zero]
  imageCrc := by rw [hacc, crc32]
  offset := h
  takes := ⟨hacc ▸ List.nil_prefix, fun hc => by rw [hacc, hdata hc]⟩

/-- A chunk goes up to the end of the block at most. -/
theorem advance_offset (h : b.offset < blockSize) (data : List Byte) :
    (b.advance blockSize (data.take (blockSize - b.offset).toNat)).offset < blockSize := by
  simp only [Bto.advance, List.length_take]
  split <;> bv_omega

theorem Wrote.advance {chunk rest : List Byte} {block offset length : BitVec 32} {r : Reply}
    (hr : ¬r.err < 0) (hdata : data = chunk ++ rest)
    (h : Wrote blockSize (b.advance blockSize chunk) b' rest calls) :
    Wrote blockSize b b' data ((.write block offset chunk length, r) :: calls) where
  size := by
    rw [h.size, accepted, if_neg hr, List.length_append, BitVec.ofNat_add, ← BitVec.add_assoc]
    rfl
  imageCrc := by
    rw [h.imageCrc, accepted, if_neg hr, crc32_append]
    rfl
  offset := h.offset
  takes := by
    rw [Takes, accepted, if_neg hr, hdata]
    refine ⟨(List.prefix_append_right_inj _).mpr h.takes.1, fun hc => ?_⟩
    rw [h.takes.2 fun c hmem => hc c (.tail _ hmem)]

/-- By induction over the rounds of the loop. -/
theorem writeLoop_feed {olen n : Int} {fuel : Nat} {rs : List Reply} {cs : List (Call 32)}
    (hoff : b.offset < blockSize) (hfuel : data.length ≤ fuel)
    (h : (writeLoop blockSize olen fuel b data).feed rs = some (cs, b', n)) :
    Wrote blockSize b b' data (cs.zip rs) := by
  induction fuel generalizing b data rs cs with
  | zero =>
    obtain ⟨rfl, rfl, ⟨⟩⟩ := Prog.of_feed_done h
    exact wrote_self hoff rfl fun _ => List.length_eq_zero_iff.mp (Nat.le_zero.mp hfuel)
  | succ fuel ih =>
    have hwrite (rs : List Reply) (cs : List (Call 32)) (hdata : data ≠ [])
        (h : (Prog.call (.write b.block b.offset (data.take (blockSize - b.offset).toNat)
            (BitVec.ofNat 32 (data.take (blockSize - b.offset).toNat).length)) fun r =>
          if r.err < 0 then .done (b, r.err)
          else writeLoop blockSize olen fuel
            (b.advance blockSize (data.take (blockSize - b.offset).toNat))
            (data.drop (data.take (blockSize - b.offset).toNat).length)).feed rs =
          some (cs, b', n)) : Wrote blockSize b b' data (cs.zip rs) := by
      obtain ⟨r, rs, cs, rfl, rfl, hnext⟩ := Prog.of_feed_call h
      split at hnext
      · rename_i hr
        obtain ⟨rfl, rfl, ⟨⟩⟩ := Prog.of_feed_done hnext
        refine wrote_self hoff ?_ fun hc => ?_
        · simp [accepted, hr]
        · have hzero : r.err = 0 := hc _ (.head _)
          omega
      · rename_i hr
        have hpos := List.length_pos_iff.mpr hdata
        have hchunk : 0 < (blockSize - b.offset).toNat := by bv_omega
        have hrest := ih (advance_offset hoff data) (by
          rw [List.length_drop, List.length_take]; omega) hnext
        refine hrest.advance hr ?_
        rw [List.length_take, ← List.drop_eq_drop_min, List.take_append_drop]
    unfold writeLoop at h
    split at h
    · obtain ⟨rfl, rfl, ⟨⟩⟩ := Prog.of_feed_done h
      exact wrote_self hoff rfl fun _ => ‹_›
    rename_i hdata
    split at h
    · obtain ⟨r, rs, cs, rfl, rfl, hnext⟩ := Prog.of_feed_call h
      split at hnext
      · rename_i hr
        obtain ⟨rfl, rfl, ⟨⟩⟩ := Prog.of_feed_done hnext
        exact wrote_self hoff rfl fun hc => absurd (hc _ (.head _)) hr
      · rename_i hr
        obtain ⟨hsize, hcrc, hoffset, hprefix, hall⟩ := hwrite rs cs hdata hnext
        exact ⟨hsize, hcrc, hoffset, hprefix, fun hc => hall fun c hmem => hc c (.tail _ hmem)⟩
    · exact hwrite rs cs hdata h

structure Inv (blockSize : BitVec 32) (s : Session) : Prop where
  size : s.bto.size = BitVec.ofNat 32 (image s.log).length
  imageCrc : flushed s.log = false → s.bto.imageCrc = crc32 0 (image s.log)
  offset : s.bto.offset < blockSize
  correct : Correct s.log

variable {s s' : Session}

theorem Inv.flush {n : Int} {rs : List Reply} {cs : List (Call 32)} (h : Inv blockSize s)
    (hf : flushed s.log = false) (hlen : (image s.log).length < 2 ^ 32)
    (hfeed : (btoFlush s.bto).feed rs = some (cs, b', n)) :
    Inv blockSize ⟨b', ⟨none, cs.zip rs⟩ :: s.log⟩ := by
  have hflush {calls : List (Call 32 × Reply)} (hne : calls ≠ [])
      (hcalls : Flush (image s.log) calls) :
      Inv blockSize ⟨{ s.bto with imageCrc := ~~~s.bto.imageCrc }, ⟨none, calls⟩ :: s.log⟩ := by
    refine ⟨h.size, fun hc => ?_, h.offset, hcalls, h.correct⟩
    simp [flushed, hne] at hc
  have hheader : otahdr s.bto.size (~~~s.bto.imageCrc) = header (image s.log) := by
    rw [header, h.size, h.imageCrc hf]
  unfold btoFlush at hfeed
  split at hfeed
  · rename_i hzero
    obtain ⟨rfl, rfl, ⟨⟩⟩ := Prog.of_feed_done hfeed
    have himg : image s.log = [] := by
      rw [h.size] at hzero
      exact List.length_eq_zero_iff.mp (by bv_omega)
    exact ⟨h.size, fun hc => h.imageCrc (by simpa [flushed] using hc), h.offset, .empty himg,
      h.correct⟩
  rename_i hzero
  have himg : image s.log ≠ [] := by
    intro himg
    rw [h.size, himg] at hzero
    exact hzero rfl
  simp only [hheader] at hfeed
  obtain ⟨r, rs, cs, rfl, rfl, herase⟩ := Prog.of_feed_call hfeed
  split at herase
  · obtain ⟨rfl, rfl, ⟨⟩⟩ := Prog.of_feed_done herase
    exact hflush (by simp) (.noErase r himg ‹_›)
  obtain ⟨r', rs, cs, rfl, rfl, hwrite⟩ := Prog.of_feed_call herase
  split at hwrite
  · obtain ⟨rfl, rfl, ⟨⟩⟩ := Prog.of_feed_done hwrite
    exact hflush (by simp) (.noWrite r r' himg (not_not.mp ‹_›) ‹_›)
  obtain ⟨r'', rs, cs, rfl, rfl, hctrl⟩ := Prog.of_feed_call hwrite
  obtain ⟨rfl, rfl, ⟨⟩⟩ := Prog.of_feed_done hctrl
  exact hflush (by simp) (.written r r' r'' himg (not_not.mp ‹_›) (not_not.mp ‹_›))

theorem Inv.step {e : Input × List Reply} (h : Inv blockSize s) (hok : ok s e)
    (hstep : step blockSize s e = some s') : Inv blockSize s' := by
  obtain ⟨⟨cs, b', n⟩, hfeed, rfl⟩ := Option.map_eq_some_iff.mp hstep
  obtain ⟨input, rs⟩ := e
  cases input with
  | none => exact h.flush (hok rfl).1 (hok rfl).2 hfeed
  | some data =>
    obtain ⟨hsize, hcrc, hoffset, htakes⟩ := writeLoop_feed h.offset (Nat.le_refl _) hfeed
    refine ⟨?_, fun hf => ?_, hoffset, htakes, h.correct⟩
    · rw [hsize, h.size, image, List.length_append, BitVec.ofNat_add]
    · rw [hcrc, image, crc32_append, h.imageCrc (by simpa [flushed] using hf)]

/-- In every run in which no flush follows one with an image, and whatever the device answers: each
write hands its data on to the device, and each flush writes the header with the length and the CRC
of the bytes the device has taken so far. -/
theorem headers_correct (blockSize blockOffset : BitVec 32) (hpos : 0 < blockSize)
    (es : List (Input × List Reply)) (s : Session)
    (h : Run (Guarded ok fun s e s' => step blockSize s e = some s') ⟨binToOta blockOffset, []⟩
      es s) : Correct s.log := by
  have hstart : Inv blockSize ⟨binToOta blockOffset, []⟩ := ⟨rfl, fun _ => rfl, hpos, trivial⟩
  refine (h.invariant hstart ?_).correct
  rintro u e v hu ⟨hok, hstep⟩
  exact hu.step hok hstep

def fine : Reply := ⟨0, []⟩

/-- Six bytes into blocks of four, and the header. -/
def sixBytes : List (Input × List Reply) :=
  [(none, []), (some [1, 2, 3, 4, 5, 6], [fine, fine, fine, fine]), (none, [fine, fine, fine])]

theorem sixBytes_correct : ∃ s, Run (Guarded ok fun s e s' => step 4 s e = some s')
    ⟨binToOta 1, []⟩ sixBytes s ∧
      s.log.map (fun e => e.calls.map Prod.fst) =
        [[.erase 0 1, .write 0 0 (header [1, 2, 3, 4, 5, 6]) 16, .ctrl .suspend],
          [.erase 1 1, .write 1 0 [1, 2, 3, 4] 4, .erase 2 1, .write 2 0 [5, 6] 2], []] ∧
      Correct s.log := by
  obtain ⟨s, hrun, hcalls⟩ : ∃ s, Run (Guarded ok fun s e s' => step 4 s e = some s')
      ⟨binToOta 1, []⟩ sixBytes s ∧ s.log.map (fun e => e.calls.map Prod.fst) =
        [[.erase 0 1, .write 0 0 (header [1, 2, 3, 4, 5, 6]) 16, .ctrl .suspend],
          [.erase 1 1, .write 1 0 [1, 2, 3, 4] 4, .erase 2 1, .write 2 0 [5, 6] 2], []] :=
    exists_guarded_run (by decide +kernel)
  exact ⟨s, hrun, hcalls, headers_correct 4 1 (by decide) _ s hrun⟩

/-- A second flush writes the CRC without its complement, and bytes after a flush are added to a
CRC that is complemented. -/
theorem headers_incorrect : (∃ s, Run (fun s e s' => step 4 s e = some s') ⟨binToOta 1, []⟩
      [(some [1], [fine, fine]), (none, [fine, fine, fine]), (none, [fine, fine, fine])] s ∧
      image s.log = [1] ∧ otahdr 1 (crc32 0 [1]) ≠ header [1] ∧
      ∃ e ∈ s.log.head?, (.write 0 0 (otahdr 1 (crc32 0 [1])) 16, fine) ∈ e.calls) ∧
    ∃ s, Run (fun s e s' => step 4 s e = some s') ⟨binToOta 1, []⟩
      [(some [1], [fine, fine]), (none, [fine, fine, fine]), (some [2], [fine]),
        (none, [fine, fine, fine])] s ∧
      image s.log = [1, 2] ∧ otahdr 2 (~~~crc32 (~~~crc32 0 [1]) [2]) ≠ header [1, 2] ∧
      ∃ e ∈ s.log.head?,
        (.write 0 0 (otahdr 2 (~~~crc32 (~~~crc32 0 [1]) [2])) 16, fine) ∈ e.calls := by
  constructor
  all_goals
    refine exists_run ?_
    decide +kernel

end Mios.BinToOta
