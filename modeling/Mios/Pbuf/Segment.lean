import Mios.Lib.Mem
import Mios.Pbuf

/-! Packet buffers with their data areas and the two pools of `net/pbuf.c`. A chain is the list of
its segments; a segment is a `pbuf_t` and the data area it points to. Of the counters only
`pb_pktlen` can wrap while the data is inside its area. -/

namespace Mios

open Function Lib

/-- `pb` and `buf` say which `pbuf_t` it is, and which data area it has. -/
structure Segment where
  pb : Nat
  buf : Nat
  flags : BitVec 8
  credits : Nat
  pktlen : Nat
  offset : Nat
  buflen : Nat
  area : Nat → Byte

abbrev Packet := List Segment

/-- The free items, the next one first. `stale` and `staleCredits` are what is left in a data
area and in a `pbuf_t` when it is taken. -/
structure Pool where
  pbufs : List Nat
  datas : List Nat
  stale : Nat → Nat → Byte
  staleCredits : Nat → Nat

/-! ## The pools -/

/-- `pbuf_pool_get`. The outcome is `none` while the caller sleeps, and `NULL` for a caller that
does not wait when only the spare item is left. -/
def poolGet (wait : Bool) : List Nat → Option (Option (Nat × List Nat))
  | [] => if wait then none else some none
  | [x] => if wait then some (some (x, [])) else some none
  | x :: y :: rest => some (some (x, y :: rest))

namespace Pool

/-- No item is free. -/
def empty : Pool := ⟨[], [], fun _ _ => 0, fun _ => 0⟩

/-- `pbuf_get` and then `pbuf_data_get`; without a data area the `pbuf_t` is put back. -/
def get (P : Pool) (wait : Bool) : Option (Option (Nat × Nat × Pool)) :=
  match poolGet wait P.pbufs with
  | none => none
  | some none => some none
  | some (some (x, pbufs)) =>
    match poolGet wait P.datas with
    | none => none
    | some none => some none
    | some (some (y, datas)) => some (some (x, y, { P with pbufs := pbufs, datas := datas }))

/-- `pbuf_data_put` and `pbuf_put`. -/
def put (P : Pool) (s : Segment) : Pool :=
  { P with pbufs := s.pb :: P.pbufs, datas := s.buf :: P.datas }

/-- `pbuf_free`. -/
def free (P : Pool) (c : Packet) : Pool := c.foldl put P

end Pool

namespace Segment

def window (s : Segment) : List Byte := Mem.read s.area s.offset s.buflen

/-- `chunk` bytes leave the front of a head. -/
def dropFront (s : Segment) (chunk : Nat) : Segment :=
  { s with
    offset := s.offset + chunk
    buflen := s.buflen - chunk
    pktlen := (s.pktlen + 65536 - chunk) % 65536 }

def addLen (s : Segment) (n : Nat) : Segment := { s with pktlen := (s.pktlen + n) % 65536 }

end Segment

namespace Packet

open Pbuf (sop eop dataSize)

def content (c : Packet) : List Byte := c.flatMap Segment.window

/-- The sum of `pb_buflen`. -/
def total : Packet → Nat
  | [] => 0
  | s :: c => s.buflen + total c

/-- `pb_pktlen` of the head. -/
def headLen : Packet → Nat
  | [] => 0
  | s :: _ => s.pktlen

/-! ## `pbuf_drop` and `pbuf_read` -/

def dropLoop (freeWhenEmpty : Bool) : Segment → Nat → Packet → Pool → Except Halt (Packet × Pool)
  | s, bytes, [], P =>
    if s.pktlen < bytes then .error (.panic "pbuf_drop: Dropping more than packet contains")
    else
      let s' := s.dropFront (min bytes s.buflen)
      if s'.buflen ≠ 0 then .ok ([s'], P)
      else if freeWhenEmpty then .ok ([], P.put s') else .ok ([s'], P)
  | s, bytes, n :: rest, P =>
    if s.pktlen < bytes then .error (.panic "pbuf_drop: Dropping more than packet contains")
    else
      let s' := s.dropFront (min bytes s.buflen)
      if s'.buflen ≠ 0 then .ok (s' :: n :: rest, P)
      else
        dropLoop freeWhenEmpty
          { n with pktlen := s'.pktlen, flags := n.flags ||| (s'.flags &&& sop) }
          (bytes - min bytes s.buflen) rest (P.put s')

def pbufDrop (c : Packet) (bytes : Nat) (freeWhenEmpty : Bool) (P : Pool) :
    Except Halt (Packet × Pool) :=
  match c with
  | [] => .ok ([], P)
  | s :: rest => dropLoop freeWhenEmpty s bytes rest P

/-- The loop of `pbuf_read`, with the bytes it copies out. Unlike `pbuf_drop` it stops when there
is nothing left to read, and leaves the flags alone. -/
def readLoop : Segment → Nat → Packet → Pool → Except Halt (List Byte × Packet × Pool)
  | s, len, [], P =>
    if len = 0 then .ok ([], [s], P)
    else
      let s' := s.dropFront (min len s.buflen)
      let out := s.window.take (min len s.buflen)
      if s'.buflen ≠ 0 then .ok (out, [s'], P)
      else if len - min len s.buflen = 0 then .ok (out, [], P.put s')
      else .error (.fault "pbuf_read")
  | s, len, n :: rest, P =>
    if len = 0 then .ok ([], s :: n :: rest, P)
    else
      let s' := s.dropFront (min len s.buflen)
      let out := s.window.take (min len s.buflen)
      if s'.buflen ≠ 0 then .ok (out, s' :: n :: rest, P)
      else
        (readLoop { n with pktlen := s'.pktlen } (len - min len s.buflen) rest (P.put s')).map
          fun r => (out ++ r.1, r.2)

def pbufRead (c : Packet) (len : Nat) (P : Pool) : Except Halt (List Byte × Packet × Pool) :=
  match c with
  | [] => .error (.fault "pbuf_read")
  | s :: rest =>
    if s.pktlen < len then .error (.assertion "pbuf_read") else readLoop s len rest P

/-! ## `pbuf_trim` -/

/-- The last segment loses up to `bytes` bytes, and is freed if that leaves it empty behind another
one. Returns what is still to remove. -/
def trimTail (bytes : Nat) : Packet → Pool → Packet × Nat × Pool
  | [], P => ([], bytes, P)
  | [s], P => ([{ s with buflen := s.buflen - min s.buflen bytes }], bytes - min s.buflen bytes, P)
  | [s, t], P =>
    let c := min t.buflen bytes
    if t.buflen - c = 0 then
      ([{ s with flags := s.flags ||| (t.flags &&& eop) }], bytes - c, P.put t)
    else ([s, { t with buflen := t.buflen - c }], bytes - c, P)
  | s :: q :: t :: rest, P =>
    let r := trimTail bytes (q :: t :: rest) P
    (s :: r.1, r.2)

def subLen : Packet → Nat → Packet
  | [], _ => []
  | s :: rest, n => { s with pktlen := (s.pktlen + 65536 - n) % 65536 } :: rest

/-- `pbuf_trim` for at most `fuel` rounds. -/
def pbufTrim : Nat → Packet → Nat → Pool → Option (Packet × Pool)
  | _, c, 0, P => some (c, P)
  | 0, _, _ + 1, _ => none
  | fuel + 1, c, bytes + 1, P =>
    let r := trimTail (bytes + 1) c P
    pbufTrim fuel (subLen r.1 (bytes + 1 - r.2.1)) r.2.1 r.2.2

/-! ## `pbuf_prepend` and `pbuf_append` -/

/-- `pbuf_make`. -/
def pbufMake (offset : Nat) (wait : Bool) (P : Pool) : Option (Option (Segment × Pool)) :=
  match P.get wait with
  | none => none
  | some none => some none
  | some (some (x, y, P')) => some (some (⟨x, y, sop ||| eop, 0, 0, offset, 0, P.stale y⟩, P'))

/-- Without a buffer for the front the packet is freed and `NULL` is returned. -/
def pbufPrepend (c : Packet) (bytes : Nat) (wait : Bool) (extraOffset : Nat) (P : Pool) :
    Option (Packet × Pool) :=
  match c with
  | [] => none
  | s :: rest =>
    if bytes + extraOffset ≤ s.offset then
      some ({ s.addLen bytes with
        offset := s.offset - bytes, buflen := s.buflen + bytes } :: rest, P)
    else
      match pbufMake extraOffset wait P with
      | none => none
      | some none => some ([], P.free (s :: rest))
      | some (some (pre, P')) =>
        some ({ pre with flags := sop, pktlen := (s.pktlen + bytes) % 65536, buflen := bytes } ::
          { s with flags := s.flags &&& ~~~sop, pktlen := 0 } :: rest, P')

def appendLast (bytes : Nat) : Packet → Except Halt Packet
  | [] => .ok []
  | [s] =>
    if s.offset + s.buflen + bytes ≤ dataSize then .ok [{ s with buflen := s.buflen + bytes }]
    else .error (.assertion "pbuf_append")
  | s :: q :: rest => (appendLast bytes (q :: rest)).map (s :: ·)

def pbufAppend (c : Packet) (bytes : Nat) : Except Halt Packet :=
  match c with
  | [] => .error (.fault "pbuf_append")
  | s :: rest => appendLast bytes (s.addLen bytes :: rest)

/-! ## `pbuf_pullup` -/

/-- The loop of `memcpy.S` for 64 bit ARM: 32 bytes are loaded and then stored, while more than 32
are left. -/
def copyBlocks : Nat → (Nat → Byte) → Nat → Nat → Nat → Nat → Byte
  | 0, m, _, _, _ => m
  | fuel + 1, m, d, s, n =>
    if 32 < n then copyBlocks fuel (Mem.write m d (Mem.read m s 32)) (d + 32) (s + 32) (n - 32)
    else m

/-- `memcpy.S` for 64 bit ARM. The last 32 bytes are copied from where they end, and overlap what
was copied before them. -/
def memcpyAarch64 (m : Nat → Byte) (d s n : Nat) : Nat → Byte :=
  if n < 16 then Mem.byteCopy m d s n
  else if n ≤ 32 then
    Mem.write (Mem.write m d (Mem.read m s 16)) (d + n - 16) (Mem.read m (s + n - 16) 16)
  else
    let m := copyBlocks n m d s n
    Mem.write m (d + n - 32) (Mem.read m (s + n - 32) 32)

/-- The loop of `pbuf_pullup`: `bytes` more bytes come from the segments that follow. The second
component is what could not be found. -/
def pullupLoop (s : Segment) : Packet → Nat → Pool → Packet × Nat × Pool
  | rest, 0, P => (s :: rest, 0, P)
  | [], bytes, P => ([s], bytes, P)
  | n :: rest, bytes, P =>
    let c := min bytes n.buflen
    let s' := { s with
      area := Mem.write s.area (s.offset + s.buflen) (Mem.read n.area n.offset c)
      buflen := s.buflen + c }
    if n.buflen - c = 0 then
      pullupLoop
        { s' with
          flags := s'.flags ||| (n.flags &&& eop), credits := (s'.credits + n.credits) % 256 }
        rest (bytes - c) (P.put n)
    else (s' :: { n with buflen := n.buflen - c, offset := n.offset + c } :: rest, bytes - c, P)

/-- The bytes of a segment are moved to the start of its data area. -/
def compact (memcpy : (Nat → Byte) → Nat → Nat → Nat → Nat → Byte) (s : Segment) : Segment :=
  { s with area := memcpy s.area 0 s.offset s.buflen, offset := 0 }

def pbufPullup (memcpy : (Nat → Byte) → Nat → Nat → Nat → Nat → Byte) (c : Packet) (bytes : Nat)
    (P : Pool) : Except Halt (Packet × Nat × Pool) :=
  match c with
  | [] => .error (.fault "pbuf_pullup")
  | s :: rest =>
    if bytes ≤ s.buflen then .ok (s :: rest, 0, P)
    else if dataSize < bytes + s.offset then
      if bytes ≤ dataSize then .ok (pullupLoop (compact memcpy s) rest (bytes - s.buflen) P)
      else .error (.assertion "pbuf_pullup")
    else .ok (pullupLoop s rest (bytes - s.buflen) P)

/-! ## `pbuf_copy_pkt` -/

/-- `pb_credits` is not copied. -/
def copySegment (x y : Nat) (P : Pool) (s : Segment) : Segment :=
  ⟨x, y, s.flags, P.staleCredits x, s.pktlen, s.offset, s.buflen,
    Mem.write (P.stale y) s.offset s.window⟩

/-- The loop of `pbuf_copy_pkt`: `r` is what was copied so far. -/
def copyLoop (wait : Bool) : Packet → Packet → Pool → Option (Packet × Pool)
  | [], r, P => some (r, P)
  | s :: rest, r, P =>
    match P.get wait with
    | none => none
    | some none => some ([], P.free r)
    | some (some (x, y, P')) =>
      if (rest.head?.any fun n => n.flags &&& sop ≠ 0) then some (r ++ [copySegment x y P s], P')
      else copyLoop wait rest (r ++ [copySegment x y P s]) P'

def pbufCopyPkt (src : Packet) (wait : Bool) (P : Pool) : Option (Packet × Pool) :=
  copyLoop wait src [] P

end Packet

end Mios
