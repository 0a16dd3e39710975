import Mios.Net.Options

/-! Which frames stop the network thread: TCP segments for us whose IPv4 header counts fewer bytes
than it has itself, those that open a connection with an option of length 0, and no others. -/

namespace Mios.Net

open Lib Packet List
open Pbuf (sop eop dataSize)

variable {s : Segment} {rest c : Packet} {P : Pool} {env : Env} {ni : Netif} {i : Nat}

/-! ## Headers -/

/-- A 16 bit field of a packet. -/
def field (l : List Byte) (i : Nat) : Nat := (l.getD i 0).toNat * 256 + (l.getD (i + 1) 0).toNat

/-- The hardware has verified the checksums in the segment that holds byte `i`. -/
def Verified : Packet → Nat → Prop
  | [], _ => False
  | s :: rest, i => if i < s.buflen then s.flags &&& cksumOk ≠ 0 else Verified rest (i - s.buflen)

section

variable (hm : Copies env.memcpy)
include hm

section

variable (h : Sized (s :: rest))
include h

end

end

/-- A frame as the drivers deliver it, with or without a timestamp in front. -/
def Delivered : Packet → Prop
  | [] => False
  | t :: rest =>
    if t.flags &&& timestamp = 0 then Sized (t :: rest)
    else hasCallback t ∨ rest ≠ [] ∧ Sized rest

/-- The frame without its timestamp. -/
def frame : Packet → Packet
  | [] => []
  | t :: rest => if t.flags &&& timestamp = 0 then t :: rest else rest

/-- It is not the timestamp of a transmitted frame. -/
def Received (c : Packet) : Prop := ∀ t ∈ c.head?, t.flags &&& timestamp = 0 ∨ ¬ hasCallback t

end Mios.Net
