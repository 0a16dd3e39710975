import Mathlib.Algebra.Order.Group.Nat
import Mios.Pbuf.ChainSound

/-! From `ether_input` to the protocols: `net/ether.c`, `ipv4_input` with its ICMP, IGMP and UDP
branches, and what `tcp_input_ipv4` does to a packet. What TCP decides about a segment, and which
neighbours are known, is given by the environment, which may answer anything. -/

namespace Mios.Net

open Lib Packet
open Pbuf (sop eop)

/-- What `tcp_input_ipv4` does with a segment whose header is complete. A packet that is kept is
used for the next segment to send. -/
inductive TcpAction where
  | ignore
  | reply
  | accept (opened : Bool)
  | payload (kept : Bool)
  deriving DecidableEq, Repr

/-- `localAddr` is `ni_ipv4_local_addr` in network order. -/
structure Netif where
  addr : List Byte
  localAddr : List Byte
  udpPorts : List Nat

structure Env where
  memcpy : (Nat → Byte) → Nat → Nat → Nat → Nat → Byte
  tcp : List Byte → Nat → TcpAction

/-- Who has the packet afterwards: the caller, the output functions or a protocol. -/
inductive Done where
  | back (c : Packet)
  | output (c : Packet)
  | udp (port : Nat) (c : Packet)
  | igmp (c : Packet)
  | arp (c : Packet)

def cksumOk : BitVec 8 := 4
def timestamp : BitVec 8 := 0x40

/-- The byte at `pbuf_data(pb, i)`. -/
def byteAt (s : Segment) (i : Nat) : Byte := s.area (s.offset + i)

def bytesAt (s : Segment) (i n : Nat) : List Byte := Mem.read s.area (s.offset + i) n

/-! ## Checksums -/

def ipv4CksumAdd (sum : Nat) : List Byte → Nat
  | [] => sum
  | [a] => (sum + a.toNat) % 2 ^ 32
  | a :: b :: rest => ipv4CksumAdd ((sum + a.toNat + 256 * b.toNat) % 2 ^ 32) rest

/-- Two rounds are enough for 32 bits. -/
def ipv4CksumFold (sum : Nat) : Nat :=
  let once := sum / 65536 + sum % 65536
  once / 65536 + once % 65536

def cksumSum (sum : Nat) : Packet → Nat → Nat → Nat
  | [], _, _ => sum
  | s :: rest, offset, length =>
    if length = 0 then sum
    else if s.buflen < offset then cksumSum sum rest (offset - s.buflen) length
    else
      let clen := min length (s.buflen - offset)
      cksumSum (ipv4CksumAdd sum (bytesAt s offset clen)) rest 0 (length - clen)

def ipv4CksumPbuf (sum : Nat) (c : Packet) (offset length : Nat) : Nat :=
  65535 - ipv4CksumFold (cksumSum sum c offset length)

/-! ## TCP -/

/-- `pbuf_reset`. -/
def pbufReset (c : Packet) (headerSize len : Nat) (P : Pool) : Except Halt (Packet × Pool) :=
  match c with
  | [] => .error (.fault "pbuf_reset")
  | s :: rest =>
    if s.buflen < len then .error (.assertion "pbuf_reset")
    else
      .ok ([{ s with
        flags := sop ||| eop, credits := 0, offset := headerSize, buflen := len, pktlen := len }],
        P.free rest)

structure TcpOptions where
  mss : Option Nat
  wndShift : Option Nat
  deriving DecidableEq, Repr

/-- One option at `a`: `buf[2]` and `buf[3]` are read whatever the length of the option is. -/
def parseOption (m : Nat → Byte) (a optlen : Nat) (o : TcpOptions) : TcpOptions :=
  if m a = 2 then { o with mss := some ((m (a + 2)).toNat * 256 + (m (a + 3)).toNat) }
  else if m a = 3 ∧ optlen = 3 then { o with wndShift := some (min (m (a + 2)).toNat 14) }
  else o

/-- `tcp_parse_options` for at most `fuel` rounds. -/
def tcpParseOptions (m : Nat → Byte) : Nat → Nat → Nat → TcpOptions → Option TcpOptions
  | _, _, 0, o => some o
  | 0, _, _ + 1, _ => none
  | fuel + 1, a, len + 1, o =>
    if m a = 0 then some o
    else if m a = 1 then tcpParseOptions m fuel (a + 1) len o
    else if len + 1 < 2 then some o
    else
      let optlen := (m (a + 1)).toNat
      if len + 1 < optlen then some o
      else tcpParseOptions m fuel (a + optlen) (len + 1 - optlen) (parseOption m a optlen o)

/-- `TCP_PBUF_HEADROOM`. -/
def tcpHeadroom : Nat := 56

/-- `tcp_reply`. -/
def tcpReply (c : Packet) (P : Pool) : Except Halt (Done × Pool) :=
  match c with
  | [] => .error (.fault "tcp_reply")
  | s :: _ => (pbufReset c s.offset 20 P).map fun r => (.output r.1, r.2)

/-- The packet is recycled by `tcp_emit`. -/
def tcpEmit (c : Packet) (P : Pool) : Except Halt (Done × Pool) :=
  (pbufReset c tcpHeadroom 0 P).map fun r => (.output r.1, r.2)

/-- A connection is accepted; the options are read if the whole header can be gathered. -/
def tcpAccept (env : Env) (c : Packet) (hdrLen : Nat) (opened : Bool) (P : Pool) :
    Except Halt (Done × Pool) :=
  (pbufPullup env.memcpy c hdrLen P).bind fun r =>
    match r.1 with
    | [] => .error (.fault "tcp_input_ipv4")
    | s :: _ =>
      if r.2.1 = 0 ∧
          tcpParseOptions s.area (hdrLen - 20) (s.offset + 20) (hdrLen - 20) ⟨none, none⟩ = none then
        .error (.hang "tcp_parse_options")
      else if opened then tcpEmit r.1 r.2.2
      else tcpReply r.1 r.2.2

/-- A segment with a complete header. -/
def tcpSegment (env : Env) (s : Segment) (rest : Packet) (hdrLen : Nat) (P : Pool) :
    Except Halt (Done × Pool) :=
  match env.tcp (bytesAt s 0 20) s.pktlen with
  | .ignore => .ok (.back (s :: rest), P)
  | .reply => tcpReply (s :: rest) P
  | .accept opened => tcpAccept env (s :: rest) hdrLen opened P
  | .payload kept =>
    (pbufDrop (s :: rest) hdrLen false P).bind fun r =>
      if kept then tcpEmit r.1 r.2 else .ok (.back r.1, r.2)

def tcpInputIpv4 (ni : Netif) (env : Env) (c : Packet) (tcpOffset : Nat) (P : Pool) :
    Except Halt (Done × Pool) :=
  match c with
  | [] => .error (.fault "tcp_input_ipv4")
  | ip :: rest =>
    if bytesAt ip 16 4 ≠ ni.localAddr then .ok (.back (ip :: rest), P)
    else
      (pbufDrop (ip :: rest) tcpOffset false P).bind fun r =>
        (pbufPullup env.memcpy r.1 20 r.2).bind fun r =>
          if r.2.1 ≠ 0 then .ok (.back r.1, r.2.2)
          else
            match r.1 with
            | [] => .error (.fault "tcp_input_ipv4")
            | s :: rest =>
              let hdrLen := (byteAt s 12).toNat / 16 * 4
              if s.pktlen < hdrLen ∨ hdrLen < 20 then .ok (.back (s :: rest), r.2.2)
              else tcpSegment env s rest hdrLen r.2.2

/-! ## ICMP, IGMP and UDP -/

/-- `pt_cb` of a `pbuf_timestamp_t` is not null. -/
def hasCallback (s : Segment) : Prop := Mem.read s.area 0 4 ≠ [0, 0, 0, 0]

instance (s : Segment) : Decidable (hasCallback s) := inferInstanceAs (Decidable (_ ≠ _))

end Mios.Net
