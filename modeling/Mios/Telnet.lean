import Mathlib.Data.List.Basic
import Mios.Crc32

/-! The reading side of the telnet service, `net/service/svc_telnet.c`: what is read from the network
is filtered in place, with the state of a command kept from one read to the next. -/

namespace Mios.Telnet

open List

/-- What the two `switch` statements do with a byte: it is kept, in the same state, or cut, with a
new `iac_state`. -/
def cut (iacState c : Byte) : Option Byte :=
  if iacState = 0 then
    if c = 255 then some c else if c = 0 then some 0 else none
  else if iacState = 255 then
    if c = 255 then none else if 240 ≤ c ∧ c ≤ 250 then some 0 else some c
  else some 0

/-- The buffer, `wrptr`, the number of bytes `cut` and `ts->iac_state`. -/
structure Loop where
  b : List Byte
  wrptr : Nat
  cut : Nat
  iacState : Byte

def Loop.byte (k : Loop) (i : Nat) : Loop :=
  match Telnet.cut k.iacState (k.b.getD i 0) with
  | none => { k with b := k.b.set k.wrptr (k.b.getD i 0), wrptr := k.wrptr + 1 }
  | some st => { k with cut := k.cut + 1, iacState := st }

/-- `n` rounds from index `i`. -/
def Loop.run : Nat → Nat → Loop → Loop
  | 0, _, k => k
  | n + 1, i, k => run n (i + 1) (k.byte i)

/-- What the network answers the reads of the socket with: some bytes, or an error. -/
abbrev Net := List (Except Nat (List Byte))

/-- A call: the value that it returns, or nothing while it waits, the bytes in the buffer of the
caller, the state that is kept, and what the network has still to give. -/
structure Call where
  r : Option Int
  buf : List Byte
  iacState : Byte
  net : Net

/-- `telnet_stream_read`. -/
def telnetStreamRead (requested : Nat) (st : Byte) : Net → Call
  | [] => ⟨none, [], st, []⟩
  | .error e :: net => ⟨some (Int.negSucc e), [], st, net⟩
  | .ok bs :: net =>
    let k := Loop.run bs.length 0 ⟨bs, 0, 0, st⟩
    if bs ≠ [] ∧ bs.length - k.cut = 0 ∧ requested ≠ 0 then
      telnetStreamRead requested k.iacState net
    else ⟨some ↑(bs.length - k.cut), k.b.take (bs.length - k.cut), k.iacState, net⟩

/-- One call after the other, each with what it requests, and the rest of the network's answers. -/
def session : List Nat → Byte → Net → List Call × Net
  | [], _, net => ([], net)
  | requested :: calls, st, net =>
    let c := telnetStreamRead requested st net
    let cs := session calls c.iacState c.net
    (c :: cs.1, cs.2)

/-! ## The stream -/

/-- What the decoder takes for data. It stays behind an IAC once that is doubled. -/
def taken : List Byte → List Byte
  | [] => []
  | c :: cs =>
    if c = 255 then
      if cs.headD 0 = 255 then 255 :: taken cs
      else if cs.headD 0 = 0 ∨ 240 ≤ cs.headD 0 ∧ cs.headD 0 ≤ 250 then taken (cs.drop 1)
      else taken (cs.drop 2)
    else if c = 0 then taken cs
    else c :: taken cs
termination_by s => s.length
decreasing_by all_goals simp; try omega

/-- The bytes of the answers. -/
def Net.bytes (net : Net) : List Byte := net.flatMap fun a => a.toOption.getD []

end Mios.Telnet
