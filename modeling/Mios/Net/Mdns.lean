import Mathlib.Data.List.Infix
import Mios.Lib.Endian
import Mios.Pbuf.Access

/-! The comparison of a DNS name with given labels, `dns_is_name` of `net/ipv4/mdns.c`. Behind a
pointer, labels beyond the given ones go unnoticed; labels and pointers that cross the end of a
segment are misread. -/

namespace Mios.Net.Mdns

open Lib List Packet

abbrev Label := List Byte

/-! ## The code -/

/-- Where a pointer leads, if two bytes are read at `offset`. -/
def target (read : Nat → Nat → Option (List Byte)) (offset : Nat) : Option Nat :=
  (read offset 2).map (number · % 0x4000)

section

variable (pb : List Byte) (read : Nat → Nat → Option (List Byte))

/-- The labels up to the end of the name or to a pointer, as `read` finds them, and where they
stop. -/
def labelsAt (offset : Nat) : Option (List (Option Label) × Nat × Bool) :=
  if h : offset < pb.length then
    let len := pb[offset].toNat
    if 0xc0 ≤ len then some ([], offset, true)
    else if 0x40 ≤ len then none
    else if len = 0 then some ([], offset + 1, false)
    else (labelsAt (offset + 1 + len)).map (Prod.map (read (offset + 1) len :: ·) id)
  else none
termination_by pb.length - offset

/-- The labels that the pointer at `offset` leads to; each pointer leads back, to before the labels
that it follows. -/
def expand (start offset : Nat) : Option (List (Option Label)) :=
  match target read offset with
  | none => none
  | some place =>
    if place < start then
      match labelsAt pb read place with
      | none => none
      | some (labels, _, false) => some labels
      | some (labels, stop, true) => (expand place stop).map (labels ++ ·)
    else none
termination_by start

/-- All labels of the name at `offset` and the length of its encoding there. -/
def nameAt (offset : Nat) : Option (List (Option Label) × Nat) :=
  match labelsAt pb read offset with
  | none => none
  | some (labels, stop, false) => some (labels, stop - offset)
  | some (labels, stop, true) =>
    (expand pb read stop stop).map fun more => (labels ++ more, stop + 2 - offset)

/-- Whether the name is well formed, how long its encoding is and whether it is the given one. -/
def answer (offset : Nat) (names : List Label) : Option (Nat × Bool) :=
  (nameAt pb read offset).map fun name => (name.2, decide (name.1 = names.map some))

end

variable {c : Packet} {names : List Label} {labels more : List (Option Label)}

end Mios.Net.Mdns
