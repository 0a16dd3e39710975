import Mios.Lib.Dll

/-! The allocator of `libc/heap_simple.c`. Block headers live in memory; the payload of a
block is memory like any other, so a header that was written there may hold anything.
Addresses are numbers, and no sum of an address and a size wraps around; `Malloc/Word` has the
words the code computes with. The walk over the blocks follows the `next` links as they are,
for at most `fuel` rounds. -/

namespace Mios.Malloc

open Lib.Dll

/-! ## Targets -/

/-- What the allocator depends on: the width of a pointer, and where the memory behind the
data segment starts (`_ebss`). -/
structure Target where
  lp64 : Bool
  ebssStart : Nat

/-- `sizeof(heap_block_t)` -/
def Target.blockSize (t : Target) : Nat := if t.lp64 then 16 else 8

/-- `sizeof(heap_header_t)` -/
def Target.headerSize (t : Target) : Nat := if t.lp64 then 32 else 16

/-- `HEAP_START_EBSS` -/
def Target.heapStartEbss (t : Target) : Nat := if t.lp64 then 2 ^ 64 - 1 else 2 ^ 32 - 1

/-- `ALIGN` -/
def align (a b : Nat) : Nat := (a + b - 1) / b * b

def memMayFail : Nat := 0x80000000
def memClear : Nat := 0x40000000

/-! ## State -/

structure HeapHeader where
  blocks : Nat
  type : Nat
  prio : Nat
  deriving DecidableEq

structure Heap where
  mem : Mem Bool
  heaps : List HeapHeader

/-- A failed assertion, the panic of `malloc0`, or a walk that does not end in the rounds it
was given. -/
inductive Halt where
  | assertion
  | outOfMemory
  | outOfFuel
  deriving DecidableEq, Repr

variable (t : Target)

/-! ## Memory regions -/

/-- `LIST_INSERT_SORTED` with `heap_cmp`: before the first heap of the same or a higher number. -/
def insertSorted (hh : HeapHeader) : List HeapHeader → List HeapHeader
  | [] => [hh]
  | x :: xs => if hh.prio ≤ x.prio then hh :: x :: xs else x :: insertSorted hh xs

/-- The first block of a region, and its sentinel. -/
def Target.firstBlock (start : Nat) : Nat := align (start + t.headerSize) t.blockSize

def Target.sentinel (stop : Nat) : Nat := align (stop - t.blockSize) t.blockSize

/-- The start that is meant. -/
def Target.regionStart (start : Nat) : Nat := if start = t.heapStartEbss then t.ebssStart else start

def heapAddMem (h : Heap) (start stop type prio : Nat) : Heap :=
  let hb := t.firstBlock (t.regionStart start)
  let sentinel := t.sentinel stop
  let mem := (h.mem.set hb ⟨sentinel, 0, true⟩).set sentinel ⟨0, hb, false⟩
  ⟨mem, insertSorted ⟨hb, type, prio⟩ h.heaps⟩

/-! ## Allocation -/

/-- Pad before the memory block: the free block at `hb` stays as the part in front, and the
block goes on from a header right before the aligned address, whose `free` bit is not
written yet. -/
def splitGap (m : Mem Bool) (hb aligned : Nat) : Mem Bool × Nat :=
  let n := (m hb).next
  let p := (m hb).prev
  let split := hb
  let hb := aligned - t.blockSize
  let m := m.setTag split true
  let m := if p ≠ 0 then m.setNext p split else m
  let m := (m.setPrev split p).setNext split hb
  let m := (m.setPrev hb split).setNext hb n
  (m.setPrev n hb, hb)

/-- What is left behind the block becomes a free block, if it is more than a header. -/
def splitTail (m : Mem Bool) (hb stop : Nat) : Mem Bool :=
  let n := (m hb).next
  if n - stop > t.blockSize then
    let split := stop
    let m := (m.setTag split true).setNext hb split
    let m := (m.setNext split n).setPrev split hb
    m.setPrev n split
  else m

/-- Take the memory from `aligned` up to `stop` out of the free block at `hb`. -/
def carve (m : Mem Bool) (hb aligned stop : Nat) : Except Halt (Mem Bool) :=
  let alignGap := aligned - (hb + t.blockSize)
  if alignGap ≠ 0 ∧ alignGap < t.blockSize then .error .assertion
  else
    let (m, hb) := if alignGap ≠ 0 then splitGap t m hb aligned else (m, hb)
    .ok (splitTail t (m.setTag hb false) hb stop)

/-- The loop of `heap_alloc` from the block at `hb`; size and alignment are rounded. -/
def allocFrom : Nat → Mem Bool → Nat → Nat → Nat → Except Halt (Mem Bool × Option Nat)
  | 0, _, _, _, _ => .error .outOfFuel
  | fuel + 1, m, hb, size, al =>
      if (m hb).next = 0 then .ok (m, none)
      else if !(m hb).tag then allocFrom fuel m (m hb).next size al
      else
        let aligned := align (hb + t.blockSize) al
        if aligned + size > (m hb).next then allocFrom fuel m (m hb).next size al
        else (carve t m hb aligned (aligned + size)).map fun m => (m, some aligned)

def heapAlloc (fuel : Nat) (m : Mem Bool) (hb size al : Nat) : Except Halt (Mem Bool × Option Nat) :=
  let al := if al < t.blockSize then t.blockSize else al
  allocFrom t fuel m hb (align size t.blockSize) al

/-- `heap_type && ((type & hh->type) != heap_type)` skips a heap. -/
def skipped (type : Nat) (hh : HeapHeader) : Bool :=
  type &&& 0xffff != 0 && type &&& hh.type != type &&& 0xffff

/-- `memset(x, 0, size)`, for the headers in that memory. -/
def clear (m : Mem Bool) (x size : Nat) : Mem Bool :=
  fun a => if x ≤ a ∧ a < x + size then ⟨0, 0, false⟩ else m a

/-- The loop of `malloc0` over the heaps. -/
def mallocLoop (fuel : Nat) (m : Mem Bool) (size al type : Nat) :
    List HeapHeader → Except Halt (Mem Bool × Option Nat)
  | [] => if type &&& memMayFail = 0 then .error .outOfMemory else .ok (m, none)
  | hh :: rest =>
      if hh.blocks = 0 ∨ skipped type hh then mallocLoop fuel m size al type rest
      else
        match heapAlloc t fuel m hh.blocks size al with
        | .error e => .error e
        | .ok (m, none) => mallocLoop fuel m size al type rest
        | .ok (m, some x) =>
            .ok (if type &&& memClear ≠ 0 then clear m x size else m, some x)

def malloc0 (fuel : Nat) (h : Heap) (size al type : Nat) : Except Halt (Heap × Option Nat) :=
  (mallocLoop t fuel h.mem size al type h.heaps).map fun r => (⟨r.1, h.heaps⟩, r.2)

/-! ## Release -/

def heapMergeNext (m : Mem Bool) (hb : Nat) : Except Halt (Mem Bool) :=
  let next := (m hb).next
  if !(m next).tag then .ok m
  else if next ≤ hb then .error .assertion
  else
    let m := m.setNext hb (m next).next
    .ok (m.setPrev (m next).next hb)

def heapFree (m : Mem Bool) (ptr : Nat) : Except Halt (Mem Bool) :=
  if ptr = 0 then .ok m
  else
    let hb := ptr - t.blockSize
    if (m hb).tag then .error .assertion
    else
      match heapMergeNext (m.setTag hb true) hb with
      | .error e => .error e
      | .ok m =>
          let p := (m hb).prev
          if p ≠ 0 ∧ (m p).tag then
            if hb ≤ p then .error .assertion else heapMergeNext m p
          else .ok m

end Mios.Malloc
