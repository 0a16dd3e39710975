import Mathlib.Algebra.GroupWithZero.Nat
import Mios.Lib.Endian
import Mios.Lib.Ring

/-! The event log (`kernel/eventlog.c`): a ring of entries, each with its text and the time since
the entry before it, and the followers that read them. A log call holds the mutex of the log from
its first byte to the new head, and so does a follower for one entry: both are one step here. -/

namespace Mios.EventLog

open Lib

/-- `EVENTLOG_SIZE`. The source counts positions in 16 bits, here they count up for ever. -/
structure LogSize where
  val : Nat
  large : 32 ≤ val
  pow2 : val ∣ 65536
  small : val < 65536

inductive EventLevel where
  | emerg | alert | crit | err | warning | notice | info | debug
deriving DecidableEq, Repr

def EventLevel.toNat : EventLevel → Nat
  | .emerg => 0 | .alert => 1 | .crit => 2 | .err => 3
  | .warning => 4 | .notice => 5 | .info => 6 | .debug => 7

theorem EventLevel.toNat_lt (l : EventLevel) : l.toNat < 8 := by cases l <;> decide

/-- What a caller logged, and when. -/
structure Record where
  level : EventLevel
  text : List Byte
  time : Nat
deriving DecidableEq, Repr

/-- The `log` command of the console, the thread that writes to a file, the log service. -/
inductive FollowerKind where
  | console | file | service
deriving DecidableEq, Repr

/-- `evlog_follower_t` with the time stamp that its owner keeps. An observer knows the number of
the first entry it could see, and the numbers of those it has passed. -/
structure Follower where
  kind : FollowerKind
  ptr : Nat
  drops : Nat
  ts : Nat
  start : Nat
  seen : List Nat
deriving DecidableEq, Repr

/-- The entry at the tail is erased. -/
def Follower.skip (tail len : Nat) (f : Follower) : Follower :=
  if f.ptr = tail then { f with ptr := f.ptr + len, drops := (f.drops + 1) % 65536 } else f

/-- A message that was output: the time attached to it, and that of its entry seen from the tail. -/
structure Shown where
  kind : FollowerKind
  ts : Nat
  time : Nat
deriving DecidableEq, Repr

/-- `evlog_fifo_t`. An observer knows what has been logged and what was output. -/
structure Fifo where
  data : Nat → Byte
  head : Nat
  tail : Nat
  tsHead : Nat
  tsTail : Nat
  seqTail : Nat
  followers : List Follower
  logged : List Record
  shown : List Shown

variable (s : LogSize)

def maxEntrySize : Nat := min (s.val / 4) 192

namespace Fifo

variable (ef : Fifo)

/-! ## Entries -/

def byte (p : Nat) : Byte := ef.data (p % s.val)

def entryLen (p : Nat) : Nat := (ef.byte s p).toNat

def entryLevel (p : Nat) : Nat := (ef.byte s (p + 1)).toNat % 8

def entryTlen (p : Nat) : Nat := (ef.byte s (p + 1)).toNat / 8 % 8

def evfifoReadDeltaTs (p : Nat) : Nat :=
  number (Ring.read ef.data 0 s.val (p + ef.entryLen s p - ef.entryTlen s p)
    (ef.entryTlen s p)).reverse

/-- The text of an entry, copied in two parts if it goes around the end of the ring. -/
def entryText (p : Nat) : List Byte :=
  let msglen := ef.entryLen s p - 2 - ef.entryTlen s p
  let msgstart := (p + 2) % s.val
  let msgend := (msgstart + msglen) % s.val
  if msgstart ≤ msgend then Mem.read ef.data msgstart msglen
  else Mem.read ef.data msgstart (s.val - msgstart) ++ Mem.read ef.data 0 msgend

/-- The entries from a position on. -/
def walk : Nat → Nat → List Nat
  | 0, _ => []
  | fuel + 1, p => if p = ef.head then [] else p :: walk fuel (p + ef.entryLen s p)

/-- The positions of the retained entries. -/
def retained : List Nat := ef.walk s (ef.head - ef.tail) ef.tail

/-- The number of an entry, counted from the first one ever logged. -/
def number (p : Nat) : Nat := ef.seqTail + ((ef.retained s).filter (· < p)).length

/-- The time of an entry, seen from the tail. -/
def timeOf (p : Nat) : Nat :=
  ef.tsTail + (((ef.retained s).filter (· < p)).map (ef.evfifoReadDeltaTs s)).sum +
    ef.evfifoReadDeltaTs s p

/-! ## Logging -/

def evlEraseTail : Fifo :=
  if ef.head = ef.tail then ef
  else
    let len := ef.entryLen s ef.tail
    { ef with
      tsTail := ef.tsTail + ef.evfifoReadDeltaTs s ef.tail
      seqTail := ef.seqTail + 1
      followers := ef.followers.map (Follower.skip ef.tail len)
      tail := ef.tail + len }

def ensureLoop (size : Nat) : Nat → Fifo → Fifo
  | 0, ef => ef
  | fuel + 1, ef =>
    if s.val - (ef.head - ef.tail) < size then ensureLoop size fuel (ef.evlEraseTail s) else ef

/-- Each round erases at least one byte. -/
def evlEnsure (size : Nat) : Fifo := ensureLoop s size (ef.head - ef.tail) ef

def evlFmtCb (str : List Byte) : Fifo :=
  let curlen := ef.entryLen s ef.head
  let toCopy := min str.length (maxEntrySize s - curlen)
  let ef := ef.evlEnsure s (curlen + toCopy)
  let data := Ring.write ef.data 0 s.val (ef.head + curlen) (str.take toCopy)
  { ef with data := Ring.write data 0 s.val ef.head [BitVec.ofNat 8 (curlen + toCopy)] }

def evlogMsgDone (level : EventLevel) (now : Nat) : Fifo :=
  let msgLen := ef.entryLen s ef.head
  let stamp := varBytes (now - ef.tsHead)
  let ef := ef.evlEnsure s (msgLen + stamp.length)
  let data := Ring.write ef.data 0 s.val (ef.head + msgLen) stamp
  let data := Ring.write data 0 s.val ef.head [BitVec.ofNat 8 (msgLen + stamp.length)]
  { ef with
    tsHead := now
    data := Ring.write data 0 s.val (ef.head + 1)
      [BitVec.ofNat 8 (level.toNat ||| stamp.length <<< 3)]
    head := ef.head + (msgLen + stamp.length) }

/-- An empty log starts its time anew. -/
def evlogStart (now : Nat) : Fifo :=
  if ef.head = ef.tail then { ef with tsTail := now, tsHead := now } else ef

/-- The common first part of `evlog` and `evlog_stream_begin`. -/
def evlogBegin (now : Nat) : Fifo :=
  let ef := (ef.evlEnsure s 2).evlogStart now
  { ef with data := Ring.write ef.data 0 s.val ef.head [2] }

/-- `evlog`, where both times are the same, or all from `evlog_stream_begin` to
`evlog_stream_end`. The text comes in pieces. -/
def evlog (level : EventLevel) (begun now : Nat) (chunks : List (List Byte)) : Fifo :=
  let ef := chunks.foldl (evlFmtCb s) (ef.evlogBegin s begun)
  { ef.evlogMsgDone s level now with logged := ef.logged ++ [⟨level, chunks.flatten, now⟩] }

/-! ## Followers -/

/-- The drop count of a console follower is not initialised. -/
def follower (kind : FollowerKind) (drops : Nat) : Follower :=
  ⟨kind, ef.tail, if kind = .console then drops % 65536 else 0,
    if kind = .service then 0 else ef.tsTail, ef.seqTail, []⟩

/-- The time a follower attaches to the entry at its pointer. -/
def stamp (f : Follower) : Nat :=
  (if f.kind = .service ∧ f.ptr = ef.tail then ef.tsTail else f.ts) +
    ef.evfifoReadDeltaTs s f.ptr

def passed (f : Follower) : Follower :=
  { f with ptr := f.ptr + ef.entryLen s f.ptr, seen := f.seen ++ [ef.number s f.ptr] }

/-- One round of a follower; `ok` says whether there is memory for the message. -/
def follow (f : Follower) (ok : Bool) : Follower × List Shown :=
  if f.ptr = ef.head then (f, [])
  else if f.kind = .file ∧ ef.entryLevel s f.ptr = EventLevel.debug.toNat then (ef.passed s f, [])
  else if f.kind = .file ∨ ok then
    ({ ef.passed s f with ts := ef.stamp s f },
      [⟨f.kind, ef.stamp s f, ef.timeOf s f.ptr⟩])
  else (f, [])

end Fifo

inductive Event where
  | log (level : EventLevel) (begun now : Nat) (chunks : List (List Byte))
  | register (kind : FollowerKind) (drops : Nat)
  | follow (i : Nat) (ok : Bool)
  | remove (i : Nat)

def step (ef : Fifo) : Event → Fifo
  | .log level begun now chunks => ef.evlog s level begun now chunks
  | .register kind drops => { ef with followers := ef.follower kind drops :: ef.followers }
  | .follow i ok =>
    match ef.followers[i]? with
    | none => ef
    | some f =>
      { ef with
        followers := ef.followers.set i (ef.follow s f ok).1
        shown := ef.shown ++ (ef.follow s f ok).2 }
  | .remove i => { ef with followers := ef.followers.eraseIdx i }

def initial : Fifo := ⟨fun _ => 0, 0, 0, 0, 0, 0, [], [], []⟩

end Mios.EventLog
