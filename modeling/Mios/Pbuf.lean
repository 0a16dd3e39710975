import Mios.Crc32

/-! Packet buffers (`net/pbuf.c`). A packet is a chain of buffers linked by
`pb_next`; a chain is modelled as the list of its buffers, `NULL` as the empty
list. Of the data area of a buffer the model keeps the `pb_buflen` bytes at
`pb_offset`. Lengths are `uint16_t`, so the packet length of the head wraps. -/

namespace Mios

/-- How a program can stop: `panic()` or `abort()`, a failing `assert()`, a loop that
does not terminate, or an access outside its object. -/
inductive Halt where
  | panic (what : String)
  | assertion (what : String)
  | hang (what : String)
  | fault (what : String)
  deriving DecidableEq, Repr

namespace Pbuf

/-- `PBUF_DATA_SIZE` -/
def dataSize : Nat := 512

def sop : BitVec 8 := 1
def eop : BitVec 8 := 2

end Pbuf

structure Pbuf where
  flags : BitVec 8
  credits : Nat
  pktlen : Nat
  offset : Nat
  data : List Byte
  deriving DecidableEq, Repr, Inhabited

namespace Pbuf

abbrev Chain := List Pbuf

def buflen (p : Pbuf) : Nat := p.data.length

/-- The bytes of a packet, buffer by buffer. -/
def content (c : Chain) : List Byte := c.flatMap data

/-- `pb_pktlen` of the head. -/
def headLen : Chain → Nat
  | [] => 0
  | p :: _ => p.pktlen

@[simp] theorem content_nil : content [] = [] := rfl
@[simp] theorem content_cons (p : Pbuf) (c : Chain) : content (p :: c) = p.data ++ content c := rfl
@[simp] theorem headLen_cons (p : Pbuf) (c : Chain) : headLen (p :: c) = p.pktlen := rfl

/-- A buffer as `pbuf_make(offset, 0)` returns it when the pool is not empty. -/
def pbufMake (offset : Nat) : Pbuf := ⟨sop ||| eop, 0, 0, offset, []⟩

/-- `pbuf_reset(pb, header_size, 0)`: the head becomes an empty packet of its own. -/
def pbufReset (headerSize : Nat) : Pbuf := ⟨sop ||| eop, 0, 0, headerSize, []⟩

def addLen (p : Pbuf) (n : Nat) : Pbuf := { p with pktlen := (p.pktlen + n) % 65536 }

/-- `pbuf_append` followed by the caller's stores into the returned room, which is at
the end of the last buffer. -/
def appendLast (bytes : List Byte) : Chain → Except Halt Chain
  | [] => .ok []
  | [p] =>
      if p.offset + p.buflen + bytes.length ≤ dataSize then .ok [{ p with data := p.data ++ bytes }]
      else .error (.assertion "pbuf_append")
  | p :: q :: rest => (appendLast bytes (q :: rest)).map (p :: ·)

def pbufAppend (c : Chain) (bytes : List Byte) : Except Halt Chain :=
  match c with
  | [] => .ok []
  | p :: rest => appendLast bytes (p.addLen bytes.length :: rest)

/-- The loop of `pbuf_pullup`: move `bytes` more bytes from the following buffers into
the head. The second component is what could not be found. -/
def pullupLoop (p : Pbuf) : Chain → Nat → Chain × Nat
  | rest, 0 => (p :: rest, 0)
  | [], bytes => ([p], bytes)
  | n :: rest, bytes =>
      let toCopy := min bytes n.buflen
      let p' := { p with data := p.data ++ n.data.take toCopy }
      if n.buflen - toCopy = 0 then
        pullupLoop
          { p' with
            flags := p'.flags ||| (n.flags &&& eop), credits := (p'.credits + n.credits) % 256 }
          rest (bytes - toCopy)
      else
        (p' :: { n with data := n.data.drop toCopy, offset := n.offset + toCopy } :: rest,
          bytes - toCopy)

def pbufPullup (c : Chain) (bytes : Nat) : Except Halt (Chain × Nat) :=
  match c with
  | [] => .ok ([], bytes)
  | p :: rest =>
      if bytes ≤ p.buflen then .ok (c, 0)
      else if dataSize < bytes + p.offset then
        if bytes ≤ dataSize then .ok (pullupLoop { p with offset := 0 } rest (bytes - p.buflen))
        else .error (.assertion "pbuf_pullup")
      else .ok (pullupLoop p rest (bytes - p.buflen))

/-- `chunk = MIN(bytes, pb->pb_buflen)` bytes leave the front of a head. -/
def dropFront (p : Pbuf) (chunk : Nat) : Pbuf :=
  { p with offset := p.offset + chunk, data := p.data.drop chunk, pktlen := p.pktlen - chunk }

/-- The loop of `pbuf_drop`: `p` is the head, the list holds the buffers behind it. -/
def dropLoop (freeWhenEmpty : Bool) : Pbuf → Nat → Chain → Except Halt Chain
  | p, bytes, [] =>
      if p.pktlen < bytes then
        .error (.panic "pbuf_drop: Dropping more than packet contains")
      else
        let p' := p.dropFront (min bytes p.buflen)
        if p'.buflen ≠ 0 then .ok [p']
        else if freeWhenEmpty then .ok [] else .ok [p']
  | p, bytes, n :: rest =>
      if p.pktlen < bytes then
        .error (.panic "pbuf_drop: Dropping more than packet contains")
      else
        let p' := p.dropFront (min bytes p.buflen)
        if p'.buflen ≠ 0 then .ok (p' :: n :: rest)
        else
          dropLoop freeWhenEmpty
            { n with pktlen := p'.pktlen, flags := n.flags ||| (p'.flags &&& sop) }
            (bytes - min bytes p.buflen) rest

def pbufDrop (c : Chain) (bytes : Nat) (freeWhenEmpty : Bool) : Except Halt Chain :=
  match c with
  | [] => .ok []
  | p :: rest => dropLoop freeWhenEmpty p bytes rest

/-- The loop of `pbuf_read`, without the bytes it copies. -/
def readLoop : Pbuf → Nat → Chain → Except Halt Chain
  | p, 0, rest => .ok (p :: rest)
  | p, len, [] =>
      let p' := p.dropFront (min len p.buflen)
      if p'.buflen ≠ 0 then .ok [p']
      else if len - min len p.buflen = 0 then .ok [] else .error (.fault "pbuf_read")
  | p, len, n :: rest =>
      let p' := p.dropFront (min len p.buflen)
      if p'.buflen ≠ 0 then .ok (p' :: n :: rest)
      else readLoop { n with pktlen := p'.pktlen } (len - min len p.buflen) rest

def pbufRead (c : Chain) (len : Nat) : Except Halt Chain :=
  match c with
  | [] => .error (.fault "pbuf_read")
  | p :: rest =>
      if p.pktlen < len then .error (.assertion "pbuf_read") else readLoop p len rest

/-- One round of `pbuf_trim`: take what the last buffer has and unlink it when it got
empty and is not the head. Returns the bytes still to remove. -/
def trimTail (bytes : Nat) : Chain → Chain × Nat
  | [] => ([], bytes)
  | [p] =>
      let c := min p.buflen bytes
      ([{ p with data := p.data.take (p.buflen - c) }], bytes - c)
  | [p, t] =>
      let c := min t.buflen bytes
      if t.buflen - c = 0 then ([{ p with flags := p.flags ||| (t.flags &&& eop) }], bytes - c)
      else ([p, { t with data := t.data.take (t.buflen - c) }], bytes - c)
  | p :: q :: t :: rest =>
      let (rest', b) := trimTail bytes (q :: t :: rest)
      (p :: rest', b)

/-- The head's packet length after `c` bytes left the tail (`uint16_t`). -/
def subLen : Chain → Nat → Chain
  | [], _ => []
  | p :: rest, n => { p with pktlen := (p.pktlen + 65536 - n) % 65536 } :: rest

/-- `pbuf_trim` run for at most `fuel` rounds; `none` when it has not returned by then. -/
def pbufTrim : Nat → Chain → Nat → Option Chain
  | _, c, 0 => some c
  | 0, _, _ => none
  | fuel + 1, c, bytes =>
      let (c', b) := trimTail bytes c
      pbufTrim fuel (subLen c' (bytes - b)) b

/-- Split a queue behind the first buffer that ends a packet. -/
def spliceAt : List Pbuf → Option (Chain × List Pbuf)
  | [] => none
  | p :: rest =>
      if p.flags &&& eop ≠ 0 then some ([p], rest)
      else (spliceAt rest).map fun (c, r) => (p :: c, r)

/-- Take the first packet off a queue. A queue without an end mark is returned as it
stands and left in place. -/
def pbufSplice (q : List Pbuf) : Chain × List Pbuf := (spliceAt q).getD (q, q)

/-! ## Well-formed chains -/

/-- The head's packet length is the number of bytes in the chain, and each buffer's
bytes lie in its data area. -/
structure Sized (c : Chain) : Prop where
  len : headLen c = (content c).length
  area : ∀ p ∈ c, p.offset + p.buflen ≤ dataSize

@[simp] theorem sized_cons (p : Pbuf) (c : Chain) :
    Sized (p :: c) ↔ p.pktlen = p.data.length + (content c).length ∧
      p.offset + p.buflen ≤ dataSize ∧ ∀ n ∈ c, n.offset + n.buflen ≤ dataSize := by
  constructor
  · rintro ⟨hlen, harea⟩
    exact ⟨by simpa using hlen, harea p (by simp), fun n hn => harea n (by simp [hn])⟩
  rintro ⟨hlen, hp, hc⟩
  refine ⟨by simpa using hlen, ?_⟩
  exact List.forall_mem_cons.mpr ⟨hp, fun n hn => hc n hn⟩

/-- Free bytes at the end of the last buffer. -/
def room : Chain → Nat
  | [] => 0
  | [p] => dataSize - (p.offset + p.buflen)
  | _ :: q :: rest => room (q :: rest)

theorem appendLast_spec (c : Chain) (bytes : List Byte) (hne : c ≠ [])
    (harea : ∀ n ∈ c, n.offset + n.buflen ≤ dataSize) (hroom : bytes.length ≤ room c) :
    ∃ c', appendLast bytes c = .ok c' ∧ content c' = content c ++ bytes ∧
      headLen c' = headLen c ∧ ∀ n ∈ c', n.offset + n.buflen ≤ dataSize := by
  induction c with
  | nil => exact absurd rfl hne
  | cons p rest ih =>
    cases rest with
    | nil =>
      have hp := harea p (by simp)
      simp only [room] at hroom
      refine ⟨_, if_pos (by omega), by simp, rfl, ?_⟩
      intro n hn
      simp only [List.mem_singleton] at hn
      subst hn
      simp [buflen] at hp hroom ⊢
      omega
    | cons q rest =>
      obtain ⟨c', hc, hcont, _, ha⟩ := ih (by simp) (fun n hn => harea n (by simp [hn])) hroom
      refine ⟨p :: c', by simp [appendLast, hc, Except.map], ?_, rfl, ?_⟩
      · rw [content_cons, hcont, content_cons, content_cons, List.append_assoc]
        simp [List.append_assoc]
      · intro n hn
        rcases List.mem_cons.mp hn with rfl | hn
        · exact harea n (by simp)
        · exact ha n hn

theorem pbufAppend_spec (c : Chain) (bytes : List Byte) (hne : c ≠ []) (h : Sized c)
    (hroom : bytes.length ≤ room c) (hmax : (content c).length + bytes.length < 65536) :
    ∃ c', pbufAppend c bytes = .ok c' ∧ content c' = content c ++ bytes ∧ Sized c' ∧ c' ≠ [] := by
  cases c with
  | nil => exact absurd rfl hne
  | cons p rest =>
    have hr : room (p.addLen bytes.length :: rest) = room (p :: rest) := by
      cases rest <;> rfl
    obtain ⟨c', hc, hcont, hl, ha⟩ := appendLast_spec (p.addLen bytes.length :: rest) bytes
      (by simp)
      (by
        intro n hn
        rcases List.mem_cons.mp hn with rfl | hn
        · exact h.area p (by simp)
        · exact h.area n (by simp [hn]))
      (by rw [hr]; exact hroom)
    have hlen := h.len
    simp only [headLen_cons] at hlen
    have hcont' : content c' = content (p :: rest) ++ bytes := hcont
    refine ⟨c', hc, hcont', ⟨?_, ha⟩, ?_⟩
    · rw [hl, headLen_cons, hcont', List.length_append, addLen, hlen]
      exact Nat.mod_eq_of_lt hmax
    rintro rfl
    cases rest with
    | nil =>
      simp only [appendLast] at hc
      split at hc <;> cases hc
    | cons q rest =>
      simp only [appendLast, Except.map] at hc
      split at hc <;> cases hc

/-! ## Trimming one buffer -/

/-- A buffer that holds the bytes to remove loses them in one round. -/
theorem pbufTrim_one (p : Pbuf) (fuel bytes : Nat) (hb : 0 < bytes) (h : bytes ≤ p.buflen) :
    pbufTrim (fuel + 1) [p] bytes =
      some [{ p with data := p.data.take (p.buflen - bytes)
                     pktlen := (p.pktlen + 65536 - bytes) % 65536 }] := by
  obtain ⟨b, rfl⟩ : ∃ b, bytes = b + 1 := ⟨bytes - 1, by omega⟩
  simp [pbufTrim, trimTail, subLen, Nat.min_eq_right h]

end Pbuf

end Mios
