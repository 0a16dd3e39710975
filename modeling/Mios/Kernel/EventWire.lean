import Mathlib.Data.List.TakeWhile
import Mios.Kernel.EventTime

/-! A log entry on its way to the host: the message that the log service (`evlog_svc_pull`) builds
of it, and what the host (`host/dsig/vllp_logstream.c`) makes of the message. -/

namespace Mios.EventLog

open Lib List

variable {s : LogSize} {ef : Fifo} {e : Entry} {es₁ es₂ : List Entry} {f : Follower}

/-! ## The device -/

/-- The age of a message in milliseconds; the clock and the time stamp have 64 bits. -/
def msAgo (now ts : Nat) : Nat := (now + (2 ^ 64 - ts % 2 ^ 64)) % 2 ^ 64 / 1000

def svcHeader (flag level tslen : Nat) : Byte := BitVec.ofNat 8 (flag ||| level ||| tslen <<< 3)

/-- Header, the sequence number at the tail if the entry is there, age and text. -/
def svcMessage (level age : Nat) (text : List Byte) : Option Nat → List Byte
  | none => svcHeader 0 level (varBytes age).length :: (varBytes age ++ text)
  | some seqTail =>
    svcHeader 0x40 level (varBytes age).length :: (littleEndian 4 seqTail ++ (varBytes age ++ text))

def Fifo.evlogSvcPull (s : LogSize) (ef : Fifo) (f : Follower) (now : Nat) : List Byte :=
  svcMessage (ef.entryLevel s f.ptr) (msAgo now (ef.stamp s f)) (ef.entryText s f.ptr)
    (if f.ptr = ef.tail then some ef.seqTail else none)

/-! ## The host -/

/-- What the callback gets; the text is a C string. -/
structure LogMessage where
  level : Nat
  sequence : Nat
  msAgo : Int
  msg : List Byte
deriving DecidableEq, Repr

/-- `*u8 << (i * 8)` is an `int`, so it has 32 bits and a sign. A shift by 32 or more is undefined;
the machine looks at five bits of the count. -/
def shifted (i : Nat) (b : Byte) : BitVec 64 :=
  (b.setWidth 32 <<< (8 * i % 32)).signExtend 64

def tsDelta : Nat → BitVec 64 → List Byte → BitVec 64
  | _, acc, [] => acc
  | i, acc, b :: bs => tsDelta (i + 1) (acc ||| shifted i b) bs

/-- `vllp_log_rx` behind the sequence number. -/
def logBody (seq : Nat) (hdr : Byte) (data : List Byte) : Nat × Option LogMessage :=
  let seq := (seq + 1) % 2 ^ 32
  let size := hdr.toNat / 8 % 8
  if data.length < size then (seq, none)
  else (seq, some ⟨hdr.toNat % 8, seq, (tsDelta 0 0 (data.take size)).toInt,
    (data.drop size).takeWhile (· != 0)⟩)

/-- The sequence number of the stream before and after a message. -/
def vllpLogRx (seq : Nat) : List Byte → Nat × Option LogMessage
  | [] => (seq, none)
  | hdr :: data =>
    if hdr.toNat / 64 % 2 = 0 then logBody seq hdr data
    else if data.length < 4 then (seq, none)
    else logBody (number (data.take 4).reverse) hdr (data.drop 4)

/-! ## Round trip -/

theorem toNat_shifted {i : Nat} (hi : i < 4) (b : Byte) (hb : 256 ^ i * b.toNat < 2 ^ 31) :
    (shifted i b).toNat = 2 ^ (8 * i) * b.toNat := by
  have hcases : i = 0 ∨ i = 1 ∨ i = 2 ∨ i = 3 := by omega
  revert hb b
  rcases hcases with rfl | rfl | rfl | rfl
  all_goals decide +kernel

theorem toNat_tsDelta {bs : List Byte} {i : Nat} {acc : BitVec 64} (hacc : acc.toNat < 256 ^ i)
    (hlen : i + bs.length ≤ 4) (hn : acc.toNat + 256 ^ i * number bs.reverse < 2 ^ 31) :
    (tsDelta i acc bs).toNat = acc.toNat + 256 ^ i * number bs.reverse := by
  induction bs generalizing i acc with
  | nil => rfl
  | cons b bs ih =>
    rw [length_cons] at hlen
    have hpow : 256 ^ (i + 1) = 256 ^ i * 256 := rfl
    have hbits : 2 ^ (8 * i) = 256 ^ i := Nat.pow_mul 2 8 i
    have hnum : 256 ^ i * number (b :: bs).reverse =
        256 ^ i * b.toNat + 256 ^ (i + 1) * number bs.reverse := by
      rw [reverse_cons, number_concat, hpow, Nat.mul_add, Nat.add_comm, Nat.mul_assoc]
    have hor : (acc ||| shifted i b).toNat = acc.toNat + 256 ^ i * b.toNat := by
      rw [BitVec.toNat_or, toNat_shifted (by omega) b (by omega), Nat.or_comm,
        ← Nat.two_pow_add_eq_or_of_lt (by rw [hbits]; exact hacc), hbits, Nat.add_comm]
    have hb := b.isLt
    have hstep := Nat.mul_le_mul_left (256 ^ i) (Nat.le_of_lt_succ hb)
    rw [tsDelta, ih (by rw [hor]; omega) (by omega) (by rw [hor]; omega), hor, hnum, Nat.add_assoc]

theorem toInt_tsDelta {n : Nat} (h : n < 2 ^ 31) : (tsDelta 0 0 (varBytes n)).toInt = n := by
  have hnum : number (varBytes n).reverse = n := number_varBytes (Nat.lt_trans h (by decide))
  have hlen : (varBytes n).length ≤ 4 := length_varBytes_le (Nat.lt_trans h (by decide))
  have hnat : (tsDelta 0 0 (varBytes n)).toNat = n := by
    rw [toNat_tsDelta (by decide) (by omega) (by rw [hnum]; simpa using h), hnum]
    simp
  rw [BitVec.toInt_eq_toNat_of_lt (by rw [hnat]; omega), hnat]

theorem header_bits : ∀ flag ∈ [0, 0x40], ∀ l < 8, ∀ k < 8, (svcHeader flag l k).toNat % 8 = l ∧
    (svcHeader flag l k).toNat / 8 % 8 = k ∧ (svcHeader flag l k).toNat / 64 % 2 = flag / 0x40 := by
  decide

theorem takeWhile_of_no_nul {text : List Byte} (h : 0 ∉ text) : text.takeWhile (· != 0) = text := by
  rw [takeWhile_eq_self_iff]
  intro b hb
  rw [bne_iff_ne]
  rintro rfl
  exact h hb

theorem logBody_message {hdr : Byte} {seq age level : Nat} {text : List Byte}
    (hlevel : hdr.toNat % 8 = level) (hsize : hdr.toNat / 8 % 8 = (varBytes age).length)
    (hage : age < 2 ^ 31) (htext : 0 ∉ text) : logBody seq hdr (varBytes age ++ text) =
      ((seq + 1) % 2 ^ 32, some ⟨level, (seq + 1) % 2 ^ 32, age, text⟩) := by
  simp only [logBody, hsize, hlevel]
  rw [if_neg (by rw [length_append]; omega), take_left, drop_left,
    toInt_tsDelta hage, takeWhile_of_no_nul htext]

/-- What the host makes of a message of the device. -/
theorem rx_message {level age : Nat} {text : List Byte} (seq : Nat) (hlevel : level < 8)
    (hage : age < 2 ^ 31) (htext : 0 ∉ text) (seqTail : Option Nat) :
    vllpLogRx seq (svcMessage level age text seqTail) =
      ((seqTail.elim seq (· % 2 ^ 32) + 1) % 2 ^ 32,
        some ⟨level, (seqTail.elim seq (· % 2 ^ 32) + 1) % 2 ^ 32, age, text⟩) := by
  have hlen : (varBytes age).length < 8 :=
    Nat.lt_of_le_of_lt (length_varBytes_le (Nat.lt_trans hage (by decide))) (by decide : 4 < 8)
  cases seqTail with
  | none =>
    obtain ⟨hl, hk, hd⟩ := header_bits 0 (by decide) level hlevel _ hlen
    rw [svcMessage, vllpLogRx, if_pos hd]
    exact logBody_message hl hk hage htext
  | some n =>
    obtain ⟨hl, hk, hd⟩ := header_bits 0x40 (by decide) level hlevel _ hlen
    have hfour : (littleEndian 4 n).length = 4 := length_littleEndian 4 n
    rw [svcMessage, vllpLogRx, if_neg (by rw [hd]; decide),
      if_neg (by rw [length_append]; omega), take_left' hfour, drop_left' hfour,
      number_littleEndian]
    exact logBody_message hl hk hage htext

/-- Whatever the message, the age that the host finds is an `int`, and the text has no zero byte. -/
theorem tsDelta_signExtend (bs : List Byte) (i : Nat) (acc : BitVec 32) :
    ∃ x : BitVec 32, tsDelta i (acc.signExtend 64) bs = x.signExtend 64 := by
  induction bs generalizing i acc with
  | nil => exact ⟨acc, rfl⟩
  | cons b bs ih =>
    rw [tsDelta, shifted, ← BitVec.signExtend_or]
    exact ih (i + 1) _

theorem logBody_range {seq : Nat} {hdr : Byte} {data : List Byte} {m : LogMessage}
    (h : (logBody seq hdr data).2 = some m) : m.msAgo < 2147483648 ∧ 0 ∉ m.msg := by
  simp only [logBody] at h
  split at h
  · cases h
  obtain rfl := Option.some.inj h
  refine ⟨?_, fun hmem => ?_⟩
  · obtain ⟨x, hx⟩ := tsDelta_signExtend (data.take (hdr.toNat / 8 % 8)) 0 0
    change tsDelta 0 0 _ = _ at hx
    rw [hx, BitVec.toInt_signExtend_of_le (by decide)]
    exact x.toInt_lt
  · simpa using mem_takeWhile_imp hmem

theorem rx_range {seq : Nat} {data : List Byte} {m : LogMessage}
    (h : (vllpLogRx seq data).2 = some m) : m.msAgo < 2147483648 ∧ 0 ∉ m.msg := by
  cases data with
  | nil => cases h
  | cons hdr data =>
    simp only [vllpLogRx] at h
    split at h
    · exact logBody_range h
    · split at h
      · cases h
      · exact logBody_range h

/-- The sequence number of an entry is its place among all that were logged, counted from one. An
entry reaches the host with its level, its sequence number, its age and its text if and only if it
is less than 2^31 milliseconds old, its text has no zero byte, and the host is told the number at
the tail or has seen the entry before. -/
theorem log_round_trip (hc : Content s ef (es₁ ++ e :: es₂) [])
    (hptr : f.ptr = ef.tail + (flat es₁).length) (now seq : Nat) :
    (vllpLogRx seq (ef.evlogSvcPull s f now)).2 = some ⟨e.level,
      (ef.seqTail + es₁.length + 1) % 2 ^ 32, msAgo now (ef.stamp s f), e.text⟩ ↔
    msAgo now (ef.stamp s f) < 2 ^ 31 ∧ 0 ∉ e.text ∧
      (es₁ = [] ∨ seq % 2 ^ 32 = (ef.seqTail + es₁.length) % 2 ^ 32) := by
  have hat := Content.entry_at es₁ hc
  rw [← hptr] at hat
  have hlevel := (hc.ok e (by simp)).level
  have htail : f.ptr = ef.tail ↔ es₁ = [] := by
    refine ⟨fun h => eq_nil_of_flat (by omega), ?_⟩
    rintro rfl
    exact hptr
  -- the sequence number, once the message is understood
  have hnumber : ((if f.ptr = ef.tail then some ef.seqTail else none).elim seq (· % 2 ^ 32) + 1) %
      2 ^ 32 = (ef.seqTail + es₁.length + 1) % 2 ^ 32 ↔
        es₁ = [] ∨ seq % 2 ^ 32 = (ef.seqTail + es₁.length) % 2 ^ 32 := by
    split
    · next h =>
      obtain rfl := htail.mp h
      rw [length_nil, Nat.add_zero, Option.elim_some, Nat.mod_add_mod]
      simp
    · next h =>
      rw [Option.elim_none, or_iff_right (mt htail.mpr h)]
      omega
  have hmessage (hage : msAgo now (ef.stamp s f) < 2 ^ 31) (htext : 0 ∉ e.text) :=
    rx_message seq hlevel hage htext (if f.ptr = ef.tail then some ef.seqTail else none)
  constructor
  · intro h
    obtain ⟨hrange, htext⟩ := rx_range h
    have hage := Int.ofNat_lt.mp hrange
    rw [Fifo.evlogSvcPull, hat.level, hat.text, hmessage hage htext] at h
    exact ⟨hage, htext, hnumber.mp (LogMessage.mk.inj (Option.some.inj h)).2.1⟩
  · rintro ⟨hage, htext, hseq⟩
    rw [Fifo.evlogSvcPull, hat.level, hat.text, hmessage hage htext, hnumber.mpr hseq]

/-- One entry, and a service that has not read it. -/
def waiting : Fifo := [.register .service 0, hello 1000].foldl (step defaultSize) initial

theorem log_round_trip_hello :
    (vllpLogRx 0 (waiting.evlogSvcPull defaultSize (initial.follower .service 0) 70001000)).2 =
      some ⟨6, 1, 70000, [0x68, 0x65, 0x6c, 0x6c, 0x6f]⟩ := by
  have hc : Content defaultSize waiting ([] ++ [⟨6, [0x68, 0x65, 0x6c, 0x6c, 0x6f], 0⟩]) [] := by
    refine ⟨fun e he => ?_, by decide +kernel, by decide +kernel, by decide⟩
    rw [mem_singleton.mp he]
    exact ⟨by decide, by decide, by decide⟩
  have hage : msAgo 70001000 (waiting.stamp defaultSize (initial.follower .service 0)) = 70000 := by
    decide +kernel
  have h := log_round_trip (f := initial.follower .service 0) hc (by decide +kernel) 70001000 0
  rw [hage] at h
  exact h.mpr ⟨by decide, by decide, .inl rfl⟩

/-- After 2^31 milliseconds, some 25 days, an entry is from the future; after 2^32 the top of its
age is on the bottom; and a text ends at a zero byte. -/
theorem log_misread : (vllpLogRx 0 (waiting.evlogSvcPull defaultSize (initial.follower .service 0)
      (1000 + 1000 * 2 ^ 31))).2 = some ⟨6, 1, -2147483648, [0x68, 0x65, 0x6c, 0x6c, 0x6f]⟩ ∧
    (vllpLogRx 0 (waiting.evlogSvcPull defaultSize (initial.follower .service 0)
      (1000 + 1000 * 2 ^ 32))).2 = some ⟨6, 1, 1, [0x68, 0x65, 0x6c, 0x6c, 0x6f]⟩ ∧
    (vllpLogRx 0 (svcMessage 6 0 [0x68, 0, 0x6f] none)).2 = some ⟨6, 1, 0, [0x68]⟩ := by
  decide +kernel

end Mios.EventLog
