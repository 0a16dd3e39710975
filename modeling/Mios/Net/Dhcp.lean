import Mios.Lib.Endian
import Mios.Net.Neighbour

/-! The DHCP client of `dhcpv4.c`: the options of a message, and the prefix length that a lease
configures. -/

namespace Mios.Net.Dhcp

open Lib Net.Neighbour List

/-! ## The code -/

inductive State where
  | idle | selecting | requesting | bound
  deriving DecidableEq, Repr

/-- The interface; `retries` counts the requests. -/
structure EtherNetif where
  state : State
  xid : BitVec 32
  requestedIp : Ipv4
  serverIp : Ipv4
  retries : Nat
  localAddr : Ipv4
  prefixlen : Nat
  deriving DecidableEq, Repr

/-- `parsed_opts_t`; an option that is not valid is `none`. -/
structure ParsedOpts where
  msgtype : Option Byte
  netmask : Option Ipv4
  gateway : Option Ipv4
  leaseTime : Option (BitVec 32)
  serverIdentifier : Option Ipv4
  ntpServer : Option Ipv4

def addressOf (bs : List Byte) : Ipv4 := BitVec.ofNat 32 (number bs)

/-- The table `options`. -/
def ParsedOpts.store (po : ParsedOpts) (type : Byte) (data : List Byte) : ParsedOpts :=
  if type = 53 ∧ data.length = 1 then { po with msgtype := data.head? }
  else if data.length ≠ 4 then po
  else if type = 1 then { po with netmask := some (addressOf data) }
  else if type = 3 then { po with gateway := some (addressOf data) }
  else if type = 51 then { po with leaseTime := some (addressOf data) }
  else if type = 54 then { po with serverIdentifier := some (addressOf data) }
  else if type = 42 then { po with ntpServer := some (addressOf data) }
  else po

/-- `parse_opts`, with what it leaves of the packet. -/
def parseOpts (pb : List Byte) (po : ParsedOpts) : List Byte × ParsedOpts :=
  match pb with
  | [] => ([], po)
  | type :: pb =>
    if type = 0xff then (type :: pb, po)
    else if type = 0 then parseOpts pb po
    else
      match pb with
      | [] => ([], po)
      | length :: pb =>
        if pb.length < length.toNat then (pb, po)
        else parseOpts (pb.drop length.toNat) (po.store type (pb.take length.toNat))
termination_by pb.length
decreasing_by
  · simp
  · simp only [length_drop, length_cons]
    omega

def headerSize : Nat := 240

/-- The four bytes at an offset of the header. -/
def field (msg : List Byte) (offset : Nat) : BitVec 32 := addressOf ((msg.drop offset).take 4)

/-- `dhcpv4_request`; `dhcpv4_make` takes a new transaction id if there is a buffer. -/
def dhcpv4Request (eni : EtherNetif) (fresh : Option (BitVec 32)) : EtherNetif :=
  { eni with
    state := .requesting
    retries := (if eni.state = .requesting then eni.retries else 0) + 1
    xid := fresh.getD eni.xid }

/-- `__builtin_ffs`. -/
def ffs (x : BitVec 32) : Nat := ((List.range 32).find? x.getLsbD).elim 0 (· + 1)

/-- The options behind the header. -/
def options (msg : List Byte) : ParsedOpts :=
  (parseOpts (msg.drop headerSize) ⟨none, none, none, none, none, none⟩).2

/-- `dhcpv4_input` for the payload `msg` of a datagram from `src`, with the netmask of the lease if
one is applied. -/
def dhcpv4Input (eni : EtherNetif) (src : Ipv4) (msg : List Byte) (fresh : Option (BitVec 32)) :
    EtherNetif × Option Ipv4 :=
  if msg.length < headerSize ∨ msg.head? ≠ some 2 ∨ field msg 4 ≠ eni.xid then (eni, none)
  else
    let yiaddr := field msg 16
    let po := options msg
    match po.msgtype, po.netmask, po.gateway, po.leaseTime, po.serverIdentifier with
    | some msgtype, some netmask, some _, some _, some server =>
      if msgtype = 2 then
        if eni.state ≠ .selecting then (eni, none)
        else (dhcpv4Request { eni with requestedIp := yiaddr, serverIp := server, retries := 0 } fresh,
          none)
      else if msgtype ≠ 5 then (eni, none)
      else if eni.state ≠ .requesting ∧ eni.state ≠ .bound then (eni, none)
      else if eni.requestedIp ≠ yiaddr ∨ eni.serverIp ≠ src then (eni, none)
      else ({ eni with localAddr := yiaddr, prefixlen := 33 - ffs netmask, state := .bound },
        some netmask)
    | _, _, _, _, _ => (eni, none)

/-! ## Options -/

/-- The parser stops in the packet. -/
theorem parseOpts_suffix (pb : List Byte) (po : ParsedOpts) : (parseOpts pb po).1 <:+ pb := by
  fun_induction parseOpts pb po with
  | case1 | case2 => exact suffix_rfl
  | case3 po pb _ ih => exact ih.trans (suffix_cons _ _)
  | case4 => exact nil_suffix
  | case5 po type _ _ length pb => exact (suffix_cons _ _).trans (suffix_cons _ _)
  | case6 po type _ _ length pb _ ih =>
    exact ih.trans ((drop_suffix _ _).trans ((suffix_cons _ _).trans (suffix_cons _ _)))

/-! ## Masks -/

/-- The first `k` of 32 bits are set. -/
def Contiguous (mask : Ipv4) : Prop := ∃ k ≤ 32, mask = BitVec.ofNat 32 (2 ^ 32 - 2 ^ (32 - k))

theorem ffs_pos {x : BitVec 32} (h : x ≠ 0) : 0 < ffs x := by
  unfold ffs
  cases hf : (List.range 32).find? x.getLsbD with
  | some i => exact Nat.succ_pos i
  | none =>
    refine absurd (BitVec.eq_of_getLsbD_eq fun i hi => ?_) h
    have hbit := List.find?_eq_none.mp hf i (mem_range.mpr hi)
    simpa using hbit

theorem maskFromPrefixlen_ffs {mask : Ipv4} (h : Contiguous mask) (hne : mask ≠ 0) :
    maskFromPrefixlen (33 - ffs mask) = mask := by
  have hall : ∀ k < 33, BitVec.ofNat 32 (2 ^ 32 - 2 ^ (32 - k)) ≠ 0 →
      maskFromPrefixlen (33 - ffs (BitVec.ofNat 32 (2 ^ 32 - 2 ^ (32 - k)))) =
        BitVec.ofNat 32 (2 ^ 32 - 2 ^ (32 - k)) := by
    decide
  obtain ⟨k, hk, rfl⟩ := h
  exact hall k (Nat.lt_succ_of_le hk) hne

/-! ## Leases -/

/-- What a lease with this netmask should configure. -/
def Configured (mask : Ipv4) (prefixlen : Nat) : Prop :=
  prefixlen ≤ 32 ∧ (Contiguous mask → maskFromPrefixlen prefixlen = mask ∧
    ∀ a b, ipv4PrefixMatch a b prefixlen = (a &&& mask == b &&& mask))

theorem configured_iff (mask : Ipv4) : Configured mask (33 - ffs mask) ↔ mask ≠ 0 := by
  constructor
  · rintro ⟨hle, -⟩ rfl
    exact absurd hle (by decide)
  · intro hne
    have hpos := ffs_pos hne
    refine ⟨by omega, fun h => ?_⟩
    have hmask := maskFromPrefixlen_ffs h hne
    refine ⟨hmask, fun a b => ?_⟩
    rw [ipv4PrefixMatch, hmask]

/-- The message grants a lease with this netmask to a client that asked for it. -/
def Grants (eni : EtherNetif) (src : Ipv4) (msg : List Byte) (mask : Ipv4) : Prop :=
  (headerSize ≤ msg.length ∧ msg.head? = some 2 ∧ field msg 4 = eni.xid) ∧
    (eni.state = .requesting ∨ eni.state = .bound) ∧
    (eni.requestedIp = field msg 16 ∧ eni.serverIp = src) ∧
    (options msg).msgtype = some 5 ∧ (options msg).netmask = some mask ∧
    (options msg).gateway ≠ none ∧ (options msg).leaseTime ≠ none ∧
    (options msg).serverIdentifier ≠ none

theorem lease_iff {eni : EtherNetif} {src : Ipv4} {msg : List Byte} (fresh : Option (BitVec 32))
    {mask : Ipv4} : (dhcpv4Input eni src msg fresh).2 = some mask ↔ Grants eni src msg mask := by
  unfold dhcpv4Input Grants
  rcases options msg with ⟨_ | msgtype, _ | netmask, _ | gateway, _ | leaseTime, _ | server, -⟩
  all_goals grind

theorem prefixlen_of_lease {eni : EtherNetif} {src : Ipv4} {msg : List Byte}
    {fresh : Option (BitVec 32)} {mask : Ipv4} (h : (dhcpv4Input eni src msg fresh).2 = some mask) :
    (dhcpv4Input eni src msg fresh).1.prefixlen = 33 - ffs mask := by
  unfold dhcpv4Input at h ⊢
  grind

/-- For every message the parser stops within it, and a lease is applied as the server means it
unless a netmask of 0.0.0.0 is granted. -/
theorem lease_configured_iff (eni : EtherNetif) (src : Ipv4) (msg : List Byte)
    (fresh : Option (BitVec 32)) :
    (∀ po, (parseOpts (msg.drop headerSize) po).1 <:+ msg) ∧
      ((∀ mask ∈ (dhcpv4Input eni src msg fresh).2,
        Configured mask (dhcpv4Input eni src msg fresh).1.prefixlen) ↔
        ¬Grants eni src msg 0) := by
  refine ⟨fun po => (parseOpts_suffix _ po).trans (drop_suffix _ _), ?_⟩
  rw [← lease_iff fresh]
  cases h : (dhcpv4Input eni src msg fresh).2 with
  | none => simp
  | some mask => simp [prefixlen_of_lease h, configured_iff]

/-- The options of a DHCPACK with the netmask 0.0.0.0. -/
def ackAnyNet : List Byte :=
  [53, 1, 5, 1, 4, 0, 0, 0, 0, 3, 4, 10, 0, 0, 1, 51, 4, 0, 0, 14, 16, 54, 4, 10, 0, 0, 1, 0xff]

/-- The prefix length is 33. -/
theorem prefixlen_beyond_word : dhcpv4Input ⟨.requesting, 0, 0, 0, 1, 0, 0⟩ 0
    (2 :: List.replicate 239 0 ++ ackAnyNet) none =
      (⟨.bound, 0, 0, 0, 1, 0, 33⟩, some 0) := by
  have hopts : (parseOpts ackAnyNet ⟨none, none, none, none, none, none⟩).2 =
      ⟨some 5, some 0, some 0x0a000001, some 3600, some 0x0a000001, none⟩ := by
    simp [ackAnyNet, parseOpts, ParsedOpts.store, addressOf, number]
  have hheader : ¬((2 :: List.replicate 239 0 ++ ackAnyNet).length < headerSize ∨
      (2 :: List.replicate 239 0 ++ ackAnyNet).head? ≠ some 2 ∨
      field (2 :: List.replicate 239 0 ++ ackAnyNet) 4 ≠ 0) := by decide +kernel
  have haddr : field (2 :: List.replicate 239 0 ++ ackAnyNet) 16 = 0 := by decide +kernel
  have hdrop : (2 :: List.replicate 239 0 ++ ackAnyNet).drop headerSize = ackAnyNet := by
    decide +kernel
  rw [dhcpv4Input, if_neg hheader, haddr, options, hdrop]
  simp only [hopts]
  rfl

end Mios.Net.Dhcp
