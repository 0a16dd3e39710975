import Mios.Lib.Lists
import Mios.Lib.Run

/-! Neighbour resolution: ARP and the unicast output of `net/ether.c`, with the nexthops that
`ipv4_nexthop_resolve` finds or makes. A nexthop is put at the head of the global list and of the
list of its interface and is removed from both, so that one list stands for all of them; the
nexthops of an interface are the ones of it that name the interface. Addresses are in host
order, and packets are known by their numbers. -/

namespace Mios.Net.Neighbour

open Lib List Option

/-! ## State -/

abbrev Ipv4 := BitVec 32
abbrev HwAddr := BitVec 48
abbrev Packet := Nat

/-- `ether_bcast` -/
def etherBcast : HwAddr := 0xffffffffffff

def nexthopIdle : BitVec 8 := 0
def nexthopResolve : BitVec 8 := 5
def nexthopActive : BitVec 8 := 10

structure Netif where
  hwaddr : HwAddr
  localAddr : Ipv4
  prefixLen : Nat
  deriving DecidableEq, Repr

/-- `nexthop_t`. Two fields are no part of it: how many ARP packets had been heard when it was
made, and for how many ticks it has held its packet. -/
structure Nexthop where
  addr : Ipv4
  netif : Nat
  pending : Option Packet
  state : BitVec 8
  inUse : BitVec 8
  hwaddr : HwAddr
  born : Nat
  heldFor : Nat
  deriving DecidableEq, Repr, Inhabited

structure ArpPkt where
  oper : BitVec 16
  sha : HwAddr
  spa : Ipv4
  tha : HwAddr
  tpa : Ipv4
  deriving DecidableEq, Repr

inductive Payload where
  | ipv4 (pb : Packet)
  | arp (p : ArpPkt)
  deriving DecidableEq, Repr

/-- The nexthop a frame was sent to: its address, and what had been heard when it was made. -/
structure Via where
  addr : Ipv4
  born : Nat
  deriving DecidableEq, Repr

structure Frame where
  netif : Nat
  dst : HwAddr
  payload : Payload
  via : Option Via
  deriving DecidableEq, Repr

/-- An ARP packet that arrived on an interface. -/
structure Heard where
  netif : Nat
  pkt : ArpPkt
  deriving DecidableEq, Repr

/-- The nexthops; and what was sent, freed, given to `ether_ipv4_output` for a nexthop, and heard,
each in order. -/
structure State where
  nexthops : List Nexthop
  frames : List Frame
  freed : List Packet
  given : List Packet
  heard : List Heard
  deriving DecidableEq, Repr

/-! ## The code -/

def State.etherOutput (st : State) (netif : Nat) (payload : Payload) (dst : HwAddr)
    (via : Option Via) : State :=
  { st with frames := st.frames ++ [⟨netif, dst, payload, via⟩] }

/-- The packet that `arp_send_who_has` makes. -/
def whoHas (ni : Netif) (addr : Ipv4) : ArpPkt := ⟨1, ni.hwaddr, ni.localAddr, 0, addr⟩

def whoHasFrame (netif : Nat) (ni : Netif) (addr : Ipv4) : Frame :=
  ⟨netif, etherBcast, .arp (whoHas ni addr), none⟩

def maskFromPrefixlen (len : Nat) : Ipv4 := ~~~((1#32 <<< (32 - len)) - 1)

def ipv4PrefixMatch (addr pfx : Ipv4) (len : Nat) : Bool :=
  addr &&& maskFromPrefixlen len == pfx &&& maskFromPrefixlen len

/-- The interface an address is on. -/
def routeTo (netifs : List Netif) (addr : Ipv4) : Option Nat :=
  netifs.findIdx? fun ni => ni.localAddr != 0 && ipv4PrefixMatch addr ni.localAddr ni.prefixLen

/-- `ipv4_nexthop_resolve`: where the nexthop is in the list. The memory for a new one may be
missing, and what it holds stays in the hardware address. -/
def ipv4NexthopResolve (netifs : List Netif) (st : State) (addr : Ipv4) (fresh : HwAddr)
    (memory : Bool) : State × Option Nat :=
  match st.nexthops.findIdx? (·.addr == addr) with
  | some i => (st, some i)
  | none =>
      match routeTo netifs addr with
      | none => (st, none)
      | some ni =>
          if memory then
            ({ st with nexthops :=
                ⟨addr, ni, none, nexthopIdle, 0, fresh, st.heard.length, 0⟩ :: st.nexthops }, some 0)
          else (st, none)

/-- `ether_ipv4_output` for the nexthop at `i`. -/
def etherIpv4Output (netifs : List Netif) (st : State) (i : Nat) (pb : Packet) : State :=
  let st := { st with given := st.given ++ [pb] }
  let nh := { st.nexthops.getD i default with inUse := 5 }
  if nh.state ≤ nexthopResolve then
    let asked := nh.state = 0
    let nh := { nh with state := if asked then nexthopResolve else nh.state - 1 }
    { st with
      nexthops := st.nexthops.set i { nh with pending := some pb, heldFor := 0 }
      frames := st.frames ++ (if asked then
        (netifs[nh.netif]?.map (whoHasFrame nh.netif · nh.addr)).toList else [])
      freed := st.freed ++ nh.pending.toList }
  else
    { st with nexthops := st.nexthops.set i nh }.etherOutput nh.netif (.ipv4 pb) nh.hwaddr
      (some ⟨nh.addr, nh.born⟩)

/-- The hardware address of a multicast group. -/
def mcastAddr (addr : Ipv4) : HwAddr := 0x01005e000000 ||| (addr &&& 0x7fffff).setWidth 48

/-- `ether_ipv4_output` without a nexthop. -/
def etherIpv4OutputGroup (st : State) (netif : Nat) (dst : Ipv4) (pb : Packet) : State :=
  if 0xe0000000 ≤ dst ∧ dst < 0xf0000000 then
    st.etherOutput netif (.ipv4 pb) (mcastAddr dst) none
  else st.etherOutput netif (.ipv4 pb) etherBcast none

/-- The loop of `arp_input` over the nexthops; a pending packet is sent and ends it. -/
def arpLearn (netif : Nat) (spa : Ipv4) (sha : HwAddr) : List Nexthop → List Nexthop × List Frame
  | [] => ([], [])
  | nh :: rest =>
      if nh.netif = netif ∧ nh.addr = spa then
        let nh := { nh with hwaddr := sha, state := 255 }
        match nh.pending with
        | some pb =>
            ({ nh with pending := none } :: rest,
              [⟨netif, nh.hwaddr, .ipv4 pb, some ⟨nh.addr, nh.born⟩⟩])
        | none =>
            let result := arpLearn netif spa sha rest
            (nh :: result.1, result.2)
      else
        let result := arpLearn netif spa sha rest
        (nh :: result.1, result.2)

def arpInput (netifs : List Netif) (st : State) (netif : Nat) (p : ArpPkt) : State :=
  match netifs[netif]? with
  | none => st
  | some ni =>
      if p.oper = 1 ∧ p.tpa = ni.localAddr then
        st.etherOutput netif (.arp ⟨2, ni.hwaddr, ni.localAddr, p.sha, p.spa⟩) p.sha none
      else if p.oper = 2 then
        let result := arpLearn netif p.spa p.sha st.nexthops
        { st with nexthops := result.1, frames := st.frames ++ result.2 }
      else st

/-- What a tick leaves of a nexthop, whom it asks for, and the packet it frees. -/
def nexthopTick (netif : Nat) (nh : Nexthop) : Option Nexthop × Option Ipv4 × Option Packet :=
  if nh.netif ≠ netif then (some nh, none, none)
  else
    let state := nh.state - 1
    if state = 0 then (none, none, nh.pending) -- nexthop_destroy
    else
      (some { nh with state := state
                      inUse := if nh.inUse ≠ 0 then nh.inUse - 1 else 0
                      heldFor := nh.heldFor + 1 },
        if state < nexthopActive ∧ nh.inUse ≠ 0 then some nh.addr else none, none)

def etherNexthopPeriodic (netifs : List Netif) (st : State) (netif : Nat) : State :=
  { st with
    nexthops := st.nexthops.filterMap fun nh => (nexthopTick netif nh).1
    frames := st.frames ++ (st.nexthops.filterMap fun nh => (nexthopTick netif nh).2.1).filterMap
      fun addr => netifs[netif]?.map (whoHasFrame netif · addr)
    freed := st.freed ++ st.nexthops.filterMap fun nh => (nexthopTick netif nh).2.2 }

/-! ## Runs -/

/-- A packet for an address, which may be dropped for lack of buffers after the nexthop was looked
up; a packet for a group; an ARP packet; and the periodic timer of an interface. -/
inductive Event where
  | output (dst : Ipv4) (pb : Packet) (fresh : HwAddr) (memory buffers : Bool)
  | group (netif : Nat) (dst : Ipv4) (pb : Packet)
  | arp (netif : Nat) (p : ArpPkt)
  | tick (netif : Nat)
  deriving DecidableEq, Repr

def step (netifs : List Netif) (st : State) : Event → State
  | .output dst pb fresh memory buffers =>
      match ipv4NexthopResolve netifs st dst fresh memory with
      | (st, none) => st
      | (st, some i) => if buffers then etherIpv4Output netifs st i pb else st
  | .group netif dst pb => etherIpv4OutputGroup st netif dst pb
  | .arp netif p => arpInput netifs { st with heard := st.heard ++ [⟨netif, p⟩] } netif p
  | .tick netif => etherNexthopPeriodic netifs st netif

def init : State := ⟨[], [], [], [], []⟩

/-! ## What the functions do -/

/-- A nexthop as it is made. -/
def newNexthop (st : State) (addr : Ipv4) (netif : Nat) (fresh : HwAddr) : Nexthop :=
  ⟨addr, netif, none, nexthopIdle, 0, fresh, st.heard.length, 0⟩

def State.add (st : State) (nh : Nexthop) : State := { st with nexthops := nh :: st.nexthops }

variable {netifs : List Netif} {st : State}

/-- An address has no nexthop, has one, or gets one. -/
theorem resolve_cases (netifs : List Netif) (st : State) (addr : Ipv4) (fresh : HwAddr)
    (memory : Bool) : ipv4NexthopResolve netifs st addr fresh memory = (st, none) ∨
      (∃ l nh r, st.nexthops = l ++ nh :: r ∧
        ipv4NexthopResolve netifs st addr fresh memory = (st, some l.length)) ∨
      ∃ ni, ipv4NexthopResolve netifs st addr fresh memory =
        (st.add (newNexthop st addr ni fresh), some 0) := by
  unfold ipv4NexthopResolve
  cases hfind : st.nexthops.findIdx? (·.addr == addr) with
  | some i =>
    obtain ⟨l, nh, r, hlist, rfl, -, -⟩ := Lists.split_of_findIdx hfind
    exact .inr (.inl ⟨l, nh, r, hlist, rfl⟩)
  | none =>
    cases routeTo netifs addr with
    | none => exact .inl rfl
    | some ni =>
      cases memory with
      | false => exact .inl rfl
      | true => exact .inr (.inr ⟨ni, rfl⟩)

/-- A property is kept by an event if a new nexthop, the output to a nexthop, a frame to none, an
ARP packet with what is learned from it, and a tick keep it. -/
theorem step_keeps {P : State → Prop} (h : P st) (e : Event)
    (hadd : ∀ addr ni fresh, P (st.add (newNexthop st addr ni fresh)))
    (hout : ∀ st' l nh r pb, st'.nexthops = l ++ nh :: r → P st' →
      P (etherIpv4Output netifs st' l.length pb))
    (hframe : ∀ st' netif payload dst, P st' → P (st'.etherOutput netif payload dst none))
    (hheard : ∀ a, P { st with heard := st.heard ++ [a] })
    (hlearn : ∀ netif p, P { st with
      heard := st.heard ++ [⟨netif, p⟩]
      nexthops := (arpLearn netif p.spa p.sha st.nexthops).1
      frames := st.frames ++ (arpLearn netif p.spa p.sha st.nexthops).2 })
    (htick : ∀ netif, e = .tick netif → P (etherNexthopPeriodic netifs st netif)) :
    P (step netifs st e) := by
  cases e with
  | output dst pb fresh memory buffers =>
    rcases resolve_cases netifs st dst fresh memory with hno | ⟨l, nh, r, hlist, hold⟩ | ⟨ni, hnew⟩
    · simp only [step, hno]
      exact h
    · simp only [step, hold]
      cases buffers with
      | false => exact h
      | true => exact hout st l nh r pb hlist h
    · simp only [step, hnew]
      cases buffers with
      | false => exact hadd dst ni fresh
      | true => exact hout _ [] _ _ pb rfl (hadd dst ni fresh)
  | group netif dst pb =>
    simp only [step, etherIpv4OutputGroup]
    split
    all_goals exact hframe _ _ _ _ h
  | arp netif p =>
    simp only [step, arpInput]
    split
    · exact hheard _
    split
    · exact hframe _ _ _ _ (hheard _)
    split
    · exact hlearn netif p
    · exact hheard _
  | tick netif => exact htick netif rfl

/-- The nexthop that holds the packet now. -/
def Nexthop.hold (nh : Nexthop) (pb : Packet) : Nexthop :=
  { nh with
    inUse := 5
    state := if nh.state = 0 then nexthopResolve else nh.state - 1
    pending := some pb
    heldFor := 0 }

/-- Who is asked for when a packet has to wait. -/
def Nexthop.asks (netifs : List Netif) (nh : Nexthop) : List Frame :=
  if nh.state = 0 then (netifs[nh.netif]?.map (whoHasFrame nh.netif · nh.addr)).toList else []

/-- The frame with a packet for the nexthop. -/
def Nexthop.frame (nh : Nexthop) (pb : Packet) : Frame :=
  ⟨nh.netif, nh.hwaddr, .ipv4 pb, some ⟨nh.addr, nh.born⟩⟩

variable {heard : List Heard} {l r : List Nexthop} {netif : Nat} {nh : Nexthop}

theorem output_eq (h : st.nexthops = l ++ nh :: r) (pb : Packet) :
    etherIpv4Output netifs st l.length pb =
      if nh.state ≤ nexthopResolve then
        { st with
          given := st.given ++ [pb]
          nexthops := l ++ nh.hold pb :: r
          frames := st.frames ++ nh.asks netifs
          freed := st.freed ++ nh.pending.toList }
      else
        { st with
          given := st.given ++ [pb]
          nexthops := l ++ { nh with inUse := 5 } :: r
          frames := st.frames ++ [nh.frame pb] } := by
  have hget : st.nexthops.getD l.length default = nh := by rw [h, Lists.getD_middle]
  have hset (x : Nexthop) : st.nexthops.set l.length x = l ++ x :: r := by
    rw [h, Lists.set_middle]
  unfold etherIpv4Output
  simp only [hget, hset, State.etherOutput, Nexthop.hold, Nexthop.asks, Nexthop.frame]

/-! ## Every packet is sent or freed once -/

/-- The packet of a frame that was sent to a nexthop. -/
def Frame.packet (f : Frame) : Option Packet :=
  match f.payload with
  | .ipv4 pb => f.via.map fun _ => pb
  | .arp _ => none

/-- The packets that were sent to nexthops. -/
def State.sent (st : State) : List Packet := st.frames.filterMap Frame.packet

/-- The packets that wait. -/
def held (nhs : List Nexthop) : List Packet := nhs.filterMap (·.pending)

theorem count_held_cons (nh : Nexthop) (r : List Nexthop) (pb : Packet) :
    (held (nh :: r)).count pb = nh.pending.toList.count pb + (held r).count pb := by
  unfold held
  rw [Lists.filterMap_cons_toList, count_append]

theorem count_held_middle (l : List Nexthop) (nh : Nexthop) (r : List Nexthop) (pb : Packet) :
    (held (l ++ nh :: r)).count pb = nh.pending.toList.count pb + (held (l ++ r)).count pb := by
  induction l with
  | nil => exact count_held_cons nh r pb
  | cons x l ih =>
    rw [cons_append, cons_append, count_held_cons, count_held_cons, ih]
    omega

theorem asks_packets (nh : Nexthop) : (nh.asks netifs).filterMap Frame.packet = [] := by
  unfold Nexthop.asks
  split
  · cases netifs[nh.netif]? <;> rfl
  · rfl

/-- Each packet that was given was sent or freed, or waits; and was so once. -/
def Conserved (st : State) : Prop :=
  ∀ pb, st.given.count pb = st.sent.count pb + st.freed.count pb + (held st.nexthops).count pb

/-- A frame to no nexthop. -/
theorem Conserved.etherOutput (h : Conserved st) (netif : Nat) (payload : Payload) (dst : HwAddr) :
    Conserved (st.etherOutput netif payload dst none) := by
  have hnone : (⟨netif, dst, payload, none⟩ : Frame).packet = none := by cases payload <;> rfl
  intro q
  have hsent : (st.etherOutput netif payload dst none).sent = st.sent := by
    simp only [State.sent, State.etherOutput, filterMap_append,
      Lists.filterMap_cons_toList, hnone, toList_none, filterMap_nil, append_nil]
  rw [hsent]
  exact h q

theorem Conserved.output (h : Conserved st) (hlist : st.nexthops = l ++ nh :: r) (pb : Packet) :
    Conserved (etherIpv4Output netifs st l.length pb) := by
  intro q
  have hq := h q
  rw [hlist, count_held_middle] at hq
  rw [output_eq hlist]
  split
  · have hone : (nh.hold pb).pending.toList.count q = [pb].count q := rfl
    simp only [State.sent, filterMap_append, asks_packets, append_nil, count_append,
      count_held_middle, hone] at hq ⊢
    omega
  · have hone : [nh.frame pb].filterMap Frame.packet = [pb] := rfl
    simp only [State.sent, filterMap_append, hone, count_append, count_held_middle] at hq ⊢
    omega

theorem count_arpLearn (netif : Nat) (spa : Ipv4) (sha : HwAddr) (nhs : List Nexthop)
    (pb : Packet) : (held nhs).count pb = (held (arpLearn netif spa sha nhs).1).count pb +
      ((arpLearn netif spa sha nhs).2.filterMap Frame.packet).count pb := by
  induction nhs with
  | nil => rfl
  | cons nh rest ih =>
    unfold arpLearn
    split
    · cases hp : nh.pending with
      | some q =>
        have hone : ([⟨netif, sha, .ipv4 q, some ⟨nh.addr, nh.born⟩⟩] : List Frame).filterMap
            Frame.packet = [q] := rfl
        simp only [hp, count_held_cons, hone, toList_some, toList_none,
          count_nil]
        omega
      | none =>
        simp only [hp, count_held_cons, toList_none, count_nil]
        omega
    · simp only [count_held_cons]
      omega

theorem count_tick (netif : Nat) (nhs : List Nexthop) (pb : Packet) :
    (held nhs).count pb = (held (nhs.filterMap fun nh => (nexthopTick netif nh).1)).count pb +
      (nhs.filterMap fun nh => (nexthopTick netif nh).2.2).count pb := by
  unfold held
  rw [filterMap_filterMap]
  refine Lists.count_filterMap_add (fun nh => ?_) nhs
  unfold nexthopTick
  split
  · simp
  · dsimp only
    split
    · simp
    · simp

theorem Conserved.step (h : Conserved st) (e : Event) : Conserved (step netifs st e) := by
  refine step_keeps h e (fun _ _ _ => h) (fun _ _ _ _ pb hlist h' => h'.output hlist pb)
    (fun _ _ _ _ h' => h'.etherOutput _ _ _) (fun _ => h) (fun netif p q => ?_) fun netif _ q => ?_
  · have hq := h q
    have hlearn := count_arpLearn netif p.spa p.sha st.nexthops q
    simp only [State.sent, filterMap_append, count_append] at hq ⊢
    omega
  · have hq := h q
    have htick := count_tick netif st.nexthops q
    have hasks : (((st.nexthops.filterMap fun nh => (nexthopTick netif nh).2.1).filterMap
        fun addr => netifs[netif]?.map (whoHasFrame netif · addr)).filterMap Frame.packet) = [] := by
      rw [filterMap_eq_nil_iff]
      intro f hf
      obtain ⟨addr, -, hmap⟩ := mem_filterMap.mp hf
      obtain ⟨ni, -, rfl⟩ := map_eq_some_iff.mp hmap
      rfl
    simp only [etherNexthopPeriodic, State.sent, filterMap_append, hasks, append_nil,
      count_append] at hq ⊢
    omega

/-! ## No packet waits for ever -/

/-- The ticks until the nexthop is destroyed. -/
def Nexthop.left (nh : Nexthop) : Nat := if nh.state = 0 then 256 else nh.state.toNat

def Nexthop.Aged (nh : Nexthop) : Prop := nh.pending ≠ none → nh.heldFor + nh.left ≤ 256

theorem Nexthop.left_le (nh : Nexthop) : nh.left ≤ 256 := by
  unfold Nexthop.left
  split
  · exact le_rfl
  · exact Nat.le_of_lt nh.state.isLt

theorem Nexthop.left_pos (nh : Nexthop) : 0 < nh.left := by
  unfold Nexthop.left
  split
  · decide
  · rename_i h
    rcases Nat.eq_zero_or_pos nh.state.toNat with h0 | hpos
    · exact absurd (BitVec.eq_of_toNat_eq h0) h
    · exact hpos

/-- What an ARP packet makes of the nexthop that it is about. -/
def Nexthop.learn (nh : Nexthop) (sha : HwAddr) : Nexthop :=
  { nh with hwaddr := sha, state := 255, pending := none }

theorem forall_arpLearn {P : Nexthop → Prop} {F : Frame → Prop} {spa : Ipv4} {nhs : List Nexthop}
    (sha : HwAddr) (h : ∀ nh ∈ nhs, P nh) (hlearn : ∀ nh ∈ nhs, nh.addr = spa →
      nh.netif = netif → P (nh.learn sha) ∧ ∀ pb, F ((nh.learn sha).frame pb)) :
    (∀ nh ∈ (arpLearn netif spa sha nhs).1, P nh) ∧ ∀ f ∈ (arpLearn netif spa sha nhs).2, F f := by
  induction nhs with
  | nil => exact ⟨h, fun f hf => by cases hf⟩
  | cons nh rest ih =>
    obtain ⟨hnh, hrest⟩ := forall_mem_cons.mp h
    obtain ⟨hmatch, hmatches⟩ := forall_mem_cons.mp hlearn
    obtain ⟨hnhs, hframes⟩ := ih hrest hmatches
    unfold arpLearn
    split
    · rename_i heq
      obtain ⟨rfl, rfl⟩ := heq
      obtain ⟨hlearned, hframe⟩ := hmatch rfl rfl
      cases hp : nh.pending with
      | some q =>
        exact ⟨forall_mem_cons.mpr ⟨hlearned, hrest⟩, forall_mem_singleton.mpr (hframe q)⟩
      | none => exact ⟨forall_mem_cons.mpr ⟨hlearned, hnhs⟩, hframes⟩
    · exact ⟨forall_mem_cons.mpr ⟨hnh, hnhs⟩, hframes⟩

theorem aged_tick {nh' : Nexthop} (h : nh.Aged)
    (htick : (nexthopTick netif nh).1 = some nh') : nh'.Aged := by
  unfold nexthopTick at htick
  split at htick
  · cases htick
    exact h
  dsimp only at htick
  split at htick
  · cases htick
  rename_i hstate
  cases htick
  intro hne
  have hle := h hne
  have hleft : nh.left = Nexthop.left { nh with state := nh.state - 1 } + 1 := by
    simp only [Nexthop.left, if_neg hstate]
    split
    · rename_i h0
      rw [h0]
      rfl
    · bv_omega
  simp only [Nexthop.left] at hle hleft ⊢
  omega

theorem aged_step (h : ∀ nh ∈ st.nexthops, nh.Aged) (e : Event) :
    ∀ nh ∈ (step netifs st e).nexthops, nh.Aged := by
  refine step_keeps (P := fun st => ∀ nh ∈ st.nexthops, nh.Aged) h e (fun addr ni fresh => ?_)
    (fun st' l nh r pb hlist h' => ?_) (fun _ _ _ _ h' => h') (fun _ => h) (fun netif p => ?_)
    fun netif _ nh' hnh' => ?_
  · exact forall_mem_cons.mpr ⟨fun hne => absurd rfl hne, h⟩
  · rw [output_eq hlist]
    rw [hlist] at h'
    split
    · refine Lists.forall_middle h' fun _ => ?_
      have := (nh.hold pb).left_le
      exact Nat.le_trans (Nat.le_of_eq (Nat.zero_add _)) this
    · exact Lists.forall_middle h' (h' nh (by simp))
  · refine (forall_arpLearn (F := fun _ => True) p.sha h fun nh _ _ _ => ⟨fun hne => ?_, ?_⟩).1
    · exact absurd rfl hne
    · exact fun _ => trivial
  · obtain ⟨nh, hnh, htick⟩ := mem_filterMap.mp hnh'
    exact aged_tick (h nh hnh) htick

/-! ## Addresses are learned -/

/-- Among the ARP packets heard since `born`, one on the interface was for the address and named
the hardware address. -/
def Learned (heard : List Heard) (netif : Nat) (addr : Ipv4) (born : Nat) (hw : HwAddr) : Prop :=
  ∃ a ∈ heard.drop born, a.netif = netif ∧ a.pkt.spa = addr ∧ a.pkt.sha = hw

theorem Learned.append {born : Nat} {addr : Ipv4} {hw : HwAddr}
    (h : Learned heard netif addr born hw) (more : List Heard) :
    Learned (heard ++ more) netif addr born hw := by
  obtain ⟨a, ha, hrest⟩ := h
  refine ⟨a, ?_, hrest⟩
  rw [drop_append]
  exact mem_append_left _ ha

/-- A nexthop in use for output has an address that was learned. -/
structure Nexthop.Ok (heard : List Heard) (nh : Nexthop) : Prop where
  born_le : nh.born ≤ heard.length
  known : nexthopResolve < nh.state → Learned heard nh.netif nh.addr nh.born nh.hwaddr

/-- A frame to a nexthop went to an address that was learned. -/
def Frame.Ok (heard : List Heard) (f : Frame) : Prop :=
  ∀ v, f.via = some v → Learned heard f.netif v.addr v.born f.dst

structure Inv (st : State) : Prop where
  nexthops : ∀ nh ∈ st.nexthops, nh.Ok st.heard
  frames : ∀ f ∈ st.frames, f.Ok st.heard

/-- Frames to no nexthop may be added. -/
theorem Inv.add_frames {fs : List Frame}
    (h : ∀ f ∈ fs, f.Ok heard) {gs : List Frame} (hgs : ∀ g ∈ gs, g.via = none) :
    ∀ f ∈ fs ++ gs, f.Ok heard := by
  intro f hf
  rcases mem_append.mp hf with hf | hf
  · exact h f hf
  · intro v hv
    rw [hgs f hf] at hv
    cases hv

theorem asks_via (nh : Nexthop) : ∀ f ∈ nh.asks netifs, f.via = none := by
  intro f hf
  unfold Nexthop.asks at hf
  split at hf
  · obtain ⟨ni, -, rfl⟩ := map_eq_some_iff.mp (mem_toList.mp hf)
    rfl
  · cases hf

theorem Inv.output (h : Inv st) (hlist : st.nexthops = l ++ nh :: r) (pb : Packet) :
    Inv (etherIpv4Output netifs st l.length pb) := by
  have hall := h.nexthops
  rw [hlist] at hall
  have hnh := hall nh (by simp)
  rw [output_eq hlist]
  split
  · -- the packet waits, and the nexthop is not used yet
    rename_i hstate
    refine ⟨Lists.forall_middle hall ⟨hnh.born_le, fun hlt => ?_⟩,
      Inv.add_frames h.frames (asks_via nh)⟩
    simp only [Nexthop.hold, nexthopResolve] at hlt hstate
    split at hlt <;> bv_omega
  · rename_i hstate
    refine ⟨Lists.forall_middle hall ⟨hnh.born_le, hnh.known⟩, fun f hf => ?_⟩
    rcases mem_append.mp hf with hf | hf
    · exact h.frames f hf
    · rw [mem_singleton.mp hf]
      rintro _ ⟨⟩
      exact hnh.known (BitVec.not_le.mp hstate)

/-- A tick that finds no idle nexthop only moves states down. -/
theorem ok_tick {nh' : Nexthop} (h : nh.Ok heard)
    (hidle : nh.netif = netif → nh.state ≠ nexthopIdle)
    (htick : (nexthopTick netif nh).1 = some nh') : nh'.Ok heard := by
  unfold nexthopTick at htick
  split at htick
  · cases htick
    exact h
  rename_i hnetif
  dsimp only at htick
  split at htick
  · cases htick
  cases htick
  refine ⟨h.born_le, fun hlt => h.known ?_⟩
  have hne := hidle (Decidable.not_not.mp hnetif)
  simp only [nexthopResolve, nexthopIdle] at hlt hne ⊢
  bv_omega

/-- A tick of an interface comes when none of its nexthops is idle. -/
def Event.Ok (st : State) : Event → Prop
  | .tick netif => ∀ nh ∈ st.nexthops, nh.netif = netif → nh.state ≠ nexthopIdle
  | _ => True

instance (st : State) : ∀ e : Event, Decidable (e.Ok st)
  | .tick netif =>
      inferInstanceAs (Decidable (∀ nh ∈ st.nexthops, nh.netif = netif → nh.state ≠ nexthopIdle))
  | .output .. | .group .. | .arp .. => inferInstanceAs (Decidable True)

theorem Inv.step {e : Event} (h : Inv st) (he : e.Ok st) : Inv (step netifs st e) := by
  -- what was learned before stays learned
  have hold (a : Heard) : Inv { st with heard := st.heard ++ [a] } := by
    refine ⟨fun nh hnh => ⟨?_, fun hlt => ?_⟩, fun f hf v hv => (h.frames f hf v hv).append _⟩
    · exact Nat.le_trans (h.nexthops nh hnh).born_le (by simp)
    · exact ((h.nexthops nh hnh).known hlt).append _
  refine step_keeps h e (fun addr ni fresh => ?_) (fun _ _ _ _ pb hlist h' => h'.output hlist pb)
    (fun _ _ _ _ h' => ?_) hold (fun netif p => ?_) fun netif hnetif => ?_
  · refine ⟨forall_mem_cons.mpr ⟨⟨le_rfl, fun hlt => ?_⟩, h.nexthops⟩, h.frames⟩
    exact absurd hlt (show ¬nexthopResolve < nexthopIdle by decide)
  · exact ⟨h'.nexthops, Inv.add_frames h'.frames fun g hg => by rw [mem_singleton.mp hg]⟩
  · obtain ⟨hnhs, hframes⟩ := hold ⟨netif, p⟩
    have hsent := forall_arpLearn (F := Frame.Ok (st.heard ++ [⟨netif, p⟩])) p.sha hnhs
      fun nh hnh (haddr : nh.addr = p.spa) (hni : nh.netif = netif) => ?_
    · exact ⟨hsent.1, forall_mem_append.mpr ⟨hframes, hsent.2⟩⟩
    have hlearn : Learned (st.heard ++ [⟨netif, p⟩]) nh.netif nh.addr nh.born p.sha := by
      refine ⟨⟨netif, p⟩, ?_, hni.symm, haddr.symm, rfl⟩
      rw [drop_append_of_le_length (h.nexthops nh hnh).born_le]
      exact mem_append_right _ (.head _)
    refine ⟨⟨(hnhs nh hnh).born_le, fun _ => hlearn⟩, ?_⟩
    rintro pb _ ⟨⟩
    exact hlearn
  · subst hnetif
    refine ⟨fun nh' hnh' => ?_, Inv.add_frames h.frames fun g hg => ?_⟩
    · obtain ⟨nh, hnh, htick⟩ := mem_filterMap.mp hnh'
      exact ok_tick (h.nexthops nh hnh) (he nh hnh) htick
    · obtain ⟨addr, -, hmap⟩ := mem_filterMap.mp hg
      obtain ⟨ni, -, rfl⟩ := map_eq_some_iff.mp hmap
      rfl

/-! ## Resolution -/

/-- In every run each packet for a nexthop is sent or freed once, and none is held for 256 ticks;
and if no tick finds an idle nexthop, a frame is sent to a nexthop only at an address that
an ARP packet for it named since it was made. -/
theorem neighbours_resolved (netifs : List Netif) (es : List Event) (st : State)
    (hrun : Run (fun u e v => step netifs u e = v) init es st) :
    (∀ pb, st.given.count pb = st.sent.count pb + st.freed.count pb + (held st.nexthops).count pb) ∧
      (∀ nh ∈ st.nexthops, nh.pending ≠ none → nh.heldFor < 256) ∧
      (Run (Guarded (fun u e => e.Ok u) fun u e v => step netifs u e = v) init es st →
        ∀ f ∈ st.frames, ∀ v, f.via = some v →
          Learned st.heard f.netif v.addr v.born f.dst) := by
  have hconserved : Conserved st := hrun.invariant (fun _ => rfl) fun u e v hu hstep => by
    rw [← hstep]
    exact hu.step e
  have haged : ∀ nh ∈ st.nexthops, nh.Aged := by
    refine hrun.invariant (I := fun u => ∀ nh ∈ u.nexthops, nh.Aged) (fun nh hnh => by cases hnh) ?_
    rintro u e v hu rfl
    exact aged_step hu e
  refine ⟨hconserved, fun nh hnh hne => ?_, fun hguarded => ?_⟩
  · have hle := haged nh hnh hne
    have hpos := nh.left_pos
    omega
  · have hinit : Inv init := ⟨fun nh hnh => (by cases hnh), fun f hf => (by cases hf)⟩
    have hinv : Inv st := hguarded.invariant hinit fun u e v hu hstep => by
      obtain ⟨hok, rfl⟩ := hstep
      exact hu.step hok
    exact hinv.frames

/-- One interface with the address 10.0.0.1/24. -/
def lan : List Netif := [⟨0x020000000001, 0x0a000001, 24⟩]

/-- A packet for 10.0.0.2, whose nexthop is made in memory that held something else. -/
def sendTo (pb : Packet) : Event := .output 0x0a000002 pb 0xdeadbeefdead true true

/-- A packet waits, the neighbour answers, and more packets go out over the ticks. -/
def answered : List Event :=
  [sendTo 0, sendTo 1, .tick 0, .arp 0 ⟨2, 0x020000000002, 0x0a000002, 0x020000000001, 0x0a000001⟩,
    sendTo 2, .tick 0, sendTo 3]

theorem answered_resolved : (answered.foldl (step lan) init).sent = [1, 2, 3] ∧
      (answered.foldl (step lan) init).freed = [0] ∧
      ∀ f ∈ (answered.foldl (step lan) init).frames, ∀ v, f.via = some v →
        Learned (answered.foldl (step lan) init).heard f.netif v.addr v.born f.dst := by
  have hguarded : Run (Guarded (fun u e => Event.Ok u e) fun u e v => step lan u e = v) init answered
      (answered.foldl (step lan) init) := by
    refine (guarded_run_foldl (fun u e => decide (Event.Ok u e)) (step lan) init answered
      (by decide +kernel)).mono fun u e v h => ?_
    exact ⟨of_decide_eq_true h.1, h.2⟩
  have hall := neighbours_resolved lan answered _ (run_foldl (step lan) init answered)
  exact ⟨by decide +kernel, by decide +kernel, hall.2.2 hguarded⟩

/-- Six packets for a neighbour that does not answer count its state down to idle, the tick takes
idle for 256, and the seventh packet goes out. -/
def unanswered : List Event :=
  [sendTo 0, sendTo 1, sendTo 2, sendTo 3, sendTo 4, sendTo 5, .tick 0, sendTo 6]

/-- A frame is sent to a hardware address that nobody ever named. -/
theorem unlearned_address_used : (⟨0, 0xdeadbeefdead, .ipv4 6, some ⟨0x0a000002, 0⟩⟩ : Frame) ∈
        (unanswered.foldl (step lan) init).frames ∧
      (unanswered.foldl (step lan) init).heard = [] := by
  decide +kernel

end Mios.Net.Neighbour
