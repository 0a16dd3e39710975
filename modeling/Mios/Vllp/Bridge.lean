import Mios.Vllp.Channels

/-! The services behind the channels of a device: the bridge to stream services (`net/pushpull.c`)
and the RPC service (`net/service/svc_rpc.c`). Each has one slot for a message, which the network
thread fills and a thread of the application empties at any moment, also between two calls of the
network thread in one event. -/

namespace Mios.Vllp

open Lib Crc32 Pbuf Dev List

/-! ## Services -/

/-- Both services take a message when their slot is empty. -/
def slotMayPush (slot : Chain) : Bool := slot.isEmpty

/-- Both assert that it is. -/
def slotPush (name : String) (slot pb : Chain) : Except Halt Chain :=
  if slot = [] then .ok pb else .error (.assertion name)

/-- `struct pushpull_stream` without its TX buffers. -/
structure PushpullStream where
  rxbuf : Chain
  shutdown : Bool
  deriving DecidableEq, Repr

def pushpullStreamMayPush (s : PushpullStream) : Bool := slotMayPush s.rxbuf

def pushpullStreamPush (s : PushpullStream) (pb : Chain) : Except Halt PushpullStream :=
  (slotPush "pushpull_stream_push" s.rxbuf pb).map fun rxbuf => { s with rxbuf }

def pushpullStreamClosePp (s : PushpullStream) : PushpullStream := { s with shutdown := true }

/-- One round of the loop of `pushpull_stream_read` with room for `size` more bytes. -/
def pushpullStreamRead (s : PushpullStream) (size : Nat) : Except Halt PushpullStream :=
  if s.shutdown ∨ s.rxbuf = [] then .ok s
  else (pbufRead s.rxbuf (min (headLen s.rxbuf) size)).map fun rxbuf => { s with rxbuf }

/-- `pushpull_stream_wait_shutdown`: the buffers are freed after the network side has closed. -/
def pushpullStreamWaitShutdown (s : PushpullStream) : PushpullStream :=
  if s.shutdown then { s with rxbuf := [] } else s

/-- `struct svc_rpc` without its response. -/
structure SvcRpc where
  req : Chain
  stop : Bool
  deriving DecidableEq, Repr

def rpcMayPush (s : SvcRpc) : Bool := slotMayPush s.req

def rpcPush (s : SvcRpc) (pb : Chain) : Except Halt SvcRpc :=
  (slotPush "rpc_push" s.req pb).map fun req => { s with req }

def rpcClose (s : SvcRpc) : SvcRpc := { s with stop := true }

/-- `rpc_thread` takes the request, to dispatch it or to free it at its end. -/
def rpcThread (s : SvcRpc) : SvcRpc := { s with req := [] }

inductive Service where
  | stream
  | rpc
  deriving DecidableEq, Repr

/-- `pp.app` and `pp.app_opaque` of a channel. -/
inductive App where
  | stream (s : PushpullStream)
  | rpc (s : SvcRpc)
  deriving DecidableEq, Repr

/-- `service_open_pushpull`, which makes the bridge or calls `rpc_open`. -/
def serviceOpenPushpull : Service → App
  | .stream => .stream ⟨[], false⟩
  | .rpc => .rpc ⟨[], false⟩

namespace App

def slot : App → Chain
  | .stream s => s.rxbuf
  | .rpc s => s.req

def mayPush : App → Bool
  | .stream s => pushpullStreamMayPush s
  | .rpc s => rpcMayPush s

def push (x : App) (pb : Chain) : Except Halt App :=
  match x with
  | .stream s => (pushpullStreamPush s pb).map .stream
  | .rpc s => (rpcPush s pb).map .rpc

def close : App → App
  | .stream s => .stream (pushpullStreamClosePp s)
  | .rpc s => .rpc (rpcClose s)

end App

/-! ## Threads -/

/-- A call of the network thread to the application of the channel at `a`. -/
inductive Call where
  | mayPush (a : Nat) (answer : Bool)
  | push (a : Nat) (pb : Chain)
  | close (a : Nat)
  | opened (a : Nat) (service : Service)
  deriving DecidableEq, Repr

/-- What a thread of the application at `a` does to its slot. -/
inductive Act where
  | read (a size : Nat)
  | waitShutdown (a : Nat)
  | take (a : Nat)
  deriving DecidableEq, Repr

inductive Item where
  | net (c : Call)
  | app (x : Act)
  deriving DecidableEq, Repr

/-- The calls of the network thread among what happens. -/
def netItems (items : List Item) : List Call :=
  items.filterMap fun
    | .net c => some c
    | .app _ => none

/-- The applications by the address of their channel. -/
abbrev Apps := Nat → App

namespace Apps

def act (u : Apps) : Act → Option Apps
  | .read a size =>
    match u a with
    | .stream s => (pushpullStreamRead s size).toOption.map fun s => Function.update u a (.stream s)
    | .rpc _ => none
  | .waitShutdown a =>
    match u a with
    | .stream s => some (Function.update u a (.stream (pushpullStreamWaitShutdown s)))
    | .rpc _ => none
  | .take a =>
    match u a with
    | .stream _ => none
    | .rpc s => some (Function.update u a (.rpc (rpcThread s)))

/-- A call of the network thread returns; `may_push` gives the answer that the network thread
got. -/
def call (u : Apps) : Call → Option Apps
  | .mayPush a answer => if (u a).mayPush = answer then some u else none
  | .push a pb => ((u a).push pb).toOption.map fun x => Function.update u a x
  | .close a => some (Function.update u a (u a).close)
  | .opened a service => some (Function.update u a (serviceOpenPushpull service))

def step (u : Apps) : Item → Option Apps
  | .net c => u.call c
  | .app x => u.act x

abbrev Step (u : Apps) (x : Item) (w : Apps) : Prop := u.step x = some w

end Apps

/-! ## Calls of an event -/

/-- The channels that `vllp_refresh_local_flow_status` asks, and the answers. -/
def sampled (i : In) (v : Dev) : List Call :=
  (v.channels.filter fun a => a != cmc && !(v.chan a).netClosed).map fun a =>
    .mayPush a (i.mayPush (v.chan a).id)

/-- The calls to push in an event. -/
def pushCalls (v : Dev) (e : DevEvent) : List Call :=
  (v.pushed e).filterMap fun p => (vllpChannelFind v p.1).map (.push · p.2)

/-- The calls to `may_push` in an event. -/
def sampleCalls (v : Dev) : DevEvent → List Call
  | .rx i _ | .ackTimer i | .rtxTimer i => sampled i v
  | .task i a close =>
    if a ≠ cmc ∧ v.objs.any (·.addr == a) then
      if close then
        if (v.chan a).appClosed ≠ 0 then []
        else sampled i (v.setChan { v.chan a with appClosed := 1 })
      else sampled i v
    else []
  | .timeout => []

/-- The applications that are closed and opened when an event leads to `v'`. -/
def lifeChanges (v v' : Dev) (service : Service) : List Call :=
  (v'.out.filterMap fun
    | .close id => (vllpChannelFind v id).map .close
    | _ => none) ++
  (v'.channels.filter (· ∉ v.channels)).map (.opened · service)

def lifeCalls (v : Dev) (e : DevEvent) (service : Service) : List Call :=
  match v.step e with
  | .ok v' => lifeChanges v v' service
  | .error _ => []

/-- All calls of an event, in their order. -/
def netCalls (v : Dev) (e : DevEvent) (service : Service) : List Call :=
  sampleCalls v e ++ pushCalls v e ++ lifeCalls v e service

/-! ## The device with its applications -/

/-- `failed`: an assertion of a service has failed. -/
structure Bridge where
  dev : Dev
  apps : Apps
  failed : Option Halt

/-- An event of the device, the service that an OPEN in it finds, and everything that happens in
the meantime. -/
structure BridgeEvent where
  event : DevEvent
  service : Service
  items : List Item

namespace Bridge

/-- An event in which every call returns. -/
def step (s : Bridge) (x : BridgeEvent) : Option Bridge :=
  if s.failed = none ∧ netItems x.items = netCalls s.dev x.event x.service then
    match s.dev.step x.event with
    | .error _ => none
    | .ok v => (exec Apps.step s.apps x.items).map fun apps => ⟨v, apps, none⟩
  else none

inductive Step (s : Bridge) (x : BridgeEvent) : Bridge → Prop
  | returns {s' : Bridge} (h : s.step x = some s') : Step s x s'
  | fails {items : List Item} {u : Apps} {a : Nat} {pb : Chain} {h : Halt}
      (halive : s.failed = none)
      (hcalls : netItems items ++ [.push a pb] <+: netCalls s.dev x.event x.service)
      (hrun : Run Apps.Step s.apps items u) (hpush : (u a).push pb = .error h) :
      Step s x { s with failed := some h }

/-- A new server, with whatever is at the addresses of its later channels. -/
def start (mtu : Nat) (apps : Apps) : Bridge := ⟨vllpServerCreate mtu, apps, none⟩

end Bridge

/-! ## Pushes find the slot empty -/

variable {i : In} {v : Dev} {e : DevEvent} {service : Service} {items : List Item} {u w : Apps}
  {a : Nat} {pb : Chain}

theorem App.mayPush_iff (x : App) : x.mayPush = true ↔ x.slot = [] := by
  cases x <;> exact isEmpty_iff

/-- A push into an empty slot returns. -/
theorem App.push_of_empty {x : App} (h : x.slot = []) (pb : Chain) : ∃ y, x.push pb = .ok y := by
  cases x with
  | stream s =>
    have hslot : s.rxbuf = [] := h
    exact ⟨_, by rw [App.push, pushpullStreamPush, slotPush, if_pos hslot]; rfl⟩
  | rpc s =>
    have hslot : s.req = [] := h
    exact ⟨_, by rw [App.push, rpcPush, slotPush, if_pos hslot]; rfl⟩

theorem update_slot {x : App} (h : (u a).slot = []) {b : Nat} (hx : b = a → x.slot = []) :
    (Function.update u b x a).slot = [] := by
  by_cases hb : a = b
  · subst hb
    rw [Function.update_self]
    exact hx rfl
  · rw [Function.update_of_ne hb]
    exact h

/-- Threads of an application only empty the slot. -/
theorem Apps.act_slot {x : Act} (h : u.act x = some w) (hslot : (u a).slot = []) :
    (w a).slot = [] := by
  cases x with
  | read b size =>
    simp only [Apps.act] at h
    cases hx : u b with
    | stream s =>
      rw [hx] at h
      obtain ⟨s', hs', rfl⟩ := Option.map_eq_some_iff.mp h
      refine update_slot hslot fun hb => ?_
      subst hb
      rw [hx] at hslot
      rw [pushpullStreamRead, if_pos (.inr hslot)] at hs'
      rw [← Option.some.inj hs']
      exact hslot
    | rpc s =>
      rw [hx] at h
      cases h
  | waitShutdown b =>
    simp only [Apps.act] at h
    cases hx : u b with
    | stream s =>
      rw [hx] at h
      cases h
      refine update_slot hslot fun hb => ?_
      subst hb
      rw [hx] at hslot
      rw [pushpullStreamWaitShutdown]
      split
      · rfl
      · exact hslot
    | rpc s =>
      rw [hx] at h
      cases h
  | take b =>
    simp only [Apps.act] at h
    cases hx : u b with
    | stream s =>
      rw [hx] at h
      cases h
    | rpc s =>
      rw [hx] at h
      cases h
      exact update_slot hslot fun _ => rfl

/-- While the network thread only asks, an application that has said yes stays empty. -/
theorem slot_of_sampled (hrun : Run Apps.Step u items w)
    (hall : ∀ c ∈ netItems items, ∃ b answer, c = .mayPush b answer)
    (hasked : .mayPush a true ∈ netItems items) : (w a).slot = [] := by
  induction hrun with
  | nil => cases hasked
  | @snoc t r items x _ hs ih =>
    have hsplit : netItems (items ++ [x]) = netItems items ++ netItems [x] := filterMap_append
    rw [hsplit] at hall hasked
    have hbefore : .mayPush a true ∈ netItems items → (t a).slot = [] :=
      ih fun c hc => hall c (mem_append_left _ hc)
    cases x with
    | app x =>
      have hin : .mayPush a true ∈ netItems items := by
        rcases mem_append.mp hasked with h | h
        · exact h
        · cases h
      exact Apps.act_slot hs (hbefore hin)
    | net c =>
      obtain ⟨b, answer, rfl⟩ := hall c (mem_append_right _ (.head _))
      obtain ⟨hanswer, rfl⟩ : (t b).mayPush = answer ∧ t = r := by
        simpa [Apps.Step, Apps.step, Apps.call] using hs
      rcases mem_append.mp hasked with h | h
      · exact hbefore h
      · obtain ⟨rfl, rfl⟩ : a = b ∧ true = answer := by
          simpa [netItems] using h
        exact (App.mayPush_iff _).mp hanswer

theorem refresh_find (i : In) (v : Dev) (id : Nat) :
    vllpChannelFind (vllpRefreshLocalFlowStatus i { v with out := [] }).1 id =
      vllpChannelFind v id := by
  unfold vllpRefreshLocalFlowStatus
  dsimp only
  split <;> rfl

/-- An event pushes at most one packet, to a linked channel whose flow bit is set. -/
theorem pushed_cases (v : Dev) (e : DevEvent) : v.pushed e = [] ∨
    ∃ i frame id a pb, e = .rx i frame ∧ v.pushed e = [(id, pb)] ∧
      vllpChannelFind v id = some a ∧ a ≠ cmc ∧ (localFlow i v).getLsbD id = true := by
  cases e with
  | rx i frame =>
    simp only [Dev.pushed]
    generalize hu : (vllpRefreshLocalFlowStatus i { v with out := [] }).1 = u
    split
    · rename_i hdr data _
      split
      · cases hr : vllpChannelReceive i u hdr data with
        | error h => exact .inl rfl
        | ok r =>
          obtain ⟨w, err⟩ := r
          have hrefresh := refresh_flow i { v with out := [] }
          rw [hu] at hrefresh
          have hnone : pushes u.out = [] := hrefresh.2.pushes
          cases receive_receives hr with
          | manages hm => exact .inl (hm.mute.pushes.trans hnone)
          | @pushes w a pb hm hfind hne hflow =>
            have hp : pushes (w.log (.push (hdrChannel hdr) pb)).out = [(hdrChannel hdr, pb)] := by
              rw [Dev.log, pushes_append, hm.mute.pushes, hnone]
              rfl
            rw [hrefresh.1] at hflow
            rw [← hu, refresh_find] at hfind
            exact .inr ⟨i, frame, _, a, pb, rfl, hp, hfind, hne, hflow⟩
      · exact .inl rfl
    · exact .inl rfl
  | _ => exact .inl rfl

/-- A push is made to an application that was asked in the same event. -/
theorem pushCalls_cases (ht : v.Table) (e : DevEvent) : pushCalls v e = [] ∨
    ∃ a pb, pushCalls v e = [.push a pb] ∧ .mayPush a true ∈ sampleCalls v e := by
  rcases pushed_cases v e with h | ⟨i, frame, id, a, pb, rfl, h, hfind, hne, hflow⟩
  · left
    rw [pushCalls, h]
    rfl
  · refine .inr ⟨a, pb, ?_, ?_⟩
    · rw [pushCalls, h]
      simp [hfind]
    · obtain ⟨hid, ha⟩ := vllpChannelFind_spec hfind
      have hopen := ht.linked a ha
      refine mem_map.mpr ⟨a, mem_filter.mpr ⟨ha, by simp [hne, hopen]⟩, ?_⟩
      have hlt := BitVec.lt_of_getLsbD hflow
      rw [hid, (getLsbD_localFlow i v hlt).mp hflow a ha hne hopen hid]

theorem sampled_asks (i : In) (v : Dev) : ∀ c ∈ sampled i v, ∃ b answer, c = .mayPush b answer := by
  intro c hc
  obtain ⟨b, -, rfl⟩ := mem_map.mp hc
  exact ⟨b, _, rfl⟩

theorem sampleCalls_asks (v : Dev) (e : DevEvent) :
    ∀ c ∈ sampleCalls v e, ∃ b answer, c = .mayPush b answer := by
  cases e with
  | rx i frame | ackTimer i | rtxTimer i => exact sampled_asks i v
  | timeout => exact fun c hc => by cases hc
  | task i a close =>
    simp only [sampleCalls]
    split
    · split
      · split
        · exact fun c hc => by cases hc
        · exact sampled_asks i _
      · exact sampled_asks i v
    · exact fun c hc => by cases hc

theorem push_not_mem_life (v : Dev) (e : DevEvent) (service : Service) (a : Nat) (pb : Chain) :
    .push a pb ∉ lifeCalls v e service := by
  intro h
  rw [lifeCalls] at h
  cases hs : v.step e with
  | error halt =>
    rw [hs] at h
    cases h
  | ok v' =>
    rw [hs] at h
    rcases mem_append.mp h with h | h
    · obtain ⟨ev, -, hev⟩ := mem_filterMap.mp h
      cases ev with
      | close id =>
        obtain ⟨b, -, hb⟩ := Option.map_eq_some_iff.mp hev
        cases hb
      | _ => cases hev
    · obtain ⟨b, -, hb⟩ := mem_map.mp h
      cases hb

/-- The place of an element that is neither before nor behind. -/
theorem eq_of_append_prefix {α : Type} {l s r : List α} {x y : α} (hs : x ∉ s) (hr : x ∉ r)
    (h : l ++ [x] <+: s ++ [y] ++ r) : l = s ∧ x = y := by
  obtain ⟨rest, h⟩ := h
  rw [append_assoc, append_assoc] at h
  rcases append_eq_append_iff.mp h with ⟨m, hm, hrest⟩ | ⟨m, hm, hrest⟩
  · cases m with
    | nil =>
      rw [append_nil] at hm
      exact ⟨hm.symm, (List.cons.inj hrest).1⟩
    | cons z m =>
      obtain rfl := (List.cons.inj hrest).1
      exact absurd (hm ▸ mem_append_right l (.head _)) hs
  · cases m with
    | nil =>
      rw [append_nil] at hm
      exact ⟨hm, (List.cons.inj hrest).1.symm⟩
    | cons z m =>
      have htail : r = m ++ ([x] ++ rest) := (List.cons.inj hrest).2
      exact absurd (htail ▸ mem_append_right m (.head _)) hr

/-- Whatever the threads of the applications have done since the network thread asked, a push finds
the slot empty. -/
theorem slot_of_push (ht : v.Table)
    (hcalls : netItems items ++ [.push a pb] <+: netCalls v e service)
    (hrun : Run Apps.Step u items w) : (w a).slot = [] := by
  have hasks := sampleCalls_asks v e
  have hbefore : .push a pb ∉ sampleCalls v e := fun hmem => by
    obtain ⟨b, answer, hb⟩ := hasks _ hmem
    cases hb
  have hafter := push_not_mem_life v e service a pb
  rw [netCalls] at hcalls
  rcases pushCalls_cases ht e with hp | ⟨b, pb', hp, hasked⟩
  · have hmem := hcalls.subset (mem_append_right _ (.head _))
    rw [hp, append_nil] at hmem
    rcases mem_append.mp hmem with hmem | hmem
    · exact absurd hmem hbefore
    · exact absurd hmem hafter
  · rw [hp] at hcalls
    obtain ⟨hitems, hcall⟩ := eq_of_append_prefix hbefore hafter hcalls
    obtain ⟨rfl, -⟩ := Call.push.inj hcall
    rw [← hitems] at hasked hasks
    exact slot_of_sampled hrun hasks hasked

/-- In every run, whatever frames arrive and whenever the threads of the applications run, no
assertion of a service about its slot fails. The channels of the device have different ids, so that
each application answers for its own. -/
theorem push_only_when_empty (mtu : Nat) (apps : Apps) (xs : List BridgeEvent) (s : Bridge)
    (hrun : Run Bridge.Step (Bridge.start mtu apps) xs s) :
    s.failed = none ∧ (s.dev.channels.map fun a => (s.dev.chan a).id).Nodup := by
  have h : s.failed = none ∧ s.dev.Table := by
    refine hrun.invariant (I := fun s => s.failed = none ∧ s.dev.Table)
      ⟨rfl, vllpServerCreate_table mtu⟩ ?_
    rintro s x s' ⟨-, ht⟩ hstep
    cases hstep with
    | returns h =>
      obtain ⟨-, h⟩ := Option.ite_none_right_eq_some.mp h
      cases hd : s.dev.step x.event with
      | error _ =>
        rw [hd] at h
        cases h
      | ok v =>
        rw [hd] at h
        obtain ⟨apps, -, rfl⟩ := Option.map_eq_some_iff.mp h
        exact ⟨rfl, (step_table ht hd).1⟩
    | fails _ hcalls hitems hpush =>
      obtain ⟨y, hy⟩ := App.push_of_empty (slot_of_push ht hcalls hitems) _
      rw [hpush] at hy
      cases hy
  exact ⟨h.1, h.2.ids⟩

/-! ## A run -/

/-- An event during which no other thread runs. -/
def BridgeEvent.plain (event : DevEvent) (calls : List Call) : BridgeEvent :=
  ⟨event, .stream, calls.map .net⟩

/-- The host sends one byte on channel 3, which was opened second in the session 5. -/
def byteMsg (mayPush s : Bool) (iv : BitVec 32) (b : Byte) : DevEvent :=
  .rx { In.calm with mayPush := fun _ => mayPush }
    (hdrByte s false true true 3 :: Host.vllpGenerateCrc iv [b])

def bytePacket (b : Byte) : Chain := [⟨sop ||| eop, 0, 1, 0, [b]⟩]

/-- Channel 3 is opened; a byte arrives; the next one is refused while the first is in the slot, and
taken when it comes again after a read. -/
def twoBytes : List BridgeEvent :=
  let iv : BitVec 32 := ~~~crc32 5 (le32 2)
  [.plain (synOf 5) [],
    .plain (.rx .calm (hdrByte true false true true cmcId ::
      Host.vllpGenerateCrc (~~~crc32 5 (le32 1)) [3, 0x65])) [.opened 1 .stream],
    .plain (byteMsg true false iv 7) [.mayPush 1 true, .push 1 (bytePacket 7)],
    ⟨byteMsg false true (iv + 1) 8, .stream, [.net (.mayPush 1 false), .app (.read 1 10)]⟩,
    .plain (byteMsg true true (iv + 1) 8) [.mayPush 1 true, .push 1 (bytePacket 8)]]

theorem twoBytes_pushed : ∃ s, Run Bridge.Step (Bridge.start 8 fun _ => .rpc ⟨[], false⟩) twoBytes s ∧
    (s.apps 1).slot = bytePacket 8 ∧ s.failed = none := by
  obtain ⟨s, hrun, hslot⟩ := exists_run (P := fun s : Bridge => (s.apps 1).slot = bytePacket 8)
    (show ∃ s ∈ exec Bridge.step (Bridge.start 8 fun _ => .rpc ⟨[], false⟩) twoBytes, _ from by
      decide +kernel)
  have hrun : Run Bridge.Step (Bridge.start 8 fun _ => .rpc ⟨[], false⟩) twoBytes s :=
    hrun.mono fun _ _ _ h => .returns h
  exact ⟨s, hrun, hslot, (push_only_when_empty 8 _ _ s hrun).1⟩

end Mios.Vllp
