import Mios.Crc32
import Mios.Lib.Ring
import Mios.Lib.Run

/-! The virtual console (`util/vcon.c`, `util/vcon_ring.h`): the backend writes into a ring, and
each client follows the output with a cursor of its own. -/

namespace Mios.Vcon

open Lib Function List

/-! ## The ring -/

/-- `vcon_ring_t` -/
structure VconRing where
  size : Nat
  head : Nat
  used : Nat
  buf : Nat → Byte

def vconRingAppend (r : VconRing) (bs : List Byte) : VconRing :=
  if r.size = 0 ∨ bs = [] then r
  else if r.size ≤ bs.length then
    { r with buf := Mem.write r.buf 0 (bs.drop (bs.length - r.size)), head := 0, used := r.size }
  else
    let first := min (r.size - r.head) bs.length
    { r with
      buf := Mem.write (Mem.write r.buf r.head (bs.take first)) 0 (bs.drop first)
      head := (r.head + bs.length) % r.size
      used := min (r.used + bs.length) r.size }

def vconRingCopy (r : VconRing) (back n : Nat) : List Byte :=
  if r.size = 0 ∨ n = 0 then []
  else
    let start := (r.head + r.size - back) % r.size
    let first := min (r.size - start) n
    Mem.read r.buf start first ++ Mem.read r.buf 0 (n - first)

/-- The ring holds the last bytes of the stream. -/
structure Holds (size : Nat) (r : VconRing) (s : List Byte) : Prop where
  size : r.size = size
  used : r.used = min s.length r.size
  head : 0 < r.size → r.head < r.size
  content : Ring.read r.buf 0 r.size (r.head + r.size - r.used) r.used = s.drop (s.length - r.used)

variable {r : VconRing} {s bs : List Byte} {size back n attached : Nat}

/-- The two copies of an append are a store around the end of the ring. -/
theorem write_eq_ring (hhead : r.head < r.size) :
    Mem.write (Mem.write r.buf r.head (bs.take (min (r.size - r.head) bs.length))) 0
      (bs.drop (min (r.size - r.head) bs.length)) = Ring.write r.buf 0 r.size r.head bs := by
  rw [Ring.write, Nat.mod_eq_of_lt hhead, Nat.zero_add]
  split
  · rw [Nat.min_eq_right (by omega), take_length, drop_length, Mem.write_nil]
  · rw [Nat.min_eq_left (by omega)]

/-- The last bytes of what the ring holds. -/
theorem Holds.last (h : Holds size r s) (hb : back ≤ r.used) :
    Ring.read r.buf 0 r.size (r.head + r.size - back) back = s.drop (s.length - back) := by
  have hused := h.used
  have hdrop := congrArg (List.drop (r.used - back)) h.content
  rw [Ring.drop_read (Nat.sub_le _ _), drop_drop] at hdrop
  rwa [show r.head + r.size - r.used + (r.used - back) = r.head + r.size - back by omega,
    show r.used - (r.used - back) = back by omega,
    show s.length - r.used + (r.used - back) = s.length - back by omega] at hdrop

theorem Holds.append (h : Holds size r s) (bs : List Byte) :
    Holds size (vconRingAppend r bs) (s ++ bs) := by
  have hused := h.used
  unfold vconRingAppend
  split
  · rename_i hskip
    rcases hskip with hsize | rfl
    · have hzero : r.used = 0 := by omega
      refine ⟨h.size, by omega, h.head, ?_⟩
      rw [hzero, Ring.read_zero, Nat.sub_zero, drop_length]
    · rwa [append_nil]
  have hpos : 0 < r.size := by omega
  have hhead := h.head hpos
  split
  · -- only the end of what is written fits
    rename_i hle
    have hlen : (bs.drop (bs.length - r.size)).length = r.size := by rw [length_drop]; omega
    have hread := Mem.read_write_self r.buf 0 (bs.drop (bs.length - r.size))
    rw [hlen] at hread
    constructor <;> simp only [length_append]
    · exact h.size
    · omega
    · exact fun _ => hpos
    · rw [Nat.zero_add, Nat.sub_self, Ring.read_eq_of_le (by simp), Nat.zero_mod, Nat.zero_add,
        hread, Nat.add_sub_assoc hle, drop_length_add_append]
  · -- what is kept of the old content, and the new bytes behind it
    rename_i hlt
    obtain ⟨k, hk⟩ : ∃ k, k = min r.used (r.size - bs.length) := ⟨_, rfl⟩
    have hnew : min (r.used + bs.length) r.size = k + bs.length := by omega
    have hpos' : (r.head + r.size - k + k) % r.size = r.head % r.size := by
      rw [Nat.sub_add_cancel (by omega), Nat.add_mod_right]
    have hstart : ((r.head + bs.length) % r.size + r.size - (k + bs.length)) % r.size =
        (r.head + r.size - k) % r.size := by
      rcases Ring.add_mod_cases (Nat.not_le.mp hlt) with ⟨-, heq⟩ | ⟨hge, heq⟩
      · rw [heq, Nat.mod_eq_of_lt hhead]
        congr 1
        omega
      · rw [Nat.mod_eq_of_lt hhead] at hge heq
        rw [heq, show r.head + r.size - k = r.head - k + r.size by omega, Nat.add_mod_right]
        congr 1
        omega
    have hread : Ring.read (Ring.write r.buf 0 r.size (r.head + r.size - k + k) bs) 0 r.size
        (r.head + r.size - k) (k + bs.length) = _ :=
      Ring.read_write_behind (by omega)
    rw [Ring.write_congr_mod hpos', h.last (by omega)] at hread
    constructor <;> simp only [length_append]
    · exact h.size
    · omega
    · exact fun _ => Nat.mod_lt _ hpos
    · rw [write_eq_ring hhead, hnew, Ring.read_congr_mod hstart, hread, Nat.add_sub_add_right,
        drop_append_of_le_length (Nat.sub_le _ _)]

/-- A copy out of the ring is the part of the stream that far from its end. -/
theorem Holds.copy (h : Holds size r s) (hn : n ≤ back) (hb : back ≤ r.used) :
    vconRingCopy r back n = (s.drop (s.length - back)).take n := by
  have hused := h.used
  rw [← h.last hb, Ring.take_read hn]
  unfold vconRingCopy
  split
  · rw [show n = 0 by omega, Ring.read_zero]
  have hstart := Nat.mod_lt (r.head + r.size - back) (y := r.size) (by omega)
  simp only
  rcases Nat.le_total ((r.head + r.size - back) % r.size + n) r.size with hle | hge
  · rw [Ring.read_eq_of_le hle, Nat.zero_add, Nat.min_eq_right (by omega), Nat.sub_self,
      Mem.read_zero, append_nil]
  · rw [Ring.read_eq_of_ge (by omega) hge (by omega), Nat.zero_add, Nat.min_eq_left (by omega)]
    congr 2
    omega

/-! ## The console -/

/-- A call of `vcon_client_output`: what had been written then, and what the client got. -/
structure Output where
  total : Nat
  start : Nat
  size : Nat
  bytes : List Byte
  deriving DecidableEq

/-- `vcon_client_t`, and its history: where it was attached, and its outputs, the last one first. -/
structure Client where
  cursor : Nat
  attached : Nat
  outputs : List Output
  deriving DecidableEq

/-- `vcon_t`, and all that was written. -/
structure State where
  sb : VconRing
  total : Nat
  clients : Nat → Option Client
  written : List Byte

inductive Event where
  | write (bs : List Byte)
  | attach (k : Nat)
  | detach (k : Nat)
  | output (k size : Nat)
  | wait (k : Nat)

def vconCreate (scrollback : Nat) : State := ⟨⟨scrollback, 0, 0, fun _ => 0⟩, 0, fun _ => none, []⟩

def vconBackendWrite (v : State) (bs : List Byte) : State :=
  if bs = [] then v
  else
    { v with
      sb := vconRingAppend v.sb bs, total := v.total + bs.length, written := v.written ++ bs }

def clientPending (v : State) (c : Client) : Client × Nat :=
  let oldest := v.total - v.sb.used
  let c := { c with cursor := if c.cursor < oldest then oldest else c.cursor }
  (c, v.total - c.cursor)

def vconAttach (v : State) : Client := ⟨v.total - v.sb.used, v.total - v.sb.used, []⟩

def vconClientOutput (v : State) (c : Client) (size : Nat) : Client :=
  let p := clientPending v c
  let n := min p.2 size
  { p.1 with
    cursor := p.1.cursor + n
    outputs := ⟨v.total, p.1.cursor, size, vconRingCopy v.sb p.2 n⟩ :: p.1.outputs }

def State.set (v : State) (k : Nat) (c : Option Client) : State :=
  { v with clients := update v.clients k c }

/-- A call with the mutex held. -/
def step (v : State) : Event → Option State
  | .write bs => some (vconBackendWrite v bs)
  | .attach k => if v.clients k = none then some (v.set k (vconAttach v)) else none
  | .detach k => (v.clients k).map fun _ => v.set k none
  | .output k size => (v.clients k).map fun c => v.set k (vconClientOutput v c size)
  | .wait k => (v.clients k).map fun c => v.set k (clientPending v c).1

/-- The end of the last output. -/
def position (attached : Nat) : List Output → Nat
  | [] => attached
  | o :: _ => o.start + o.bytes.length

/-- The outputs are the stream `s` from `attached` on, each from where the last one ended; only
what was older than the last `window` bytes is skipped. -/
def Follows (window : Nat) (s : List Byte) (attached : Nat) : List Output → Prop
  | [] => True
  | o :: os => o.start = max (position attached os) (o.total - window) ∧ o.start ≤ o.total ∧
      o.total ≤ s.length ∧ o.bytes = ((s.take o.total).drop o.start).take o.size ∧
      Follows window s attached os

theorem Follows.append {os : List Output} (h : Follows window s attached os)
    (bs : List Byte) : Follows window (s ++ bs) attached os := by
  induction os with
  | nil => trivial
  | cons o os ih =>
    obtain ⟨hstart, hle, htotal, hbytes, hrest⟩ := h
    refine ⟨hstart, hle, ?_, ?_, ih hrest⟩
    · rw [length_append]; omega
    · rwa [take_append_of_le_length htotal]

/-- The cursor is at the end of the last output, or behind what has been lost since. -/
structure Client.Inv (window : Nat) (s : List Byte) (c : Client) : Prop where
  follows : Follows window s c.attached c.outputs
  ge : position c.attached c.outputs ≤ c.cursor
  le : c.cursor ≤ max (position c.attached c.outputs) (s.length - window)
  total : c.cursor ≤ s.length

structure Inv (size : Nat) (v : State) : Prop where
  total : v.total = v.written.length
  holds : Holds size v.sb v.written
  clients : ∀ k c, v.clients k = some c → c.Inv size v.written

variable {v : State} {c c' : Client} {avail : Nat}

theorem Inv.oldest (h : Inv size v) : v.total - v.sb.used = v.written.length - size := by
  rw [h.total, h.holds.used, h.holds.size]
  omega

theorem Inv.set (h : Inv size v) {k : Nat} {o : Option Client}
    (ho : ∀ c, o = some c → c.Inv size v.written) : Inv size (v.set k o) := by
  refine ⟨h.total, h.holds, fun k' c hc => ?_⟩
  simp only [State.set, update_apply] at hc
  split at hc
  · exact ho c hc
  · exact h.clients k' c hc

theorem Inv.write (h : Inv size v) (bs : List Byte) : Inv size (vconBackendWrite v bs) := by
  unfold vconBackendWrite
  split
  · exact h
  refine ⟨?_, h.holds.append bs, fun k c hc => ?_⟩
  · rw [length_append, ← h.total]
  obtain ⟨hfollows, hge, hle, htotal⟩ := h.clients k c hc
  refine ⟨hfollows.append bs, hge, ?_, ?_⟩
  all_goals
    simp only [length_append]
    omega

/-- The cursor after `client_pending` is where the next output has to start. -/
theorem Inv.pending (h : Inv size v) (hc : c.Inv size v.written)
    (hp : clientPending v c = (c', avail)) : c'.Inv size v.written ∧
      c'.cursor = max (position c'.attached c'.outputs) (v.written.length - size) ∧
      avail = v.written.length - c'.cursor := by
  obtain ⟨hfollows, hge, hle, htotal⟩ := hc
  have hcursor : (clientPending v c).1.cursor =
      max (position c.attached c.outputs) (v.written.length - size) := by
    simp only [clientPending, h.oldest]
    split <;> omega
  cases hp
  refine ⟨⟨hfollows, ?_, Nat.le_of_eq hcursor, ?_⟩, hcursor, congrArg (· - _) h.total⟩
  · exact hcursor ▸ Nat.le_max_left _ _
  · exact hcursor ▸ Nat.max_le.mpr ⟨Nat.le_trans hge htotal, Nat.sub_le _ _⟩

theorem Inv.output (h : Inv size v) (hc : c.Inv size v.written) (n : Nat) :
    (vconClientOutput v c n).Inv size v.written := by
  obtain ⟨⟨c', avail⟩, hp⟩ : ∃ p, clientPending v c = p := ⟨_, rfl⟩
  obtain ⟨⟨hfollows, -, -, hle⟩, hcursor, hback⟩ := h.pending hc hp
  have hused := h.total ▸ h.oldest
  have hcopy := h.holds.copy (Nat.min_le_left avail n) (by omega)
  rw [show v.written.length - avail = c'.cursor by omega] at hcopy
  have hbytes : vconRingCopy v.sb avail (min avail n) = (v.written.drop c'.cursor).take n := by
    rw [hcopy, take_eq_take_iff, length_drop]
    omega
  have hlen : (vconRingCopy v.sb avail (min avail n)).length = min avail n := by
    rw [hbytes, length_take, length_drop]
    omega
  rw [vconClientOutput, hp]
  constructor <;> simp only [position, Follows, hlen, h.total, take_length]
  · exact ⟨hcursor, hle, Nat.le_refl _, hbytes, hfollows⟩
  all_goals omega

theorem Inv.step {v' : State} {e : Event} (h : Inv size v) (hstep : step v e = some v') :
    Inv size v' := by
  cases e with
  | write bs => exact Option.some.inj hstep ▸ h.write bs
  | attach k =>
    obtain ⟨-, rfl⟩ := of_ite_some hstep
    refine h.set fun c hc => ?_
    cases hc
    refine ⟨trivial, Nat.le_refl _, Nat.le_max_left _ _, ?_⟩
    show v.total - v.sb.used ≤ _
    rw [h.oldest]
    exact Nat.sub_le _ _
  | detach k =>
    obtain ⟨c, hk, rfl⟩ := Option.map_eq_some_iff.mp hstep
    exact h.set fun _ hc => by cases hc
  | output k n =>
    obtain ⟨c, hk, rfl⟩ := Option.map_eq_some_iff.mp hstep
    exact h.set fun _ hc => Option.some.inj hc ▸ h.output (h.clients k c hk) n
  | wait k =>
    obtain ⟨c, hk, rfl⟩ := Option.map_eq_some_iff.mp hstep
    exact h.set fun _ hc => Option.some.inj hc ▸ (h.pending (h.clients k c hk) rfl).1

/-! ## The events -/

/-- What the backend writes. -/
def Event.data : Event → List Byte
  | .write bs => bs
  | _ => []

/-- What is asked for a client: where its output begins, and for each output how much had been
written and how much was wanted, the last one first. -/
abbrev Asked := Option (Nat × List (Nat × Nat))

/-- The bytes written so far, and what is asked for the client `k`, after one more event. -/
def ask (size k : Nat) (a : Nat × Asked) : Event → Nat × Asked
  | .write bs => (a.1 + bs.length, a.2)
  | .attach j => if j = k then (a.1, some (a.1 - size, [])) else a
  | .detach j => if j = k then (a.1, none) else a
  | .output j n => if j = k then (a.1, a.2.map fun c => (c.1, (a.1, n) :: c.2)) else a
  | .wait _ => a

def Client.asked (c : Client) : Nat × List (Nat × Nat) :=
  (c.attached, c.outputs.map fun o => (o.total, o.size))

def State.asked (v : State) (k : Nat) : Nat × Asked := (v.total, (v.clients k).map Client.asked)

theorem asked_set (v : State) (j k : Nat) (o : Option Client) :
    (v.set j o).asked k = if j = k then (v.total, o.map Client.asked) else v.asked k := by
  by_cases hk : j = k
  · subst hk
    simp [State.asked, State.set]
  · simp [State.asked, State.set, update_of_ne (Ne.symm hk), hk]

theorem step_asked {v' : State} {e : Event} (h : Inv size v) (hstep : step v e = some v')
    (k : Nat) : v'.asked k = ask size k (v.asked k) e ∧ v'.written = v.written ++ e.data := by
  cases e with
  | write bs =>
    obtain rfl := Option.some.inj hstep
    unfold vconBackendWrite
    split
    · subst bs
      exact ⟨rfl, (append_nil _).symm⟩
    · exact ⟨rfl, rfl⟩
  | attach j =>
    obtain ⟨-, rfl⟩ := of_ite_some hstep
    have holdest : v.total - v.sb.used = v.total - size := h.total ▸ h.total ▸ h.oldest
    rw [asked_set, vconAttach, holdest]
    exact ⟨rfl, (append_nil _).symm⟩
  | detach j =>
    obtain ⟨c, -, rfl⟩ := Option.map_eq_some_iff.mp hstep
    rw [asked_set]
    exact ⟨rfl, (append_nil _).symm⟩
  | output j n =>
    obtain ⟨c, hj, rfl⟩ := Option.map_eq_some_iff.mp hstep
    rw [asked_set]
    refine ⟨?_, (append_nil _).symm⟩
    simp only [ask]
    split
    · subst j
      rw [State.asked, hj]
      rfl
    · rfl
  | wait j =>
    obtain ⟨c, hj, rfl⟩ := Option.map_eq_some_iff.mp hstep
    rw [asked_set]
    refine ⟨?_, (append_nil _).symm⟩
    simp only [ask]
    split
    · subst j
      rw [State.asked, hj]
      rfl
    · rfl

theorem inv_of_run {es : List Event}
    (h : Run (fun v e v' => step v e = some v') (vconCreate size) es v) : Inv size v ∧
      v.written = es.flatMap Event.data ∧
      ∀ k, v.asked k = es.foldl (ask size k) (0, none) := by
  induction h with
  | nil =>
    exact ⟨⟨rfl, ⟨rfl, (Nat.zero_min size).symm, id, rfl⟩, fun _ _ hc => by cases hc⟩, rfl,
      fun _ => rfl⟩
  | snoc _ hs ih =>
    obtain ⟨hinv, hwritten, hasked⟩ := ih
    refine ⟨hinv.step hs, ?_, fun k => ?_⟩
    · rw [(step_asked hinv hs 0).2, hwritten, flatMap_append, flatMap_singleton]
    · rw [(step_asked hinv hs k).1, hasked, foldl_append, foldl_cons, foldl_nil]

/-- In every run: the ring holds the last bytes the backend wrote, as many as it has room for, and
every client was answered whenever it asked, with the stream in order from where it was attached,
without what was lost. -/
theorem scrollback_followed (size : Nat) (es : List Event) (v : State)
    (h : Run (fun v e v' => step v e = some v') (vconCreate size) es v) :
    v.written = es.flatMap Event.data ∧ v.sb.used = min v.written.length size ∧
    vconRingCopy v.sb v.sb.used v.sb.used = v.written.drop (v.written.length - v.sb.used) ∧
    ∀ k, (v.clients k).map Client.asked = (es.foldl (ask size k) (0, none)).2 ∧
      ∀ c, v.clients k = some c → Follows size v.written c.attached c.outputs := by
  obtain ⟨hinv, hwritten, hasked⟩ := inv_of_run h
  refine ⟨hwritten, by rw [hinv.holds.used, hinv.holds.size], ?_, fun k => ?_⟩
  · rw [hinv.holds.copy (Nat.le_refl _) (Nat.le_refl _), take_of_length_le]
    rw [length_drop]
    omega
  · exact ⟨congrArg Prod.snd (hasked k), fun c hc => (hinv.clients k c hc).follows⟩

/-- A client of a ring of three bytes that twice comes too late. -/
def lateClient : List Event :=
  [.write [1, 2], .attach 0, .output 0 1, .write [3, 4], .write [5], .output 0 2,
    .write [6, 7, 8, 9], .wait 0, .output 0 8]

theorem lateClient_followed : ∃ v, Run (fun v e v' => step v e = some v') (vconCreate 3)
    lateClient v ∧ ∃ c, v.clients 0 = some c ∧
      c.outputs.map Output.bytes = [[7, 8, 9], [3, 4], [1]] ∧
      Follows 3 (lateClient.flatMap Event.data) c.attached c.outputs := by
  have h : ∃ v ∈ exec step (vconCreate 3) lateClient,
      ∃ c ∈ v.clients 0, c.outputs.map Output.bytes = [[7, 8, 9], [3, 4], [1]] := by
    decide +kernel
  obtain ⟨v, hrun, c, hc, hbytes⟩ := exists_run h
  obtain ⟨hwritten, -, -, hclients⟩ := scrollback_followed 3 lateClient v hrun
  exact ⟨v, hrun, c, hc, hbytes, hwritten ▸ (hclients 0).2 c hc⟩

end Mios.Vcon
