import Mios.Net.Neighbour
import Mios.Pbuf.Chain

/-! Fan-out of signals (`net/dsig.c`): the last interface whose filter lets a signal pass gets the
packet itself, the ones before it get copies. `pbuf_copy` copies the head of a chain only. -/

namespace Mios.Net.Dsig

open Lib Packet List
open Neighbour (maskFromPrefixlen)

/-- An entry of an output filter. The last one has a `prefixlen` of `0xff`. -/
structure Filter where
  addr : BitVec 32
  prefixlen : Nat
  flags : BitVec 32

/-- `output` says whether there is an `ni_dsig_output`. -/
structure Netif where
  id : Nat
  output : Bool
  filter : Option (List Filter)

structure Sub where
  id : Nat
  signal : BitVec 32
  mask : BitVec 32

/-- A call of `ni_dsig_output`; `original` tells the packet of the caller from a copy. -/
structure Call where
  dst : Nat
  pb : Packet
  flags : BitVec 32
  original : Bool

/-- The subscribers and the interfaces that are called, and the packet if it is returned. -/
structure Outcome where
  told : List Sub
  calls : List Call
  back : Packet

/-! ## The code -/

/-- The subscribers that `dsig_dispatch` calls. -/
def dsigDispatch (subs : List Sub) (solo : Option Nat) (signal : BitVec 32) : List Sub :=
  subs.filter fun ds => (solo.isNone || solo = some ds.id) && signal &&& ds.mask = ds.signal

def dsigFilterMatch (addr : BitVec 32) : List Filter → Option Filter
  | [] => none
  | dof :: rest =>
    if dof.prefixlen = 0xff then none
    else if addr &&& maskFromPrefixlen dof.prefixlen = dof.addr then some dof
    else dsigFilterMatch addr rest

/-- `pbuf_copy` without waiting. `NULL` is the empty chain. -/
def pbufCopy (P : Pool) : Packet → Packet
  | [] => []
  | s :: _ =>
    match P.get false with
    | some (some (x, y, _)) => [copySegment x y P s]
    | _ => []

section

-- `pool` is what the pools hold when a copy for an interface is made, and `takes` says whether an
-- interface keeps the packet that it is given
variable (id : BitVec 32) (exclude : Option Nat) (pb : Packet) (pool : Nat → Pool)
  (takes : Nat → Bool)

/-- The flags for the interface, if the signal goes there. -/
def Netif.flags (ni : Netif) : Option (BitVec 32) :=
  if exclude = some ni.id ∨ ni.output = false then none
  else ni.filter.elim (some 0) fun dof => (dsigFilterMatch id dof).map (·.flags)

/-- The call with a copy, if there is one. -/
def copyTo (t : Nat × BitVec 32) : List Call :=
  let copy := pbufCopy (pool t.1) pb
  if copy.isEmpty then [] else [⟨t.1, copy, t.2, false⟩]

/-- The loop of `dsig_output`, where `dst` is the interface that is next. -/
def outputLoop : Option (Nat × BitVec 32) → List Netif → List Call × Packet
  | none, [] => ([], pb)
  | some (dst, flags), [] => ([⟨dst, pb, flags, true⟩], if takes dst then [] else pb)
  | dst, ni :: nis =>
    match ni.flags id exclude with
    | none => outputLoop dst nis
    | some flags =>
      let r := outputLoop (some (ni.id, flags)) nis
      (dst.toList.flatMap (copyTo pb pool) ++ r.1, r.2)

def dsigOutput (subs : List Sub) (solo : Option Nat) (netifs : List Netif) : Outcome :=
  let r := outputLoop id exclude pb pool takes none netifs
  ⟨dsigDispatch subs solo id, r.1, r.2⟩

/-! ## Fan-out -/

/-- The interfaces that the signal is for, with the flags of their filters. -/
def targets (netifs : List Netif) : List (Nat × BitVec 32) :=
  netifs.filterMap fun ni => (ni.flags id exclude).map (ni.id, ·)

/-- A copy for the interface can be allocated. -/
def canCopy (t : Nat × BitVec 32) : Bool := ((pool t.1).get false).join.isSome

def Call.view (c : Call) : Nat × BitVec 32 × List Byte := (c.dst, c.flags, content c.pb)

/-- Each target is called once, with its flags and all bytes, unless a copy for it cannot be
allocated; and of the interfaces and the caller one has the packet. -/
structure FansOut (netifs : List Netif) (o : Outcome) : Prop where
  calls : o.calls.map Call.view =
    ((targets id exclude netifs).dropLast.filter (canCopy pool) ++
      (targets id exclude netifs).getLast?.toList).map fun t => (t.1, t.2, content pb)
  owner : o.calls.countP (fun c => c.original && takes c.dst) + (if o.back.isEmpty then 0 else 1) = 1

end

variable {id : BitVec 32} {exclude : Option Nat} {s : Segment} {rest : Packet} {pool : Nat → Pool}
  {takes : Nat → Bool}

theorem copyTo_view (t : Nat × BitVec 32) : (copyTo (s :: rest) pool t).map Call.view =
    ([t].filter (canCopy pool)).map fun t => (t.1, t.2, s.window) := by
  rw [filter_singleton, copyTo, canCopy, pbufCopy]
  cases (pool t.1).get false with
  | none => rfl
  | some r =>
    cases r with
    | none => rfl
    | some r =>
      have hread : content [copySegment r.1 r.2.1 (pool t.1) s] = s.window := by
        rw [content_cons, content_nil, append_nil]
        exact (congrArg (Mem.read _ _) (length_window s).symm).trans (Mem.read_write_self ..)
      exact congrArg (fun bytes => [(t.1, t.2, bytes)]) hread

theorem copyTo_owner (t : Nat × BitVec 32) :
    (copyTo (s :: rest) pool t).countP (fun c => c.original && takes c.dst) = 0 := by
  unfold copyTo
  dsimp only
  split <;> rfl

/-- By induction over the interfaces, with the one that is next in front of the targets. -/
theorem outputLoop_calls (netifs : List Netif) (dst : Option (Nat × BitVec 32)) :
    (outputLoop id exclude (s :: rest) pool takes dst netifs).1.map Call.view =
      ((dst.toList ++ targets id exclude netifs).dropLast.filter (canCopy pool)).map
        (fun t => (t.1, t.2, s.window)) ++
      (dst.toList ++ targets id exclude netifs).getLast?.toList.map
        fun t => (t.1, t.2, content (s :: rest)) := by
  induction netifs generalizing dst with
  | nil => cases dst <;> rfl
  | cons ni nis ih =>
    cases hf : ni.flags id exclude with
    | none =>
      rw [outputLoop, hf, targets, filterMap_cons_none (by rw [hf]; rfl)]
      exact ih dst
    | some flags =>
      have htargets : targets id exclude (ni :: nis) = (ni.id, flags) :: targets id exclude nis :=
        filterMap_cons_some (by rw [hf]; rfl)
      rw [outputLoop, hf, htargets, map_append, ih (some (ni.id, flags))]
      cases dst with
      | none => rfl
      | some t =>
        have hcopy : (copyTo (s :: rest) pool t).map Call.view = _ := copyTo_view t
        simp only [Option.toList_some, flatMap_singleton, hcopy, singleton_append,
          dropLast_cons_cons, List.getLast?_cons_cons]
        rw [← append_assoc, ← map_append, ← filter_append, singleton_append]

/-- The packet is with the last target or goes back. -/
theorem outputLoop_owner (netifs : List Netif) (dst : Option (Nat × BitVec 32)) :
    (outputLoop id exclude (s :: rest) pool takes dst netifs).1.countP
        (fun c => c.original && takes c.dst) +
      (if (outputLoop id exclude (s :: rest) pool takes dst netifs).2.isEmpty then 0 else 1) = 1 := by
  induction netifs generalizing dst with
  | nil =>
    cases dst with
    | none => rfl
    | some t => cases ht : takes t.1 <;> simp [outputLoop, ht]
  | cons ni nis ih =>
    cases hf : ni.flags id exclude with
    | none =>
      rw [outputLoop, hf]
      exact ih dst
    | some flags =>
      have hcopies : (dst.toList.flatMap (copyTo (s :: rest) pool)).countP
          (fun c => c.original && takes c.dst) = 0 := by
        cases dst with
        | none => rfl
        | some t =>
          rw [Option.toList_some, flatMap_singleton]
          exact copyTo_owner t
      rw [outputLoop, hf]
      dsimp only
      rw [countP_append, hcopies, Nat.zero_add]
      exact ih _

/-- The fan-out is right unless a copy is made of a packet that has bytes behind its head. -/
theorem dsigOutput_fans_out_iff (id : BitVec 32) (exclude : Option Nat) (s : Segment)
    (rest : Packet) (pool : Nat → Pool) (takes : Nat → Bool) (subs : List Sub) (solo : Option Nat)
    (netifs : List Netif) : FansOut id exclude (s :: rest) pool takes netifs
      (dsigOutput id exclude (s :: rest) pool takes subs solo netifs) ↔
    content rest = [] ∨ ∀ t ∈ (targets id exclude netifs).dropLast, canCopy pool t = false := by
  have hcalls : (dsigOutput id exclude (s :: rest) pool takes subs solo netifs).calls.map Call.view
      = _ := outputLoop_calls netifs none
  rw [Option.toList_none, nil_append] at hcalls
  generalize hl : (targets id exclude netifs).dropLast.filter (canCopy pool) = l at hcalls
  have hempty : l = [] ↔ ∀ t ∈ (targets id exclude netifs).dropLast, canCopy pool t = false := by
    simp [← hl, filter_eq_nil_iff]
  rw [← hempty]
  constructor
  · intro h
    have heq := hcalls.symm.trans h.calls
    rw [hl, map_append, append_left_inj] at heq
    cases l with
    | nil => exact .inr rfl
    | cons t l =>
      have hbytes := congrArg (fun v => v.2.2) (List.cons.inj heq).1
      exact .inl (self_eq_append_right.mp hbytes)
  · intro h
    refine ⟨?_, outputLoop_owner netifs none⟩
    rw [hcalls, hl, map_append, append_left_inj]
    rcases h with h | rfl
    · rw [content_cons, h, append_nil]
    · rfl

/-- Of a packet of two buffers the first interface gets the first only. -/
theorem dsigOutput_copies_head : ∃ (pb : Packet) (pool : Nat → Pool) (netifs : List Netif),
    (dsigOutput 7 none pb pool (fun _ => true) [] none netifs).calls.map Call.view =
      [(1, 0, [1]), (2, 0, [1, 2])] ∧
    ¬FansOut 7 none pb pool (fun _ => true) netifs
      (dsigOutput 7 none pb pool (fun _ => true) [] none netifs) := by
  refine ⟨[⟨1, 1, Pbuf.sop, 0, 2, 0, 1, fun _ => 1⟩, ⟨2, 2, Pbuf.eop, 0, 0, 0, 1, fun _ => 2⟩],
    fun _ => ⟨[3, 4], [3, 4], fun _ _ => 0, fun _ => 0⟩, [⟨1, true, none⟩, ⟨2, true, none⟩], rfl,
    fun h => absurd h.calls (by decide)⟩

end Mios.Net.Dsig
