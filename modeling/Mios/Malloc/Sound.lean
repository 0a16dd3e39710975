import Mios.Lib.Run
import Mios.Malloc.Region

/-! The allocator over whole runs: memory is added, blocks are allocated and freed, and the
applications write to the memory they hold. -/

namespace Mios.Malloc

open Lib List
open Lib.Dll
open Function (update update_of_ne update_self update_eq_self)

/-! ## Runs -/

/-- Memory that was added: where it starts, its first block and its sentinel. -/
structure Region where
  start : Nat
  blocks : Nat
  sentinel : Nat
  deriving DecidableEq

/-- A request that was served, with the pointer that was returned for it. -/
structure Alloc where
  ptr : Nat
  size : Nat
  al : Nat
  deriving DecidableEq

structure World where
  heap : Heap
  regions : List Region
  live : List Alloc

inductive Event where
  | addMem (start stop type prio : Nat)
  | malloc (size al type : Nat)
  | free (ptr : Nat)
  | write (mem : Mem Bool)

variable (t : Target)

def Target.region (start stop : Nat) : Region :=
  ⟨t.regionStart start, t.firstBlock (t.regionStart start), t.sentinel stop⟩

namespace World

def step (fuel : Nat) (w : World) : Event → Except Halt World
  | .addMem start stop type prio =>
      .ok { w with heap := heapAddMem t w.heap start stop type prio
                   regions := t.region start stop :: w.regions }
  | .malloc size al type =>
      (malloc0 t fuel w.heap size al type).map fun r =>
        { w with heap := r.1, live := r.2.toList.map (⟨·, size, al⟩) ++ w.live }
  | .free ptr =>
      (heapFree t w.heap.mem ptr).map fun m =>
        { w with heap := { w.heap with mem := m }, live := w.live.filter (·.ptr != ptr) }
  | .write mem => .ok { w with heap := { w.heap with mem := mem } }

/-- What the callers owe: memory that is added is not in use yet and holds a block and the
sentinel, an alignment is a power of two, only pointers that were returned are freed, and
applications write to the memory they were given. -/
def Allowed (w : World) : Event → Prop
  | .addMem start stop _ _ =>
      (t.region start stop).blocks < (t.region start stop).sentinel ∧
        ∀ r ∈ w.regions, r.sentinel + t.blockSize ≤ (t.region start stop).start ∨
          (t.region start stop).sentinel + t.blockSize ≤ r.start
  | .malloc _ al _ => al = 0 ∨ ∃ k, al = 2 ^ k
  | .free ptr => ptr = 0 ∨ ∃ x ∈ w.live, x.ptr = ptr
  | .write mem => ∀ a, (∀ x ∈ w.live, ¬(x.ptr ≤ a ∧ a < x.ptr + x.size)) → mem a = w.heap.mem a

/-- Before any memory is added. -/
def init (mem : Mem Bool) : World := ⟨⟨mem, []⟩, [], []⟩

end World

/-! ## The invariant -/

/-- The blocks `bs` of a region. -/
structure Layout (m : Mem Bool) (r : Region) (bs : List (Nat × Bool)) : Prop where
  chain : Chain m false 0 r.blocks bs r.sentinel
  sizes : ∀ b ∈ bs, t.blockSize ∣ b.1
  noPair : NoFreePair bs

/-- Regions do not share memory. -/
def Region.Apart (r s : Region) : Prop :=
  r.sentinel + t.blockSize ≤ s.start ∨ s.sentinel + t.blockSize ≤ r.start

instance : Std.Symm (Region.Apart t) := ⟨fun _ _ h => Or.symm h⟩

structure Region.Ok (r : Region) : Prop where
  start : r.start < r.blocks
  room : r.blocks < r.sentinel
  aligned : t.blockSize ∣ r.blocks

/-- The block in use at `a` with its size, in the blocks that `lay` gives for each region. -/
def Uses (lay : Nat → List (Nat × Bool)) (regions : List Region) (a n : Nat) : Prop :=
  ∃ r ∈ regions, (a, n, false) ∈ cells r.blocks (lay r.blocks)

/-- A request was served by this block. -/
structure Alloc.Served (x : Alloc) (a n : Nat) : Prop where
  ptr : x.ptr = a + t.blockSize
  size : t.blockSize + x.size ≤ n
  aligned : x.al = 0 ∨ x.al ∣ x.ptr

structure World.Inv (w : World) (lay : Nat → List (Nat × Bool)) : Prop where
  region : ∀ r ∈ w.regions, r.Ok t
  layout : ∀ r ∈ w.regions, Layout t w.heap.mem r (lay r.blocks)
  apart : w.regions.Pairwise (Region.Apart t)
  heaps : (w.heap.heaps.map (·.blocks)).Perm (w.regions.map (·.blocks))
  live : ∀ x ∈ w.live, ∃ a n, Uses lay w.regions a n ∧ x.Served t a n
  used : ∀ a n, Uses lay w.regions a n → ∃ x ∈ w.live, x.ptr = a + t.blockSize
  nodup : (w.live.map (·.ptr)).Nodup

variable {t} {w : World} {lay : Nat → List (Nat × Bool)} {r : Region} {m' : Mem Bool}

namespace World.Inv

section

variable (h : w.Inv t lay)
include h

/-- The headers of two regions lie apart. -/
theorem headers_apart {r s : Region} (hr : r ∈ w.regions) (hs : s ∈ w.regions)
    (hne : r ≠ s) : r.sentinel < s.blocks ∨ s.sentinel < r.blocks := by
  have h1 := (h.region r hr).start
  have h2 := (h.region s hs).start
  rcases h.apart.forall hr hs hne with hlt | hlt <;> omega

/-- A region is known by its first block. -/
theorem region_eq {r s : Region} (hr : r ∈ w.regions) (hs : s ∈ w.regions)
    (hb : r.blocks = s.blocks) : r = s := by
  apply Decidable.byContradiction
  intro hne
  have h1 := (h.region r hr).room
  have h2 := (h.region s hs).room
  rcases h.headers_apart hr hs hne with hlt | hlt <;> omega

theorem heap_region : ∀ hh ∈ w.heap.heaps, ∃ r ∈ w.regions, r.blocks = hh.blocks :=
  fun _ hmem => mem_map.mp (h.heaps.mem_iff.mp (mem_map_of_mem hmem))

/-- Where the cells of a region lie. -/
theorem cell_bounds (hr : r ∈ w.regions) {c : Nat × Nat × Bool}
    (hc : c ∈ cells r.blocks (lay r.blocks)) : r.blocks ≤ c.1 ∧ c.1 + c.2.1 ≤ r.sentinel := by
  have hb := mem_cells_bounds hc
  rw [← (h.layout r hr).chain.end_eq] at hb
  exact hb

/-- No header lies in the memory behind the header of a block in use. -/
theorem header_outside (hr : r ∈ w.regions) {a n y : Nat} (hu : Uses lay w.regions a n)
    (hy : y = r.sentinel ∨ ∃ c ∈ cells r.blocks (lay r.blocks), y = c.1) : y ≤ a ∨ a + n ≤ y := by
  obtain ⟨s, hs, hmem⟩ := hu
  have hbs := h.cell_bounds hs hmem
  have hry : r.blocks ≤ y ∧ y ≤ r.sentinel := by
    rcases hy with rfl | ⟨c, hc, rfl⟩
    · exact ⟨Nat.le_of_lt (h.region r hr).room, le_rfl⟩
    · have hb := h.cell_bounds hr hc
      omega
  by_cases hrs : r = s
  · subst hrs
    rcases hy with rfl | ⟨c, hc, rfl⟩
    · exact .inr hbs.2
    rcases cells_apart hc hmem with rfl | hlt | hlt
    · exact .inl le_rfl
    · left
      simp only at hlt
      omega
    · exact .inr hlt
  · simp only at hbs
    rcases h.headers_apart hr hs hrs with hlt | hlt <;> omega

/-- Two blocks in use with different addresses do not overlap. -/
theorem uses_apart {a n b k : Nat} (ha : Uses lay w.regions a n)
    (hb : Uses lay w.regions b k) (hne : a ≠ b) : a + n ≤ b ∨ b + k ≤ a := by
  obtain ⟨s, hs, hmem⟩ := hb
  have hout := h.header_outside hs ha (.inr ⟨_, hmem, rfl⟩)
  obtain ⟨r, hr, hmem'⟩ := ha
  have hout' := h.header_outside hr ⟨s, hs, hmem⟩ (.inr ⟨_, hmem', rfl⟩)
  simp only at hout hout'
  omega

end

end World.Inv

/-! ## Changes of one region -/

namespace World.Inv

variable {bs' : List (Nat × Bool)} (h : w.Inv t lay) (hr : r ∈ w.regions)

include h hr

theorem blocks_ne {s : Region} (hs : s ∈ w.regions) (hne : s ≠ r) : s.blocks ≠ r.blocks :=
  fun hb => hne (h.region_eq hs hr hb)

/-- The other regions stay as they are. -/
theorem layout_relay (hlay : Layout t m' r bs')
    (hsame : ∀ y, y < r.blocks ∨ r.sentinel < y → m' y = w.heap.mem y) :
    ∀ s ∈ w.regions, Layout t m' s (update lay r.blocks bs' s.blocks) := by
  intro s hs
  by_cases hsr : s = r
  · rw [hsr, update_self]
    exact hlay
  rw [update_of_ne (h.blocks_ne hr hs hsr)]
  obtain ⟨hchain, hsizes, hpair⟩ := h.layout s hs
  refine ⟨hchain.same ?_, hsizes, hpair⟩
  intro y hy hye
  apply hsame
  rcases h.headers_apart hs hr hsr with hlt | hlt <;> omega

/-- The blocks in use that are not in the changed region, and those in it. -/
theorem uses_relay (bs' : List (Nat × Bool)) (a n : Nat) :
    Uses (update lay r.blocks bs') w.regions a n ↔
      (∃ s ∈ w.regions, s ≠ r ∧ (a, n, false) ∈ cells s.blocks (lay s.blocks)) ∨
        (a, n, false) ∈ cells r.blocks bs' := by
  constructor
  · rintro ⟨s, hs, hmem⟩
    by_cases hsr : s = r
    · rw [hsr, update_self] at hmem
      exact .inr hmem
    · rw [update_of_ne (h.blocks_ne hr hs hsr)] at hmem
      exact .inl ⟨s, hs, hsr, hmem⟩
  · rintro (⟨s, hs, hsr, hmem⟩ | hmem)
    · refine ⟨s, hs, ?_⟩
      rw [update_of_ne (h.blocks_ne hr hs hsr)]
      exact hmem
    · refine ⟨r, hr, ?_⟩
      rw [update_self]
      exact hmem

theorem uses_iff (a n : Nat) : Uses lay w.regions a n ↔
      (∃ s ∈ w.regions, s ≠ r ∧ (a, n, false) ∈ cells s.blocks (lay s.blocks)) ∨
        (a, n, false) ∈ cells r.blocks (lay r.blocks) := by
  have hrelay := h.uses_relay hr (lay r.blocks) a n
  rwa [update_eq_self] at hrelay

/-- A block of another region is not at an address of this one. -/
theorem not_other {a n : Nat} (ha : r.blocks ≤ a) (hae : a ≤ r.sentinel) :
    ¬ ∃ s ∈ w.regions, s ≠ r ∧ (a, n, false) ∈ cells s.blocks (lay s.blocks) := by
  rintro ⟨s, hs, hsr, hmem⟩
  have hb := h.cell_bounds hs hmem
  simp only at hb
  rcases h.headers_apart hs hr hsr with hlt | hlt <;> omega

end World.Inv

/-- What is written behind the header of a block in use is no header. -/
theorem Layout.payload {m : Mem Bool} {bs : List (Nat × Bool)} {x u : Nat}
    (h : Layout t m r bs) (hx : (x, u, false) ∈ cells r.blocks bs)
    (hm : ∀ y, y ≤ x ∨ x + u ≤ y → m' y = m y) : Layout t m' r bs := by
  refine ⟨h.chain.same_cells ?_ ?_, h.sizes, h.noPair⟩
  · intro c hc
    apply hm
    rcases cells_apart hc hx with rfl | hlt | hlt
    · exact .inl le_rfl
    · left
      simp only at hlt
      omega
    · exact .inr hlt
  · apply hm
    right
    have hb := mem_cells_bounds hx
    rw [h.chain.end_eq]
    exact hb.2

/-! ## Added memory -/

theorem insertSorted_perm (hh : HeapHeader) (l : List HeapHeader) :
    (insertSorted hh l).Perm (hh :: l) := by
  induction l with
  | nil => exact .refl _
  | cons x xs ih =>
    unfold insertSorted
    split
    · exact .refl _
    · exact (ih.cons x).trans (.swap hh x xs)

theorem Target.region_ok (t : Target) (start stop : Nat)
    (hroom : (t.region start stop).blocks < (t.region start stop).sentinel) :
    (t.region start stop).Ok t := by
  refine ⟨?_, hroom, dvd_align _ _⟩
  have hle := le_align (a := t.regionStart start + t.headerSize) t.blockSize_pos
  have hpos : 0 < t.headerSize := by
    unfold Target.headerSize
    split <;> omega
  simp only [Target.region, Target.firstBlock]
  omega

variable {al : Nat}

theorem World.Inv.addMem (h : w.Inv t lay)
    {start stop type prio : Nat} (ha : w.Allowed t (.addMem start stop type prio)) :
    ∃ lay', World.Inv t { w with heap := heapAddMem t w.heap start stop type prio
                                 regions := t.region start stop :: w.regions } lay' := by
  obtain ⟨hroom, hapart⟩ := ha
  have hok := t.region_ok start stop hroom
  have hheap : heapAddMem t w.heap start stop type prio =
      ⟨(w.heap.mem.set (t.region start stop).blocks ⟨(t.region start stop).sentinel, 0, true⟩).set
        (t.region start stop).sentinel ⟨0, (t.region start stop).blocks, false⟩,
        insertSorted ⟨(t.region start stop).blocks, type, prio⟩ w.heap.heaps⟩ := rfl
  have hdvd : t.blockSize ∣ (t.region start stop).sentinel := dvd_align _ _
  rw [hheap]
  generalize t.region start stop = r at hroom hapart hok hdvd
  have hne : ∀ s ∈ w.regions, s.blocks ≠ r.blocks := by
    intro s hs
    have h1 := (h.region s hs).start
    have h2 := (h.region s hs).room
    have h3 := hok.start
    rcases hapart s hs with hlt | hlt <;> omega
  have huses : ∀ a n, Uses (update lay r.blocks [(r.sentinel - r.blocks, true)]) (r :: w.regions) a n ↔
      Uses lay w.regions a n := by
    intro a n
    constructor
    · rintro ⟨s, hs, hmem⟩
      rcases mem_cons.mp hs with rfl | hs
      · simp at hmem
      · rw [update_of_ne (hne s hs)] at hmem
        exact ⟨s, hs, hmem⟩
    · rintro ⟨s, hs, hmem⟩
      refine ⟨s, .tail _ hs, ?_⟩
      rw [update_of_ne (hne s hs)]
      exact hmem
  refine ⟨update lay r.blocks [(r.sentinel - r.blocks, true)], ?_, ?_, ?_, ?_, ?_, ?_, h.nodup⟩
  · exact forall_mem_cons.mpr ⟨hok, fun s hs => h.region s hs⟩
  · intro s hs
    rcases mem_cons.mp hs with rfl | hs
    · -- one free block up to the sentinel
      rw [update_self]
      have hend : s.blocks + (s.sentinel - s.blocks) = s.sentinel := by omega
      refine ⟨⟨by omega, ?_, ?_, ?_⟩, ?_, .singleton _⟩
      · simp (disch := omega) only [Mem.set_of_ne, Mem.set_self, hend]
      · exact hend.symm
      · simp only [hend, Mem.set_self]
      · intro b hb
        rw [mem_singleton.mp hb]
        exact Nat.dvd_sub hdvd hok.aligned
    · rw [update_of_ne (hne s hs)]
      obtain ⟨hchain, hsizes, hpair⟩ := h.layout s hs
      refine ⟨hchain.same ?_, hsizes, hpair⟩
      intro y hy hye
      have h1 := (h.region s hs).start
      have h3 := hok.start
      rcases hapart s hs with hlt | hlt <;> simp (disch := omega) only [Mem.set_of_ne]
  · exact .cons (fun s hs => Or.symm (hapart s hs)) h.apart
  · have hperm := (insertSorted_perm ⟨r.blocks, type, prio⟩ w.heap.heaps).map (·.blocks)
    exact hperm.trans (h.heaps.cons r.blocks)
  · intro x hx
    obtain ⟨a, n, hu, hserved⟩ := h.live x hx
    exact ⟨a, n, (huses a n).mpr hu, hserved⟩
  · intro a n hu
    exact h.used a n ((huses a n).mp hu)

/-! ## Allocation -/

/-- What the loop over the heaps can end with. -/
inductive Malloced (t : Target) (w : World) (lay : Nat → List (Nat × Bool))
    (res : Except Halt (Mem Bool × Option Nat)) (fuel size al type : Nat) : Prop
  | fuel (r : Region) (hr : r ∈ w.regions) (hle : fuel ≤ (lay r.blocks).length)
      (herr : res = .error .outOfFuel)
  | memory (herr : res = .error .outOfMemory)
  | none (hok : res = .ok (w.heap.mem, none))
  | some (r : Region) (hr : r ∈ w.regions) (m' : Mem Bool) (bs' : List (Nat × Bool)) (aligned : Nat)
      (hok : res = .ok (if type &&& memClear ≠ 0 then clear m' aligned size else m', some aligned))
      (hchain : Chain m' false 0 r.blocks bs' r.sentinel)
      (hcut : Cut t r.blocks (align size t.blockSize) aligned (lay r.blocks) bs')
      (hal : al = 0 ∨ al ∣ aligned)
      (hsame : ∀ y, y < r.blocks ∨ r.sentinel < y → m' y = w.heap.mem y)

/-- The alignment that is used is a multiple of the header size and of the one asked for. -/
theorem rounded_al (h : al = 0 ∨ ∃ k, al = 2 ^ k) :
    0 < (if al < t.blockSize then t.blockSize else al) ∧
      t.blockSize ∣ (if al < t.blockSize then t.blockSize else al) ∧
      (al = 0 ∨ al ∣ (if al < t.blockSize then t.blockSize else al)) := by
  have hpos := t.blockSize_pos
  by_cases hlt : al < t.blockSize
  · rw [if_pos hlt]
    refine ⟨hpos, Nat.dvd_refl _, ?_⟩
    rcases h with h | ⟨k, rfl⟩
    · exact .inl h
    · right
      obtain ⟨j, -, hj⟩ := t.blockSize_eq_two_pow
      rw [hj] at hlt ⊢
      exact Nat.pow_dvd_pow 2 (Nat.le_of_lt ((Nat.pow_lt_pow_iff_right (by omega)).mp hlt))
  · rw [if_neg hlt]
    rcases h with h | ⟨k, rfl⟩
    · omega
    · exact ⟨Nat.two_pow_pos k, blockSize_dvd_two_pow t (by omega), .inr (Nat.dvd_refl _)⟩

/-- The loop by induction over the heaps left to try; memory stays as it is until one of them
has room. -/
theorem mallocLoop_spec (h : w.Inv t lay)
    (fuel size type : Nat) (hal : al = 0 ∨ ∃ k, al = 2 ^ k) (l : List HeapHeader)
    (hl : ∀ hh ∈ l, ∃ r ∈ w.regions, r.blocks = hh.blocks) :
    Malloced t w lay (mallocLoop t fuel w.heap.mem size al type l) fuel size al type := by
  induction l with
  | nil =>
    unfold mallocLoop
    split
    · exact .memory rfl
    · exact .none rfl
  | cons hh rest ih =>
    have hrest := ih fun x hx => hl x (.tail _ hx)
    by_cases hskip : hh.blocks = 0 ∨ skipped type hh = true
    · simp only [mallocLoop, if_pos hskip]
      exact hrest
    obtain ⟨r, hr, hb⟩ := hl hh (.head _)
    obtain ⟨hpos, hdvd, hreq⟩ := rounded_al hal
    obtain ⟨hchain, hsizes, -⟩ := h.layout r hr
    have hwalk := allocFrom_spec t fuel hdvd hpos (dvd_align size t.blockSize) hchain
      (fun h0 => absurd rfl h0) (h.region r hr).aligned hsizes
    rw [← hb] at hskip
    simp only [mallocLoop, ← hb, if_neg hskip, heapAlloc]
    cases hwalk with
    | fuel hle herr =>
      rw [herr]
      exact .fuel r hr hle rfl
    | none hok =>
      rw [hok]
      exact hrest
    | some m' bs' aligned hok hchain' hcut hdvd' hsame =>
      rw [hok]
      refine .some r hr m' bs' aligned rfl hchain' hcut ?_ hsame
      exact hreq.imp_right fun hreq => Nat.dvd_trans hreq hdvd'

theorem World.Inv.malloc (h : w.Inv t lay)
    (cleared : Bool) (hr : r ∈ w.regions) {bs' : List (Nat × Bool)}
    {size aligned : Nat} (hchain : Chain m' false 0 r.blocks bs' r.sentinel)
    (hcut : Cut t r.blocks (align size t.blockSize) aligned (lay r.blocks) bs')
    (hal : al = 0 ∨ al ∣ aligned)
    (hsame : ∀ y, y < r.blocks ∨ r.sentinel < y → m' y = w.heap.mem y) : World.Inv t { w with
      heap := ⟨if cleared then clear m' aligned size else m', w.heap.heaps⟩
      live := ⟨aligned, size, al⟩ :: w.live } (update lay r.blocks bs') := by
  have hpos := t.blockSize_pos
  have hle := le_align (a := size) hpos
  have hlay := h.layout r hr
  obtain ⟨x, u, hx, hu, hfresh, hused⟩ := hcut.used t hlay.chain.pos
  have hmem : (x, u, false) ∈ cells r.blocks bs' := (hused x u).mpr (.inr ⟨rfl, rfl⟩)
  have hbounds := mem_cells_bounds hmem
  rw [← hchain.end_eq] at hbounds
  -- the memory that is cleared lies in the new block
  have hclear : ∀ y, y ≤ x ∨ x + u ≤ y →
      (if cleared then clear m' aligned size else m') y = m' y := by
    intro y hy
    split
    · exact if_neg (by omega)
    · rfl
  have hlay' : Layout t (if cleared then clear m' aligned size else m') r bs' :=
    Layout.payload ⟨hchain, hcut.sizes t hlay.sizes, hcut.noFreePair t hlay.noPair⟩ hmem hclear
  have hsame' : ∀ y, y < r.blocks ∨ r.sentinel < y →
      (if cleared then clear m' aligned size else m') y = w.heap.mem y := by
    intro y hy
    rw [hclear y (by omega), hsame y hy]
  have huses : ∀ a n, Uses (update lay r.blocks bs') w.regions a n ↔
      Uses lay w.regions a n ∨ a = x ∧ n = u := by
    intro a n
    rw [h.uses_relay hr, h.uses_iff hr, hused, or_assoc]
  refine ⟨h.region, h.layout_relay hr hlay' hsame', h.apart, h.heaps, ?_, ?_, ?_⟩
  · intro y hy
    rcases mem_cons.mp hy with rfl | hy
    · exact ⟨x, u, (huses x u).mpr (.inr ⟨rfl, rfl⟩), hx, by simp only; omega, hal⟩
    · obtain ⟨a, n, hua, hserved⟩ := h.live y hy
      exact ⟨a, n, (huses a n).mpr (.inl hua), hserved⟩
  · intro a n hua
    rcases (huses a n).mp hua with hua | ⟨rfl, rfl⟩
    · obtain ⟨y, hy, hptr⟩ := h.used a n hua
      exact ⟨y, .tail _ hy, hptr⟩
    · exact ⟨_, mem_cons_self, hx⟩
  · -- a block in use has this pointer only if it has this address
    refine nodup_cons.mpr ⟨?_, h.nodup⟩
    intro hmem'
    obtain ⟨y, hy, hptr⟩ := mem_map.mp hmem'
    obtain ⟨a, n, hua, hserved⟩ := h.live y hy
    have hax : a = x := by
      have hp := hserved.ptr
      simp only at hptr
      omega
    subst hax
    rcases (h.uses_iff hr a n).mp hua with hother | hmem''
    · exact h.not_other hr hbounds.1 (by omega) hother
    · exact hfresh n hmem''

/-! ## Release -/

theorem World.Inv.free (h : w.Inv t lay) {x : Alloc} (hx : x ∈ w.live) (fuel : Nat) :
    ∃ m' lay', w.step t fuel (.free x.ptr) = .ok { w with
        heap := { w.heap with mem := m' }, live := w.live.filter (·.ptr != x.ptr) } ∧
      World.Inv t { w with
        heap := { w.heap with mem := m' }, live := w.live.filter (·.ptr != x.ptr) } lay' := by
  obtain ⟨a, n, ⟨r, hr, hmem⟩, hserved⟩ := h.live x hx
  have hlay := h.layout r hr
  have hbounds := h.cell_bounds hr hmem
  obtain ⟨pre, post, hbs, ha⟩ := exists_of_mem_cells hmem
  rw [hbs] at hlay
  have hpos := hlay.chain.pos
  obtain ⟨pre', post', i, j, haround⟩ := exists_around hlay.noPair (fun b hb => hpos b (by
    simp only [mem_append, mem_cons] at hb ⊢
    exact hb.imp_right .inr))
  have hr0 : 0 < r.blocks := Nat.lt_of_le_of_lt (Nat.zero_le _) (h.region r hr).start
  obtain ⟨m', hfree, hchain, hsame⟩ := heapFree_spec t hr0 hlay.chain haround
  rw [← ha, ← hserved.ptr] at hfree
  have hused := haround.used (a := r.blocks) hpos
  rw [← ha, ← hbs] at hused
  have hlay' : Layout t m' r (pre' ++ (i + (n + j), true) :: post') :=
    ⟨hchain, haround.sizes t hlay.sizes, haround.noFreePair hlay.noPair⟩
  have huses : ∀ b k, Uses (update lay r.blocks (pre' ++ (i + (n + j), true) :: post')) w.regions b k ↔
      Uses lay w.regions b k ∧ b ≠ a := by
    intro b k
    rw [h.uses_relay hr, h.uses_iff hr, hused]
    constructor
    · rintro (hother | ⟨hmem', hne⟩)
      · refine ⟨.inl hother, ?_⟩
        rintro rfl
        exact h.not_other hr hbounds.1 (by simp only at hbounds; omega) hother
      · exact ⟨.inr hmem', hne⟩
    · rintro ⟨hother | hmem', hne⟩
      · exact .inl hother
      · exact .inr ⟨hmem', hne⟩
  refine ⟨m', _, by simp only [World.step, hfree, Except.map], h.region,
    h.layout_relay hr hlay' hsame, h.apart, h.heaps, ?_, ?_, ?_⟩
  · intro y hy
    obtain ⟨hy, hne⟩ := mem_filter.mp hy
    obtain ⟨b, k, hu, hyserved⟩ := h.live y hy
    refine ⟨b, k, (huses b k).mpr ⟨hu, ?_⟩, hyserved⟩
    rintro rfl
    exact bne_iff_ne.mp hne (hyserved.ptr.trans hserved.ptr.symm)
  · intro b k hu
    obtain ⟨hu, hne⟩ := (huses b k).mp hu
    obtain ⟨y, hy, hptr⟩ := h.used b k hu
    refine ⟨y, mem_filter.mpr ⟨hy, bne_iff_ne.mpr ?_⟩, hptr⟩
    have hp := hserved.ptr
    omega
  · exact h.nodup.sublist (filter_sublist.map _)

/-! ## Steps -/

namespace World

/-- What applications write is in the memory they hold, where no header is. -/
theorem Inv.write (h : w.Inv t lay) {mem : Mem Bool} (ha : w.Allowed t (.write mem)) :
    Inv t { w with heap := { w.heap with mem := mem } } lay := by
  refine { h with layout := ?_ }
  intro r hr
  have hheader : ∀ y, (y = r.sentinel ∨ ∃ c ∈ cells r.blocks (lay r.blocks), y = c.1) →
      mem y = w.heap.mem y := by
    intro y hy
    apply ha
    rintro x hx ⟨hle, hlt⟩
    obtain ⟨a, n, hu, hserved⟩ := h.live x hx
    have hout := h.header_outside hr hu hy
    have hptr := hserved.ptr
    have hsize := hserved.size
    have hpos := t.blockSize_pos
    omega
  obtain ⟨hchain, hsizes, hpair⟩ := h.layout r hr
  exact ⟨hchain.same_cells (fun c hc => hheader _ (.inr ⟨c, hc, rfl⟩)) (hheader _ (.inl rfl)),
    hsizes, hpair⟩

/-- The fuel that a walk over every region needs. -/
def rounds (lay : Nat → List (Nat × Bool)) (w : World) : Nat :=
  (w.regions.map fun r => (lay r.blocks).length + 1).sum

theorem length_lt_rounds (hr : r ∈ w.regions)
    (lay : Nat → List (Nat × Bool)) : (lay r.blocks).length < w.rounds lay := by
  unfold rounds
  generalize w.regions = l at hr
  induction l with
  | nil => cases hr
  | cons s l ih =>
    simp only [map_cons, sum_cons]
    rcases mem_cons.mp hr with rfl | hr
    · omega
    · have hlt := ih hr
      omega

/-- With enough fuel a step that is allowed is taken, or there is no memory; and every step keeps
the invariant. -/
theorem Inv.step (h : w.Inv t lay) {e : Event} (ha : w.Allowed t e) (fuel : Nat) :
    (∃ w' lay', w.step t fuel e = .ok w' ∧ w'.Inv t lay') ∨ w.step t fuel e = .error .outOfMemory ∨
      fuel ≤ w.rounds lay ∧ w.step t fuel e = .error .outOfFuel := by
  cases e with
  | addMem start stop type prio =>
    obtain ⟨lay', hinv⟩ := h.addMem ha
    exact .inl ⟨_, lay', rfl, hinv⟩
  | malloc size al type =>
    have hloop := mallocLoop_spec h fuel size type ha _ h.heap_region
    simp only [World.step, malloc0]
    cases hloop with
    | fuel r hr hle herr =>
      rw [herr]
      exact .inr (.inr ⟨Nat.le_of_lt (Nat.lt_of_le_of_lt hle (length_lt_rounds hr lay)), rfl⟩)
    | memory herr =>
      rw [herr]
      exact .inr (.inl rfl)
    | none hok =>
      rw [hok]
      exact .inl ⟨_, lay, rfl, { h with }⟩
    | some r hr m' bs' aligned hok hchain hcut hal hsame =>
      rw [hok]
      have hinv := h.malloc (decide (type &&& memClear ≠ 0)) hr hchain hcut hal hsame
      simp only [decide_eq_true_eq] at hinv
      exact .inl ⟨_, _, rfl, hinv⟩
  | free ptr =>
    left
    by_cases hptr : ptr = 0
    · -- no live pointer is null
      have hall : w.live.filter (·.ptr != ptr) = w.live := by
        refine filter_eq_self.mpr fun x hx => bne_iff_ne.mpr ?_
        obtain ⟨a, n, -, hserved⟩ := h.live x hx
        have hp := hserved.ptr
        have hpos := t.blockSize_pos
        omega
      refine ⟨w, lay, ?_, h⟩
      simp only [World.step, heapFree, if_pos hptr, Except.map, hall]
    · rcases ha with h0 | ⟨x, hx, rfl⟩
      · exact absurd h0 hptr
      · obtain ⟨m', lay', hstep, hinv⟩ := h.free hx fuel
        exact ⟨_, lay', hstep, hinv⟩
  | write mem => exact .inl ⟨_, lay, rfl, h.write ha⟩

theorem inv_init (mem : Mem Bool) : (init mem).Inv t fun _ => [] := by
  refine ⟨nofun, nofun, .nil, .refl _, nofun, ?_, .nil⟩
  rintro a n ⟨r, hr, -⟩
  cases hr

theorem Inv.of_step {w' : World} {e : Event} {fuel : Nat} (h : w.Inv t lay) (ha : w.Allowed t e)
    (hstep : w.step t fuel e = .ok w') : ∃ lay', w'.Inv t lay' := by
  have hs := h.step ha fuel
  rw [hstep] at hs
  rcases hs with ⟨w'', lay', hok, hinv⟩ | herr | ⟨-, herr⟩
  · cases hok
    exact ⟨lay', hinv⟩
  · cases herr
  · cases herr

/-! ## The heap -/

/-- The blocks of every region tile it up to the sentinel, linked both ways and no two free
ones next to each other; every pointer that was returned belongs to a block in use with room
for what was asked for, at the alignment asked for; and no two of them share memory, their
headers included. -/
structure Sound (t : Target) (w : World) : Prop where
  tiled : ∀ r ∈ w.regions, ∃ bs,
    Chain w.heap.mem false 0 r.blocks bs r.sentinel ∧ NoFreePair bs
  served : ∀ x ∈ w.live, ∃ r ∈ w.regions, ∃ bs a n,
    Chain w.heap.mem false 0 r.blocks bs r.sentinel ∧ (a, n, false) ∈ cells r.blocks bs ∧
      x.ptr = a + t.blockSize ∧ x.ptr + x.size ≤ a + n ∧ (x.al = 0 ∨ x.al ∣ x.ptr)
  disjoint : w.live.Pairwise fun x y =>
    x.ptr + x.size ≤ y.ptr - t.blockSize ∨ y.ptr + y.size ≤ x.ptr - t.blockSize

theorem Inv.sound (h : w.Inv t lay) : w.Sound t := by
  refine ⟨?_, ?_, ?_⟩
  · intro r hr
    exact ⟨lay r.blocks, (h.layout r hr).chain, (h.layout r hr).noPair⟩
  · intro x hx
    obtain ⟨a, n, ⟨r, hr, hmem⟩, hserved⟩ := h.live x hx
    have hptr := hserved.ptr
    have hsize := hserved.size
    exact ⟨r, hr, lay r.blocks, a, n, (h.layout r hr).chain, hmem, hptr, by omega, hserved.aligned⟩
  · have hne : w.live.Pairwise fun x y => x.ptr ≠ y.ptr := pairwise_map.mp h.nodup
    refine hne.imp_of_mem ?_
    intro x y hx hy hne
    obtain ⟨a, n, hua, hxs⟩ := h.live x hx
    obtain ⟨b, k, hub, hys⟩ := h.live y hy
    have h1 := hxs.ptr
    have h2 := hxs.size
    have h3 := hys.ptr
    have h4 := hys.size
    rcases h.uses_apart hua hub (by omega) with hlt | hlt <;> omega

/-- Without live pointers a region is one free block. -/
theorem Inv.one_block (h : w.Inv t lay) (hlive : w.live = []) (hr : r ∈ w.regions) :
    Chain w.heap.mem false 0 r.blocks [(r.sentinel - r.blocks, true)] r.sentinel := by
  obtain ⟨hchain, -, hpair⟩ := h.layout r hr
  have hend := hchain.end_eq
  have hroom := (h.region r hr).room
  have hfree : ∀ b ∈ lay r.blocks, b.2 = true := by
    rintro ⟨n, u⟩ hb
    cases u with
    | true => rfl
    | false =>
      obtain ⟨pre, post, hbs⟩ := append_of_mem hb
      have hmem : (r.blocks + total pre, n, false) ∈ cells r.blocks (lay r.blocks) := by
        rw [hbs]
        simp
      obtain ⟨x, hx, -⟩ := h.used _ _ ⟨r, hr, hmem⟩
      rw [hlive] at hx
      cases hx
  have hne : lay r.blocks ≠ [] := by
    intro hnil
    rw [hnil, total_nil] at hend
    omega
  have hone := all_free_eq hpair hfree hne
  rw [show r.sentinel - r.blocks = total (lay r.blocks) by omega, ← hone]
  exact hchain

/-- A 32 bit target, and memory with nothing in it. -/
def arm : Target := ⟨false, 0x20000000⟩

def blank : Mem Bool := fun _ => ⟨0, 0, false⟩

end World

end Mios.Malloc
