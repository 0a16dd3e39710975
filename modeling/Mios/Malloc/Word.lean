import Mios.Lib.Word
import Mios.Malloc.Sound

/-! The allocation functions with the words they compute with: sizes and addresses wrap around,
and the test whether a request fits compares signed words. Where nothing wraps they do what
the model on numbers does. -/

namespace Mios.Malloc

open Lib BitVec
open Lib.Dll

variable (t : Target)

/-! ## The code -/

/-- The width of `size_t` and of a pointer. -/
def Target.bits : Nat := if t.lp64 then 64 else 32

abbrev Target.Word := BitVec t.bits

/-- `sizeof(heap_block_t)` -/
def Target.blockWord : t.Word := BitVec.ofNat _ t.blockSize

/-- `ALIGN` -/
def alignWord {w : Nat} (a b : BitVec w) : BitVec w := (a + b - 1) &&& ~~~(b - 1)

/-- The rest of a block becomes a free block of its own. -/
def cutTail (m : Mem Bool) (hb split : Nat) : Mem Bool :=
  let n := (m hb).next
  let m := (m.setTag split true).setNext hb split
  let m := (m.setNext split n).setPrev split hb
  m.setPrev n split

def splitTailWord (m : Mem Bool) (hb : Nat) (stop : t.Word) : Mem Bool :=
  if BitVec.ofNat _ (m hb).next - stop > t.blockWord then cutTail m hb stop.toNat else m

def carveWord (m : Mem Bool) (hb aligned stop : t.Word) : Except Halt (Mem Bool) :=
  let alignGap := aligned - (hb + t.blockWord)
  if alignGap ≠ 0 ∧ alignGap < t.blockWord then .error .assertion
  else
    -- the header before the aligned address, which may have wrapped
    let header := (aligned - t.blockWord).toNat
    let (m, hb) := if alignGap ≠ 0 then splitGap t m hb.toNat (header + t.blockSize) else (m, hb.toNat)
    .ok (splitTailWord t (m.setTag hb false) hb stop)

/-- The loop of `heap_alloc` from the block at `hb`; size and alignment are rounded. -/
def allocFromWord : Nat → Mem Bool → t.Word → t.Word → t.Word → Except Halt (Mem Bool × Option Nat)
  | 0, _, _, _, _ => .error .outOfFuel
  | fuel + 1, m, hb, size, al =>
      let next : t.Word := BitVec.ofNat _ (m hb.toNat).next
      if (m hb.toNat).next = 0 then .ok (m, none)
      else if !(m hb.toNat).tag then allocFromWord fuel m next size al
      else
        let aligned := alignWord (hb + t.blockWord) al
        if next.slt (aligned + size) then allocFromWord fuel m next size al
        else (carveWord t m hb aligned (aligned + size)).map fun m => (m, some aligned.toNat)

def heapAllocWord (fuel : Nat) (m : Mem Bool) (hb size al : t.Word) :
    Except Halt (Mem Bool × Option Nat) :=
  let al := if al < t.blockWord then t.blockWord else al
  allocFromWord t fuel m hb (alignWord size t.blockWord) al

/-- The loop of `malloc0` over the heaps; a null pointer counts as no memory. -/
def mallocLoopWord (fuel : Nat) (m : Mem Bool) (size al : t.Word) (type : Nat) :
    List HeapHeader → Except Halt (Mem Bool × Option Nat)
  | [] => if type &&& memMayFail = 0 then .error .outOfMemory else .ok (m, none)
  | hh :: rest =>
      if hh.blocks = 0 ∨ skipped type hh then mallocLoopWord fuel m size al type rest
      else
        match heapAllocWord t fuel m (BitVec.ofNat _ hh.blocks) size al with
        | .error e => .error e
        | .ok (m, none) | .ok (m, some 0) => mallocLoopWord fuel m size al type rest
        | .ok (m, some x) =>
            .ok (if type &&& memClear ≠ 0 then clear m x size.toNat else m, some x)

/-- The functions of the library that allocate. -/
inductive Request
  | malloc (size : t.Word)
  | calloc (nmemb size : t.Word)
  | memalign (size alignment : t.Word)
  | xalloc (size alignment : t.Word) (type : Nat)

variable {t}

namespace Request

/-- The size that is given to `malloc0`. -/
def size : Request t → t.Word
  | .malloc size | .memalign size _ | .xalloc size _ _ => size
  | .calloc nmemb size => size * nmemb

/-- The number of bytes that is asked for. -/
def bytes : Request t → Nat
  | .malloc size | .memalign size _ | .xalloc size _ _ => size.toNat
  | .calloc nmemb size => nmemb.toNat * size.toNat

def al : Request t → t.Word
  | .malloc _ | .calloc _ _ => 0
  | .memalign _ alignment | .xalloc _ alignment _ => alignment

def type : Request t → Nat
  | .malloc _ | .memalign _ _ => 0
  | .calloc _ _ => memClear
  | .xalloc _ _ type => type

def run (r : Request t) (fuel : Nat) (h : Heap) : Except Halt (Heap × Option Nat) :=
  (mallocLoopWord t fuel h.mem r.size r.al r.type h.heaps).map fun res => (⟨res.1, h.heaps⟩, res.2)

end Request

/-! ## Words and numbers -/

theorem Target.two_pow_bits (t : Target) : 2 ^ t.bits = 2 * 2 ^ (t.bits - 1) := by
  unfold Target.bits
  split <;> rfl

theorem Target.five_lt_bits (t : Target) : 5 < t.bits := by
  unfold Target.bits
  split <;> decide

theorem Target.blockWord_toNat (t : Target) : t.blockWord.toNat = t.blockSize := by
  obtain ⟨j, hj, heq⟩ := t.blockSize_eq_two_pow
  rw [Target.blockWord, heq, Word.toNat_two_pow (hj.trans t.five_lt_bits)]

/-- A power of two in the form the rounding lemmas want. -/
theorem toNat_alignWord {w : Nat} {a b : BitVec w} (hb : ∃ k, b.toNat = 2 ^ k)
    (h : a.toNat + b.toNat ≤ 2 ^ w) : (alignWord a b).toNat = align a.toNat b.toNat := by
  obtain ⟨k, hk⟩ := hb
  have hlt : k < w := by
    have := b.isLt
    rw [hk] at this
    exact (Nat.pow_lt_pow_iff_right (by decide)).mp this
  have hb : b = BitVec.ofNat w (2 ^ k) := by
    apply eq_of_toNat_eq
    rw [hk, Word.toNat_two_pow hlt]
  rw [hk] at h
  rw [alignWord, hk, hb, Word.toNat_align hlt h]
  rfl

/-- The memory from `blocks` up to `sentinel` is in the lower half of the words, and a block for
the request would end there too; or the memory is in the upper half, rounding does not wrap, and
a block would end before it reaches the upper half again. -/
def Within (t : Target) (blocks sentinel size al : Nat) : Prop :=
  sentinel + al + size ≤ 2 ^ (t.bits - 1) ∨ 2 ^ (t.bits - 1) ≤ blocks ∧
    sentinel + al ≤ 2 ^ t.bits ∧ sentinel + al + size ≤ 2 ^ t.bits + 2 ^ (t.bits - 1)

instance (t : Target) (blocks sentinel size al : Nat) :
    Decidable (Within t blocks sentinel size al) :=
  inferInstanceAs (Decidable (_ ∨ _))

section Agreement

variable {m : Mem Bool} {p x a n e : Nat} {size al : t.Word} {bs : List (Nat × Bool)}

theorem splitTail_eq (m : Mem Bool) (hb stop : Nat) :
    splitTail t m hb stop = if (m hb).next - stop > t.blockSize then cutTail m hb stop else m := rfl

theorem splitTailWord_eq {hb : Nat} {stop : t.Word} (hle : stop.toNat ≤ (m hb).next)
    (hlt : (m hb).next < 2 ^ t.bits) : splitTailWord t m hb stop = splitTail t m hb stop.toNat := by
  have hnext : (BitVec.ofNat t.bits (m hb).next).toNat = (m hb).next := by
    rw [toNat_ofNat, Nat.mod_eq_of_lt hlt]
  have hsub : (BitVec.ofNat t.bits (m hb).next - stop).toNat = (m hb).next - stop.toNat := by
    rw [toNat_sub_of_le (le_def.mpr (by omega)), hnext]
  rw [splitTail_eq, splitTailWord]
  simp only [gt_iff_lt, lt_def, hsub, t.blockWord_toNat]

/-- Cutting a block up, if the part that is taken lies in it. -/
theorem carveWord_eq {hb aligned stop : t.Word}
    (h : Chain m false p hb.toNat ((n, true) :: bs) e) (hp : p ≠ 0 → (m p).next = hb.toNat)
    (hlt : hb.toNat + n < 2 ^ t.bits) (hlo : hb.toNat + t.blockSize ≤ aligned.toNat)
    (hstop : aligned.toNat ≤ stop.toNat) (hhi : stop.toNat ≤ hb.toNat + n) :
    carveWord t m hb aligned stop = carve t m hb.toNat aligned.toNat stop.toNat := by
  have hpos := t.blockSize_pos
  have hblock := t.blockWord_toNat
  have hcell := h.2.1
  have haddr : (hb + t.blockWord).toNat = hb.toNat + t.blockSize := by
    rw [toNat_add_of_lt (by omega), hblock]
  have hgap : (aligned - (hb + t.blockWord)).toNat = aligned.toNat - (hb.toNat + t.blockSize) := by
    rw [toNat_sub_of_le (le_def.mpr (by omega)), haddr]
  have hheader : (aligned - t.blockWord).toNat + t.blockSize = aligned.toNat := by
    rw [toNat_sub_of_le (le_def.mpr (by omega)), hblock]
    omega
  have hzero : aligned - (hb + t.blockWord) = 0 ↔ aligned.toNat - (hb.toNat + t.blockSize) = 0 := by
    rw [← hgap, ← toNat_inj]
    simp
  unfold carveWord carve
  simp only [ne_eq, hzero, lt_def, hgap, hblock, hheader]
  split
  · rfl
  by_cases hg : aligned.toNat - (hb.toNat + t.blockSize) = 0
  · simp only [hg, not_true_eq_false, if_false]
    rw [splitTailWord_eq]
    all_goals simpa only [Mem.setTag, Mem.set_self, hcell]
  · obtain ⟨m', hsplit, hchain, -⟩ := splitGap_chain t h hp (Nat.pos_of_ne_zero hg) (by omega)
      (show aligned.toNat = _ by omega)
    have hnext := congrArg Cell.next hchain.2.2.2.1
    simp only at hnext
    simp only [hg, not_false_eq_true, if_true, hsplit]
    rw [splitTailWord_eq] <;> rw [hnext] <;> omega

/-- The walk over the blocks of a region does the same on words and on numbers. -/
theorem allocFromWord_eq (fuel : Nat) (hal : ∃ k, al.toNat = 2 ^ k)
    (hwithin : Within t a e size.toNat al.toNat) {hb : t.Word} (hle : a ≤ hb.toNat)
    (h : Chain m false p hb.toNat bs e) (hp : p ≠ 0 → (m p).next = hb.toNat)
    (hbs : ∀ b ∈ bs, t.blockSize ∣ b.1) :
    allocFromWord t fuel m hb size al = allocFrom t fuel m hb.toNat size.toNat al.toNat := by
  induction fuel generalizing bs p hb with
  | zero => rfl
  | succ fuel ih =>
    cases bs with
    | nil => simp only [allocFromWord, allocFrom, h.2, if_true]
    | cons b bs =>
      obtain ⟨n, u⟩ := b
      have hblock := t.blockWord_toNat
      have hbits := t.two_pow_bits
      have halpos : 0 < al.toNat := hal.elim fun k hk => hk ▸ Nat.two_pow_pos k
      have hcell := h.2.1
      have hend := h.2.2.end_eq
      have hn : t.blockSize ≤ n := Nat.le_of_dvd h.1 (hbs (n, u) (.head _))
      have htop : e + al.toNat ≤ 2 ^ t.bits := by
        rcases hwithin with hlow | hhigh
        · omega
        · exact hhigh.2.1
      have hnext : (BitVec.ofNat t.bits (hb.toNat + n)).toNat = hb.toNat + n := by
        rw [toNat_ofNat, Nat.mod_eq_of_lt (by omega)]
      have hchain := h.2.2
      have hback : hb.toNat ≠ 0 → (m hb.toNat).next = hb.toNat + n := fun _ => by rw [hcell]
      rw [← hnext] at hchain hback
      have hrest := ih (by omega) hchain hback fun b hb => hbs b (.tail _ hb)
      rw [hnext] at hrest
      have haddr : (hb + t.blockWord).toNat = hb.toNat + t.blockSize := by
        rw [toNat_add_of_lt (by omega), hblock]
      have haligned : (alignWord (hb + t.blockWord) al).toNat =
          align (hb.toNat + t.blockSize) al.toNat := by
        rw [toNat_alignWord hal (by omega), haddr]
      have hge := le_align (a := hb.toNat + t.blockSize) halpos
      have hlt := align_lt (a := hb.toNat + t.blockSize) halpos
      -- the test on signed words is the one on numbers
      have htest : (BitVec.ofNat t.bits (hb.toNat + n)).slt
          (alignWord (hb + t.blockWord) al + size) = true ↔
          align (hb.toNat + t.blockSize) al.toNat + size.toNat > hb.toNat + n := by
        rw [Word.slt_add_iff (Nat.zero_lt_of_lt t.five_lt_bits), hnext, haligned]
        rw [hnext, haligned]
        rcases hwithin with hlow | hhigh
        · left
          omega
        · right
          omega
      have hne : hb.toNat + n ≠ 0 := Nat.ne_of_gt (Nat.add_pos_right _ h.1)
      simp only [allocFromWord, allocFrom, hcell, hne, if_false, htest, haligned]
      cases u with
      | false => simp only [Bool.not_false, if_true, hrest]
      | true =>
        simp only [Bool.not_true, Bool.false_eq_true, if_false]
        split
        · exact hrest
        rename_i hfits
        have hstop : (alignWord (hb + t.blockWord) al + size).toNat =
            align (hb.toNat + t.blockSize) al.toNat + size.toNat := by
          have hroom : (alignWord (hb + t.blockWord) al).toNat + size.toNat < 2 ^ t.bits := by
            rw [haligned]
            omega
          rw [toNat_add_of_lt hroom, haligned]
        rw [carveWord_eq h hp (by omega) (by omega) (by omega) (by omega), haligned, hstop]

theorem heapAllocWord_eq (fuel : Nat) {hb : t.Word}
    (hal : al.toNat = 0 ∨ ∃ k, al.toNat = 2 ^ k) (hsize : size.toNat + t.blockSize ≤ 2 ^ t.bits)
    (hwithin : Within t hb.toNat e (align size.toNat t.blockSize)
      (if al.toNat < t.blockSize then t.blockSize else al.toNat))
    (h : Chain m false 0 hb.toNat bs e) (hbs : ∀ b ∈ bs, t.blockSize ∣ b.1) :
    heapAllocWord t fuel m hb size al = heapAlloc t fuel m hb.toNat size.toNat al.toNat := by
  have hblock := t.blockWord_toNat
  obtain ⟨j, -, hj⟩ := t.blockSize_eq_two_pow
  have hrounded : (alignWord size t.blockWord).toNat = align size.toNat t.blockSize := by
    rw [toNat_alignWord ⟨j, hblock.trans hj⟩ (by rw [hblock]; exact hsize), hblock]
  have hmax : (if al < t.blockWord then t.blockWord else al).toNat =
      if al.toNat < t.blockSize then t.blockSize else al.toNat := by
    simp only [lt_def, hblock]
    split
    · exact hblock
    · rfl
  have hpow : ∃ k, (if al < t.blockWord then t.blockWord else al).toNat = 2 ^ k := by
    rw [hmax]
    split
    · exact ⟨j, hj⟩
    · rcases hal with h0 | hk
      · have := t.blockSize_pos
        omega
      · exact hk
  unfold heapAllocWord heapAlloc
  rw [allocFromWord_eq fuel hpow (by rw [hrounded, hmax]; exact hwithin) le_rfl h
    (fun h0 => absurd rfl h0) hbs, hrounded, hmax]

end Agreement

/-! ## Runs -/

/-- The alignment is a power of two or none, neither the number of bytes nor its rounding exceeds
a word, and in no region an address for the request crosses into the other half of the words. -/
structure World.Tame (w : World) (r : Request t) : Prop where
  al : r.al.toNat = 0 ∨ ∃ k, r.al.toNat = 2 ^ k
  bytes : r.bytes + t.blockSize ≤ 2 ^ t.bits
  within : ∀ s ∈ w.regions, Within t s.blocks s.sentinel (align r.bytes t.blockSize)
    (if r.al.toNat < t.blockSize then t.blockSize else r.al.toNat)

/-- The bytes lie in one free block. -/
def World.Enough (t : Target) (w : World) (bytes x : Nat) : Prop :=
  ∃ s ∈ w.regions, ∃ bs a n, Chain w.heap.mem false 0 s.blocks bs s.sentinel ∧
    (a, n, true) ∈ cells s.blocks bs ∧ a + t.blockSize ≤ x ∧ x + bytes ≤ a + n

variable (t) in
inductive WordEvent where
  | addMem (start stop type prio : Nat)
  | request (r : Request t)
  | free (ptr : Nat)
  | write (mem : Mem Bool)

/-- The event on numbers. -/
def WordEvent.plain : WordEvent t → Event
  | .addMem start stop type prio => .addMem start stop type prio
  | .request r => .malloc r.bytes r.al.toNat r.type
  | .free ptr => .free ptr
  | .write mem => .write mem

namespace World

/-- Only allocation computes with sizes of the caller. -/
def stepWord (fuel : Nat) (w : World) : WordEvent t → Except Halt World
  | .request r =>
      (r.run fuel w.heap).map fun res =>
        { w with heap := res.1, live := res.2.toList.map (⟨·, r.bytes, r.al.toNat⟩) ++ w.live }
  | e => w.step t fuel e.plain

/-- What the callers owe, and what the code does not check. -/
def Safe (w : World) (e : WordEvent t) : Prop :=
  w.Allowed t e.plain ∧ ∀ r, e = .request r → w.Tame r

variable {w : World} {lay : Nat → List (Nat × Bool)} {r : Request t}

theorem Tame.size_eq (h : w.Tame r) : r.size.toNat = r.bytes := by
  have hpos := t.blockSize_pos
  have hlt : r.bytes < 2 ^ t.bits := by
    have := h.bytes
    omega
  cases r with
  | malloc size | memalign size alignment | xalloc size alignment type => rfl
  | calloc nmemb size =>
    simp only [Request.bytes] at hlt
    rw [Request.size, toNat_mul, Nat.mul_comm, Nat.mod_eq_of_lt hlt]
    rfl

/-- The loop over the heaps does the same on words and on numbers. -/
theorem mallocLoopWord_eq (h : w.Inv t lay) (ht : w.Tame r) (fuel : Nat) (l : List HeapHeader)
    (hl : ∀ hh ∈ l, ∃ s ∈ w.regions, s.blocks = hh.blocks) :
    mallocLoopWord t fuel w.heap.mem r.size r.al r.type l =
      mallocLoop t fuel w.heap.mem r.bytes r.al.toNat r.type l := by
  induction l with
  | nil => rfl
  | cons hh rest ih =>
    have hrest := ih fun x hx => hl x (.tail _ hx)
    obtain ⟨s, hs, hb⟩ := hl hh (.head _)
    obtain ⟨hchain, hsizes, -⟩ := h.layout s hs
    have hwithin := ht.within s hs
    have hok := h.region s hs
    obtain ⟨hpos, hdvd, -⟩ := rounded_al (t := t) ht.al
    have hblocks : (BitVec.ofNat t.bits hh.blocks).toNat = s.blocks := by
      have hbits := t.two_pow_bits
      have hroom := hok.room
      rw [← hb, toNat_ofNat, Nat.mod_eq_of_lt]
      rcases hwithin with hlow | hhigh <;> omega
    have halloc : heapAllocWord t fuel w.heap.mem (BitVec.ofNat _ hh.blocks) r.size r.al =
        heapAlloc t fuel w.heap.mem hh.blocks r.bytes r.al.toNat := by
      have hsize := ht.size_eq
      have hbytes := ht.bytes
      generalize lay s.blocks = bs at hchain hsizes
      rw [← hblocks] at hchain hwithin
      rw [← hsize] at hwithin hbytes ⊢
      rw [heapAllocWord_eq fuel ht.al hbytes hwithin hchain hsizes, hblocks, hb]
    have hwalk := allocFrom_spec t fuel hdvd hpos (dvd_align r.bytes t.blockSize) hchain
      (fun h0 => absurd rfl h0) hok.aligned hsizes
    have hsame : heapAlloc t fuel w.heap.mem hh.blocks r.bytes r.al.toNat =
      allocFrom t fuel w.heap.mem s.blocks (align r.bytes t.blockSize)
        (if r.al.toNat < t.blockSize then t.blockSize else r.al.toNat) := by rw [hb]; rfl
    simp only [mallocLoopWord, mallocLoop, halloc, hsame, hrest]
    split
    · rfl
    cases hwalk with
    | fuel hle herr => rw [herr]
    | none hok =>
      rw [hok]
      exact hrest
    | some m' bs' aligned hok hchain' hcut hdvd' hsame' =>
      -- a pointer that is returned is not null
      obtain ⟨x, u, hx, -⟩ := hcut.used t hchain.pos
      have hbpos := t.blockSize_pos
      obtain ⟨y, rfl⟩ : ∃ y, aligned = y + 1 := ⟨aligned - 1, by omega⟩
      rw [hok, ht.size_eq]
      rfl

/-- On what is safe, words and numbers take the same step. -/
theorem stepWord_eq (h : w.Inv t lay) {e : WordEvent t} (hsafe : w.Safe e) (fuel : Nat) :
    w.stepWord fuel e = w.step t fuel e.plain := by
  cases e with
  | addMem start stop type prio | free ptr | write mem => rfl
  | request r =>
    have hloop := mallocLoopWord_eq h (hsafe.2 r rfl) fuel _ h.heap_region
    simp only [stepWord, WordEvent.plain, World.step, Request.run, malloc0, hloop]

theorem inv_of_word_run {mem : Mem Bool} {es : List (WordEvent t)}
    (hrun : Run (Guarded (fun u e => u.Safe e) fun u e v => ∃ fuel, u.stepWord fuel e = .ok v)
      (init mem) es w) : ∃ lay, w.Inv t lay := by
  refine hrun.invariant (I := fun w => ∃ lay, w.Inv t lay) ⟨_, inv_init mem⟩ ?_
  rintro u e v ⟨lay, hu⟩ ⟨hsafe, fuel, hstep⟩
  rw [stepWord_eq hu hsafe fuel] at hstep
  exact hu.of_step hsafe.1 hstep

/-! ## The heap -/

/-- Freeing what is live, in any order, by induction over the pointers. -/
theorem free_all (h : w.Inv t lay) (ps : List Nat) (hps : ps.Perm (w.live.map (·.ptr))) :
    ∃ w' lay', Run (Guarded (fun u (e : WordEvent t) => u.Safe e) fun u e v =>
        ∃ fuel, u.stepWord fuel e = .ok v) w (ps.map .free) w' ∧
      w'.Inv t lay' ∧ w'.live = [] ∧ w'.regions = w.regions := by
  induction ps generalizing w lay with
  | nil =>
    refine ⟨w, lay, .nil w, h, ?_, rfl⟩
    exact List.map_eq_nil_iff.mp hps.nil_eq.symm
  | cons p ps ih =>
    obtain ⟨x, hx, rfl⟩ := List.mem_map.mp (hps.subset (.head _))
    obtain ⟨m', lay', hstep, hinv⟩ := h.free hx 0
    have hrest : ps.Perm ((w.live.filter (·.ptr != x.ptr)).map (·.ptr)) := by
      have hmap : (w.live.filter (·.ptr != x.ptr)).map (·.ptr) =
          (w.live.map (·.ptr)).filter (· != x.ptr) := by
        rw [List.filter_map]
        rfl
      rw [hmap]
      have hnd := hps.nodup_iff.mpr h.nodup
      have hp := hps.filter (· != x.ptr)
      have hself : ps.filter (· != x.ptr) = ps := by
        refine List.filter_eq_self.mpr fun q hq => bne_iff_ne.mpr ?_
        rintro rfl
        exact (List.nodup_cons.mp hnd).1 hq
      simp only [List.filter_cons, bne_self_eq_false, Bool.false_eq_true, if_false, hself] at hp
      exact hp
    obtain ⟨w', lay'', hrun, hinv', hlive, hregions⟩ := ih hinv hrest
    have hsafe : w.Safe (.free x.ptr : WordEvent t) := ⟨.inr ⟨x, hx, rfl⟩, fun _ he => by cases he⟩
    exact ⟨w', lay'', (Run.single ⟨hsafe, 0, hstep⟩).trans hrun, hinv', hlive, hregions⟩

/-- In every state that a run of safe calls reaches the heap is sound; freeing every live
pointer, in any order, gives back one free block for each region; and every safe call returns,
with a failed assertion never and with a panic only for lack of memory. -/
theorem heap_sound (t : Target) (mem : Mem Bool) (es : List (WordEvent t)) (w : World)
    (hrun : Run (Guarded (fun u e => u.Safe e) fun u e v => ∃ fuel, u.stepWord fuel e = .ok v)
      (init mem) es w) : w.Sound t ∧
      (∀ ps : List Nat, ps.Perm (w.live.map (·.ptr)) →
        ∃ w', Run (Guarded (fun u (e : WordEvent t) => u.Safe e) fun u e v =>
            ∃ fuel, u.stepWord fuel e = .ok v) w (ps.map .free) w' ∧
          w'.live = [] ∧ w'.regions = w.regions ∧ ∀ r ∈ w.regions,
            Chain w'.heap.mem false 0 r.blocks [(r.sentinel - r.blocks, true)] r.sentinel) ∧
      ∀ e : WordEvent t, w.Safe e → ∃ n, ∀ fuel, n < fuel →
        (∃ w', w.stepWord fuel e = .ok w') ∨ w.stepWord fuel e = .error .outOfMemory := by
  obtain ⟨lay, hinv⟩ := inv_of_word_run hrun
  refine ⟨hinv.sound, ?_, ?_⟩
  · intro ps hps
    obtain ⟨w', lay', hfree, hinv', hlive, hregions⟩ := free_all hinv ps hps
    exact ⟨w', hfree, hlive, hregions, fun r hr => hinv'.one_block hlive (hregions ▸ hr)⟩
  · intro e hsafe
    refine ⟨w.rounds lay, fun fuel hfuel => ?_⟩
    rw [stepWord_eq hinv hsafe fuel]
    rcases hinv.step hsafe.1 fuel with ⟨w', -, hok, -⟩ | herr | ⟨hle, -⟩
    · exact .inl ⟨w', hok⟩
    · exact .inr herr
    · omega

/-- 64 kB of memory on a 32 bit target. -/
def armWorld : World :=
  ⟨heapAddMem arm ⟨blank, []⟩ 0x20000000 0x20010000 0 10, [arm.region 0x20000000 0x20010000], []⟩

def addArm : WordEvent arm := .addMem 0x20000000 0x20010000 0 10

theorem addArm_allowed : (init blank).Allowed arm addArm.plain :=
  ⟨by decide, fun _ hs => absurd hs List.not_mem_nil⟩

theorem armWorld_run : Run (Guarded (fun u e => u.Safe e) fun u e v =>
    ∃ fuel, u.stepWord fuel e = .ok v) (init blank) [addArm] armWorld :=
  .single ⟨⟨addArm_allowed, fun _ h => by cases h⟩, 0, rfl⟩

/-- Two blocks are taken, one of them with an alignment that leaves a gap. -/
def takeTwo : List (Request arm) := [.malloc 10, .memalign 100 256]

theorem takeTwo_safe {u : World} (hu : u.regions = armWorld.regions) {r : Request arm}
    (hr : r ∈ takeTwo) : u.Safe (.request r) := by
  have hal : ∀ r ∈ takeTwo, r.al.toNat = 0 ∨ ∃ k, r.al.toNat = 2 ^ k := by
    simp only [takeTwo, List.forall_mem_cons]
    exact ⟨.inl rfl, .inr ⟨8, rfl⟩, fun _ h => absurd h List.not_mem_nil⟩
  have htame : ∀ r ∈ takeTwo, r.bytes + arm.blockSize ≤ 2 ^ arm.bits ∧
      ∀ s ∈ armWorld.regions, Within arm s.blocks s.sentinel (align r.bytes arm.blockSize)
        (if r.al.toNat < arm.blockSize then arm.blockSize else r.al.toNat) := by decide
  refine ⟨hal r hr, ?_⟩
  rintro _ ⟨⟩
  exact ⟨hal r hr, (htame r hr).1, hu ▸ (htame r hr).2⟩

theorem takeTwo_step {u v : World} (hu : u.regions = armWorld.regions) {r : Request arm}
    (hr : r ∈ takeTwo) (h : (u.stepWord 5 (.request r)).toOption = some v) :
    Guarded (fun u (e : WordEvent arm) => u.Safe e) (fun u e v => ∃ fuel, u.stepWord fuel e = .ok v)
      u (.request r) v ∧ v.regions = armWorld.regions := by
  have hs := ok_of_toOption h
  refine ⟨⟨takeTwo_safe hu hr, 5, hs⟩, ?_⟩
  simp only [stepWord, Except.map] at hs
  split at hs
  · cases hs
  · cases hs
    exact hu

theorem takeTwo_sound : ∃ w, Run (Guarded (fun u e => u.Safe e) fun u e v =>
      ∃ fuel, u.stepWord fuel e = .ok v) (init blank) (addArm :: takeTwo.map .request) w ∧
    w.live = [⟨0x20000100, 100, 256⟩, ⟨0x20000018, 10, 0⟩] ∧ w.Sound arm := by
  have hlive : (exec (fun w e => (w.stepWord 5 e).toOption) armWorld
      (takeTwo.map .request)).map (·.live) =
      some [⟨0x20000100, 100, 256⟩, ⟨0x20000018, 10, 0⟩] := by decide +kernel
  obtain ⟨w, hexec, hlive⟩ := Option.map_eq_some_iff.mp hlive
  simp only [takeTwo, List.map_cons, List.map_nil, exec, Option.bind_eq_some_iff,
    Option.some.injEq] at hexec
  obtain ⟨w₁, h₁, w₂, h₂, rfl⟩ := hexec
  obtain ⟨hfirst, hregions⟩ := takeTwo_step rfl (.head _) h₁
  obtain ⟨hsecond, -⟩ := takeTwo_step hregions (.tail _ (.head _)) h₂
  have hrun := (armWorld_run.snoc hfirst).snoc hsecond
  exact ⟨w₂, hrun, hlive, (heap_sound arm blank _ w₂ hrun).1⟩

/-- The block would end in the upper half of the words: there the test whether it fits takes the
end for a negative number. Neither sum wraps. -/
def farRequests : List (Request arm) := [.malloc 0x70000000, .memalign 16 0x80000000]

theorem Sound.live_le (h : w.Sound t) {x : Alloc} (hx : x ∈ w.live) :
    ∃ s ∈ w.regions, x.ptr + x.size ≤ s.sentinel := by
  obtain ⟨s, hs, bs, a, n, hchain, hmem, -, hle, -⟩ := h.served x hx
  have hbounds := mem_cells_bounds hmem
  rw [← hchain.end_eq] at hbounds
  exact ⟨s, hs, Nat.le_trans hle hbounds.2⟩

theorem far_block_unsound :
    (init blank).Allowed arm addArm.plain ∧ (init blank).stepWord 0 addArm = .ok armWorld ∧
      ∀ r ∈ farRequests, armWorld.Allowed arm (WordEvent.request r).plain ∧
        (∀ s ∈ armWorld.regions, s.sentinel + r.al.toNat + align r.bytes arm.blockSize < 2 ^ 32) ∧
        ∃ w, armWorld.stepWord 5 (.request r) = .ok w ∧ ¬w.Sound arm := by
  refine ⟨addArm_allowed, rfl, ?_⟩
  have hfar : ∀ r ∈ farRequests,
      (∀ s ∈ armWorld.regions, s.sentinel + r.al.toNat + align r.bytes arm.blockSize < 2 ^ 32) ∧
      ∃ w ∈ (armWorld.stepWord 5 (.request r)).toOption, ∃ x ∈ w.live, ∀ s ∈ w.regions,
        s.sentinel < x.ptr + x.size := by
    decide +kernel
  have hal : ∀ r ∈ farRequests, r.al.toNat = 0 ∨ ∃ k, r.al.toNat = 2 ^ k := by
    simp only [farRequests, List.forall_mem_cons]
    exact ⟨.inl rfl, .inr ⟨31, rfl⟩, fun _ h => absurd h List.not_mem_nil⟩
  intro r hr
  obtain ⟨hsum, w, hw, x, hx, hout⟩ := hfar r hr
  refine ⟨hal r hr, hsum, w, ok_of_toOption hw, fun hsound => ?_⟩
  obtain ⟨s, hs, hle⟩ := hsound.live_le hx
  exact absurd hle (Nat.not_le.mpr (hout s hs))

/-! ## What is returned -/

/-- A block that was cut out of a free one has the bytes in it. -/
theorem enough_of_cut (h : w.Inv t lay) {s : Region} (hs : s ∈ w.regions)
    {bs' : List (Nat × Bool)} {bytes x : Nat}
    (hcut : Cut t s.blocks (align bytes t.blockSize) x (lay s.blocks) bs') :
    Enough t w bytes x := by
  obtain ⟨pre, g, u, k, post, hbs, -, hx, hu, -⟩ := hcut
  have hle := le_align (a := bytes) t.blockSize_pos
  refine ⟨s, hs, lay s.blocks, s.blocks + total pre, g + u + k, (h.layout s hs).chain, ?_, ?_, ?_⟩
  · rw [hbs]
    simp
  · omega
  · omega

/-- In every run of safe calls, a safe request either fails or gets a block with as many bytes as
were asked for, inside one free block. -/
theorem never_too_little (t : Target) (mem : Mem Bool) (es : List (WordEvent t)) (w : World)
    (hrun : Run (Guarded (fun u e => u.Safe e) fun u e v => ∃ fuel, u.stepWord fuel e = .ok v)
      (init mem) es w) (r : Request t) (hr : w.Safe (.request r)) :
    ∃ n, ∀ fuel, n < fuel → r.run fuel w.heap = .error .outOfMemory ∨
      r.run fuel w.heap = .ok (w.heap, none) ∨
      ∃ h x, r.run fuel w.heap = .ok (h, some x) ∧ Enough t w r.bytes x := by
  obtain ⟨lay, hinv⟩ := inv_of_word_run hrun
  refine ⟨w.rounds lay, fun fuel hfuel => ?_⟩
  have hloop := mallocLoop_spec hinv fuel r.bytes r.type (hr.2 r rfl).al _ hinv.heap_region
  rw [Request.run, mallocLoopWord_eq hinv (hr.2 r rfl) fuel _ hinv.heap_region]
  cases hloop with
  | fuel s hs hle herr =>
    have := length_lt_rounds hs lay
    omega
  | memory herr =>
    rw [herr]
    exact .inl rfl
  | none hok =>
    rw [hok]
    exact .inr (.inl rfl)
  | some s hs m' bs' aligned hok hchain hcut hal hsame =>
    rw [hok]
    exact .inr (.inr ⟨_, aligned, rfl, enough_of_cut hinv hs hcut⟩)

/-- A request that is safe and served: 100 zeroed elements of 12 bytes. -/
def armRequest : Request arm := .calloc 100 12

theorem armWorld_calloc : ((armRequest.run 5 armWorld.heap).toOption.bind (·.2)) = some 0x20000018 ∧
      ∃ n, ∀ fuel, n < fuel → armRequest.run fuel armWorld.heap = .error .outOfMemory ∨
        armRequest.run fuel armWorld.heap = .ok (armWorld.heap, none) ∨
        ∃ h x, armRequest.run fuel armWorld.heap = .ok (h, some x) ∧
          Enough arm armWorld 1200 x := by
  refine ⟨by decide +kernel, ?_⟩
  refine never_too_little arm blank [addArm] armWorld armWorld_run (.calloc 100 12) ⟨.inl rfl, ?_⟩
  rintro r hr
  cases hr
  exact ⟨.inl rfl, by decide, by decide⟩

theorem Enough.le {bytes x : Nat} (h : Enough t w bytes x) :
    ∃ s ∈ w.regions, x + bytes ≤ s.sentinel := by
  obtain ⟨s, hs, bs, a, n, hchain, hmem, -, hle⟩ := h
  have hbounds := mem_cells_bounds hmem
  rw [← hchain.end_eq] at hbounds
  exact ⟨s, hs, Nat.le_trans hle hbounds.2⟩

/-- Rounding wraps to nothing, the end of the block counts as a negative number, a product wraps,
and the aligned address lies outside the heap. -/
def badRequests : List (Request arm) :=
  [.malloc 0xffffffff, .malloc 0x80000000, .calloc 0x80000001 2, .memalign 16 0x80000000]

theorem too_little_returned :
    (init blank).Allowed arm addArm.plain ∧ (init blank).stepWord 0 addArm = .ok armWorld ∧
      ∀ r ∈ badRequests, ∃ x, ((r.run 5 armWorld.heap).toOption.bind (·.2)) = some x ∧
        ¬Enough arm armWorld r.bytes x := by
  refine ⟨addArm_allowed, rfl, ?_⟩
  have hbad : ∀ r ∈ badRequests, ∃ x ∈ ((r.run 5 armWorld.heap).toOption.bind (·.2)),
      ∀ s ∈ armWorld.regions, s.sentinel < x + r.bytes := by
    decide +kernel
  intro r hr
  obtain ⟨x, hx, hout⟩ := hbad r hr
  refine ⟨x, hx, fun henough => ?_⟩
  obtain ⟨s, hs, hle⟩ := henough.le
  exact absurd hle (Nat.not_le.mpr (hout s hs))

end World

end Mios.Malloc
