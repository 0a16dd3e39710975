import Mathlib.Algebra.Order.Group.Nat
import Mios.Lib.Prog

/-! Partitions and subdivisions of block devices (`util/block.c`), for a `size_t` of any
width. An interface is its geometry, and each layer serves a call by calls on its parent. The
buffer of a subdivided erase is taken to be allocated. -/

namespace Mios.Block

open Lib BitVec

variable {w : Nat}

/-! ## Interfaces -/

def errNospc : Int := -22
def errInvalidLength : Int := -24

inductive CtrlOp where
  | lock
  | unlock
  | sync
  | suspend
  | shutdown
  deriving DecidableEq, Repr

/-- `block_iface_t` without its functions. -/
structure Geometry (w : Nat) where
  numBlocks : BitVec w
  blockSize : BitVec w
  deriving DecidableEq, Repr

/-- A call of one of the functions of an interface. -/
inductive Call (w : Nat) where
  | erase (block count : BitVec w)
  | write (block offset : BitVec w) (data : List (BitVec 8)) (length : BitVec w)
  | read (block offset length : BitVec w)
  | ctrl (op : CtrlOp)
  deriving DecidableEq, Repr

/-- The error code, and what was read. -/
structure Reply where
  err : Int
  data : List (BitVec 8)
  deriving DecidableEq, Repr

abbrev Calls (w : Nat) := Prog (Call w) Reply Reply

def fail (err : Int) : Calls w := .done ⟨err, []⟩

/-- The call on the parent, whose answer is returned. -/
def forward (c : Call w) : Calls w := .call c .done

/-! ## Partitions -/

/-- `partition_t` over a parent with blocks of `blockSize` bytes. -/
structure Partition (w : Nat) where
  numBlocks : BitVec w
  blockSize : BitVec w
  offset : BitVec w
  autolock : Bool
  deriving DecidableEq, Repr

namespace Partition

variable (p : Partition w)

def erase (block count : BitVec w) : Calls w :=
  if p.numBlocks < block + count then fail errNospc
  else forward (.erase (block + p.offset) count)

def write (block offset : BitVec w) (data : List (BitVec 8)) (length : BitVec w) : Calls w :=
  if p.numBlocks ≤ block then fail errNospc
  else if p.blockSize < offset + length then fail errInvalidLength
  else forward (.write (block + p.offset) offset data length)

def read (block offset length : BitVec w) : Calls w :=
  forward (.read (block + p.offset) offset length)

def ctrl (op : CtrlOp) : Calls w := forward (.ctrl op)

/-- What the `partition_lock` functions do around another one. -/
def locked (q : Calls w) : Calls w :=
  .call (.ctrl .lock) fun _ => q.bind fun r => .call (.ctrl .unlock) fun _ => .done r

/-- The functions `block_create_partition` chooses by its flag. -/
def guarded (q : Calls w) : Calls w := if p.autolock then locked q else q

def lockCtrl (op : CtrlOp) : Calls w :=
  if op = .lock ∨ op = .unlock then .done ⟨0, []⟩ else locked (ctrl op)

def serve : Call w → Calls w
  | .erase block count => p.guarded (p.erase block count)
  | .write block offset data length => p.guarded (p.write block offset data length)
  | .read block offset length => p.guarded (p.read block offset length)
  | .ctrl op => if p.autolock then lockCtrl op else ctrl op

end Partition

/-- `block_create_partition` -/
def blockCreatePartition (parent : Geometry w) (blockOffset numBlocks : BitVec w) (autolock : Bool) :
    Partition w :=
  ⟨numBlocks, parent.blockSize, blockOffset, autolock⟩

/-! ## Subdivisions -/

/-- `(1 << s->shift) - 1` -/
def mask (shift : Nat) : BitVec w := BitVec.ofNat w (2 ^ shift - 1)

/-- `subdivision_t`, with the block size of its parent. -/
structure Subdivision (w : Nat) where
  numBlocks : BitVec w
  blockSize : BitVec w
  parentBlockSize : BitVec w
  shift : Nat
  deriving DecidableEq, Repr

namespace Subdivision

variable (s : Subdivision w)

def subBlockOffset (block : BitVec w) : BitVec w := (mask s.shift &&& block) * s.blockSize

/-- The buffer with `chunk` blocks from `offset` on set to `0xff`. -/
def blank (buf : List (BitVec 8)) (offset chunk : BitVec w) : List (BitVec 8) :=
  let start := (offset * s.blockSize).toNat
  let len := (chunk * s.blockSize).toNat
  buf.take start ++ List.replicate len 0xff ++ buf.drop (start + len)

/-- The loop of `subdivision_erase`. Each round takes at least one block off the count, so as many
rounds as blocks are enough. -/
def eraseLoop : Nat → BitVec w → BitVec w → Calls w
  | 0, _, _ => .done ⟨0, []⟩
  | fuel + 1, block, count =>
      if count = 0 then .done ⟨0, []⟩
      else if block &&& mask s.shift = 0 ∧ mask s.shift < count then
        let chunk := count &&& ~~~mask s.shift
        .call (.erase (block >>> s.shift) (count >>> s.shift)) fun r =>
          if r.err ≠ 0 then .done r else eraseLoop fuel (block + chunk) (count - chunk)
      else
        .call (.read (block >>> s.shift) 0 s.parentBlockSize) fun r =>
          if r.err ≠ 0 then .done r
          else
            .call (.erase (block >>> s.shift) 1) fun r' =>
              let offset := block &&& mask s.shift
              let left := BitVec.ofNat w (2 ^ s.shift) - offset
              let chunk := if count < left then count else left
              if r'.err ≠ 0 then .done r'
              else
                .call (.write (block >>> s.shift) 0 (s.blank r.data offset chunk)
                    s.parentBlockSize) fun r'' =>
                  if r''.err ≠ 0 then .done r''
                  else eraseLoop fuel (block + chunk) (count - chunk)

def serve : Call w → Calls w
  | .erase block count => s.eraseLoop count.toNat block count
  | .write block offset data length =>
      forward (.write (block >>> s.shift) (offset + s.subBlockOffset block) data length)
  | .read block offset length =>
      forward (.read (block >>> s.shift) (offset + s.subBlockOffset block) length)
  | .ctrl op => forward (.ctrl op)

end Subdivision

/-- `block_create_subdivision` -/
def blockCreateSubdivision (parent : Geometry w) (shift : Nat) : Subdivision w :=
  ⟨parent.numBlocks <<< shift, parent.blockSize >>> shift, parent.blockSize, shift⟩

/-! ## Stacks -/

/-- A layer to be created on some parent. -/
inductive Layer (w : Nat) where
  | partition (blockOffset numBlocks : BitVec w) (autolock : Bool)
  | subdivision (shift : Nat)
  deriving DecidableEq, Repr

namespace Layer

/-- The interface of the layer over its parent. -/
def geometry (parent : Geometry w) : Layer w → Geometry w
  | partition blockOffset numBlocks autolock =>
      let p := blockCreatePartition parent blockOffset numBlocks autolock
      ⟨p.numBlocks, p.blockSize⟩
  | subdivision shift =>
      let s := blockCreateSubdivision parent shift
      ⟨s.numBlocks, s.blockSize⟩

/-- The calls of the layer on its parent. -/
def serve (parent : Geometry w) : Layer w → Call w → Calls w
  | partition blockOffset numBlocks autolock =>
      (blockCreatePartition parent blockOffset numBlocks autolock).serve
  | subdivision shift => (blockCreateSubdivision parent shift).serve

/-- A partition lies in its parent. -/
def Within (parent : Geometry w) : Layer w → Prop
  | partition blockOffset numBlocks _ =>
      blockOffset.toNat + numBlocks.toNat ≤ parent.numBlocks.toNat
  | subdivision _ => True

end Layer

namespace Stack

/-- The interface of a stack of layers over a device, the top one first. -/
def geometry (base : Geometry w) : List (Layer w) → Geometry w
  | [] => base
  | l :: below => l.geometry (geometry base below)

def Within (base : Geometry w) : List (Layer w) → Prop
  | [] => True
  | l :: below => l.Within (geometry base below) ∧ Within base below

/-- The calls a stack makes on its device. -/
def serve (base : Geometry w) : List (Layer w) → Call w → Calls w
  | [], c => forward c
  | l :: below, c => (l.serve (geometry base below) c).through (serve base below)

end Stack

/-! ## Places -/

namespace Call

/-- The first byte and the number of bytes a call is about, in an interface with blocks of
`size` bytes. -/
def bytes (size : Nat) : Call w → Nat × Nat
  | erase block count => (block.toNat * size, count.toNat * size)
  | write block offset _ length => (block.toNat * size + offset.toNat, length.toNat)
  | read block offset length => (block.toNat * size + offset.toNat, length.toNat)
  | ctrl _ => (0, 0)

/-- The call on the parent, `offset` blocks further on. -/
def moved (offset : BitVec w) : Call w → Call w
  | erase block count => erase (block + offset) count
  | write block off data length => write (block + offset) off data length
  | read block off length => read (block + offset) off length
  | ctrl op => ctrl op

def isCtrl : Call w → Bool
  | ctrl _ => true
  | _ => false

/-- The blocks, and the bytes in a block, are there. -/
def InRange (g : Geometry w) : Call w → Prop
  | erase block count => block.toNat + count.toNat ≤ g.numBlocks.toNat
  | write block offset _ length =>
      block.toNat < g.numBlocks.toNat ∧ offset.toNat + length.toNat ≤ g.blockSize.toNat
  | read block offset length =>
      block.toNat < g.numBlocks.toNat ∧ offset.toNat + length.toNat ≤ g.blockSize.toNat
  | ctrl _ => True

instance (g : Geometry w) (c : Call w) : Decidable (c.InRange g) :=
  match c with
  | erase _ _ => inferInstanceAs (Decidable (_ ≤ _))
  | write .. | read .. => inferInstanceAs (Decidable (_ ∧ _))
  | ctrl _ => inferInstanceAs (Decidable True)

def Touches (y : Nat) : Call w → Prop
  | erase block count => block.toNat ≤ y ∧ y < block.toNat + count.toNat
  | write block _ _ _ | read block _ _ => y = block.toNat
  | ctrl _ => False

/-- A call on a parent is where the call it is made for belongs, if `f` gives the place of a block
and an offset in it: the same bytes are written or read, and for an erase no block is touched
but those of the blocks to erase. Control calls access nothing. -/
def At (f : Nat × Nat → Nat × Nat) : Call w → Call w → Prop
  | erase block count, d => ∀ y, d.Touches y →
      ∃ x, block.toNat ≤ x ∧ x < block.toNat + count.toNat ∧ (f (x, 0)).1 = y
  | write block offset data length, d => d.isCtrl = true ∨
      ∃ b o, d = write b o data length ∧ (b.toNat, o.toNat) = f (block.toNat, offset.toNat)
  | read block offset length, d => d.isCtrl = true ∨
      ∃ b o, d = read b o length ∧ (b.toNat, o.toNat) = f (block.toNat, offset.toNat)
  | ctrl _, d => d.isCtrl = true

end Call

/-- Where a block and an offset in it are in the parent. -/
def Layer.place (parent : Geometry w) : Layer w → Nat × Nat → Nat × Nat
  | partition blockOffset _ _, (block, offset) => (blockOffset.toNat + block, offset)
  | subdivision shift, (block, offset) =>
      (block / 2 ^ shift, block % 2 ^ shift * (parent.blockSize.toNat / 2 ^ shift) + offset)

/-- Where they are in the device below a stack. -/
def Stack.place (base : Geometry w) : List (Layer w) → Nat × Nat → Nat × Nat
  | [], x => x
  | l :: below, x => place base below (l.place (geometry base below) x)

/-- A call on the parent accesses no bytes but those of the partition's own blocks. -/
def Partition.Holds (p : Partition w) (d : Call w) : Prop :=
  d.isCtrl = true ∨
    p.offset.toNat * p.blockSize.toNat ≤ (d.bytes p.blockSize.toNat).1 ∧
      (d.bytes p.blockSize.toNat).1 + (d.bytes p.blockSize.toNat).2 ≤
        (p.offset.toNat + p.numBlocks.toNat) * p.blockSize.toNat

/-- The checks of a partition refuse the call. -/
def Partition.Refuses (p : Partition w) : Call w → Prop
  | .erase block count => p.numBlocks < block + count
  | .write block offset _ length => p.numBlocks ≤ block ∨ p.blockSize < offset + length
  | .read .. | .ctrl _ => False

/-- The bytes are there, if block and offset are counted from the start of the partition. -/
def Partition.Has (p : Partition w) (block offset length : BitVec w) : Prop :=
  block.toNat * p.blockSize.toNat + offset.toNat + length.toNat ≤
    p.numBlocks.toNat * p.blockSize.toNat

/-- What the code does not check of a call on a partition: that the sum it looks at did not wrap,
and whether there is what is read. -/
def Partition.Takes (p : Partition w) : Call w → Prop
  | .erase block count => p.Refuses (.erase block count) ∨ block.toNat + count.toNat < 2 ^ w
  | .write block offset data length => p.Refuses (.write block offset data length) ∨
      offset.toNat + length.toNat < 2 ^ w ∨ p.Has block offset length
  | .read block offset length => p.Has block offset length
  | .ctrl _ => True

namespace Stack

/-- A partition refuses the call before any byte is accessed. -/
def Refuses (base : Geometry w) : List (Layer w) → Call w → Prop
  | [], _ => False
  | .partition blockOffset numBlocks autolock :: below, c =>
      (blockCreatePartition (geometry base below) blockOffset numBlocks autolock).Refuses c
  | .subdivision shift :: below, .write block offset data length =>
      Refuses base below (.write (block >>> shift)
        (offset + (blockCreateSubdivision (geometry base below) shift).subBlockOffset block) data
        length)
  | .subdivision shift :: below, .erase block count =>
      block &&& mask shift = 0 ∧ mask shift < count ∧
        Refuses base below (.erase (block >>> shift) (count >>> shift))
  | .subdivision _ :: _, _ => False

/-- What the layers do not check of a call on the top of a stack. A subdivision checks nothing
itself, and the parent sees the block that its own block is in. -/
def Takes (base : Geometry w) : List (Layer w) → Call w → Prop
  | [], c => c.InRange base
  | .partition blockOffset numBlocks autolock :: below, c =>
      Refuses base (.partition blockOffset numBlocks autolock :: below) c ∨
        c.InRange ⟨numBlocks, (geometry base below).blockSize⟩
  | .subdivision shift :: below, .erase block count =>
      Refuses base (.subdivision shift :: below) (.erase block count) ∨ count = 0 ∨
        block.toNat + count.toNat ≤ (geometry base below).numBlocks.toNat * 2 ^ shift ∧
          block.toNat + count.toNat < 2 ^ w
  | .subdivision shift :: below, .write block offset data length =>
      let sub := (blockCreateSubdivision (geometry base below) shift).subBlockOffset block
      Refuses base (.subdivision shift :: below) (.write block offset data length) ∨
        offset.toNat + sub.toNat < 2 ^ w ∧
          Takes base below (.write (block >>> shift) (offset + sub) data length)
  | .subdivision shift :: below, .read block offset length =>
      let sub := (blockCreateSubdivision (geometry base below) shift).subBlockOffset block
      offset.toNat + sub.toNat < 2 ^ w ∧
        Takes base below (.read (block >>> shift) (offset + sub) length)
  | .subdivision _ :: _, .ctrl _ => True

end Stack

/-! ## Calls at their place -/

section At

variable {c d e : Call w} {f g : Nat × Nat → Nat × Nat}

theorem Call.at_ctrl (c : Call w) (f : Nat × Nat → Nat × Nat) (h : d.isCtrl = true) :
    c.At f d := by
  cases c with
  | erase block count =>
    intro y hy
    cases d with
    | ctrl op => exact hy.elim
    | _ => cases h
  | write block offset data length | read block offset length => exact .inl h
  | ctrl op => exact h

/-- Places compose, if the block alone decides on the block in the parent. -/
theorem Call.At.trans (hg : ∀ x o, (g (x, o)).1 = (g (x, 0)).1) (h : c.At f d) (h' : d.At g e) :
    c.At (fun x => g (f x)) e := by
  cases c with
  | erase block count =>
    intro y hy
    -- the block of `d` that `y` belongs to
    obtain ⟨z, hz, hzy⟩ : ∃ z, d.Touches z ∧ (g (z, 0)).1 = y := by
      cases d with
      | erase b n =>
        obtain ⟨z, hlo, hhi, hzy⟩ := h' y hy
        exact ⟨z, ⟨hlo, hhi⟩, hzy⟩
      | write b o data n | read b o n =>
        rcases h' with hctrl | ⟨b', o', rfl, heq⟩
        · cases e with
          | ctrl op => exact hy.elim
          | _ => cases hctrl
        · exact ⟨_, rfl, by rw [← hg _ o.toNat, ← heq]; exact hy.symm⟩
      | ctrl op =>
        cases e with
        | ctrl op => exact hy.elim
        | _ => cases h'
    obtain ⟨x, hlo, hhi, hx⟩ := h z hz
    refine ⟨x, hlo, hhi, ?_⟩
    rw [← hzy, ← hx]
    exact hg (f (x, 0)).1 (f (x, 0)).2
  | write block offset data length | read block offset length =>
    rcases h with hctrl | ⟨b, o, rfl, heq⟩
    · cases d with
      | ctrl op => exact .inl h'
      | _ => cases hctrl
    · rcases h' with hctrl | ⟨b', o', rfl, heq'⟩
      · exact .inl hctrl
      · exact .inr ⟨b', o', rfl, by rw [heq', heq]⟩
  | ctrl op =>
    cases d with
    | ctrl op => exact h'
    | _ => cases h

end At

/-! ## Partitions -/

section Partition

variable {p : Partition w} {parent : Geometry w} {c : Call w} {Q : Call w → Prop}

/-- What `block_create_partition` gets: blocks of the parent. -/
structure Partition.On (p : Partition w) (parent : Geometry w) : Prop where
  within : p.offset.toNat + p.numBlocks.toNat ≤ parent.numBlocks.toNat
  size : p.blockSize = parent.blockSize

theorem Partition.On.toNat_block (h : p.On parent) {block : BitVec w}
    (hb : block.toNat ≤ p.numBlocks.toNat) :
    (block + p.offset).toNat = p.offset.toNat + block.toNat := by
  have hin := h.within
  rw [toNat_add_of_lt (by omega)]
  omega

theorem Partition.serve_refused (p : Partition w) (h : p.Refuses c) :
    ∃ err, err ≠ 0 ∧ p.serve c = p.guarded (fail err) := by
  cases c with
  | erase block count =>
    have hlt : p.numBlocks < block + count := h
    refine ⟨errNospc, by decide, ?_⟩
    rw [Partition.serve, Partition.erase, if_pos hlt]
  | write block offset data length =>
    by_cases hblock : p.numBlocks ≤ block
    · refine ⟨errNospc, by decide, ?_⟩
      rw [Partition.serve, Partition.write, if_pos hblock]
    · refine ⟨errInvalidLength, by decide, ?_⟩
      rw [Partition.serve, Partition.write, if_neg hblock, if_pos (h.resolve_left hblock)]
  | read block offset length => cases h
  | ctrl op => cases h

theorem Partition.serve_passed (p : Partition w) (hctrl : c.isCtrl = false) (h : ¬p.Refuses c) :
    p.serve c = p.guarded (forward (c.moved p.offset)) := by
  cases c with
  | erase block count =>
    have hle : ¬p.numBlocks < block + count := h
    rw [Partition.serve, Partition.erase, if_neg hle]
    rfl
  | write block offset data length =>
    rw [Partition.serve, Partition.write, if_neg fun hb => h (.inl hb), if_neg fun hl => h (.inr hl)]
    rfl
  | read block offset length => rfl
  | ctrl op => cases hctrl

/-- The locks around a program are control calls. -/
theorem Partition.guarded_only (p : Partition w) (hQ : ∀ op, Q (.ctrl op))
    {q : Calls w} : (p.guarded q).Only Q ↔ q.Only Q := by
  unfold Partition.guarded Partition.locked
  split
  · exact ⟨fun h => Prog.Only.of_bind (h.2 ⟨0, []⟩), fun h => ⟨hQ _, fun _ => Prog.Only.bind h fun _ =>
      ⟨hQ _, fun _ => trivial⟩⟩⟩
  · exact Iff.rfl

theorem only_forward {d : Call w} : (forward d).Only Q ↔ Q d :=
  ⟨fun h => h.1, fun h => ⟨h, fun _ => trivial⟩⟩

theorem Partition.ctrl_only (p : Partition w) (hQ : ∀ op, Q (.ctrl op))
    (op : CtrlOp) : (p.serve (.ctrl op)).Only Q := by
  simp only [Partition.serve, Partition.lockCtrl, Partition.locked, Partition.ctrl, forward]
  split
  · split
    · trivial
    · exact ⟨hQ _, fun _ => ⟨hQ _, fun _ => ⟨hQ _, fun _ => trivial⟩⟩⟩
  · exact ⟨hQ _, fun _ => trivial⟩

/-- Whatever a partition does: it refuses, or makes the call on its parent. -/
theorem Partition.serve_only (p : Partition w) (hQ : ∀ op, Q (.ctrl op))
    (hctrl : c.isCtrl = false) :
    (p.serve c).Only Q ↔ p.Refuses c ∨ Q (c.moved p.offset) := by
  by_cases hr : p.Refuses c
  · obtain ⟨err, -, hserve⟩ := p.serve_refused hr
    rw [hserve, p.guarded_only hQ]
    exact ⟨fun _ => .inl hr, fun _ => trivial⟩
  · rw [p.serve_passed hctrl hr, p.guarded_only hQ, only_forward]
    exact ⟨.inr, fun h => h.resolve_left hr⟩

/-- A call in range becomes one in the parent's range, at the place of the argument. -/
theorem Partition.On.moved (h : p.On parent) (hc : c.InRange ⟨p.numBlocks, p.blockSize⟩) :
    (c.moved p.offset).InRange parent ∧
      c.At (fun x => (p.offset.toNat + x.1, x.2)) (c.moved p.offset) := by
  have hin := h.within
  cases c with
  | erase block count =>
    have hle : block.toNat + count.toNat ≤ p.numBlocks.toNat := hc
    have hblock := h.toNat_block (show block.toNat ≤ p.numBlocks.toNat by omega)
    refine ⟨?_, fun y hy => ?_⟩
    · simp only [Call.moved, Call.InRange, hblock]
      omega
    · simp only [Call.moved, Call.Touches, hblock] at hy
      exact ⟨y - p.offset.toNat, by omega, by omega, by simp only; omega⟩
  | write block offset data length | read block offset length =>
    obtain ⟨hb, hl⟩ := hc
    simp only at hb hl
    have hblock := h.toNat_block (Nat.le_of_lt hb)
    refine ⟨?_, .inr ⟨_, _, rfl, by rw [hblock]⟩⟩
    simp only [Call.moved, Call.InRange, hblock, ← h.size]
    omega
  | ctrl op => exact ⟨trivial, rfl⟩

theorem Partition.On.only (h : p.On parent) (hc : c.InRange ⟨p.numBlocks, p.blockSize⟩) :
    (p.serve c).Only fun d =>
      d.InRange parent ∧ c.At (fun x => (p.offset.toNat + x.1, x.2)) d := by
  have hQ : ∀ op, (Call.ctrl op).InRange parent ∧
      c.At (fun x => (p.offset.toNat + x.1, x.2)) (.ctrl op) := fun op => ⟨trivial, Call.at_ctrl c _ rfl⟩
  cases hctrl : c.isCtrl with
  | false => exact (p.serve_only hQ hctrl).mpr (.inr (h.moved hc))
  | true =>
    cases c with
    | ctrl op => exact p.ctrl_only hQ op
    | _ => cases hctrl

end Partition

/-! ## Subdivisions -/

section Subdivision

variable {shift : Nat}

theorem shift_toNat (block : BitVec w) (shift : Nat) :
    (block >>> shift).toNat = block.toNat / 2 ^ shift := by
  rw [toNat_ushiftRight, Nat.shiftRight_eq_div_pow]

theorem toNat_mask_and (shift : Nat) (block : BitVec w) :
    (mask shift &&& block).toNat = block.toNat % 2 ^ shift := by
  have hlt : block.toNat % 2 ^ shift < 2 ^ w := Nat.lt_of_le_of_lt (Nat.mod_le _ _) block.isLt
  calc (mask shift &&& block).toNat
      = (2 ^ shift - 1) % 2 ^ w &&& block.toNat % 2 ^ w := by
        rw [toNat_and, mask, toNat_ofNat, Nat.mod_eq_of_lt block.isLt]
    _ = (block.toNat &&& (2 ^ shift - 1)) % 2 ^ w := by rw [← Nat.and_mod_two_pow, Nat.and_comm]
    _ = block.toNat % 2 ^ shift := by
        rw [Nat.and_two_pow_sub_one_eq_mod, Nat.mod_eq_of_lt hlt]

/-- The blocks of one parent block fit into it. -/
theorem subBlock_le (parent : Geometry w) (shift : Nat) (block : BitVec w) :
    block.toNat % 2 ^ shift * (parent.blockSize.toNat / 2 ^ shift) +
      parent.blockSize.toNat / 2 ^ shift ≤ parent.blockSize.toNat := by
  have hlt : block.toNat % 2 ^ shift < 2 ^ shift := Nat.mod_lt _ (Nat.two_pow_pos shift)
  calc block.toNat % 2 ^ shift * (parent.blockSize.toNat / 2 ^ shift) +
        parent.blockSize.toNat / 2 ^ shift
      = (block.toNat % 2 ^ shift + 1) * (parent.blockSize.toNat / 2 ^ shift) := by
        rw [Nat.succ_mul]
    _ ≤ 2 ^ shift * (parent.blockSize.toNat / 2 ^ shift) := Nat.mul_le_mul_right _ hlt
    _ ≤ parent.blockSize.toNat := Nat.mul_div_le _ _

theorem toNat_subBlockOffset (parent : Geometry w) (shift : Nat) (block : BitVec w) :
    ((blockCreateSubdivision parent shift).subBlockOffset block).toNat =
      block.toNat % 2 ^ shift * (parent.blockSize.toNat / 2 ^ shift) := by
  have hle := subBlock_le parent shift block
  have hlt := parent.blockSize.isLt
  simp only [Subdivision.subBlockOffset, blockCreateSubdivision]
  rw [toNat_mul, toNat_mask_and, shift_toNat,
    Nat.mod_eq_of_lt (Nat.lt_of_le_of_lt (Nat.le_trans (Nat.le_add_right _ _) hle) hlt)]

theorem shift_lt {n : Nat} {block : BitVec w} (h : block.toNat < n * 2 ^ shift) :
    (block >>> shift).toNat < n := by
  rw [shift_toNat]
  exact Nat.div_lt_of_lt_mul (Nat.mul_comm n _ ▸ h)

/-- The loop by induction over its rounds: what is left to erase stays in range, and the parent's
blocks are those of the blocks to erase. -/
theorem eraseLoop_only (parent : Geometry w) (shift fuel : Nat) (block count : BitVec w)
    (h : block.toNat + count.toNat ≤ parent.numBlocks.toNat * 2 ^ shift)
    (hw : block.toNat + count.toNat < 2 ^ w) :
    ((blockCreateSubdivision parent shift).eraseLoop fuel block count).Only fun d =>
      d.InRange parent ∧
        (Call.erase block count).At ((Layer.subdivision shift).place parent) d := by
  induction fuel generalizing block count with
  | zero => trivial
  | succ fuel ih =>
    -- a round takes a chunk that is no larger than the count
    have hnext : ∀ chunk : BitVec w, chunk.toNat ≤ count.toNat →
        ((blockCreateSubdivision parent shift).eraseLoop fuel (block + chunk)
          (count - chunk)).Only fun d => d.InRange parent ∧
            (Call.erase block count).At ((Layer.subdivision shift).place parent) d := by
      intro chunk hle
      have hadd : (block + chunk).toNat = block.toNat + chunk.toNat := toNat_add_of_lt (by omega)
      have hsub : (count - chunk).toNat = count.toNat - chunk.toNat := toNat_sub_of_le hle
      refine (ih _ _ (by omega) (by omega)).mono fun d hd => ⟨hd.1, fun y hy => ?_⟩
      obtain ⟨x, hlo, hhi, hx⟩ := hd.2 y hy
      exact ⟨x, by omega, by omega, hx⟩
    unfold Subdivision.eraseLoop
    refine Prog.only_ite (fun _ => trivial) fun hcount => ?_
    have hpos := toNat_pos_of_ne_zero hcount
    refine Prog.only_ite (fun hwhole => ?_) fun _ => ?_
    · have hdvd : block.toNat % 2 ^ shift = 0 := by
        rw [← toNat_mask_and, BitVec.and_comm]
        exact congrArg BitVec.toNat hwhole.1
      refine ⟨⟨?_, fun y hy => ?_⟩, fun r => Prog.only_ite (fun _ => trivial) fun _ => hnext _ ?_⟩
      · simp only [Call.InRange, blockCreateSubdivision, shift_toNat]
        calc block.toNat / 2 ^ shift + count.toNat / 2 ^ shift
            ≤ (block.toNat + count.toNat) / 2 ^ shift := Nat.div_add_div_le_add_div
          _ ≤ parent.numBlocks.toNat :=
              Nat.div_le_of_le_mul (Nat.mul_comm parent.numBlocks.toNat _ ▸ h)
      · obtain ⟨hlo, hhi⟩ := hy
        simp only [blockCreateSubdivision, shift_toNat] at hlo hhi
        have hfirst := Nat.div_mul_cancel (Nat.dvd_of_mod_eq_zero hdvd)
        have hlast := Nat.div_mul_le_self count.toNat (2 ^ shift)
        have hlo' := Nat.mul_le_mul_right (2 ^ shift) hlo
        have hhi' := Nat.mul_le_mul_right (2 ^ shift) hhi
        rw [Nat.succ_mul, Nat.add_mul] at hhi'
        have hp := Nat.two_pow_pos shift
        exact ⟨y * 2 ^ shift, by omega, by omega, Nat.mul_div_cancel y hp⟩
      · rw [toNat_and]
        exact Nat.and_le_left
    · have hblock : (block >>> shift).toNat < parent.numBlocks.toNat := shift_lt (by omega)
      have hwhole : (0 : BitVec w).toNat + parent.blockSize.toNat ≤ parent.blockSize.toNat := by simp
      have hone : (1 : BitVec w).toNat ≤ 1 := by simpa using Nat.mod_le 1 (2 ^ w)
      -- the block that is read, erased and written is the one `block` is in
      have hfirst : ∀ y, y = (block >>> shift).toNat → ∃ x, block.toNat ≤ x ∧
          x < block.toNat + count.toNat ∧
          ((Layer.subdivision shift).place parent (x, 0)).1 = y := by
        rintro y rfl
        exact ⟨block.toNat, Nat.le_refl _, by omega, (shift_toNat block shift).symm⟩
      refine ⟨⟨⟨hblock, hwhole⟩, hfirst⟩, fun r => Prog.only_ite (fun _ => trivial) fun _ => ?_⟩
      refine ⟨⟨Nat.le_trans (Nat.add_le_add_left hone _) hblock, fun y hy => ?_⟩,
        fun r' => Prog.only_ite (fun _ => trivial) fun _ => ?_⟩
      · exact hfirst y (Nat.le_antisymm (Nat.le_of_lt_succ (Nat.lt_of_lt_of_le hy.2
          (Nat.add_le_add_left hone _))) hy.1)
      refine ⟨⟨⟨hblock, hwhole⟩, hfirst⟩,
        fun r'' => Prog.only_ite (fun _ => trivial) fun _ => hnext _ ?_⟩
      split
      · exact Nat.le_refl _
      · rename_i hlt
        exact Nat.not_lt.mp (lt_def.not.mp hlt)

end Subdivision

/-! ## Stacks -/

section Stack

variable {base parent : Geometry w} {layers below : List (Layer w)} {c d : Call w} {shift : Nat}

theorem Layer.only {l : Layer w} (hl : l.Within parent) (hc : c.InRange (l.geometry parent)) :
    (l.serve parent c).Only fun d => d.InRange parent ∧ c.At (l.place parent) d := by
  cases l with
  | partition blockOffset numBlocks autolock =>
    have hon : (blockCreatePartition parent blockOffset numBlocks autolock).On parent := ⟨hl, rfl⟩
    exact hon.only hc
  | subdivision shift =>
    have hnum : (parent.numBlocks <<< shift).toNat ≤ parent.numBlocks.toNat * 2 ^ shift := by
      rw [toNat_shiftLeft, Nat.shiftLeft_eq]
      exact Nat.mod_le _ _
    cases c with
    | erase block count =>
      have hle : block.toNat + count.toNat ≤ (parent.numBlocks <<< shift).toNat := hc
      exact eraseLoop_only parent shift _ block count (by omega) (by omega)
    | write block offset data length | read block offset length =>
      have hb : block.toNat < (parent.numBlocks <<< shift).toNat := hc.1
      have hl : offset.toNat + length.toNat ≤ (parent.blockSize >>> shift).toNat := hc.2
      have hle := subBlock_le parent shift block
      have hlt := parent.blockSize.isLt
      rw [shift_toNat] at hl
      have hsum : (offset + (blockCreateSubdivision parent shift).subBlockOffset block).toNat =
          block.toNat % 2 ^ shift * (parent.blockSize.toNat / 2 ^ shift) + offset.toNat := by
        rw [toNat_add_of_lt (by rw [toNat_subBlockOffset]; omega), toNat_subBlockOffset,
          Nat.add_comm]
      have hblock : (block >>> shift).toNat < parent.numBlocks.toNat := shift_lt (by omega)
      refine only_forward.mpr ⟨⟨hblock, ?_⟩, .inr ⟨_, _, rfl, ?_⟩⟩
      · rw [hsum]
        omega
      · rw [hsum]
        exact congrArg (·, _) (shift_toNat block shift)
    | ctrl op => exact only_forward.mpr ⟨trivial, rfl⟩

theorem Stack.ctrl_only (base : Geometry w) (layers : List (Layer w)) (op : CtrlOp) :
    (Stack.serve base layers (.ctrl op)).Only fun d => d.isCtrl = true := by
  induction layers generalizing op with
  | nil => exact only_forward.mpr rfl
  | cons l below ih =>
    have hl : (l.serve (Stack.geometry base below) (.ctrl op)).Only fun d => d.isCtrl = true := by
      cases l with
      | partition blockOffset numBlocks autolock => exact Partition.ctrl_only _ (fun _ => rfl) op
      | subdivision shift => exact only_forward.mpr rfl
    refine hl.through fun d hd => ?_
    cases d with
    | ctrl op' => exact ih op'
    | _ => cases hd

end Stack

/-! ## Confinement -/

section Confined

variable {parent : Geometry w} {p : Partition w} (hp : p.On parent)
  (hsize : 0 < parent.blockSize.toNat)

include hp hsize

end Confined

end Mios.Block
